import TieredFootage.Archive.Handling
import TieredFootage.Proofs.Evaluation.Changes
import TieredFootage.Proofs.Eviction.Reach

/-!
# What evaluating keeps of the keepers

Evicting counts files, and nothing else is written down about a keeper while a tier is
evaluated or drained. So whatever can be read off keepers without a look at what they
counted stays, and so does the time. `Keeping g` says that of one such reading `g`.
-/

namespace TieredFootage

namespace Archive

variable {β : Type} {g : Keeper → β} {a b c : Archive} {x : Address}

/-- The time is the same, keepers find each other as before, and `g` of each is the same. -/
structure Keeping (g : Keeper → β) (a b : Archive) : Prop where
  now_eq : b.now = a.now
  linked_eq : b.linked = a.linked
  keepers_eq : b.keepers.map g = a.keepers.map g

namespace Keeping

theorem refl (a : Archive) : Keeping g a a := ⟨rfl, rfl, rfl⟩

theorem trans (h : Keeping g a b) (h' : Keeping g b c) : Keeping g a c :=
  ⟨h'.now_eq.trans h.now_eq, h'.linked_eq.trans h.linked_eq, h'.keepers_eq.trans h.keepers_eq⟩

theorem foldl {α : Type} {f : Archive → α → Archive} (hf : ∀ a y, Keeping g a (f a y))
    (ys : List α) (a : Archive) : Keeping g a (ys.foldl f a) := by
  induction ys generalizing a with
  | nil => exact refl a
  | cons y ys ih => exact (hf a y).trans (ih (f a y))

theorem map {f : Keeper → Keeper} (hnow : b.now = a.now) (hlinked : b.linked = a.linked)
    (hkeepers : b.keepers = a.keepers.map f) (hf : ∀ k, g (f k) = g k) : Keeping g a b := by
  refine ⟨hnow, hlinked, ?_⟩
  rw [hkeepers, List.map_map]
  exact List.map_congr_left fun k _ => hf k

theorem update (a : Archive) (y : Address) {f : Keeper → Keeper} (hf : ∀ k, g (f k) = g k) :
    Keeping g a (a.update y f) := by
  refine map (f := fun k => if k.address = y then f k else k) rfl rfl rfl fun k => ?_
  split
  · exact hf k
  · rfl

/-- What is kept of all keepers is kept of the one at an address, if it tells the address. -/
theorem map_get? (h : Keeping g a b) {f : β → Address} (hg : ∀ k, f (g k) = k.address)
    (x : Address) : (b.keepers.get? x).map g = (a.keepers.get? x).map g := by
  have hfind : ∀ c : Archive,
      (c.keepers.get? x).map g = (c.keepers.map g).find? fun y => f y == x := by
    intro c
    rw [List.find?_map, Keepers.get?]
    simp only [Function.comp_def, hg]
  rw [hfind, hfind, h.keepers_eq]

end Keeping

section Evaluation

variable (hg : ∀ k e, g (Keeper.record k e) = g k)

include hg

theorem keeping_evictFrom (a : Archive) (t : Tier) (p fileRoot : Path) :
    Keeping g a (a.evictFrom t p fileRoot).2 := by
  have hcounted := Keeping.update (g := g)
    { a with toHoldings := (a.toHoldings.evict p fileRoot t.root t.next).2 } t.address
    (f := (·.record (a.toHoldings.evict p fileRoot t.root t.next).1)) fun k => hg k _
  exact ⟨a.toHoldings.now_evict p fileRoot t.root t.next, rfl, hcounted.keepers_eq⟩

theorem keeping_evictAll (a : Archive) (t : Tier) (files : List (Path × Path)) :
    Keeping g a (a.evictAll t files).2 := by
  induction files generalizing a with
  | nil => exact Keeping.refl a
  | cons f files ih =>
    obtain ⟨p, fileRoot⟩ := f
    exact (keeping_evictFrom hg a t p fileRoot).trans (ih (a.evictFrom t p fileRoot).2)

omit hg in
theorem keeping_repointClip (a : Archive) (camera : String) (p : Path) :
    Keeping g a (a.repointClip camera p) := by
  unfold repointClip
  split <;> exact ⟨rfl, rfl, rfl⟩

theorem keeping_follow {pointer : Recording → Option Path} {i : Int}
    {repoint : Path → Archive → Archive} (hrepoint : ∀ q b, Keeping g b (repoint q b))
    (a : Archive) (u : Tier) : Keeping g a (a.follow u pointer i repoint) := by
  refine follow_cases (P := Keeping g a) ?_ ?_ ?_
  · exact fun _ => Keeping.refl a
  · exact fun x p _ _ _ => keeping_evictFrom hg a u p u.root
  · exact fun x p q _ _ _ => (keeping_evictFrom hg a u p u.root).trans (hrepoint q _)

theorem keeping_moveThumbnail (a : Archive) (t : Tier) (i : Int) :
    Keeping g a (a.moveThumbnail t i) := by
  rw [moveThumbnail_eq_follow]
  refine keeping_follow hg ?_ a t
  exact fun _ _ => ⟨rfl, rfl, rfl⟩

theorem keeping_moveClip (a : Archive) (t : Tier) (i : Int) : Keeping g a (a.moveClip t i) := by
  rw [moveClip_eq_follow]
  exact keeping_follow hg (fun q b => keeping_repointClip b t.camera q) a t

theorem keeping_moveThumbnails (a : Archive) (t : Tier) (ids : List Int) :
    Keeping g a (a.moveThumbnails t ids) := by
  unfold moveThumbnails
  split
  · exact Keeping.refl a
  · exact Keeping.foldl (fun b i => keeping_moveThumbnail hg b _ i) ids a

theorem keeping_moveSiblings (a : Archive) (t : Tier) (ids : List Int) :
    Keeping g a (a.moveSiblings t ids) := by
  refine (keeping_moveThumbnails hg a t ids).trans ?_
  unfold moveSiblings moveClips
  split
  · exact Keeping.refl _
  · exact Keeping.foldl (fun b i => keeping_moveClip hg b _ i) ids _

theorem keeping_evictSelection (a : Archive) (t : Tier) (s : SegmentSelection) :
    Keeping g a (a.evictSelection t s).2 := by
  have hevicted := keeping_evictAll hg a t s.files
  have hmoved := hevicted.trans (keeping_moveSiblings hg (a.evictAll t s.files).2 t
    (followers s.events (a.evictAll t s.files).1))
  rw [snd_evictSelection]
  exact followUp_cases (fun _ => hevicted) hmoved (hmoved.trans ⟨rfl, rfl, rfl⟩)

theorem keeping_evaluate (a : Archive) (t : Tier) : Keeping g a (a.evaluate t).2 := by
  unfold evaluate
  split
  · unfold evaluatePlain
    split
    · split
      · exact Keeping.refl a
      · exact keeping_evictAll hg a t _
    · exact Keeping.refl a
  · unfold evaluateSegments
    split
    · exact Keeping.refl a
    · exact keeping_evictSelection hg a t _
  · exact Keeping.refl a
  · exact Keeping.refl a

theorem keeping_drain (a : Archive) (t : Tier) : Keeping g a (a.drain t).2 := by
  unfold drain
  split
  · exact Keeping.refl a
  · exact keeping_evictAll hg a t _

end Evaluation

section Handling

theorem keeping_announce (a : Archive) (t : Tier) (p : Path) :
    Keeping g a (a.announce t p) := by
  unfold announce
  split
  · unfold repointThumbnail
    split <;> exact ⟨rfl, rfl, rfl⟩
  · split
    · exact Keeping.refl a
    · exact keeping_repointClip a t.camera p
  · exact Keeping.refl a
  · exact Keeping.refl a

theorem keeping_refreshSizes (ps : List Path) (a : Archive) :
    Keeping g a (a.refreshSizes ps).2 := by
  induction ps generalizing a with
  | nil => exact Keeping.refl a
  | cons p ps ih =>
    refine Keeping.trans ?_ (ih (a.refreshSize p).2)
    unfold refreshSize
    split
    · exact Keeping.refl a
    · split <;> exact ⟨rfl, rfl, rfl⟩

end Handling

end Archive

end TieredFootage
