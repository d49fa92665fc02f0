import TieredFootage.Proofs.Chain.Below
import TieredFootage.Proofs.Evaluation.Changes
import TieredFootage.Proofs.Evaluation.Orphans
import TieredFootage.Proofs.Eviction.Passing

/-!
# What follows, one after the other

Thumbnails follow their segments one after the other, and so do clips. Each of them
goes from one root to the next, and then recordings are pointed elsewhere. While
others follow, a file that goes by other names waits in its place or stays where it
has arrived (`PassedBy`).

A list of recordings is gone through once. The recording whose turn it is finds its
pointer as it was at the start if none of those before it points it elsewhere, and
keeps the new one if none of those after it does (`followAll_of_awaits`).
-/

namespace TieredFootage

open Disk

/-- Two normal roots, neither of which lies in the other one. -/
structure Path.AreRoots (root next : Path) : Prop where
  isNormal_root : root.IsNormal
  isNormal_next : next.IsNormal
  apart : AreApart (Path.pieces root.tail) (Path.pieces next.tail)

namespace Catalog

variable {c : Catalog}

theorem recordingAt?_of_getRecording {i : Int} {x : Recording}
    (h : c.getRecording i = .ok (some x)) : c.recordingAt? i = some x := by
  unfold getRecording at h
  split at h
  · exact Except.ok.inj h
  · cases h

theorem getRecording_of_answers (h : ∀ q, c.answers q = true) (i : Int) :
    c.getRecording i = .ok (c.recordingAt? i) := if_pos (h _)

/-- Recordings that are changed row by row are found under their ids. -/
theorem recordingAt?_map {f : Recording → Recording} (hf : ∀ x, (f x).id = x.id) (i : Int) :
    ({ c with recordings := c.recordings.map f } : Catalog).recordingAt? i =
      (c.recordingAt? i).map f := by
  simp only [recordingAt?, List.find?_map, Function.comp_def, hf]

end Catalog

namespace Archive

variable {a b c : Archive} {t u : Tier} {next : Path} {R N : Location} {r r' : List Path}

/-- Evictions have been worked off between two archives. -/
structure Worked (a b : Archive) : Prop where
  isTree : b.disk.IsTree
  now_eq : b.now = a.now
  protects_eq : ∀ q, b.served.protects a.now q = a.served.protects a.now q
  answers_eq : b.catalog.answers = a.catalog.answers
  tiers_eq : b.tiers = a.tiers
  linked_eq : b.linked = a.linked

/-- Evictions have been worked off and have left alone what goes from one root to the
next by the names `r`. -/
structure PassedBy (R N : Location) (r : List Path) (a b : Archive) : Prop
    extends Worked a b where
  awaits : ∀ content, a.disk.Awaits (R ++ r) (N ++ r) content →
    b.disk.Awaits (R ++ r) (N ++ r) content
  arrived : ∀ content, a.disk.Arrived (R ++ r) (N ++ r) content →
    b.disk.Arrived (R ++ r) (N ++ r) content

theorem Worked.refl (hd : a.disk.IsTree) : Worked a a :=
  ⟨hd, rfl, fun _ => rfl, rfl, rfl, rfl⟩

theorem Worked.trans (h : Worked a b) (h' : Worked b c) : Worked a c where
  isTree := h'.isTree
  now_eq := h'.now_eq.trans h.now_eq
  protects_eq := by
    intro q
    rw [← h.protects_eq, ← h.now_eq, h'.protects_eq]
  answers_eq := h'.answers_eq.trans h.answers_eq
  tiers_eq := h'.tiers_eq.trans h.tiers_eq
  linked_eq := h'.linked_eq.trans h.linked_eq

theorem Worked.answers (h : Worked a b) (ha : ∀ q, a.catalog.answers q = true) :
    ∀ q, b.catalog.answers q = true := fun q => by rw [h.answers_eq, ha]

/-- The tiers beside a tier are still there. -/
theorem Worked.map_tier_sibling? (h : Worked a b) (t : Tier) (s : String) :
    (b.sibling? t s).map (·.tier) = (a.sibling? t s).map (·.tier) := by
  rw [Archive.map_tier_sibling?, Archive.map_tier_sibling?, h.tiers_eq, h.linked_eq]

namespace PassedBy

theorem refl (hd : a.disk.IsTree) : PassedBy R N r a a :=
  ⟨Worked.refl hd, fun _ h => h, fun _ h => h⟩

theorem trans (h : PassedBy R N r a b) (h' : PassedBy R N r b c) : PassedBy R N r a c :=
  ⟨h.toWorked.trans h'.toWorked, fun content ha => h'.awaits content (h.awaits content ha),
    fun content ha => h'.arrived content (h.arrived content ha)⟩

end PassedBy

theorem answers_evictFrom (a : Archive) (t : Tier) (p fileRoot : Path) :
    (a.evictFrom t p fileRoot).2.catalog.answers = a.catalog.answers :=
  Holdings.catalog_evict (P := fun c => c.answers = a.catalog.answers)
    (fun c hc => (Catalog.answers_deleteFile c p).trans hc)
    (fun c target hc => (Catalog.answers_copyNote c p target).trans hc) rfl

theorem worked_evictFrom (hd : a.disk.IsTree) (u : Tier) (p fileRoot : Path) :
    Worked a (a.evictFrom u p fileRoot).2 where
  isTree := Holdings.isTree_evict hd p fileRoot u.root u.next
  now_eq := Holdings.now_evict a.toHoldings p fileRoot u.root u.next
  protects_eq := Holdings.protects_evict a.toHoldings p fileRoot u.root u.next (Int.le_refl _)
  answers_eq := answers_evictFrom a u p fileRoot
  tiers_eq := tiers_evictFrom a u p fileRoot
  linked_eq := rfl

theorem worked_evictAll (hd : a.disk.IsTree) (t : Tier) (files : List (Path × Path)) :
    Worked a (a.evictAll t files).2 := by
  induction files generalizing a with
  | nil => exact Worked.refl hd
  | cons x files ih =>
    obtain ⟨p, fileRoot⟩ := x
    have hworked := worked_evictFrom hd t p fileRoot
    exact hworked.trans (ih hworked.isTree)

section Roots

variable (hroots : Path.AreRoots u.root next) (hnext : u.next = some next)

include hroots hnext

/-- A file that goes by other names passes by. -/
theorem passedBy_evictFrom (hd : a.disk.IsTree) (hr' : IsNamed r') (hne : r' ≠ [])
    (hr : ¬ r <+: r') :
    PassedBy (Path.pieces u.root.tail) (Path.pieces next.tail) r a
      (a.evictFrom u (u.root.under r') u.root).2 := by
  have hshift : Shifted a.disk (a.evictFrom u (u.root.under r') u.root).2.disk
      (Path.pieces u.root.tail ++ r') (Path.pieces next.tail ++ r') := by
    have hevict := Holdings.shifted_evict a.toHoldings u.root hd
      (Path.isNormal_under hroots.isNormal_root hr' hne)
      (Path.destination_under u.root next r' ▸ Path.isNormal_under hroots.isNormal_next hr' hne)
    rw [Path.destination_under, Path.pieces_under hroots.isNormal_root hr' hne,
      Path.pieces_under hroots.isNormal_next hr' hne] at hevict
    rw [evictFrom, hnext]
    exact hevict
  exact ⟨worked_evictFrom hd u _ _, fun content h => h.pass hd hroots.apart hr hshift,
    fun content h => h.pass hroots.apart hr hshift⟩

/-- A file that waits and that nobody reads arrives. -/
theorem evictFrom_of_awaits (hd : a.disk.IsTree) (hr : IsNamed r) (hne : r ≠ [])
    (hs : IsSpelled (Path.pieces u.root.tail ++ r))
    (hfree : a.served.protects a.now (u.root.under r) = false) {content : String}
    (hwait : a.disk.Awaits (Path.pieces u.root.tail ++ r) (Path.pieces next.tail ++ r) content) :
    (a.evictFrom u (u.root.under r) u.root).1 = .moved (next.under r) ∧
      (a.evictFrom u (u.root.under r) u.root).2.disk.Arrived (Path.pieces u.root.tail ++ r)
        (Path.pieces next.tail ++ r) content := by
  have hsource := Path.pieces_under hroots.isNormal_root hr hne
  have htarget := Path.pieces_under hroots.isNormal_next hr hne
  have hdestination := Path.destination_under u.root next r
  have hevict := Holdings.evict_of_awaits a.toHoldings u.root hd
    (Path.isNormal_under hroots.isNormal_root hr hne)
    (hdestination ▸ Path.isNormal_under hroots.isNormal_next hr hne) (hsource ▸ hs)
    (by rw [hdestination, hsource, htarget]; exact hroots.apart.append_ne r r) hfree
    (by rw [hdestination, hsource, htarget]; exact hwait)
  rw [hdestination, hsource, htarget] at hevict
  rw [evictFrom, hnext]
  exact hevict

end Roots

/-- Pointing recordings elsewhere goes through their table row by row. -/
structure Repoints (repoint : Path → Archive → Archive) (g : Path → Recording → Recording) :
    Prop where
  id_eq : ∀ q x, (g q x).id = x.id
  repoint_eq : ∀ q b, (∀ query, b.catalog.answers query = true) →
    repoint q b =
      b.withCatalog { b.catalog with recordings := b.catalog.recordings.map (g q) }

theorem recordingAt?_evictFrom (a : Archive) (u : Tier) (p fileRoot : Path) (k : Int) :
    (a.evictFrom u p fileRoot).2.catalog.recordingAt? k = a.catalog.recordingAt? k := by
  rw [Catalog.recordingAt?, recordings_evictFrom, ← Catalog.recordingAt?]

theorem Repoints.passedBy {repoint : Path → Archive → Archive} {g : Path → Recording → Recording}
    (h : Repoints repoint g) (hd : a.disk.IsTree) (ha : ∀ query, a.catalog.answers query = true)
    (q : Path) : PassedBy R N r a (repoint q a) := by
  rw [h.repoint_eq q a ha]
  exact ⟨⟨hd, rfl, fun _ => rfl, rfl, rfl, rfl⟩, fun _ h => h, fun _ h => h⟩

theorem Repoints.recordingAt? {repoint : Path → Archive → Archive}
    {g : Path → Recording → Recording} (h : Repoints repoint g)
    (ha : ∀ query, a.catalog.answers query = true) (q : Path) (k : Int) :
    (repoint q a).catalog.recordingAt? k = (a.catalog.recordingAt? k).map (g q) := by
  rw [h.repoint_eq q a ha]
  exact Catalog.recordingAt?_map (h.id_eq q) k

section Follow

variable {pointer : Recording → Option Path} {repoint : Path → Archive → Archive}
  {g : Path → Recording → Recording} {i : Int}

theorem worked_follow (u : Tier) (pointer : Recording → Option Path) (i : Int)
    (hd : a.disk.IsTree) (ha : ∀ q, a.catalog.answers q = true)
    (h : Repoints repoint g) : Worked a (a.follow u pointer i repoint) := by
  refine follow_cases ?_ ?_ ?_
  · exact fun _ => Worked.refl hd
  · exact fun x p _ _ _ => worked_evictFrom hd u p u.root
  · intro x p q _ _ _
    have hworked := worked_evictFrom hd u p u.root
    exact hworked.trans
      (h.passedBy (R := []) (N := []) (r := []) hworked.isTree (hworked.answers ha) q).toWorked

/-- The recordings are as they were, or are pointed at the destination of what the one
whose turn it is pointed at. -/
theorem recordingAt?_follow (hd : a.disk.IsTree) (ha : ∀ q, a.catalog.answers q = true)
    (h : Repoints repoint g) (u : Tier) (pointer : Recording → Option Path) (i : Int) :
    (∀ k, (a.follow u pointer i repoint).catalog.recordingAt? k = a.catalog.recordingAt? k) ∨
      ∃ n x p, u.next = some n ∧ a.catalog.recordingAt? i = some x ∧ pointer x = some p ∧
        ∀ k, (a.follow u pointer i repoint).catalog.recordingAt? k =
          (a.catalog.recordingAt? k).map (g (Holdings.destination p u.root n)) := by
  refine follow_cases (P := fun b => (∀ k, b.catalog.recordingAt? k = a.catalog.recordingAt? k) ∨
    ∃ n x p, u.next = some n ∧ a.catalog.recordingAt? i = some x ∧ pointer x = some p ∧
      ∀ k, b.catalog.recordingAt? k =
        (a.catalog.recordingAt? k).map (g (Holdings.destination p u.root n))) ?_ ?_ ?_
  · exact fun _ => Or.inl fun _ => rfl
  · exact fun x p _ _ _ => Or.inl (recordingAt?_evictFrom a u p u.root)
  · intro x p q hx hp hq
    obtain ⟨n, hn, rfl⟩ := Holdings.exists_next_of_evict_eq_moved hq
    refine Or.inr ⟨n, x, p, hn, Catalog.recordingAt?_of_getRecording hx, hp, fun k => ?_⟩
    rw [h.recordingAt? ((worked_evictFrom hd u p u.root).answers ha), recordingAt?_evictFrom]

variable (hroots : Path.AreRoots u.root next) (hnext : u.next = some next) (hd : a.disk.IsTree)
  (ha : ∀ q, a.catalog.answers q = true) (h : Repoints repoint g)

include hroots hnext hd ha h

theorem passedBy_follow
    (hnames : ∀ x p, a.catalog.recordingAt? i = some x → pointer x = some p →
      ∃ r', IsNamed r' ∧ r' ≠ [] ∧ p = u.root.under r' ∧ ¬ r <+: r') :
    PassedBy (Path.pieces u.root.tail) (Path.pieces next.tail) r a
      (a.follow u pointer i repoint) := by
  have hevicted : ∀ x p, a.catalog.getRecording i = .ok (some x) → pointer x = some p →
      PassedBy (Path.pieces u.root.tail) (Path.pieces next.tail) r a
        (a.evictFrom u p u.root).2 := by
    intro x p hx hp
    obtain ⟨r', hr', hne, rfl, hr⟩ := hnames x p (Catalog.recordingAt?_of_getRecording hx) hp
    exact passedBy_evictFrom hroots hnext hd hr' hne hr
  refine follow_cases ?_ ?_ ?_
  · exact fun _ => PassedBy.refl hd
  · exact fun x p hx hp _ => hevicted x p hx hp
  · intro x p q hx hp _
    have hpassed := hevicted x p hx hp
    exact hpassed.trans (h.passedBy hpassed.isTree (hpassed.answers ha) q)

theorem follow_of_awaits {x : Recording} (hx : a.catalog.recordingAt? i = some x)
    (hr : IsNamed r) (hne : r ≠ []) (hp : pointer x = some (u.root.under r))
    (hs : IsSpelled (Path.pieces u.root.tail ++ r))
    (hfree : a.served.protects a.now (u.root.under r) = false) {content : String}
    (hwait : a.disk.Awaits (Path.pieces u.root.tail ++ r) (Path.pieces next.tail ++ r) content) :
    Worked a (a.follow u pointer i repoint) ∧
      (a.follow u pointer i repoint).disk.Arrived (Path.pieces u.root.tail ++ r)
        (Path.pieces next.tail ++ r) content ∧
      ∀ k, (a.follow u pointer i repoint).catalog.recordingAt? k =
        (a.catalog.recordingAt? k).map (g (next.under r)) := by
  have hevict := evictFrom_of_awaits hroots hnext hd hr hne hs hfree hwait
  have hsame : ∀ y p, a.catalog.getRecording i = .ok (some y) → pointer y = some p →
      p = u.root.under r := by
    intro y p hy hp'
    obtain rfl : x = y := Option.some.inj (hx.symm.trans (Catalog.recordingAt?_of_getRecording hy))
    exact Option.some.inj (hp'.symm.trans hp)
  refine follow_cases (P := fun b => Worked a b ∧ b.disk.Arrived (Path.pieces u.root.tail ++ r)
    (Path.pieces next.tail ++ r) content ∧ ∀ k, b.catalog.recordingAt? k =
      (a.catalog.recordingAt? k).map (g (next.under r))) ?_ ?_ ?_
  · intro hnone
    refine absurd hp (hnone x _ ?_)
    rw [Catalog.getRecording_of_answers ha, hx]
  · intro y p hy hp' hstayed
    obtain rfl := hsame y p hy hp'
    exact absurd hevict.1 (hstayed _)
  · intro y p q hy hp' hq
    obtain rfl := hsame y p hy hp'
    obtain rfl : next.under r = q := Eviction.moved.inj (hevict.1.symm.trans hq)
    have hworked := worked_evictFrom hd u (u.root.under r) u.root
    have hans := hworked.answers ha
    have hrepointed := h.passedBy (R := Path.pieces u.root.tail) (N := Path.pieces next.tail)
      (r := r) hworked.isTree hans (next.under r)
    refine ⟨hworked.trans hrepointed.toWorked, hrepointed.arrived content hevict.2, fun k => ?_⟩
    rw [h.recordingAt? hans, recordingAt?_evictFrom]

end Follow

/-- Lets what recordings point at follow, one recording after the other. -/
def followAll (a : Archive) (u : Tier) (pointer : Recording → Option Path)
    (repoint : Int → Path → Archive → Archive) (ids : List Int) : Archive :=
  ids.foldl (fun b i => b.follow u pointer i (repoint i)) a

/-- What a recording points at lies below the root of the tier, by names that do not
lead on from the given ones. -/
def PointsBeside (a : Archive) (u : Tier) (pointer : Recording → Option Path) (r : List Path)
    (i : Int) : Prop :=
  ∀ x p, a.catalog.recordingAt? i = some x → pointer x = some p →
    ∃ r', IsNamed r' ∧ r' ≠ [] ∧ p = u.root.under r' ∧ ¬ r <+: r'

/-- Once what recording `i` points at has moved, recording `k` is pointed nowhere else. -/
def LeavesAlone (a : Archive) (u : Tier) (next : Path) (pointer : Recording → Option Path)
    (g : Int → Path → Recording → Recording) (i k : Int) : Prop :=
  ∀ x y p, a.catalog.recordingAt? i = some x → pointer x = some p →
    a.catalog.recordingAt? k = some y → g i (Holdings.destination p u.root next) y = y

section FollowAll

variable {pointer : Recording → Option Path} {repoint : Int → Path → Archive → Archive}
  {g : Int → Path → Recording → Recording} {ids others : List Int} {i j k : Int}

theorem PointsBeside.congr (h : a.PointsBeside u pointer r i)
    (hi : (b.catalog.recordingAt? i).map pointer = (a.catalog.recordingAt? i).map pointer) :
    b.PointsBeside u pointer r i := by
  intro x p hx hp
  rw [hx, Option.map_some] at hi
  obtain ⟨y, hy, hsame⟩ := Option.map_eq_some_iff.1 hi.symm
  exact h y p hy (hsame.trans hp)

theorem LeavesAlone.congr (h : a.LeavesAlone u next pointer g i k)
    (hi : b.catalog.recordingAt? i = a.catalog.recordingAt? i)
    (hk : b.catalog.recordingAt? k = a.catalog.recordingAt? k) :
    b.LeavesAlone u next pointer g i k :=
  fun x y p hx hp hy => h x y p (hi ▸ hx) hp (hk ▸ hy)

variable (hroots : Path.AreRoots u.root next) (hnext : u.next = some next)
  (h : ∀ i, Repoints (repoint i) (g i))

include hroots hnext h

omit hroots in
theorem LeavesAlone.recordingAt?_follow (halone : a.LeavesAlone u next pointer g i k)
    (hd : a.disk.IsTree) (ha : ∀ q, a.catalog.answers q = true) :
    (a.follow u pointer i (repoint i)).catalog.recordingAt? k = a.catalog.recordingAt? k := by
  rcases Archive.recordingAt?_follow hd ha (h i) u pointer i with
    hsame | ⟨n, x, p, hn, hx, hp, hmapped⟩
  · exact hsame k
  · obtain rfl : next = n := Option.some.inj (hnext.symm.trans hn)
    rw [hmapped]
    cases hy : a.catalog.recordingAt? k with
    | none => rfl
    | some y => rw [Option.map_some, halone x y p hx hp hy]

/-- What goes by other names is passed by, and the recordings whose turn does not come
are pointed nowhere else if each turn leaves alone those after it. -/
theorem passedBy_followAll (ids others : List Int) (hnodup : (ids ++ others).Nodup)
    (hd : a.disk.IsTree)
    (ha : ∀ q, a.catalog.answers q = true)
    (hbeside : ∀ i ∈ ids, a.PointsBeside u pointer r i)
    (halone : ∀ i ∈ ids, ∀ k ∈ ids ++ others, k ≠ i → a.LeavesAlone u next pointer g i k) :
    PassedBy (Path.pieces u.root.tail) (Path.pieces next.tail) r a
        (a.followAll u pointer repoint ids) ∧
      ∀ k ∈ others,
        (a.followAll u pointer repoint ids).catalog.recordingAt? k = a.catalog.recordingAt? k := by
  induction ids generalizing a with
  | nil => exact ⟨PassedBy.refl hd, fun _ _ => rfl⟩
  | cons i ids ih =>
    obtain ⟨hi, hnodup⟩ := List.nodup_cons.1 hnodup
    have hpassed := passedBy_follow hroots hnext hd ha (h i) (hbeside i List.mem_cons_self)
    have hsame : ∀ k ∈ ids ++ others, (a.follow u pointer i (repoint i)).catalog.recordingAt? k =
        a.catalog.recordingAt? k := by
      intro k hk
      have hki : k ≠ i := fun heq => hi (heq ▸ hk)
      exact (halone i List.mem_cons_self k (List.mem_cons_of_mem i hk) hki).recordingAt?_follow
        hnext h hd ha
    obtain ⟨hrest, hkept⟩ := ih hnodup hpassed.isTree (hpassed.answers ha)
      (fun j hj => (hbeside j (List.mem_cons_of_mem i hj)).congr
        (congrArg _ (hsame j (List.mem_append_left others hj))))
      (fun j hj k hk hkj =>
        (halone j (List.mem_cons_of_mem i hj) k (List.mem_cons_of_mem i hk) hkj).congr
          (hsame j (List.mem_append_left others hj)) (hsame k hk))
    exact ⟨hpassed.trans hrest,
      fun k hk => (hkept k hk).trans (hsame k (List.mem_append_right ids hk))⟩

/-- A file that waits for the turn of its recording arrives, and the recording points at
where it is now. -/
theorem followAll_of_awaits (hnodup : ids.Nodup) (hd : a.disk.IsTree)
    (ha : ∀ q, a.catalog.answers q = true) (hi : i ∈ ids) {x : Recording}
    (hx : a.catalog.recordingAt? i = some x) (hr : IsNamed r) (hne : r ≠ [])
    (hp : pointer x = some (u.root.under r)) (hs : IsSpelled (Path.pieces u.root.tail ++ r))
    (hfree : a.served.protects a.now (u.root.under r) = false) {content : String}
    (hwait : a.disk.Awaits (Path.pieces u.root.tail ++ r) (Path.pieces next.tail ++ r) content)
    (hbeside : ∀ j ∈ ids, j ≠ i → a.PointsBeside u pointer r j)
    (halone : ∀ j ∈ ids, ∀ k ∈ ids, k ≠ j → a.LeavesAlone u next pointer g j k)
    (hlast : ∀ j ∈ ids, j ≠ i → ∀ y p, a.catalog.recordingAt? j = some y → pointer y = some p →
      g j (Holdings.destination p u.root next) (g i (next.under r) x) = g i (next.under r) x) :
    Worked a (a.followAll u pointer repoint ids) ∧
      (a.followAll u pointer repoint ids).disk.Arrived (Path.pieces u.root.tail ++ r)
        (Path.pieces next.tail ++ r) content ∧
      (a.followAll u pointer repoint ids).catalog.recordingAt? i =
        some (g i (next.under r) x) := by
  obtain ⟨before, after, rfl⟩ := List.append_of_mem hi
  obtain ⟨-, hnodup', hdisjoint⟩ := List.nodup_append.1 hnodup
  obtain ⟨hiAfter, hnodupAfter⟩ := List.nodup_cons.1 hnodup'
  have hiBefore : ∀ j ∈ before, j ≠ i := fun j hj => hdisjoint j hj i List.mem_cons_self
  have hneAfter : ∀ j ∈ after, j ≠ i := fun j hj heq => hiAfter (heq ▸ hj)
  -- Those before it leave the file and the recording as they are,
  obtain ⟨hpassed, hkept⟩ := passedBy_followAll (r := r) hroots hnext h before (i :: after)
    hnodup hd ha (fun j hj => hbeside j (List.mem_append_left _ hj) (hiBefore j hj))
    (fun j hj k hk => halone j (List.mem_append_left _ hj) k hk)
  -- its own turn moves it,
  obtain ⟨hworked, harrived, hmapped⟩ := follow_of_awaits hroots hnext hpassed.isTree
    (hpassed.answers ha) (h i) ((hkept i List.mem_cons_self).trans hx) hr hne hp hs
    (by rw [hpassed.now_eq, hpassed.protects_eq, hfree]) (hpassed.awaits content hwait)
  have hafter : ∀ k ∈ after, ((a.followAll u pointer repoint before).follow u pointer i
      (repoint i)).catalog.recordingAt? k = a.catalog.recordingAt? k := by
    intro k hk
    rw [hmapped, hkept k (List.mem_cons_of_mem i hk)]
    cases hy : a.catalog.recordingAt? k with
    | none => rfl
    | some y =>
      have halone' := halone i hi k (List.mem_append_right _ (List.mem_cons_of_mem i hk))
        (hneAfter k hk) x y _ hx hp hy
      rw [Path.destination_under] at halone'
      rw [Option.map_some, halone']
  have hself := (hmapped i).trans (by rw [hkept i List.mem_cons_self, hx, Option.map_some])
  -- and those after it leave it where it is.
  obtain ⟨hpassed', hkept'⟩ := passedBy_followAll (r := r) hroots hnext h after [i]
    (by simpa [List.nodup_append] using ⟨hnodupAfter, hneAfter⟩) hworked.isTree
    (hworked.answers (hpassed.answers ha))
    (fun j hj => (hbeside j (List.mem_append_right _ (List.mem_cons_of_mem i hj))
      (hneAfter j hj)).congr (congrArg _ (hafter j hj)))
    (by
      intro j hj k hk hkj
      rcases List.mem_append.1 hk with hk | hk
      · exact (halone j (List.mem_append_right _ (List.mem_cons_of_mem i hj)) k
          (List.mem_append_right _ (List.mem_cons_of_mem i hk)) hkj).congr
          (hafter j hj) (hafter k hk)
      · obtain rfl := List.mem_singleton.1 hk
        intro y z p hy hp' hz
        obtain rfl := Option.some.inj (hself.symm.trans hz)
        exact hlast j (List.mem_append_right _ (List.mem_cons_of_mem k hj)) (hneAfter j hj) y p
          (hafter j hj ▸ hy) hp')
  have hall : a.followAll u pointer repoint (before ++ i :: after) =
      ((a.followAll u pointer repoint before).follow u pointer i (repoint i)).followAll u pointer
        repoint after := by
    rw [followAll, List.foldl_append, List.foldl_cons]
    rfl
  rw [hall]
  refine ⟨(hpassed.toWorked.trans hworked).trans hpassed'.toWorked, hpassed'.arrived _ harrived, ?_⟩
  exact (hkept' i (List.mem_singleton.2 rfl)).trans hself

omit hroots hnext in
/-- What pointing elsewhere keeps of every recording, it keeps over a whole list. -/
theorem map_recordingAt?_followAll {β : Type} {φ : Recording → β}
    (hφ : ∀ i q x, φ (g i q x) = φ x) (hd : a.disk.IsTree)
    (ha : ∀ q, a.catalog.answers q = true) (k : Int) :
    ((a.followAll u pointer repoint ids).catalog.recordingAt? k).map φ =
      (a.catalog.recordingAt? k).map φ := by
  induction ids generalizing a with
  | nil => rfl
  | cons i ids ih =>
    have hworked := worked_follow u pointer i hd ha (h i)
    refine (ih hworked.isTree (hworked.answers ha)).trans ?_
    rcases Archive.recordingAt?_follow hd ha (h i) u pointer i with
      hsame | ⟨n, x, p, -, -, -, hmapped⟩
    · rw [hsame]
    · rw [hmapped, Option.map_map]
      exact congrArg (Option.map · _) (funext fun y => hφ i _ y)

end FollowAll

end Archive

end TieredFootage
