import Mathlib.Logic.Relation
import TieredFootage.Proofs.Disk.Moving
import TieredFootage.Proofs.Path.Lexical

/-!
# What an operation on the disk touches

An operation is given texts of paths, and what it changes is at the places that these
texts spell, whatever they look like: with `..` in them, with names that are passed
over, or relative to the working directory. The only other thing it does is to make the
directories that a target lies in, and these are spelled by what is left of the text
when names are taken off its end.
-/

namespace TieredFootage

open Relation

/-- A text with one or more names taken off its end. -/
def Path.IsAbove (q p : Path) : Prop := TransGen (fun x y => x.parent? = some y) p q

namespace Disk

variable {d d' d₁ d₂ d₃ : Disk} {p q : Path} {l : Location} {P P' Q Q' : Path → Prop}

/-- A path that has a slot has it at its spot. -/
theorem spot_of_slot {slash : Bool} (h : d.slot p = .ok (l, slash)) : l = Path.spot d.home p := by
  obtain ⟨r, parent, n, hroute, -, hlast, hwalk, -, hplain, rfl⟩ := slot_eq_ok_iff.1 h
  obtain ⟨init, hinit⟩ := List.getLast?_eq_some_iff.1 hlast
  rw [hinit, List.dropLast_concat] at hwalk
  have hnames : r.names = (Path.pieces p).filter (· ≠ []) ∧
      r.start = if p.isAbsolute then [] else d.home := by
    unfold route at hroute
    split_ifs at hroute <;> (obtain rfl := Except.ok.inj hroute; exact ⟨rfl, by simp [*]⟩)
  have hnil : [] ∉ init ++ [n] := by
    rw [← hinit, hnames.1]
    simp
  obtain ⟨hinitNil, hn⟩ := not_or.1 (mt List.mem_append.2 hnil)
  rw [Path.spot, LexicalPlace.follow, ← foldl_enter_filter, ← hnames.1, ← hnames.2, hinit,
    List.foldl_append, List.foldl_cons, List.foldl_nil, LexicalPlace.enter_name _ hplain.2.1,
    ← eq_of_walk hwalk hinitNil]
  simpa [Path.isIdle, hplain.1] using fun h : n = [] => hn (by simp [h])

/-- Between two disks there are changes at most at the spots of the paths in `P`, and
new directories at those of the paths in `Q`. -/
structure Touched (d d' : Disk) (P Q : Path → Prop) : Prop where
  home_eq : d'.home = d.home
  node?_cases : ∀ m, d'.node? m = d.node? m ∨ (∃ p, P p ∧ m = Path.spot d.home p) ∨
    (d.node? m = none ∧ d'.node? m = some .directory ∧ ∃ q, Q q ∧ m = Path.spot d.home q)

namespace Touched

theorem refl (d : Disk) : Touched d d P Q := ⟨rfl, fun _ => Or.inl rfl⟩

theorem mono (h : Touched d d' P Q) (hP : ∀ p, P p → P' p) (hQ : ∀ q, Q q → Q' q) :
    Touched d d' P' Q' where
  home_eq := h.home_eq
  node?_cases := by
    intro m
    rcases h.node?_cases m with heq | ⟨p, hp, hm⟩ | ⟨hnone, hmade, q, hq, hm⟩
    · exact Or.inl heq
    · exact Or.inr (Or.inl ⟨p, hP p hp, hm⟩)
    · exact Or.inr (Or.inr ⟨hnone, hmade, q, hQ q hq, hm⟩)

/-- What was made first is not made again. -/
theorem trans (h : Touched d₁ d₂ P Q) (h' : Touched d₂ d₃ P Q) : Touched d₁ d₃ P Q where
  home_eq := h'.home_eq.trans h.home_eq
  node?_cases := by
    intro m
    have hsecond := h'.node?_cases m
    rw [h.home_eq] at hsecond
    rcases h.node?_cases m with heq | hp | ⟨hnone, hmade, hq⟩
    · rwa [heq] at hsecond
    · exact Or.inr (Or.inl hp)
    · rcases hsecond with heq | hp | ⟨hagain, -⟩
      · exact Or.inr (Or.inr ⟨hnone, heq.trans hmade, hq⟩)
      · exact Or.inr (Or.inl hp)
      · rw [hmade] at hagain
        cases hagain

/-- What is put where a path leads is put at its spot. -/
theorem put {n : Node} (hl : l ≠ []) (hspot : l = Path.spot d.home p) (hp : P p) :
    Touched d (d.put l n) P Q where
  home_eq := rfl
  node?_cases := by
    intro m
    rw [node?_put d n m hl]
    split_ifs with hm
    · exact Or.inr (Or.inl ⟨p, hp, hm.trans hspot⟩)
    · exact Or.inl rfl

theorem note (h : Touched d d' P Q) (c : Change) : Touched d (d'.note c) P Q :=
  ⟨h.home_eq, h.node?_cases⟩

end Touched

theorem touched_makeDirectory (d : Disk) (hq : Q q) : Touched d (d.makeDirectory q).2 P Q := by
  rcases makeDirectory_cases d q with hsame | ⟨l, slash, hslot, hnone, hmade⟩
  · rw [hsame]
    exact Touched.refl d
  · rw [hmade]
    refine ⟨rfl, fun m => ?_⟩
    rw [node?_note, node?_put d _ m (slot_ne_nil hslot)]
    split_ifs with hm
    · exact Or.inr (Or.inr ⟨hm ▸ hnone, rfl, q, hq, hm.trans (spot_of_slot hslot)⟩)
    · exact Or.inl rfl

theorem touched_makeDirectoriesWithin (fuel : Nat) (d : Disk)
    (hQ : ∀ x, ReflTransGen (fun x y => x.parent? = some y) q x → Q x) :
    Touched d (makeDirectoriesWithin fuel d q).2 P Q := by
  induction fuel generalizing d q with
  | zero => exact Touched.refl d
  | succ fuel ih =>
    have hfirst : Touched d (d.makeDirectory q).2 P Q :=
      touched_makeDirectory d (hQ q ReflTransGen.refl)
    rw [makeDirectoriesWithin]
    split
    · exact Touched.refl d
    · split
      · rename_i heq
        rw [heq] at hfirst
        exact hfirst
      · rename_i d₁ heq
        rw [heq] at hfirst
        split
        · exact hfirst
        · rename_i x hx
          have hup := hfirst.trans (ih d₁ fun y hy => hQ y (ReflTransGen.head hx hy))
          split
          · rename_i heq'
            rw [heq'] at hup
            exact hup
          · rename_i d₂ heq'
            rw [heq'] at hup
            have hlast := hup.trans (touched_makeDirectory d₂ (hQ q ReflTransGen.refl))
            split
            · rename_i heq''
              rw [heq''] at hlast
              exact hlast
            · rename_i heq''
              rw [heq''] at hlast
              split <;> exact hlast
      · rename_i heq
        rw [heq] at hfirst
        split <;> exact hfirst

theorem touched_makeParent (d : Disk) (hQ : ∀ x, x.IsAbove q → Q x) :
    Touched d (d.makeParent q).2 P Q := by
  unfold makeParent
  split
  · exact Touched.refl d
  · rename_i x hx
    exact touched_makeDirectoriesWithin _ d fun y hy => hQ y (TransGen.head' hx hy)

/-- A file is opened at the spot of its path. -/
theorem touched_truncate (d : Disk) (hq : P q) :
    Touched d (d.truncate q).2 P Q ∧
      ∀ t, (d.truncate q).1 = .ok t → t ≠ [] ∧ t = Path.spot d.home q := by
  unfold truncate
  split
  · rename_i l hresolve
    split
    · rename_i c hl
      have hne : l ≠ [] := fun hnil => by simp [hnil] at hl
      have hspot := spot_of_resolve hresolve
      exact ⟨(Touched.put hne hspot hq).note _, fun t ht => Except.ok.inj ht ▸ ⟨hne, hspot⟩⟩
    · exact ⟨Touched.refl d, fun t ht => nomatch ht⟩
  · split
    · exact ⟨Touched.refl d, fun t ht => nomatch ht⟩
    · rename_i l slash hslot
      split
      · exact ⟨Touched.refl d, fun t ht => nomatch ht⟩
      · have hne := slot_ne_nil hslot
        have hspot := spot_of_slot hslot
        exact ⟨((Touched.put hne hspot hq).note _).note _,
          fun t ht => Except.ok.inj ht ▸ ⟨hne, hspot⟩⟩
  · exact ⟨Touched.refl d, fun t ht => nomatch ht⟩

theorem touched_copyFile (d : Disk) (p : Path) (hq : P q) :
    Touched d (d.copyFile p q).2 P Q := by
  obtain ⟨hopened, hspot⟩ := touched_truncate (Q := Q) d hq
  unfold copyFile
  split
  · exact Touched.refl d
  · rename_i l _
    split
    · split
      · rename_i heq
        rw [heq] at hopened
        exact hopened
      · rename_i t d₁ heq
        rw [heq] at hopened hspot
        obtain ⟨hne, hspot⟩ := hspot t rfl
        split
        · dsimp only
          split
          · exact hopened
          · exact hopened.trans (Touched.put hne (hopened.home_eq ▸ hspot) hq)
        · exact hopened
    · exact Touched.refl d

theorem touched_removeFile (d : Disk) (hp : P p) : Touched d (d.removeFile p).2 P Q := by
  unfold removeFile
  split
  · exact Touched.refl d
  · rename_i l slash hslot
    split
    · exact Touched.refl d
    · exact Touched.refl d
    · split
      · exact Touched.refl d
      · refine ⟨rfl, fun m => ?_⟩
        rw [node?_note, node?_drop d m (slot_ne_nil hslot)]
        split_ifs with hm
        · exact Or.inr (Or.inl ⟨p, hp, hm.trans (spot_of_slot hslot)⟩)
        · exact Or.inl rfl

/-- A move touches its source and its target, and makes the directories that the target
lies in. -/
theorem touched_moveFile (d : Disk) (hp : P p) (hq : P q) (hQ : ∀ x, x.IsAbove q → Q x) :
    Touched d (d.moveFile p q).2 P Q := by
  have hmade : Touched d (d.makeParent q).2 P Q := touched_makeParent d hQ
  unfold moveFile
  split
  · rename_i heq
    rw [heq] at hmade
    exact hmade
  · rename_i d₁ heq
    rw [heq] at hmade
    have hcopied := hmade.trans (touched_copyFile d₁ p hq)
    split
    · rename_i heq'
      rw [heq'] at hcopied
      exact hcopied
    · rename_i d₂ heq'
      rw [heq'] at hcopied
      have hremoved := hcopied.trans (touched_removeFile d₂ hp)
      split <;> (rename_i heq''; rw [heq''] at hremoved; exact hremoved)

end Disk

end TieredFootage
