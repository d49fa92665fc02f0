import TieredFootage.Proofs.Disk.Moving

/-!
# Files that are taken away

On a disk that is a tree a path leads to a file exactly by its slot, and slots
depend on directories only. Taking files away leaves every directory where it
is, so each further path leads where it led before, unless its file is already
gone. So after any number of removals exactly those files are missing that one
of the paths led to at the start.
-/

namespace TieredFootage

namespace Disk

variable {d d' d₁ d₂ d₃ : Disk} {p q : Path} {l : Location} {ps qs : List Path}

/-- The path leads to a file, and this is where it is. -/
def LeadsTo (d : Disk) (p : Path) (l : Location) : Prop :=
  d.resolve p = .ok l ∧ ∃ content, d.node? l = some (.file content)

theorem isFile_iff : d.isFile p = true ↔ ∃ l, d.LeadsTo p l := by
  simp only [isFile, stat, LeadsTo]
  cases hresolve : d.resolve p with
  | error e => simp [bind, Except.bind]
  | ok l =>
    cases hnode : d.node? l with
    | none => simp [bind, Except.bind, hnode]
    | some n => cases n <;> simp [bind, Except.bind, hnode]

theorem leadsTo_iff (hd : d.IsTree) :
    d.LeadsTo p l ↔ d.slot p = .ok (l, false) ∧ ∃ content, d.node? l = some (.file content) := by
  constructor
  · rintro ⟨hresolve, content, hl⟩
    exact ⟨slot_of_resolve hd hresolve hl, content, hl⟩
  · rintro ⟨hslot, content, hl⟩
    refine ⟨?_, content, hl⟩
    rw [resolve_of_slot hslot, if_neg (by simp [hl])]

/-- A later disk from which the files of some paths are gone and that is
otherwise the same. -/
structure Cleared (d d' : Disk) (ps : List Path) : Prop where
  home_eq : d'.home = d.home
  node?_eq_none : ∀ l, (∃ p ∈ ps, d.LeadsTo p l) → d'.node? l = none
  node?_eq : ∀ l, (∀ p ∈ ps, ¬ d.LeadsTo p l) → d'.node? l = d.node? l

theorem Cleared.refl (d : Disk) : Cleared d d [] where
  home_eq := rfl
  node?_eq_none := by simp
  node?_eq := fun _ _ => rfl

/-- What is no file is not taken away. -/
theorem removeFile_of_not_leadsTo (hd : d.IsTree) (hp : ∀ l, ¬ d.LeadsTo p l) :
    (d.removeFile p).2 = d := by
  unfold removeFile
  cases hslot : d.slot p with
  | error e => rfl
  | ok x =>
    obtain ⟨k, slash⟩ := x
    dsimp only
    split
    · rfl
    · rfl
    · rename_i content hk
      cases slash with
      | true => rfl
      | false => exact absurd ((leadsTo_iff hd).2 ⟨hslot, content, hk⟩) (hp k)

/-- What is no file is not copied. -/
theorem copyFile_of_not_leadsTo (hp : ∀ l, ¬ d.LeadsTo p l) (q : Path) :
    ∃ e, d.copyFile p q = (.error e, d) := by
  unfold copyFile
  cases hresolve : d.resolve p with
  | error e => exact ⟨e, rfl⟩
  | ok l =>
    dsimp only
    split
    · rename_i content hl
      exact absurd ⟨hresolve, content, hl⟩ (hp l)
    · exact ⟨_, rfl⟩

theorem cleared_removeFile (hd : d.IsTree) (p : Path) : Cleared d (d.removeFile p).2 [p] := by
  by_cases hp : ∃ k, d.LeadsTo p k
  · obtain ⟨k, hleads⟩ := hp
    obtain ⟨hslot, content, hk⟩ := (leadsTo_iff hd).1 hleads
    have hdrop := fun l => node?_drop d l (slot_ne_nil hslot)
    rw [removeFile_of_slot hslot hk]
    refine ⟨rfl, ?_, ?_⟩
    · rintro l ⟨q, hq, hleads'⟩
      obtain rfl := List.mem_singleton.1 hq
      obtain rfl : k = l := Except.ok.inj (hleads.1.symm.trans hleads'.1)
      rw [node?_note, hdrop, if_pos rfl]
    · intro l hl
      have hne : l ≠ k := fun hlk => hl p (List.mem_singleton.2 rfl) (hlk ▸ hleads)
      rw [node?_note, hdrop, if_neg hne]
  · have hp' : ∀ l, ¬ d.LeadsTo p l := fun l hl => hp ⟨l, hl⟩
    rw [removeFile_of_not_leadsTo hd hp']
    refine ⟨rfl, ?_, fun _ _ => rfl⟩
    rintro l ⟨q, hq, hleads⟩
    obtain rfl := List.mem_singleton.1 hq
    exact absurd hleads (hp' l)

namespace Cleared

/-- Every place is either cleared of its file or as it was. -/
theorem cases_node? (h : Cleared d d' ps) (l : Location) :
    (d'.node? l = none ∧ (∃ p ∈ ps, d.LeadsTo p l)) ∨
      (d'.node? l = d.node? l ∧ ∀ p ∈ ps, ¬ d.LeadsTo p l) := by
  by_cases hl : ∃ p ∈ ps, d.LeadsTo p l
  · exact Or.inl ⟨h.node?_eq_none l hl, hl⟩
  · have hnot : ∀ p ∈ ps, ¬ d.LeadsTo p l := fun p hp hleads => hl ⟨p, hp, hleads⟩
    exact Or.inr ⟨h.node?_eq l hnot, hnot⟩

theorem directory_iff (h : Cleared d d' ps) :
    d'.node? l = some .directory ↔ d.node? l = some .directory := by
  rcases h.cases_node? l with ⟨hnone, p, -, -, content, hl⟩ | ⟨heq, -⟩
  · rw [hnone, hl]
    simp
  · rw [heq]

theorem keepsDirectories (h : Cleared d d' ps) : KeepsDirectories d d' :=
  ⟨h.home_eq, fun _ => h.directory_iff.2⟩

theorem slot_iff (h : Cleared d d' ps) {x : Location × Bool} :
    d'.slot p = .ok x ↔ d.slot p = .ok x := by
  have hback : KeepsDirectories d' d := ⟨h.home_eq.symm, fun _ => h.directory_iff.1⟩
  exact ⟨hback.slot_eq, h.keepsDirectories.slot_eq⟩

theorem file_iff (h : Cleared d d' ps) {content : String} :
    d'.node? l = some (.file content) ↔
      d.node? l = some (.file content) ∧ ∀ p ∈ ps, ¬ d.LeadsTo p l := by
  rcases h.cases_node? l with ⟨hnone, p, hp, hleads⟩ | ⟨heq, hnot⟩
  · rw [hnone]
    simp only [reduceCtorEq, false_iff, not_and]
    exact fun _ hnot => hnot p hp hleads
  · rw [heq]
    exact ⟨fun hl => ⟨hl, hnot⟩, And.left⟩

theorem isTree (h : Cleared d d' ps) (hd : d.IsTree) : d'.IsTree := by
  intro l hl
  rcases h.cases_node? l with ⟨hnone, -⟩ | ⟨heq, -⟩
  · exact absurd hnone hl
  · exact h.directory_iff.2 (hd l (heq ▸ hl))

/-- A path leads to a file later exactly if it led there before and the file is
not among those taken away. -/
theorem leadsTo_iff (h : Cleared d d' ps) (hd : d.IsTree) :
    d'.LeadsTo q l ↔ d.LeadsTo q l ∧ ∀ p ∈ ps, ¬ d.LeadsTo p l := by
  rw [Disk.leadsTo_iff (h.isTree hd), Disk.leadsTo_iff hd, h.slot_iff]
  simp only [h.file_iff, exists_and_right, and_assoc]

/-- Taking away files twice takes away those of both lists. -/
theorem append (h : Cleared d₁ d₂ ps) (hd : d₁.IsTree) (h' : Cleared d₂ d₃ qs) :
    Cleared d₁ d₃ (ps ++ qs) where
  home_eq := h'.home_eq.trans h.home_eq
  node?_eq_none := by
    rintro l ⟨p, hp, hleads⟩
    rcases h.cases_node? l with ⟨hnone, -⟩ | ⟨heq, hnot⟩
    · rw [h'.node?_eq l, hnone]
      rintro q - ⟨-, content, hl⟩
      rw [hnone] at hl
      cases hl
    -- A path of the second list that led to this file does so still.
    · rcases List.mem_append.1 hp with hp | hp
      · exact absurd hleads (hnot p hp)
      · exact h'.node?_eq_none l ⟨p, hp, (h.leadsTo_iff hd).2 ⟨hleads, hnot⟩⟩
  node?_eq := by
    intro l hl
    rw [h'.node?_eq l, h.node?_eq l]
    · exact fun p hp => hl p (List.mem_append_left qs hp)
    · intro q hq hleads
      exact hl q (List.mem_append_right ps hq) ((h.leadsTo_iff hd).1 hleads).1

/-- A file is still there exactly if it was there and no path that was cleared
led to it. -/
theorem isFile_iff (h : Cleared d d' ps) (hd : d.IsTree) :
    d'.isFile q = true ↔ d.isFile q = true ∧ ∀ p ∈ ps, d.resolve p ≠ d.resolve q := by
  rw [Disk.isFile_iff, Disk.isFile_iff]
  simp only [h.leadsTo_iff hd]
  constructor
  · rintro ⟨l, hleads, hnot⟩
    refine ⟨⟨l, hleads⟩, fun p hp heq => hnot p hp ⟨heq.trans hleads.1, hleads.2⟩⟩
  · rintro ⟨⟨l, hleads⟩, hne⟩
    exact ⟨l, hleads, fun p hp hleads' => hne p hp (hleads'.1.trans hleads.1.symm)⟩

end Cleared

end Disk

end TieredFootage
