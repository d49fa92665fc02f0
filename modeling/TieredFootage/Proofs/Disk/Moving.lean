import TieredFootage.Proofs.Disk.Walking

/-!
# What a move does to the disk

A move makes the directory of its target, empties the target, copies, and takes
the source away. The first part only adds directories, so every file stays where
it is. After it, the target either has no slot for a file and the move ends, or
it has one, and the move goes through: the source is gone, the slot holds the
content, and no other node has changed. Nothing is said about the source and the
slot being two places. If they are one, the content is lost.
-/

namespace TieredFootage

namespace Disk

variable {d d' d₁ d₂ d₃ : Disk} {p : Path} {l t m : Location} {content : String}

/-- A later disk that has more directories and is otherwise the same. -/
structure Grown (d d' : Disk) : Prop where
  home_eq : d'.home = d.home
  node?_eq : ∀ l, d.node? l ≠ none → d'.node? l = d.node? l
  file : ∀ l content, d'.node? l = some (.file content) → d.node? l = some (.file content)

namespace Grown

theorem refl (d : Disk) : Grown d d := ⟨rfl, fun _ _ => rfl, fun _ _ h => h⟩

theorem trans (h : Grown d₁ d₂) (h' : Grown d₂ d₃) : Grown d₁ d₃ where
  home_eq := h'.home_eq.trans h.home_eq
  node?_eq := by
    intro l hl
    have h₂ := h.node?_eq l hl
    rw [h'.node?_eq l (h₂ ▸ hl), h₂]
  file := fun l content hl => h.file l content (h'.file l content hl)

theorem keepsDirectories (h : Grown d d') : KeepsDirectories d d' where
  home_eq := h.home_eq
  directory := fun l hl => (h.node?_eq l (by simp [hl])).trans hl

/-- Files are where they were, and there are no others. -/
theorem node?_eq_file_iff (h : Grown d d') :
    d'.node? l = some (.file content) ↔ d.node? l = some (.file content) :=
  ⟨h.file l content, fun hl => (h.node?_eq l (by simp [hl])).trans hl⟩

end Grown

/-- A directory is made where nothing was. -/
theorem makeDirectory_cases (d : Disk) (p : Path) :
    (d.makeDirectory p).2 = d ∨
      ∃ l slash, d.slot p = .ok (l, slash) ∧ d.node? l = none ∧
        (d.makeDirectory p).2 = (d.put l .directory).note (.made l true) := by
  unfold makeDirectory
  cases hslot : d.slot p with
  | error e => exact Or.inl rfl
  | ok x =>
    obtain ⟨l, slash⟩ := x
    dsimp only
    cases hnode : d.node? l with
    | some n => exact Or.inl rfl
    | none => exact Or.inr ⟨l, slash, rfl, hnode, rfl⟩

theorem grown_makeDirectory (d : Disk) (p : Path) : Grown d (d.makeDirectory p).2 := by
  rcases makeDirectory_cases d p with h | ⟨l, slash, hslot, hnode, h⟩
  · rw [h]
    exact Grown.refl d
  · rw [h]
    have hput := fun m => node?_put d .directory m (slot_ne_nil hslot)
    refine ⟨rfl, ?_, ?_⟩
    · intro m hm
      have hml : m ≠ l := fun hml => hm (hml ▸ hnode)
      rw [node?_note, hput, if_neg hml]
    · intro m content hm
      rw [node?_note, hput] at hm
      split_ifs at hm with hml
      · cases hm
      · exact hm

theorem IsTree.makeDirectory (hd : d.IsTree) (p : Path) : (d.makeDirectory p).2.IsTree := by
  rcases makeDirectory_cases d p with h | ⟨l, slash, hslot, hnode, h⟩
  · rw [h]
    exact hd
  · rw [h]
    exact (hd.put (slot_ne_nil hslot) (node?_dropLast_of_slot hslot) (Or.inl rfl)).note _

/-- What making single directories keeps, making one in another keeps. -/
theorem makeDirectoriesWithin_keeps {P : Disk → Prop}
    (hstep : ∀ {d p answer d'}, d.makeDirectory p = (answer, d') → P d → P d') (fuel : Nat) :
    ∀ {d p answer d'}, makeDirectoriesWithin fuel d p = (answer, d') → P d → P d' := by
  induction fuel with
  | zero =>
    intro d p answer d' h hd
    cases h
    exact hd
  | succ fuel ih =>
    intro d p answer d' h hd
    rw [makeDirectoriesWithin] at h
    split at h
    · cases h
      exact hd
    · split at h
      · rename_i hfirst
        cases h
        exact hstep hfirst hd
      · rename_i hfirst
        split at h
        · cases h
          exact hstep hfirst hd
        · split at h
          · rename_i hparents
            cases h
            exact ih hparents (hstep hfirst hd)
          · rename_i hparents
            have hd₂ := ih hparents (hstep hfirst hd)
            split at h
            · rename_i hlast
              cases h
              exact hstep hlast hd₂
            · rename_i hlast
              split at h <;> cases h <;> exact hstep hlast hd₂
      · rename_i hfirst
        split at h <;> cases h <;> exact hstep hfirst hd

theorem makeDirectoriesWithin_preserves {P : Disk → Prop}
    (hstep : ∀ d p, P d → P (d.makeDirectory p).2) (fuel : Nat) (hd : P d) (p : Path) :
    P (makeDirectoriesWithin fuel d p).2 := by
  refine makeDirectoriesWithin_keeps (P := P) ?_ fuel rfl hd
  intro d p answer d' heq h
  have hnext := hstep d p h
  rwa [heq] at hnext

theorem makeParent_keeps {P : Disk → Prop} (hstep : ∀ d p, P d → P (d.makeDirectory p).2)
    (hd : P d) (p : Path) : P (d.makeParent p).2 := by
  unfold makeParent
  split
  · exact hd
  · exact makeDirectoriesWithin_preserves hstep _ hd _

theorem grown_makeParent (d : Disk) (p : Path) : Grown d (d.makeParent p).2 :=
  makeParent_keeps (fun d' q h => h.trans (grown_makeDirectory d' q)) (Grown.refl d) p

theorem IsTree.makeParent (hd : d.IsTree) (p : Path) : (d.makeParent p).2.IsTree :=
  makeParent_keeps (fun _ q h => h.makeDirectory q) hd p

/-- A later disk on which one place has become a file and nothing else has
changed. -/
structure Wrote (d d' : Disk) (t : Location) (content : String) : Prop where
  home_eq : d'.home = d.home
  node?_eq : ∀ m, d'.node? m = if m = t then some (.file content) else d.node? m

theorem Wrote.keepsDirectories (h : Wrote d d' t content) (ht : d.node? t ≠ some .directory) :
    KeepsDirectories d d' where
  home_eq := h.home_eq
  directory := by
    intro m hm
    have hmt : m ≠ t := fun hmt => ht (hmt ▸ hm)
    rw [h.node?_eq m, if_neg hmt, hm]

theorem Wrote.isTree (h : Wrote d d' t content) (hd : d.IsTree) (hslot : d.slot p = .ok (t, false))
    (ht : d.node? t ≠ some .directory) : d'.IsTree := by
  intro m hm
  apply (h.keepsDirectories ht).directory
  by_cases hmt : m = t
  · rw [hmt]
    exact node?_dropLast_of_slot hslot
  · rw [h.node?_eq m, if_neg hmt] at hm
    exact hd m hm

/-- A file is opened for writing where its path has a slot and no directory is. -/
theorem truncate_cases (hd : d.IsTree) (p : Path) :
    (∃ e, d.truncate p = (.error e, d)) ∨
      ∃ t, (d.truncate p).1 = .ok t ∧ d.slot p = .ok (t, false) ∧
        d.node? t ≠ some .directory ∧ Wrote d (d.truncate p).2 t "" := by
  unfold truncate
  cases hresolve : d.resolve p with
  | ok t =>
    dsimp only
    split
    · rename_i c hnode
      have hslot := slot_of_resolve hd hresolve hnode
      refine Or.inr ⟨t, rfl, hslot, by simp [hnode], rfl, ?_⟩
      exact fun m => node?_put d _ m (slot_ne_nil hslot)
    · exact Or.inl ⟨_, rfl⟩
  | error e =>
    cases e with
    | absent =>
      dsimp only
      cases hslot : d.slot p with
      | error e => exact Or.inl ⟨e, rfl⟩
      | ok x =>
        obtain ⟨t, slash⟩ := x
        cases slash with
        | true => exact Or.inl ⟨_, rfl⟩
        | false =>
          refine Or.inr ⟨t, rfl, rfl, ?_, rfl, ?_⟩
          · intro hnode
            rw [resolve_of_slot hslot, hnode] at hresolve
            cases hresolve
          · exact fun m => node?_put d _ m (slot_ne_nil hslot)
    | _ => exact Or.inl ⟨_, rfl⟩

/-- A copy onto the source itself finds it empty. -/
theorem copyFile_cases (hd : d.IsTree) {source : Path} (hsource : d.resolve source = .ok l)
    (hl : d.node? l = some (.file content)) (target : Path) :
    (∃ e, d.copyFile source target = (.error e, d)) ∨
      ∃ t bytes, (d.copyFile source target).1 = .ok bytes ∧ d.slot target = .ok (t, false) ∧
        d.node? t ≠ some .directory ∧
        Wrote d (d.copyFile source target).2 t (if l = t then "" else content) := by
  unfold copyFile
  rw [hsource]
  dsimp only
  rw [hl]
  dsimp only
  rcases truncate_cases hd target with ⟨e, h⟩ | ⟨t, hok, hslot, hnode, hwrote⟩
  · rw [h]
    exact Or.inl ⟨e, rfl⟩
  · right
    cases hresult : d.truncate target with
    | mk answer d' =>
      rw [hresult] at hok hwrote
      obtain rfl : answer = .ok t := hok
      dsimp only at hwrote ⊢
      by_cases hlt : l = t
      · have hempty : d'.node? l = some (.file "") := by rw [hwrote.node?_eq, if_pos hlt]
        rw [hempty]
        refine ⟨t, _, rfl, hslot, hnode, ?_⟩
        simp only [if_pos hlt]
        exact hwrote
      · have hkept : d'.node? l = some (.file content) := by rw [hwrote.node?_eq, if_neg hlt, hl]
        rw [hkept]
        refine ⟨t, _, rfl, hslot, hnode, ?_⟩
        simp only [if_neg hlt]
        refine ⟨hwrote.home_eq, ?_⟩
        intro m
        rw [node?_put d' _ m (slot_ne_nil hslot), hwrote.node?_eq]
        split_ifs <;> rfl

theorem removeFile_of_slot (h : d.slot p = .ok (l, false)) (hl : d.node? l = some (.file content)) :
    d.removeFile p = (.ok (), (d.drop l).note (.removed l false)) := by
  simp [removeFile, h, hl]

/-- After something was written, a file is still there to be taken away. -/
theorem Wrote.removeFile {written : String} (h : Wrote d d' t written)
    (ht : d.node? t ≠ some .directory) (hslot : d.slot p = .ok (l, false))
    (hl : d.node? l = some (.file content)) :
    (d'.removeFile p).1 = .ok () ∧ KeepsDirectories d (d'.removeFile p).2 ∧
      ∀ m, (d'.removeFile p).2.node? m = if m = l then none else d'.node? m := by
  have hkeeps := h.keepsDirectories ht
  obtain ⟨c, hl'⟩ : ∃ c, d'.node? l = some (.file c) := by
    rw [h.node?_eq]
    split_ifs
    · exact ⟨_, rfl⟩
    · exact ⟨_, hl⟩
  have hdrop := fun m => node?_drop d' m (slot_ne_nil hslot)
  rw [removeFile_of_slot (hkeeps.slot_eq hslot) hl']
  refine ⟨rfl, ⟨h.home_eq, ?_⟩, hdrop⟩
  intro m hm
  have hml : m ≠ l := by
    rintro rfl
    rw [hl] at hm
    cases hm
  rw [node?_note, hdrop, if_neg hml]
  exact hkeeps.directory m hm

/-- A move that fails has made the directory of the target at most. A move that goes
through has written the content to the slot of the target, and then cleared the
source. -/
theorem moveFile_cases (hd : d.IsTree) {source : Path} (hsource : d.slot source = .ok (l, false))
    (hl : d.node? l = some (.file content)) (target : Path) :
    (∃ e, (d.moveFile source target).1 = .error e ∧
        (d.moveFile source target).2 = (d.makeParent target).2) ∨
      ∃ t bytes, (d.moveFile source target).1 = .ok bytes ∧
        (d.makeParent target).2.slot target = .ok (t, false) ∧
        (d.makeParent target).2.node? t ≠ some .directory ∧
        KeepsDirectories (d.makeParent target).2 (d.moveFile source target).2 ∧
        ∀ m, (d.moveFile source target).2.node? m =
          if m = l then none
          else if m = t then some (.file content)
          else (d.makeParent target).2.node? m := by
  have hgrown := grown_makeParent d target
  have htree := hd.makeParent target
  unfold moveFile
  cases hmade : d.makeParent target with
  | mk answer d₁ =>
    rw [hmade] at hgrown htree
    dsimp only at hgrown htree
    cases answer with
    | error e => exact Or.inl ⟨e, rfl, rfl⟩
    | ok u =>
      dsimp only
      have hl₁ : d₁.node? l = some (.file content) := hgrown.node?_eq_file_iff.2 hl
      have hsource₁ : d₁.slot source = .ok (l, false) := hgrown.keepsDirectories.slot_eq hsource
      have hresolve₁ : d₁.resolve source = .ok l := by
        rw [resolve_of_slot hsource₁, if_neg (by simp [hl₁])]
      rcases copyFile_cases htree hresolve₁ hl₁ target with
        ⟨e, h⟩ | ⟨t, bytes, hok, hslot, hnode, hwrote⟩
      · rw [h]
        exact Or.inl ⟨e, rfl, rfl⟩
      · obtain ⟨hremoved, hkeeps, hafter⟩ := hwrote.removeFile hnode hsource₁ hl₁
        cases hcopied : d₁.copyFile source target with
        | mk answer d₂ =>
          rw [hcopied] at hok hwrote hremoved hkeeps hafter
          obtain rfl : answer = .ok bytes := hok
          cases hcleared : d₂.removeFile source with
          | mk answer d₃ =>
            dsimp only at hremoved hkeeps hafter hwrote ⊢
            rw [hcleared] at hremoved hkeeps hafter ⊢
            obtain rfl : answer = .ok () := hremoved
            refine Or.inr ⟨t, bytes, rfl, hslot, hnode, hkeeps, fun m => ?_⟩
            rw [hafter, hwrote.node?_eq]
            split_ifs with hml hmt hlt
            · rfl
            · exact absurd (hmt.trans hlt.symm) hml
            · rfl
            · rfl

theorem IsTree.copyFile (hd : d.IsTree) (source target : Path) :
    (d.copyFile source target).2.IsTree := by
  by_cases hfile : ∃ l content, d.resolve source = .ok l ∧ d.node? l = some (.file content)
  · obtain ⟨l, content, hsource, hl⟩ := hfile
    rcases copyFile_cases hd hsource hl target with ⟨e, h⟩ | ⟨t, -, -, hslot, hnode, hwrote⟩
    · rw [h]
      exact hd
    · exact hwrote.isTree hd hslot hnode
  · unfold Disk.copyFile
    split
    · exact hd
    · rename_i l hsource
      split
      · rename_i content hl
        exact absurd ⟨l, content, hsource, hl⟩ hfile
      · exact hd

theorem IsTree.removeFile (hd : d.IsTree) (p : Path) : (d.removeFile p).2.IsTree := by
  unfold Disk.removeFile
  split
  · exact hd
  · rename_i l slash hslot
    split
    · exact hd
    · exact hd
    · rename_i content hl
      split
      · exact hd
      · exact (hd.drop (slot_ne_nil hslot) (by simp [hl])).note _

theorem IsTree.moveFile (hd : d.IsTree) (source target : Path) :
    (d.moveFile source target).2.IsTree := by
  have hmade := hd.makeParent target
  unfold Disk.moveFile
  split
  · rename_i heq
    rw [heq] at hmade
    exact hmade
  · rename_i d₁ heq
    rw [heq] at hmade
    have hcopied := hmade.copyFile source target
    split
    · rename_i heq'
      rw [heq'] at hcopied
      exact hcopied
    · rename_i d₂ heq'
      rw [heq'] at hcopied
      have hremoved := hcopied.removeFile source
      split <;> (rename_i heq''; rw [heq''] at hremoved; exact hremoved)

end Disk

end TieredFootage
