import TieredFootage.Proofs.Disk.Clearing
import TieredFootage.Proofs.Eviction.Content
import TieredFootage.Proofs.Path.Normal

/-!
# What an eviction can reach

One equation says what an eviction does to the disk: nothing if the path is
protected, or if it would move onto itself, and otherwise one move or one
removal. In the catalog it deletes the row of its own path at most, and copies
the note of that path. The clock stands still, and the registry has been asked
about the path and nothing else.

So whatever is to be known about a state after an eviction is first said about
these few operations.
-/

namespace TieredFootage

open Disk

namespace Disk

variable {d d' d₁ d₂ d₃ : Disk} {p q : Path} {l : Location}

/-- There is a file at a location. -/
def HasFile (d : Disk) (l : Location) : Prop := ∃ content, d.node? l = some (.file content)

/-- A later disk with all directories and all files, whatever their content,
except perhaps the file of one path. -/
structure Spares (d d' : Disk) (p : Path) : Prop where
  keepsDirectories : KeepsDirectories d d'
  hasFile : ∀ l, d.HasFile l → d'.HasFile l ∨ locationText l = p

namespace Spares

theorem refl (d : Disk) (p : Path) : Spares d d p :=
  ⟨KeepsDirectories.refl d, fun _ hl => Or.inl hl⟩

theorem trans (h : Spares d₁ d₂ p) (h' : Spares d₂ d₃ p) : Spares d₁ d₃ p where
  keepsDirectories := h.keepsDirectories.trans h'.keepsDirectories
  hasFile := fun l hl => (h.hasFile l hl).elim (h'.hasFile l) Or.inr

end Spares

theorem Grown.spares (h : Grown d d') (p : Path) : Spares d d' p where
  keepsDirectories := h.keepsDirectories
  hasFile := by
    rintro l ⟨content, hl⟩
    exact Or.inl ⟨content, h.node?_eq_file_iff.2 hl⟩

theorem spares_copyFile (hd : d.IsTree) (source target p : Path) :
    Spares d (d.copyFile source target).2 p := by
  by_cases hfile : ∃ l, d.LeadsTo source l
  · obtain ⟨l, hsource, content, hl⟩ := hfile
    -- A file that is written over is a file still.
    rcases copyFile_cases hd hsource hl target with ⟨e, h⟩ | ⟨t, -, -, -, hnode, hwrote⟩
    · rw [h]
      exact Spares.refl d p
    · refine ⟨hwrote.keepsDirectories hnode, ?_⟩
      rintro m ⟨c, hm⟩
      refine Or.inl ?_
      rw [HasFile, hwrote.node?_eq]
      by_cases hmt : m = t
      · rw [if_pos hmt]
        exact ⟨_, rfl⟩
      · rw [if_neg hmt]
        exact ⟨c, hm⟩
  · obtain ⟨e, hsame⟩ := copyFile_of_not_leadsTo (fun l hl => hfile ⟨l, hl⟩) target
    rw [hsame]
    exact Spares.refl d p

/-- A normal path leads to no file but the one at the location that it spells. -/
theorem spares_removeFile (hd : d.IsTree) (hp : p.IsNormal) : Spares d (d.removeFile p).2 p := by
  have hcleared := cleared_removeFile hd p
  refine ⟨hcleared.keepsDirectories, ?_⟩
  rintro l ⟨content, hl⟩
  by_cases hleads : d.LeadsTo p l
  · exact Or.inr (locationText_of_resolve hp hleads.1)
  · refine Or.inl ⟨content, hcleared.file_iff.2 ⟨hl, fun q hq => ?_⟩⟩
    rwa [List.mem_singleton.1 hq]

theorem spares_moveFile (hd : d.IsTree) (hp : p.IsNormal) (target : Path) :
    Spares d (d.moveFile p target).2 p := by
  have hmade := (grown_makeParent d target).spares p
  have htree := hd.makeParent target
  unfold moveFile
  cases hmk : d.makeParent target with
  | mk answer d₁ =>
    rw [hmk] at hmade htree
    cases answer with
    | error e => exact hmade
    | ok u =>
      have hcopied := hmade.trans (spares_copyFile htree p target p)
      have htree' := htree.copyFile p target
      dsimp only at hcopied htree' ⊢
      cases hcp : d₁.copyFile p target with
      | mk answer d₂ =>
        rw [hcp] at hcopied htree'
        cases answer with
        | error e => exact hcopied
        | ok bytes =>
          have hremoved := hcopied.trans (spares_removeFile htree' hp)
          dsimp only at hremoved ⊢
          split <;> (rename_i heq; rw [heq] at hremoved; exact hremoved)

end Disk

namespace Holdings

variable {h : Holdings} {p fileRoot root : Path} {next : Option Path}

theorem catalog_discard (h : Holdings) (p : Path) :
    (h.discard p).2.catalog = (h.catalog.deleteFile p).2 := by
  unfold discard
  dsimp only
  split <;> rfl

theorem catalog_move (h : Holdings) (source target : Path) :
    (h.move source target).2.catalog = (h.catalog.copyNote source target).2 ∨
      (h.move source target).2.catalog =
        ((h.catalog.copyNote source target).2.deleteFile source).2 := by
  unfold move
  dsimp only
  split
  · exact Or.inl rfl
  · exact Or.inr rfl
  · exact Or.inl rfl

/-- What holds of the catalog whether or not the row of the path is deleted and its note
copied to where it is to go holds after the path was evicted. -/
theorem catalog_evict_to {P : Catalog → Prop} (hdelete : ∀ c, P c → P (c.deleteFile p).2)
    (hcopy : ∀ c n, next = some n → P c → P (c.copyNote p (destination p fileRoot n)).2)
    (hc : P h.catalog) : P (h.evict p fileRoot root next).2.catalog := by
  have hunserved : ∀ g : Holdings, P g.catalog → P (g.evictUnserved p fileRoot next).2.catalog := by
    intro g hg
    cases next with
    | none =>
      rw [evictUnserved, catalog_discard]
      exact hdelete g.catalog hg
    | some n =>
      rw [evictUnserved]
      split
      · exact hg
      · rcases catalog_move g p (destination p fileRoot n) with hmove | hmove
        · rw [hmove]
          exact hcopy g.catalog n rfl hg
        · rw [hmove]
          exact hdelete _ (hcopy g.catalog n rfl hg)
  unfold evict
  split
  · exact hc
  · rename_i served _
    have hg := hunserved { h with served := served } hc
    dsimp only
    split
    · exact hg
    · exact hdelete _ hg

/-- What holds of the catalog whatever note of the path is copied, and whether
its row is deleted or not, holds after the path was evicted. -/
theorem catalog_evict {P : Catalog → Prop} (hdelete : ∀ c, P c → P (c.deleteFile p).2)
    (hcopy : ∀ c target, P c → P (c.copyNote p target).2) (hc : P h.catalog) :
    P (h.evict p fileRoot root next).2.catalog :=
  catalog_evict_to hdelete (fun c _ _ => hcopy c _) hc

/-- What an eviction does to the disk. -/
theorem disk_evict (h : Holdings) (p fileRoot root : Path) (next : Option Path) :
    (h.evict p fileRoot root next).2.disk =
      if h.served.protects h.now p then h.disk
      else
        match next with
        | none => (h.disk.removeFile p).2
        | some n =>
          if destination p fileRoot n = p then h.disk
          else (h.disk.moveFile p (destination p fileRoot n)).2 := by
  unfold evict Served.contains
  by_cases hp : h.served.protects h.now p = true
  · rw [if_pos hp, if_pos hp]
  · rw [if_neg hp, if_neg hp]
    have hdrop : ∀ g : Holdings, (if fileRoot = root then g else g.dropRow p).disk = g.disk := by
      intro g
      split <;> rfl
    dsimp only
    rw [hdrop]
    cases next with
    | none => exact discard_disk _ p
    | some n =>
      dsimp only [evictUnserved]
      split
      · rfl
      · exact (move_spec _ p _).1

/-- An eviction can take away or move the one file that its path leads to. -/
theorem spares_evict (hd : h.disk.IsTree) (hp : p.IsNormal) (fileRoot root : Path)
    (next : Option Path) : Spares h.disk (h.evict p fileRoot root next).2.disk p := by
  rw [disk_evict]
  split
  · exact Spares.refl h.disk p
  · split
    · exact spares_removeFile hd hp
    · split
      · exact Spares.refl h.disk p
      · exact spares_moveFile hd hp _

/-- Only to a next tier is a file moved. -/
theorem exists_next_of_evict_eq_moved {q : Path}
    (hq : (h.evict p fileRoot root next).1 = .moved q) :
    ∃ n, next = some n ∧ q = destination p fileRoot n := by
  cases next with
  | some n =>
    rcases h.evict_next_cases p fileRoot root n with ⟨-, hmoved⟩ | ⟨-, hmoved⟩
    · exact absurd hq (hmoved q)
    · exact ⟨n, rfl, ((hmoved q).1 hq).1⟩
  | none =>
    unfold evict at hq
    split at hq
    · cases hq
    · simp only [evictUnserved, discard] at hq
      split at hq <;> cases hq

/-- Deleting a file takes no time and asks nobody who reads it. -/
theorem discard_frame (h : Holdings) (p : Path) :
    (h.discard p).2.now = h.now ∧ (h.discard p).2.served = h.served := by
  rw [discard]
  dsimp only [dropRow]
  split <;> exact ⟨rfl, rfl⟩

/-- Moving a file takes no time and asks nobody who reads it. -/
theorem move_frame (h : Holdings) (p q : Path) :
    (h.move p q).2.now = h.now ∧ (h.move p q).2.served = h.served := by
  rw [move]
  dsimp only [dropRow]
  split <;> exact ⟨rfl, rfl⟩

theorem evictUnserved_frame (h : Holdings) (p fileRoot : Path) (next : Option Path) :
    (h.evictUnserved p fileRoot next).2.now = h.now ∧
      (h.evictUnserved p fileRoot next).2.served = h.served := by
  cases next with
  | none => exact h.discard_frame p
  | some n =>
    rw [evictUnserved]
    split
    · exact ⟨rfl, rfl⟩
    · exact h.move_frame p _

theorem now_evict (h : Holdings) (p fileRoot root : Path) (next : Option Path) :
    (h.evict p fileRoot root next).2.now = h.now := by
  unfold evict
  split
  · rfl
  · rename_i served _
    dsimp only
    split
    all_goals exact (evictUnserved_frame { h with served := served } p fileRoot next).1

/-- The registry is asked about the path and is otherwise left alone. -/
theorem served_evict (h : Holdings) (p fileRoot root : Path) (next : Option Path) :
    (h.evict p fileRoot root next).2.served = (h.served.contains h.now p).2 := by
  unfold evict
  split <;> rename_i served hcontains <;> rw [hcontains]
  dsimp only
  split
  all_goals exact (evictUnserved_frame { h with served := served } p fileRoot next).2

/-- Evicting a path changes no answer about who is being served. -/
theorem protects_evict (h : Holdings) (p fileRoot root : Path) (next : Option Path) {later : Int}
    (hlater : h.now ≤ later) (q : Path) :
    (h.evict p fileRoot root next).2.served.protects later q = h.served.protects later q := by
  rw [served_evict]
  exact Served.protects_contains h.served h.now later p q hlater

end Holdings

end TieredFootage
