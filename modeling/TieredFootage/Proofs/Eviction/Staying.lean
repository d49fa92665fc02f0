import TieredFootage.Proofs.Eviction.Reach

/-!
# What becomes of a file that stays

A file that is not gone from its tier should be left as it was, with its row: then a
later evaluation finds it again and can retry.

On the way to a next tier this is so. An error of the disk ends a move before the file is
touched, when directories have been made at most, and the row is dropped only when
nothing was found. Without a next tier the row is dropped first, whether or not the file
can be taken away afterwards. If it cannot, it stays on the disk without a row.
-/

namespace TieredFootage

namespace Disk

variable {d d' : Disk} {p q : Path} {l : Location} {e : Fault} {n : Node}

theorem removeFile_of_error (h : (d.removeFile p).1 = .error e) : (d.removeFile p).2 = d := by
  unfold removeFile at h ⊢
  split at h
  · rfl
  · split at h
    · rfl
    · rfl
    · split at h
      · rw [if_pos (by assumption)]
      · cases h

/-- An error of a move comes before the source is touched: what was copied can also be
taken away. -/
theorem moveFile_of_error (hd : d.IsTree) (h : (d.moveFile p q).1 = .error e) :
    (d.moveFile p q).2 = (d.makeParent q).2 := by
  have htree := hd.makeParent q
  unfold moveFile at h ⊢
  cases hmade : d.makeParent q with
  | mk answer d₁ =>
    rw [hmade] at h htree
    cases answer with
    | error e => rfl
    | ok u =>
      dsimp only at h htree ⊢
      by_cases hleads : ∃ l, d₁.LeadsTo p l
      · obtain ⟨l, hl⟩ := hleads
        obtain ⟨hslot, content, hfile⟩ := (leadsTo_iff htree).1 hl
        rcases copyFile_cases htree hl.1 hfile q with ⟨e', hcopied⟩ | ⟨t, bytes, hok, -, ht, hwrote⟩
        · rw [hcopied]
        · have hremoved := (hwrote.removeFile ht hslot hfile).1
          cases hcopied : d₁.copyFile p q with
          | mk answer d₂ =>
            rw [hcopied] at h hok hremoved
            obtain rfl : answer = .ok bytes := hok
            cases hcleared : d₂.removeFile p with
            | mk answer d₃ =>
              dsimp only at h hremoved
              rw [hcleared] at h hremoved
              obtain rfl : answer = .ok () := hremoved
              cases h
      · obtain ⟨e', hcopied⟩ := copyFile_of_not_leadsTo (fun l hl => hleads ⟨l, hl⟩) q
        rw [hcopied]

/-- Where more directories were made, what a path leads to stays. -/
theorem Grown.stat_eq (h : Grown d d') (hd : d.IsTree) (hp : d.stat p = .ok n) :
    d'.stat p = .ok n := by
  cases n with
  | file content =>
    obtain ⟨l, -, hslot, hl⟩ := exists_slot_of_stat hd hp
    rw [stat_of_slot (h.keepsDirectories.slot_eq hslot), h.node?_eq_file_iff.2 hl]
  | directory =>
    obtain ⟨l, hresolve, hp⟩ := exists_ok_of_bind hp
    have hl : d.node? l = some .directory := by
      cases hnode : d.node? l with
      | none =>
        rw [hnode] at hp
        cases hp
      | some m =>
        rw [hnode] at hp
        rw [Except.ok.inj hp]
    simp only [stat, h.keepsDirectories.resolve_eq hresolve hl, bind, Except.bind,
      h.keepsDirectories.directory l hl]

end Disk

open Disk

namespace Holdings

variable {h : Holdings} {p root : Path} {next : Option Path}

/-- A path is left in place if its row is the same and what it led to on the disk is still
there. -/
structure LeftInPlace (h h' : Holdings) (p : Path) : Prop where
  row : h'.catalog.fileAt? p = h.catalog.fileAt? p
  node : ∀ n, h.disk.stat p = .ok n → h'.disk.stat p = .ok n

/-- A deletion that has not happened has failed, and its error has left the disk alone. -/
theorem discard_of_not_isGone (hstays : (h.discard p).1.isGone = false) :
    (h.discard p).1 = .failed ∧ (h.discard p).2.disk = h.disk := by
  rw [discard_disk]
  unfold discard at hstays ⊢
  dsimp only [dropRow] at hstays ⊢
  cases hremoved : h.disk.removeFile p with
  | mk answer d =>
    rw [hremoved] at hstays
    cases answer with
    | ok u => cases hstays
    | error e =>
      have hsame := removeFile_of_error (congrArg Prod.fst hremoved)
      rw [hremoved] at hsame
      cases e with
      | absent => cases hstays
      | _ => exact ⟨rfl, hsame⟩

/-- A move that has not happened has made directories at most, and no row is changed. -/
theorem move_of_not_isGone (hd : h.disk.IsTree) {q : Path}
    (hstays : (h.move p q).1.isGone = false) :
    Grown h.disk (h.move p q).2.disk ∧ (h.move p q).2.catalog.files = h.catalog.files := by
  rw [(move_spec h p q).1]
  unfold move at hstays ⊢
  dsimp only at hstays ⊢
  cases hmoved : h.disk.moveFile p q with
  | mk answer d =>
    rw [hmoved] at hstays
    cases answer with
    | ok bytes => cases hstays
    | error e =>
      have hgrown : Grown h.disk d := by
        have hmade := moveFile_of_error hd (congrArg Prod.fst hmoved)
        rw [hmoved] at hmade
        obtain rfl : d = (h.disk.makeParent q).2 := hmade
        exact grown_makeParent h.disk q
      cases e with
      | absent => cases hstays
      | _ => exact ⟨hgrown, Catalog.files_copyNote h.catalog p q⟩

/-- A path that is not gone was to be deleted and could not be, which has cost its row, or
no row has changed and directories were made at most. -/
theorem evict_of_not_isGone (hd : h.disk.IsTree)
    (hstays : (h.evict p root root next).1.isGone = false) :
    (next = none ∧ (h.evict p root root next).1 = .failed ∧
        (h.evict p root root next).2.disk = h.disk ∧
        (h.evict p root root next).2.catalog = (h.catalog.deleteFile p).2) ∨
      ((next = none → (h.evict p root root next).1 ≠ .failed) ∧
        Grown h.disk (h.evict p root root next).2.disk ∧
        (h.evict p root root next).2.catalog.files = h.catalog.files) := by
  unfold evict at hstays ⊢
  cases hserved : h.served.contains h.now p with
  | mk held served =>
    rw [hserved] at hstays
    cases held with
    | true => exact Or.inr ⟨fun _ => Eviction.noConfusion, Grown.refl _, rfl⟩
    | false =>
      dsimp only at hstays ⊢
      simp only [if_true]
      cases next with
      | none =>
        have hdiscarded := discard_of_not_isGone hstays
        exact Or.inl ⟨rfl, hdiscarded.1, hdiscarded.2, catalog_discard _ p⟩
      | some n =>
        refine Or.inr ⟨nofun, ?_⟩
        dsimp only [evictUnserved] at hstays ⊢
        split at hstays
        · rw [if_pos (by assumption)]
          exact ⟨Grown.refl _, rfl⟩
        · rw [if_neg (by assumption)]
          exact move_of_not_isGone (h := { h with served := served }) hd hstays

/-- If the catalog answers, a path that is not gone from its tier is left in place exactly
unless there is no next tier, the disk refused to delete what is there, and the path had a
row: that row has been dropped, and the disk is as it was. On the way to a next tier
directories are made at most. No other row changes. -/
theorem leftInPlace_iff (hd : h.disk.IsTree) (ha : ∀ q, h.catalog.answers q = true)
    (hstays : (h.evict p root root next).1.isGone = false) :
    (LeftInPlace h (h.evict p root root next).2 p ↔
      ¬ (next = none ∧ (h.evict p root root next).1 = .failed ∧ h.catalog.fileAt? p ≠ none)) ∧
    (next = none → (h.evict p root root next).1 = .failed →
      (h.evict p root root next).2.disk = h.disk ∧
        (h.evict p root root next).2.catalog.fileAt? p = none) ∧
    Grown h.disk (h.evict p root root next).2.disk ∧
    ∀ q, q ≠ p → (h.evict p root root next).2.catalog.fileAt? q = h.catalog.fileAt? q := by
  rcases evict_of_not_isGone hd hstays with
    ⟨hnext, hfailed, hdisk, hcatalog⟩ | ⟨hnot, hgrown, hfiles⟩
  · have hdropped : (h.evict p root root next).2.catalog.fileAt? p = none := by
      rw [hcatalog, Catalog.fileAt?_deleteFile_self (ha .deleteFile)]
    refine ⟨⟨?_, fun hrow => ⟨?_, fun n hn => hdisk ▸ hn⟩⟩, fun _ _ => ⟨hdisk, hdropped⟩,
      hdisk ▸ Grown.refl h.disk, fun q hq => ?_⟩
    · rintro hleft ⟨-, -, hrow⟩
      exact hrow (hleft.row ▸ hdropped)
    · by_contra hchanged
      exact hrow ⟨hnext, hfailed, fun hnone => hchanged (hdropped.trans hnone.symm)⟩
    · rw [hcatalog, Catalog.fileAt?_deleteFile_ne hq]
  · have hrow : ∀ q, (h.evict p root root next).2.catalog.fileAt? q = h.catalog.fileAt? q := by
      intro q
      rw [Catalog.fileAt?, hfiles, Catalog.fileAt?]
    exact ⟨⟨fun _ hbad => hnot hbad.1 hbad.2.1, fun _ => ⟨hrow p, fun n => hgrown.stat_eq hd⟩⟩,
      fun hnext hfailed => absurd hfailed (hnot hnext), hgrown, fun q _ => hrow q⟩

end Holdings

/-- The path of a catalogued file at which a directory stands now. -/
def blockedPath : Path := "/t0/1".toList

def blocked : Holdings where
  disk := { nodes := [
    (["t0".toList], .directory),
    (["t0".toList, "1".toList], .directory)] }
  catalog := {
    files := [{
      tierIndex := 0
      tierPath := "/t0".toList
      camera := "cam1"
      category := "recorder"
      subcategory := "segments"
      path := blockedPath
      directory := "/t0".toList
      filename := "1".toList
      size := 7
      createdAt := 1000 * second
      id := 1 }]
    lastFileId := 1 }

theorem isTree_blocked : blocked.disk.IsTree := isTree_of_nodes (by decide)

theorem answers_blocked (q : Query) : blocked.catalog.answers q = true := by
  cases q <;> rfl

/-- With a next tier it can be tried again. -/
theorem leftInPlace_iff_blocked :
    blocked.disk.IsTree ∧ (∀ q, blocked.catalog.answers q = true) ∧
      (blocked.evict blockedPath "/t0".toList "/t0".toList (some "/t1".toList)).1.isGone = false ∧
      Holdings.LeftInPlace blocked
        (blocked.evict blockedPath "/t0".toList "/t0".toList (some "/t1".toList)).2
        blockedPath := by
  have hstays : (blocked.evict blockedPath "/t0".toList "/t0".toList
      (some "/t1".toList)).1.isGone = false := by decide
  exact ⟨isTree_blocked, answers_blocked, hstays,
    (Holdings.leftInPlace_iff isTree_blocked answers_blocked hstays).1.2 nofun⟩

/-- With none the directory stays and the row is lost. -/
theorem not_forall_leftInPlace :
    ¬ ∀ (h : Holdings) (p root : Path) (next : Option Path), h.disk.IsTree → h.catalog.Keyed →
        (∀ q, h.catalog.answers q = true) → (h.evict p root root next).1.isGone = false →
        Holdings.LeftInPlace h (h.evict p root root next).2 p := by
  intro hall
  have hleft := hall blocked blockedPath "/t0".toList none isTree_blocked
    ⟨by decide, by decide, by decide, by decide, by decide, by decide⟩ answers_blocked (by decide)
  have hrow := congrArg Option.isSome hleft.row
  revert hrow
  decide

end TieredFootage
