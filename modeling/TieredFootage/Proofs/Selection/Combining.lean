import TieredFootage.Proofs.Selection.Attribution
import TieredFootage.Selection.Segments

/-!
# What the two axes select together

The paths to evict and the rows that they stand for are one selection. Paths are told
apart by their texts and rows by the ids of their files, and neither need be distinct: a
path can have several rows with several roots, and rows can repeat.

The rows are passed on as they came, except that with both axes those whose file stays on
the plain axis are left out. The paths are the first entries of the rows (`AreFirsts`):
each path once, with the root of its first row, in the order of these first rows.
-/

namespace TieredFootage

section Firsts

variable {α β γ : Type} [DecidableEq β] (key : α → β)

/-- The entries `ys` are those of `xs` with no entry of the same key before them, in
order. -/
structure AreFirsts (xs ys : List α) : Prop where
  mem_iff : ∀ y, y ∈ ys ↔ xs.find? (fun x => decide (key x = key y)) = some y
  ordered : ys.Pairwise fun x y => (xs.map key).idxOf (key x) < (xs.map key).idxOf (key y)

theorem mem_distinctFrom_iff {met : List β} {xs : List α} {y : α} :
    y ∈ distinctFrom key met xs ↔
      key y ∉ met ∧ xs.find? (fun x => decide (key x = key y)) = some y := by
  induction xs generalizing met with
  | nil => simp
  | cons x xs ih =>
    rw [distinctFrom_cons]
    split
    · rename_i hx
      rw [ih]
      refine and_congr_right fun hy => ?_
      have hne : ¬ key x = key y := fun heq => hy (heq ▸ hx)
      rw [List.find?_cons_of_neg (by simpa using hne)]
    · rename_i hx
      rw [List.mem_cons, ih]
      by_cases heq : key x = key y
      · rw [List.find?_cons_of_pos (by simpa using heq), ← heq]
        simp [hx, eq_comm]
      · have hne : y ≠ x := fun h => heq (congrArg key h).symm
        rw [List.find?_cons_of_neg (by simpa using heq), List.mem_cons]
        simp [hne, Ne.symm heq]

/-- What is kept comes in the order in which its keys are first met. -/
theorem pairwise_idxOf_distinctFrom (met : List β) (xs : List α) :
    (distinctFrom key met xs).Pairwise fun x y =>
      (xs.map key).idxOf (key x) < (xs.map key).idxOf (key y) := by
  induction xs generalizing met with
  | nil => exact List.Pairwise.nil
  | cons x xs ih =>
    have hlater : ∀ {met' : List β} {y : α}, key x ∈ met' → y ∈ distinctFrom key met' xs →
        ((x :: xs).map key).idxOf (key y) = (xs.map key).idxOf (key y) + 1 := by
      intro met' y hx hy
      have hne : key x ≠ key y := fun heq => ((mem_distinctFrom_iff key).1 hy).1 (heq ▸ hx)
      rw [List.map_cons, List.idxOf_cons_ne _ hne]
    have hrest : ∀ {met' : List β}, key x ∈ met' →
        (distinctFrom key met' xs).Pairwise fun y z =>
          ((x :: xs).map key).idxOf (key y) < ((x :: xs).map key).idxOf (key z) := by
      intro met' hx
      refine (ih met').imp_of_mem fun hy hz hlt => ?_
      rw [hlater hx hy, hlater hx hz]
      exact Nat.succ_lt_succ hlt
    rw [distinctFrom_cons]
    split
    · exact hrest ‹_›
    · refine List.pairwise_cons.2 ⟨fun y hy => ?_, hrest List.mem_cons_self⟩
      rw [hlater List.mem_cons_self hy, List.map_cons, List.idxOf_cons_self]
      exact Nat.succ_pos _

theorem areFirsts_distinctBy (xs : List α) : AreFirsts key xs (distinctBy key xs) where
  mem_iff := by
    intro y
    rw [distinctBy, mem_distinctFrom_iff]
    simp
  ordered := pairwise_idxOf_distinctFrom key [] xs

theorem distinctFrom_map (g : γ → α) (met : List β) (xs : List γ) :
    distinctFrom key met (xs.map g) = (distinctFrom (fun x => key (g x)) met xs).map g := by
  induction xs generalizing met with
  | nil => rfl
  | cons x xs ih =>
    rw [List.map_cons, distinctFrom_cons, distinctFrom_cons]
    split
    · exact ih met
    · rw [List.map_cons, ih]

namespace AreFirsts

variable {key} {xs ys zs : List α}

/-- Entries that come in the order of their keys are told apart by them. -/
theorem nodup_keys (h : AreFirsts key xs ys) : (ys.map key).Nodup :=
  List.pairwise_map.2 (h.ordered.imp fun hlt heq => absurd (heq ▸ hlt) (Nat.lt_irrefl _))

/-- Every key has a first entry. -/
theorem mem_map_iff (h : AreFirsts key xs ys) {k : β} : k ∈ ys.map key ↔ k ∈ xs.map key := by
  rw [List.mem_map, List.mem_map]
  constructor
  · rintro ⟨y, hy, rfl⟩
    exact ⟨y, List.mem_of_find?_eq_some ((h.mem_iff y).1 hy), rfl⟩
  · rintro ⟨x, hx, rfl⟩
    have hsome : (xs.find? fun z => decide (key z = key x)).isSome := by
      rw [List.find?_isSome]
      exact ⟨x, hx, by simp⟩
    obtain ⟨y, hy⟩ := Option.isSome_iff_exists.1 hsome
    have hkey : key y = key x := by simpa using List.find?_some hy
    exact ⟨y, (h.mem_iff y).2 (hkey ▸ hy), hkey⟩

/-- A list has its first entries in one way only. -/
theorem eq (h : AreFirsts key xs ys) (h' : AreFirsts key xs zs) : ys = zs := by
  have hperm : ys.Perm zs := by
    rw [List.perm_ext_iff_of_nodup h.nodup_keys.of_map h'.nodup_keys.of_map]
    intro y
    rw [h.mem_iff, h'.mem_iff]
  refine List.Perm.eq_of_pairwise (fun y z _ _ hyz hzy => ?_) h.ordered h'.ordered hperm
  exact absurd hzy (Nat.lt_asymm hyz)

end AreFirsts

end Firsts

/-- The path of a row with the root it was catalogued under. -/
def EventRow.entry (row : EventRow) : Path × Path := (row.path, row.tierPath)

/-- The path of a file with the root it was catalogued under. -/
def TierFile.entry (f : TierFile) : Path × Path := (f.path, f.tierPath)

namespace SegmentSelection

theorem areFirsts_ofEvents (rows : List EventRow) :
    AreFirsts Prod.fst (rows.map EventRow.entry) (ofEvents rows).files := by
  have hfirsts := areFirsts_distinctBy Prod.fst (rows.map EventRow.entry)
  rwa [distinctBy, distinctFrom_map] at hfirsts

theorem areFirsts_ofFiles (files : List TierFile) :
    AreFirsts Prod.fst (files.map TierFile.entry) (ofFiles files).files := by
  have hfirsts := areFirsts_distinctBy Prod.fst (files.map TierFile.entry)
  rwa [distinctBy, distinctFrom_map] at hfirsts

end SegmentSelection

theorem overlap_eq_filter (rows : List EventRow) (files : List TierFile) :
    overlap rows files = rows.filter fun row => decide (∃ f ∈ files, f.id = row.fileId) := by
  rw [overlap]
  refine List.filter_congr fun row _ => ?_
  rw [decide_eq_decide, List.mem_map]

/-- With the events axis the paths are the first entries of the rows that are passed on. -/
theorem areFirsts_combine_events (plain : Option (List TierFile)) (rows : List EventRow) :
    AreFirsts Prod.fst ((combine plain (some rows)).events.map EventRow.entry)
      (combine plain (some rows)).files := by
  cases plain with
  | none => exact SegmentSelection.areFirsts_ofEvents rows
  | some files => exact SegmentSelection.areFirsts_ofEvents (overlap rows files)

theorem nodup_paths_combine (plain : Option (List TierFile)) (events : Option (List EventRow)) :
    ((combine plain events).files.map Prod.fst).Nodup := by
  cases events with
  | some rows => exact (areFirsts_combine_events plain rows).nodup_keys
  | none =>
    cases plain with
    | none => exact List.nodup_nil
    | some files => exact (SegmentSelection.areFirsts_ofFiles files).nodup_keys

/-- What is selected from the files of the plain axis and the rows of the events axis,
where `plain` and `events` are axes of which each may be left out. No path is there twice.
With the events axis the rows are passed on, less those whose file stays on the plain axis
if that is there too; the paths are those of the rows passed on, and they are exactly the
first entries of these. With the plain axis alone there are no rows, and the paths are
exactly the first entries of its files. -/
theorem combine_keeps_firsts (files : List TierFile) (rows : List EventRow)
    (plain : Option (List TierFile)) (events : Option (List EventRow)) :
    ((combine plain events).files.map Prod.fst).Nodup ∧
      (combine (some files) (some rows)).events =
        rows.filter (fun row => decide (∃ f ∈ files, f.id = row.fileId)) ∧
      (combine none (some rows)).events = rows ∧
      (∀ p, p ∈ (combine plain (some rows)).files.map Prod.fst ↔
        ∃ row ∈ (combine plain (some rows)).events, row.path = p) ∧
      (∀ entries, AreFirsts Prod.fst
          ((combine plain (some rows)).events.map EventRow.entry) entries ↔
        entries = (combine plain (some rows)).files) ∧
      (combine (some files) none).events = [] ∧
      ∀ entries, AreFirsts Prod.fst (files.map TierFile.entry) entries ↔
        entries = (combine (some files) none).files := by
  have hevents := areFirsts_combine_events plain rows
  have hfiles : AreFirsts Prod.fst (files.map TierFile.entry) (combine (some files) none).files :=
    SegmentSelection.areFirsts_ofFiles files
  refine ⟨nodup_paths_combine plain events, overlap_eq_filter rows files, rfl, fun p => ?_,
    fun entries => ⟨fun h => h.eq hevents, fun h => h ▸ hevents⟩, rfl,
    fun entries => ⟨fun h => h.eq hfiles, fun h => h ▸ hfiles⟩⟩
  rw [hevents.mem_map_iff, List.map_map, List.mem_map]
  exact Iff.rfl

/-- Of two rows about one path the first one counts, and a row about another path is passed
on by the id of its file alone. -/
example :
    let row (i : Int) (p root : String) : EventRow := ⟨none, i, p.toList, root.toList⟩
    let file (i : Int) : TierFile := ⟨i, "/a".toList, "/".toList, 0, 0, none⟩
    (combine (some [file 1, file 2]) (some [row 1 "/b" "/t0", row 3 "/a" "/t0",
      row 2 "/b" "/t1", row 1 "/b" "/t0"])).files = [("/b".toList, "/t0".toList)] := by
  decide

end TieredFootage
