import TieredFootage.Proofs.Selection.Attribution
import TieredFootage.Proofs.Selection.Walks
import TieredFootage.Selection.Segments

/-!
# Evaluating what is left

An evaluation takes files out of a tier, and the next one sees the files that
are left. Whatever was taken away, the next one selects no file that the first
one would have kept: a file has fewer newer bytes in front of it, a recording
has fewer bytes of its own and in front of it, a segment that some recording
kept is still kept by it, and a segment that was linked to a recording still is.
So an evaluation at the same moment, after what was selected has left, selects
nothing.

`Axes` are the retentions of a segment tier, each of which may be left out.
-/

namespace TieredFootage

variable {recordings : List Recording} {files rest : List TierFile} {r : Retention} {now : Int}

/-- Of the files that are left none leaves that would have stayed. -/
theorem filesToMove_subset (h : rest.Sublist files) :
    filesToMove rest r now ⊆ filesToMove files r now := by
  intro f hf
  have hsorted := newestFirst_sublist TierFile.rank h
  rw [filesToMove, Retention.mem_leaving] at hf ⊢
  exact Retention.mem_judge_of_sublist (fun _ => Nat.le_refl _) hsorted (Nat.zero_le _)
    (Nat.le_refl 0) hf

section Recordings

theorem Recording.linkedBytes_le (x : Recording) (h : rest.Sublist files) :
    x.linkedBytes now rest ≤ x.linkedBytes now files :=
  total_sublist ((h.filter _).map _)

/-- A recording that stays does so if there are fewer files. -/
theorem Stays.of_sublist (h : rest.Sublist files) {x : Recording}
    (hx : Stays recordings files r now x) : Stays recordings rest r now x :=
  hx.imp_right (Retention.mem_judge_false_of_le (fun y => y.linkedBytes_le h) (Nat.le_refl 0))

theorem IsFree.of_sublist (h : rest.Sublist files) {f : TierFile}
    (hfree : IsFree recordings rest r now f) : IsFree recordings files r now f :=
  ⟨hfree.1, fun x hx => hfree.2 x (hx.of_sublist h)⟩

end Recordings

/-- The events axis selects the free files. -/
theorem mem_fileIds_eventRows_iff (hf : (files.map (·.id)).Nodup) {i : Int} :
    i ∈ (eventRows recordings files r now).map (·.fileId) ↔
      ∃ f ∈ files, IsFree recordings files r now f ∧ f.id = i := by
  simp only [List.mem_map, mem_eventRows_iff_isFree hf]
  constructor
  · rintro ⟨row, ⟨f, hmem, hfree, hrow⟩, rfl⟩
    exact ⟨f, hmem, hfree, hrow.fileId_eq.symm⟩
  · rintro ⟨f, hmem, hfree, rfl⟩
    obtain ⟨row, hrow⟩ := exists_isRowOf recordings now f
    exact ⟨row, ⟨f, hmem, hfree, hrow⟩, hrow.fileId_eq⟩

/-- The events axis selects no file of those left that it would have kept. -/
theorem fileIds_eventRows_subset (h : rest.Sublist files) (hf : (files.map (·.id)).Nodup) :
    (eventRows recordings rest r now).map (·.fileId) ⊆
      (eventRows recordings files r now).map (·.fileId) := by
  intro i hi
  have hrest : (rest.map (·.id)).Nodup := (h.map _).nodup hf
  rw [mem_fileIds_eventRows_iff hrest] at hi
  rw [mem_fileIds_eventRows_iff hf]
  obtain ⟨f, hmem, hfree, rfl⟩ := hi
  exact ⟨f, h.subset hmem, hfree.of_sublist h, rfl⟩

theorem eventOverflow?_eq_none_of_sublist (h : rest.Sublist files)
    (hnone : eventOverflow? recordings files now = none) :
    eventOverflow? recordings rest now = none := by
  simp only [eventOverflow?, List.findSome?_eq_none_iff] at hnone ⊢
  intro x hx
  have hbytes : x.linkedBytes now rest ≤ x.linkedBytes now files := x.linkedBytes_le h
  have hfits := hnone x hx
  unfold Recording.overflow? at hfits ⊢
  split_ifs at hfits with hspan hmoment hmuch
  rw [if_neg hspan, if_neg hmoment, if_neg]
  simp only [Bool.and_eq_true, decide_eq_true_eq] at hmuch ⊢
  exact fun hrest => hmuch ⟨hrest.1, Nat.lt_of_lt_of_le hrest.2 hbytes⟩

/-- The retentions of the two axes of a segment tier; `none` is an axis that is
left out. -/
structure Axes where
  continuous : Option Retention := none
  events : Option Retention := none

namespace Axes

/-- What the continuous axis selects. -/
def plain (x : Axes) (files : List TierFile) (now : Int) : Option (List TierFile) :=
  x.continuous.map fun r => filesToMove files r now

/-- What the events axis selects. -/
def rows (x : Axes) (recordings : List Recording) (files : List TierFile) (now : Int) :
    Except Overflow (Option (List EventRow)) :=
  match x.events with
  | none => .ok none
  | some r => (recordingsToMove recordings files r now).map some

/-- What both axes select together. -/
def select (x : Axes) (recordings : List Recording) (files : List TierFile) (now : Int) :
    Except Overflow SegmentSelection :=
  (x.rows recordings files now).map (combine (x.plain files now))

/-- The ids of the files that are selected: those of the rows, if there is an
events axis, and else those of the continuous axis. -/
def selectedIds : Option (List TierFile) → Option (List EventRow) → List Int
  | plain, some rows => (combine plain (some rows)).events.map (·.fileId)
  | some plain, none => plain.map (·.id)
  | none, none => []

/-- The ids of the files that both axes select together. -/
def leavingIds (x : Axes) (recordings : List Recording) (files : List TierFile) (now : Int) :
    Except Overflow (List Int) :=
  (x.rows recordings files now).map (selectedIds (x.plain files now))

variable {x : Axes} {ids : List Int}

/-- Only an events axis can meet what cannot be represented. -/
theorem exists_leavingIds_iff :
    (∃ ids, x.leavingIds recordings files now = .ok ids) ↔
      (x.events ≠ none → eventOverflow? recordings files now = none) := by
  unfold leavingIds rows
  cases x.events with
  | none => simp [Except.map]
  | some r =>
    unfold recordingsToMove
    cases eventOverflow? recordings files now with
    | none => simp [Except.map]
    | some o => simp [Except.map]

theorem mem_fileIds_overlap_iff {rows : List EventRow} {plain : List TierFile} {i : Int} :
    i ∈ (overlap rows plain).map (·.fileId) ↔
      i ∈ plain.map (·.id) ∧ i ∈ rows.map (·.fileId) := by
  simp only [List.mem_map, mem_overlap]
  constructor
  · rintro ⟨row, ⟨hrow, f, hmem, hid⟩, rfl⟩
    exact ⟨⟨f, hmem, hid⟩, row, hrow, rfl⟩
  · rintro ⟨⟨f, hmem, hid⟩, row, hrow, rfl⟩
    exact ⟨row, ⟨hrow, f, hmem, hid⟩, rfl⟩

/-- A file is selected if every axis that there is selects it. -/
theorem mem_leavingIds_iff (h : x.leavingIds recordings files now = .ok ids) {i : Int} :
    i ∈ ids ↔ (x.continuous ≠ none ∨ x.events ≠ none) ∧
      (∀ r, x.continuous = some r → i ∈ (filesToMove files r now).map (·.id)) ∧
      ∀ r, x.events = some r → i ∈ (eventRows recordings files r now).map (·.fileId) := by
  unfold leavingIds rows at h
  cases hevents : x.events with
  | none =>
    rw [hevents] at h
    obtain rfl := Except.ok.inj h
    cases hplain : x.continuous with
    | none => simp [plain, hplain, selectedIds]
    | some c => simp [plain, hplain, selectedIds]
  | some e =>
    rw [hevents] at h
    dsimp only at h
    unfold recordingsToMove at h
    cases hoverflow : eventOverflow? recordings files now with
    | some o =>
      rw [hoverflow] at h
      cases h
    | none =>
      rw [hoverflow] at h
      obtain rfl := Except.ok.inj h
      cases hplain : x.continuous with
      | none => simp [plain, hplain, selectedIds, combine]
      | some c =>
        have hboth : i ∈ (overlap (eventRows recordings files e now)
            (filesToMove files c now)).map (·.fileId) ↔ _ := mem_fileIds_overlap_iff
        simpa [plain, hplain, selectedIds, combine] using hboth

theorem combine_eq_empty {plain : Option (List TierFile)} {rows : Option (List EventRow)}
    (h : selectedIds plain rows = []) : combine plain rows = {} := by
  cases rows with
  | some rows =>
    have hevents := List.map_eq_nil_iff.1 h
    cases plain with
    | none =>
      obtain rfl : rows = [] := hevents
      rfl
    | some plain =>
      have hoverlap : overlap rows plain = [] := hevents
      rw [combine, hoverlap]
      rfl
  | none =>
    cases plain with
    | none => rfl
    | some plain =>
      obtain rfl : plain = [] := List.map_eq_nil_iff.1 h
      rfl

/-- Where ids tell files apart, the paths of some of them are those of the files
with their ids. -/
theorem mem_paths_iff {α : Type} (hf : (files.map (·.id)).Nodup) {path : α → Path} {id : α → Int}
    {xs : List α} (hxs : ∀ y ∈ xs, ∃ f ∈ files, f.path = path y ∧ f.id = id y) {p : Path} :
    p ∈ xs.map path ↔ ∃ f ∈ files, f.id ∈ xs.map id ∧ f.path = p := by
  constructor
  · intro hp
    obtain ⟨y, hy, rfl⟩ := List.mem_map.1 hp
    obtain ⟨f, hmem, hpath, hid⟩ := hxs y hy
    exact ⟨f, hmem, List.mem_map.2 ⟨y, hy, hid.symm⟩, hpath⟩
  · rintro ⟨f, hmem, hid, rfl⟩
    obtain ⟨y, hy, heq⟩ := List.mem_map.1 hid
    obtain ⟨g, hg, hpath, hid⟩ := hxs y hy
    obtain rfl : g = f := List.inj_on_of_nodup_map hf hg hmem (hid.trans heq)
    exact List.mem_map.2 ⟨y, hy, hpath.symm⟩

/-- The paths that are evicted are those of the selected files. -/
theorem mem_files_combine_iff {plain : Option (List TierFile)} {rows : Option (List EventRow)}
    (hf : (files.map (·.id)).Nodup) (hplain : ∀ fs, plain = some fs → fs ⊆ files)
    (hrows : ∀ es, rows = some es → ∀ row ∈ es, ∃ f ∈ files, ∃ o, row = f.eventRow o) {p : Path} :
    p ∈ (combine plain rows).files.map (·.1) ↔
      ∃ f ∈ files, f.id ∈ selectedIds plain rows ∧ f.path = p := by
  have hsource : ∀ es, rows = some es → ∀ row ∈ es, ∃ f ∈ files, f.path = row.path ∧
      f.id = row.fileId := by
    intro es hes row hrow
    obtain ⟨f, hmem, o, rfl⟩ := hrows es hes row hrow
    exact ⟨f, hmem, rfl, rfl⟩
  -- Every way to combine lists paths once, which does not change what is listed.
  cases rows with
  | some rows =>
    cases plain with
    | none =>
      simp only [combine, SegmentSelection.ofEvents, selectedIds, List.map_map]
      rw [← mem_paths_iff hf (hsource rows rfl), ← mem_map_distinctBy_iff EventRow.path]
      rfl
    | some plain =>
      have hboth : ∀ row ∈ overlap rows plain, ∃ f ∈ files, f.path = row.path ∧
          f.id = row.fileId :=
        fun row hrow => hsource rows rfl row (mem_overlap.1 hrow).1
      simp only [combine, SegmentSelection.ofEvents, selectedIds, List.map_map]
      rw [← mem_paths_iff hf hboth, ← mem_map_distinctBy_iff EventRow.path]
      rfl
  | none =>
    cases plain with
    | none => simp [combine, selectedIds]
    | some plain =>
      have hself : ∀ f ∈ plain, ∃ g ∈ files, g.path = f.path ∧ g.id = f.id :=
        fun f hmem => ⟨f, hplain plain rfl hmem, rfl, rfl⟩
      simp only [combine, SegmentSelection.ofFiles, selectedIds, List.map_map]
      rw [← mem_paths_iff hf hself, ← mem_map_distinctBy_iff TierFile.path]
      rfl

/-- Only files of the population are selected. -/
theorem mem_map_of_mem_leavingIds (hf : (files.map (·.id)).Nodup)
    (hids : x.leavingIds recordings files now = .ok ids) {i : Int} (hi : i ∈ ids) :
    i ∈ files.map (·.id) := by
  obtain ⟨hsome, hplain, hevents⟩ := (mem_leavingIds_iff hids).1 hi
  cases hcontinuous : x.continuous with
  | some r =>
    obtain ⟨f, hmem, rfl⟩ := List.mem_map.1 (hplain r hcontinuous)
    exact List.mem_map_of_mem (mem_of_mem_filesToMove hmem)
  | none =>
    obtain ⟨r, hr⟩ := Option.ne_none_iff_exists'.1 (hsome.resolve_left fun h => h hcontinuous)
    obtain ⟨f, hmem, -, rfl⟩ := (mem_fileIds_eventRows_iff hf).1 (hevents r hr)
    exact List.mem_map_of_mem hmem

/-- A selection from a part of the population can be made, and selects only files
that were selected from all of it. -/
theorem exists_leavingIds_of_sublist (h : rest.Sublist files) (hf : (files.map (·.id)).Nodup)
    (hids : x.leavingIds recordings files now = .ok ids) :
    ∃ left, x.leavingIds recordings rest now = .ok left ∧ left ⊆ ids := by
  have hfits := exists_leavingIds_iff.1 ⟨ids, hids⟩
  obtain ⟨left, hleft⟩ := exists_leavingIds_iff.2 fun hevents =>
    eventOverflow?_eq_none_of_sublist h (hfits hevents)
  refine ⟨left, hleft, ?_⟩
  intro i hi
  rw [mem_leavingIds_iff hleft] at hi
  rw [mem_leavingIds_iff hids]
  obtain ⟨hsome, hplain, hevents⟩ := hi
  refine ⟨hsome, fun r hr => ?_, fun r hr => fileIds_eventRows_subset h hf (hevents r hr)⟩
  exact List.map_subset _ (filesToMove_subset h) (hplain r hr)

/-- After exactly the selected files have left, nothing is selected. -/
theorem select_of_selected_gone (hf : (files.map (·.id)).Nodup)
    (hids : x.leavingIds recordings files now = .ok ids) :
    x.select recordings (files.filter fun f => decide (f.id ∉ ids)) now = .ok {} := by
  have hsub : (files.filter fun f => decide (f.id ∉ ids)).Sublist files := List.filter_sublist
  obtain ⟨left, hleft, hle⟩ := exists_leavingIds_of_sublist hsub hf hids
  have hnone : left = [] := by
    refine List.eq_nil_iff_forall_not_mem.2 fun i hi => ?_
    obtain ⟨f, hmem, rfl⟩ := List.mem_map.1
      (mem_map_of_mem_leavingIds ((hsub.map _).nodup hf) hleft hi)
    have hgone := (List.mem_filter.1 hmem).2
    simp only [decide_eq_true_eq] at hgone
    exact hgone (hle hi)
  unfold leavingIds at hleft
  unfold select
  cases hrows : x.rows recordings (files.filter fun f => decide (f.id ∉ ids)) now with
  | error o =>
    rw [hrows] at hleft
    cases hleft
  | ok rows =>
    rw [hrows] at hleft
    have hempty := (Except.ok.inj hleft).trans hnone
    exact congrArg Except.ok (combine_eq_empty hempty)

/-- The selection evicts the paths of the files with the selected ids. -/
theorem exists_select (hf : (files.map (·.id)).Nodup)
    (hids : x.leavingIds recordings files now = .ok ids) :
    ∃ s, x.select recordings files now = .ok s ∧
      ∀ p, p ∈ s.files.map (·.1) ↔ ∃ f ∈ files, f.id ∈ ids ∧ f.path = p := by
  unfold leavingIds at hids
  unfold select
  cases hrows : x.rows recordings files now with
  | error o =>
    rw [hrows] at hids
    cases hids
  | ok rows =>
    rw [hrows] at hids
    obtain rfl := Except.ok.inj hids
    refine ⟨_, rfl, fun p => mem_files_combine_iff hf ?_ ?_⟩
    · intro fs hfs
      obtain ⟨r, -, rfl⟩ := Option.map_eq_some_iff.1 hfs
      exact fun f => mem_of_mem_filesToMove
    · rintro es rfl
      unfold Axes.rows recordingsToMove at hrows
      split at hrows
      · cases hrows
      · split at hrows
        · cases hrows
        · obtain rfl := Option.some.inj (Except.ok.inj hrows)
          exact fun row => exists_eventRow_of_mem

end Axes

/-- Whatever files are taken away, no file is selected then that was not selected
before, by either axis alone or by both together, and by the plain axis of any
other tier; after exactly the selected files have left, nothing is selected. -/
theorem selection_after_removal (hf : (files.map (·.id)).Nodup) (h : rest.Sublist files) {x : Axes}
    {ids : List Int} (hids : x.leavingIds recordings files now = .ok ids) :
    (∃ s, x.select recordings files now = .ok s ∧
        ∀ p, p ∈ s.files.map (·.1) ↔ ∃ f ∈ files, f.id ∈ ids ∧ f.path = p) ∧
      (∃ left, x.leavingIds recordings rest now = .ok left ∧ left ⊆ ids) ∧
      x.select recordings (files.filter fun f => decide (f.id ∉ ids)) now = .ok {} ∧
      (filesToMove rest r now).map (·.id) ⊆ (filesToMove files r now).map (·.id) ∧
      filesToMove (files.filter fun f => decide (f.id ∉ (filesToMove files r now).map (·.id))) r
        now = [] := by
  refine ⟨Axes.exists_select hf hids, Axes.exists_leavingIds_of_sublist h hf hids,
    Axes.select_of_selected_gone hf hids, List.map_subset _ (filesToMove_subset h), ?_⟩
  refine List.eq_nil_iff_forall_not_mem.2 fun f hleaves => ?_
  have hgone := (List.mem_filter.1 (mem_of_mem_filesToMove hleaves)).2
  simp only [decide_eq_true_eq] at hgone
  exact hgone (List.mem_map_of_mem (filesToMove_subset List.filter_sublist hleaves))

/-- A recording of the third and oldest of three segments. -/
def recordingOfOldest : Recording where
  camera := "cam"
  startTime := 1999 * second
  endTime := some (2001 * second)
  id := 1
  createdAt := 1999 * second

/-- Three segments, the newest one first. -/
def threeSegments : List TierFile :=
  [segmentMadeAt 3 9000, segmentMadeAt 2 5000, segmentMadeAt 1 2000]

/-- At most four bytes stay, and recordings stay for an hour. -/
def fourBytesOneHour : Axes := ⟨some { maxBytes := 4 }, some { maxAge := 3600 }⟩

/-- Once the newest segment is taken away, the next one is the newest and is no
longer selected. -/
theorem selection_after_removal_threeSegments :
    (threeSegments.map (·.id)).Nodup ∧ threeSegments.tail.Sublist threeSegments ∧
      fourBytesOneHour.leavingIds [recordingOfOldest] threeSegments (10000 * second) = .ok [1, 2] ∧
      fourBytesOneHour.leavingIds [recordingOfOldest] threeSegments.tail (10000 * second) =
        .ok [1] ∧
      ∃ left, fourBytesOneHour.leavingIds [recordingOfOldest] threeSegments.tail
          (10000 * second) = .ok left ∧ left ⊆ [1, 2] :=
  have hids : fourBytesOneHour.leavingIds [recordingOfOldest] threeSegments (10000 * second) =
      .ok [1, 2] := rfl
  ⟨by decide, by decide, hids, rfl,
    (selection_after_removal (r := {}) (by decide) (by decide) hids).2.1⟩

end TieredFootage
