import TieredFootage.Proofs.Evaluation.Followers
import TieredFootage.Proofs.Evaluation.Recordings

/-!
# When a recording and its segments part

A reported recording is meant to have left together with all of its segments,
and a recording that leaves with all of its segments is meant to be reported.
Both hold only up to what the rows of the events axis can say.

Of a reported recording, those linked segments are gone that both axes pick,
apart from one that a newer recording speaks for and that stayed behind. The
axes pick no segment that has not settled, that is linked to a recording which
stays, or that the continuous axis keeps. A recording all of whose segments are
gone is reported exactly if it is the newest recording linked to one of them.
-/

namespace TieredFootage

variable {a : Archive} {t : Tier} {continuous events : Retention}

namespace Archive

/-- Which segments linked to a reported recording are gone, and that no other
recordings are deleted than reported ones, by a last tier. -/
theorem linked_segment_gone_iff (hk : a.catalog.Keyed) (ht : t.role = .segments continuous events)
    (he : events.isConfigured = true) :
    (∀ report, (a.runPolicy t).1 = .ok report → ∀ i ∈ report.recordingIds,
      ∃ x ∈ a.recordings t, x.id = i ∧ x.isClosed = true ∧
        ∀ f ∈ x.linked a.now (a.segments t),
          (report.Gone f.path ↔ a.Picks t continuous events f ∧
            (SpeaksFor (a.recordings t) a.now x f ∨ ¬ report.Stayed f.path))) ∧
      ∀ i ∈ a.catalog.recordingIds, i ∉ (a.runPolicy t).2.catalog.recordingIds →
        t.next = none ∧ ∃ report, (a.runPolicy t).1 = .ok report ∧ i ∈ report.recordingIds := by
  constructor
  · intro report h i hi
    obtain ⟨x, hx, rfl, hleaves⟩ := exists_leaves_of_mem_recordingIds hk ht he h hi
    refine ⟨x, hx, rfl, hleaves.isClosed, fun f hf => ?_⟩
    have hmem : f ∈ a.segments t := List.mem_of_mem_filter hf
    constructor
    · intro hgone
      exact ⟨picks_of_gone hk ht he h hmem hgone, Or.inr (not_stayed_of_gone hk ht he h hgone)⟩
    · rintro ⟨hpick, hspeaks | hstay⟩
      · exact ((id_mem_recordingIds_iff hk ht he h hx).1 hi).2 f hpick hspeaks
      · exact (gone_iff_not_stayed hk ht he h hpick).2 hstay
  · intro i hi hnot
    rw [recordingIds_runPolicy] at hnot
    cases hresult : (a.runPolicy t).1 with
    | error e =>
      rw [hresult] at hnot
      exact absurd hi hnot
    | ok report =>
      rw [hresult, remainingIds] at hnot
      split at hnot
      · rename_i hnext
        refine ⟨hnext, report, rfl, ?_⟩
        by_contra hreported
        exact hnot (List.mem_filter.2 ⟨hi, by simpa using hreported⟩)
      · exact absurd hi hnot

end Archive

/-- A last tier that keeps event segments for an hour. -/
def lastTier : Tier where
  camera := "cam"
  category := .recorder
  subcategory := segmentsName
  index := 0
  root := "/t".toList
  role := .segments {} { maxAge := 3600 }

/-- A segment of the last tier, made so many seconds after the start of time. -/
def lastTierSegment (id : Int) (path : String) (madeAt : Int) : FileRow where
  tierIndex := 0
  tierPath := lastTier.root
  camera := lastTier.camera
  category := lastTier.category.text
  subcategory := lastTier.subcategory
  path := path.toList
  directory := lastTier.root
  filename := []
  size := 1
  createdAt := madeAt * second
  id := id

/-- A recording of the camera of the last tier. -/
def lastTierRecording (id start stop : Int) : Recording where
  camera := lastTier.camera
  startTime := start * second
  endTime := some (stop * second)
  id := id
  createdAt := start * second

/-- Two recordings overlap, and the segment linked to both is being served. -/
def servedOverlap : Archive where
  now := 10000 * second
  disk := { nodes := [(["t".toList], .directory), (["t".toList, "1".toList], .file "own"),
    (["t".toList, "2".toList], .file "shared")] }
  catalog := {
    files := [lastTierSegment 1 "/t/1" 2710, lastTierSegment 2 "/t/2" 2795]
    recordings := [lastTierRecording 1 2700 2800, lastTierRecording 2 2798 2900]
    lastFileId := 2
    lastRecordingId := 2 }
  served := ({} : Served).guard (10000 * second) "/t/2".toList

theorem keyed_servedOverlap : servedOverlap.catalog.Keyed where
  fileIds := by decide
  filePaths := by decide
  notePaths := by decide
  recordingIds := by decide
  fileId_le := by decide
  recordingId_le := by decide

/-- The report on the overlap: the shared segment stayed, and the older recording
followed its own one. -/
def servedOverlapReport : Report where
  outcomes := [("/t/2".toList, .skipped), ("/t/1".toList, .deleted)]
  recordingIds := [1]

theorem runPolicy_servedOverlap :
    (servedOverlap.runPolicy lastTier).1 = .ok servedOverlapReport := by
  decide

theorem linked_segment_gone_iff_servedOverlap :
    servedOverlap.catalog.Keyed ∧ lastTier.role = .segments {} { maxAge := 3600 } ∧
      ({ maxAge := 3600 } : Retention).isConfigured = true ∧
      ∃ x ∈ servedOverlap.recordings lastTier, x.id = 1 ∧ x.isClosed = true ∧
        ∀ f ∈ x.linked servedOverlap.now (servedOverlap.segments lastTier),
          (servedOverlapReport.Gone f.path ↔
            servedOverlap.Picks lastTier {} { maxAge := 3600 } f ∧
              (SpeaksFor (servedOverlap.recordings lastTier) servedOverlap.now x f ∨
                ¬ servedOverlapReport.Stayed f.path)) :=
  ⟨keyed_servedOverlap, rfl, rfl,
    (Archive.linked_segment_gone_iff keyed_servedOverlap rfl rfl).1 servedOverlapReport
      runPolicy_servedOverlap 1 (by decide)⟩

/-- A reported recording can leave a segment behind: a shared one that stays is
held against the newer recording only. -/
theorem not_forall_linked_segment_gone :
    ¬ ∀ (a : Archive) (t : Tier) (continuous events : Retention) (report : Report),
      a.catalog.Keyed → t.role = .segments continuous events → events.isConfigured = true →
      (a.runPolicy t).1 = .ok report →
      ∀ x ∈ a.recordings t, x.id ∈ report.recordingIds →
        ∀ f ∈ x.linked a.now (a.segments t), report.Gone f.path := by
  intro h
  have hgone : servedOverlapReport.Gone "/t/2".toList :=
    h servedOverlap lastTier {} { maxAge := 3600 } servedOverlapReport keyed_servedOverlap rfl rfl
      runPolicy_servedOverlap (lastTierRecording 1 2700 2800) (by decide) (by decide)
      (servedOverlap.catalog.tierFile (lastTierSegment 2 "/t/2" 2795)) (by decide)
  obtain ⟨e, he, hgone⟩ := hgone
  have hskipped : e = .skipped := by simpa [servedOverlapReport] using he
  rw [hskipped] at hgone
  exact Bool.noConfusion hgone

namespace Archive

/-- A recording that leaves with all of its segments is reported exactly if it is
the newest recording linked to one of them. -/
theorem leaving_recording_reported_iff (hk : a.catalog.Keyed)
    (ht : t.role = .segments continuous events) (he : events.isConfigured = true)
    {report : Report} (h : (a.runPolicy t).1 = .ok report) {x : Recording}
    (hx : Leaves (a.recordings t) (a.segments t) events a.now x)
    (hgone : ∀ f ∈ x.linked a.now (a.segments t), report.Gone f.path) :
    x.id ∈ report.recordingIds ↔
      ∃ f ∈ x.linked a.now (a.segments t), ∀ y ∈ a.recordings t, y.covers a.now f = true →
        x.rank.atLeast y.rank = true := by
  rw [id_mem_recordingIds_iff hk ht he h hx.mem]
  constructor
  · rintro ⟨⟨f, hpick, hspeaks⟩, -⟩
    exact ⟨f, List.mem_filter.2 ⟨hpick.1, hspeaks.1⟩, hspeaks.2⟩
  · rintro ⟨f, hf, hnewest⟩
    obtain ⟨hmem, hcov⟩ := List.mem_filter.1 hf
    refine ⟨⟨f, picks_of_gone hk ht he h hmem (hgone f hf), hcov, hnewest⟩, ?_⟩
    intro g hpick hspeaks
    exact hgone g (List.mem_filter.2 ⟨hpick.1, hspeaks.1⟩)

end Archive

/-- Two recordings are linked to the one segment that there is. -/
def eclipsedRecording : Archive where
  now := 10000 * second
  disk := { nodes := [(["t".toList], .directory), (["t".toList, "1".toList], .file "shared")] }
  catalog := {
    files := [lastTierSegment 1 "/t/1" 2795]
    recordings := [lastTierRecording 1 2797 2800, lastTierRecording 2 2798 2900]
    lastFileId := 1
    lastRecordingId := 2 }

theorem keyed_eclipsedRecording : eclipsedRecording.catalog.Keyed where
  fileIds := by decide
  filePaths := by decide
  notePaths := by decide
  recordingIds := by decide
  fileId_le := by decide
  recordingId_le := by decide

/-- The report on the single segment: only the newer recording followed it. -/
def eclipsedReport : Report where
  outcomes := [("/t/1".toList, .deleted)]
  recordingIds := [2]

theorem runPolicy_eclipsedRecording :
    (eclipsedRecording.runPolicy lastTier).1 = .ok eclipsedReport := by
  decide

theorem gone_eclipsedReport {x : Recording} :
    ∀ f ∈ x.linked eclipsedRecording.now (eclipsedRecording.segments lastTier),
      eclipsedReport.Gone f.path := by
  intro f hf
  have hmem : f ∈ eclipsedRecording.segments lastTier := List.mem_of_mem_filter hf
  have hpath : f.path = "/t/1".toList := by
    obtain ⟨row, hrow, -, rfl⟩ := Catalog.mem_population.1 hmem
    rw [List.mem_singleton.1 hrow]
    rfl
  exact ⟨.deleted, by rw [hpath]; exact List.mem_singleton.2 rfl, rfl⟩

theorem leaves_eclipsedRecording :
    ∀ x ∈ eclipsedRecording.recordings lastTier,
      Leaves (eclipsedRecording.recordings lastTier) (eclipsedRecording.segments lastTier)
        { maxAge := 3600 } eclipsedRecording.now x := by
  unfold Leaves
  decide

theorem leaving_recording_reported_iff_eclipsedRecording :
    eclipsedRecording.catalog.Keyed ∧
      (2 ∈ eclipsedReport.recordingIds ↔
        ∃ f ∈ (lastTierRecording 2 2798 2900).linked eclipsedRecording.now
            (eclipsedRecording.segments lastTier),
          ∀ y ∈ eclipsedRecording.recordings lastTier,
            y.covers eclipsedRecording.now f = true →
              (lastTierRecording 2 2798 2900).rank.atLeast y.rank = true) :=
  ⟨keyed_eclipsedRecording,
    Archive.leaving_recording_reported_iff keyed_eclipsedRecording rfl rfl
      runPolicy_eclipsedRecording
      (leaves_eclipsedRecording (lastTierRecording 2 2798 2900) (by decide)) gone_eclipsedReport⟩

/-- A recording can leave with all of its segments and not be reported: a newer
recording speaks for each of them. -/
theorem not_forall_leaving_recording_reported :
    ¬ ∀ (a : Archive) (t : Tier) (continuous events : Retention) (report : Report),
      a.catalog.Keyed → t.role = .segments continuous events → events.isConfigured = true →
      (a.runPolicy t).1 = .ok report →
      ∀ x, Leaves (a.recordings t) (a.segments t) events a.now x →
        x.linked a.now (a.segments t) ≠ [] →
        (∀ f ∈ x.linked a.now (a.segments t), report.Gone f.path) →
        x.id ∈ report.recordingIds := by
  intro h
  have hreported : (1 : Int) ∈ eclipsedReport.recordingIds :=
    h eclipsedRecording lastTier {} { maxAge := 3600 } eclipsedReport keyed_eclipsedRecording rfl
      rfl runPolicy_eclipsedRecording (lastTierRecording 1 2797 2800)
      (leaves_eclipsedRecording (lastTierRecording 1 2797 2800) (by decide)) (by decide)
      gone_eclipsedReport
  exact absurd hreported (by decide)

end TieredFootage
