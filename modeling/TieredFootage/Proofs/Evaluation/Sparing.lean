import TieredFootage.Proofs.Evaluation.HandingOver
import TieredFootage.Proofs.Evaluation.Lockstep
import TieredFootage.Proofs.Selection.Walks

/-!
# What an evaluation spares

Whichever of its axes a segment tier has, each of them that is configured is
heard: with an events axis no segment is handed over that has not settled or
that is linked to a recording which stays, and with a continuous axis none that
is younger than the grace of that axis. Recordings in progress stay, so neither
their segments are handed over, nor are they themselves reported.

No report is needed to say so: whether an evaluation succeeds or fails, the archive
after it is the one in which these segments were handed over and recordings followed
that are not in progress.
-/

namespace TieredFootage

theorem grace_le_age_of_mem_filesToMove {files : List TierFile} {r : Retention} {now : Int}
    {f : TierFile} (h : f ∈ filesToMove files r now) :
    r.grace * 1000000000 ≤ age now f.effective := by
  obtain ⟨passed, hleaves⟩ := Retention.exists_newer_of_mem_judge (Retention.mem_leaving.1 h)
  exact Retention.le_of_evicts hleaves.symm

namespace Archive

variable {a : Archive} {t : Tier} {continuous events : Retention} {s : SegmentSelection}

/-- The paths that an evaluation of a segment tier hands over to be evicted. If
there is no selection there are none. -/
def handedOver (a : Archive) (t : Tier) (continuous events : Retention) : List Path :=
  match a.selectSegments t continuous events with
  | .ok s => s.files.map (·.1)
  | .error _ => []

theorem selectEvents_of_not_isConfigured (he : events.isConfigured = false)
    {rows : Option (List EventRow)} (h : a.selectEvents t events = .ok rows) : rows = none := by
  unfold selectEvents at h
  rw [if_neg (by simp [he])] at h
  cases h
  rfl

/-- Without an events axis only files that leave on the continuous axis are
selected, and without any axis none is. -/
theorem selectSegments_of_not_isConfigured (he : events.isConfigured = false)
    (h : a.selectSegments t continuous events = .ok s) :
    s = if continuous.isConfigured
      then .ofFiles (filesToMove (a.segments t) continuous a.now) else {} := by
  obtain ⟨plain, rows, hplain, hrows, rfl⟩ := selectSegments_eq_ok h
  obtain rfl := selectEvents_of_not_isConfigured he hrows
  cases hc : continuous.isConfigured with
  | true =>
    obtain rfl := selectContinuous_of_isConfigured hc hplain
    rfl
  | false =>
    obtain rfl := selectContinuous_of_not_isConfigured hc hplain
    rfl

/-- With an events axis a segment that is handed over is one that both axes pick. -/
theorem picks_of_mem_files (hk : a.catalog.Keyed) (he : events.isConfigured = true)
    (h : a.selectSegments t continuous events = .ok s) {f : TierFile} (hf : f ∈ a.segments t)
    (hpath : f.path ∈ s.files.map (·.1)) : a.Picks t continuous events f := by
  have hfiles := (selectSegments_of_isConfigured he h).1
  rw [hfiles] at hpath
  simp only [SegmentSelection.ofEvents, List.map_map] at hpath
  obtain ⟨row, hrow, heq⟩ := List.mem_map.1 hpath
  obtain ⟨g, hpick, hg⟩ := (mem_events_iff hk he h).1 (mem_of_mem_distinctBy _ hrow)
  obtain rfl : g = f := List.inj_on_of_nodup_map (hk.nodup_populationPaths t.population) hpick.1 hf
    (hg.path_eq.symm.trans heq)
  exact hpick

theorem mem_filesToMove_of_mem_files (hk : a.catalog.Keyed) (hc : continuous.isConfigured = true)
    (h : a.selectSegments t continuous events = .ok s) {f : TierFile} (hf : f ∈ a.segments t)
    (hpath : f.path ∈ s.files.map (·.1)) : f ∈ filesToMove (a.segments t) continuous a.now := by
  cases he : events.isConfigured with
  | true => exact (picks_of_mem_files hk he h hf hpath).2.2 hc
  | false =>
    rw [selectSegments_of_not_isConfigured he h, if_pos hc] at hpath
    simp only [SegmentSelection.ofFiles, List.map_map] at hpath
    obtain ⟨g, hg, heq⟩ := List.mem_map.1 hpath
    have hleaves := mem_of_mem_distinctBy _ hg
    obtain rfl : g = f := List.inj_on_of_nodup_map (hk.nodup_populationPaths t.population)
      (mem_of_mem_filesToMove hleaves) hf heq
    exact hleaves

/-- Only segments of the tier are selected, under the roots they are catalogued with. -/
theorem exists_segment_of_mem_files (h : a.selectSegments t continuous events = .ok s) :
    ∀ x ∈ s.files, ∃ f ∈ a.segments t, f.path = x.1 ∧ f.tierPath = x.2 := by
  intro x hx
  cases he : events.isConfigured with
  | true =>
    obtain ⟨hfiles, hrows⟩ := selectSegments_of_isConfigured he h
    rw [hfiles] at hx
    obtain ⟨row, hrow, rfl⟩ := List.mem_map.1 hx
    have hall : row ∈ eventRows (a.recordings t) (a.segments t) events a.now := by
      have hmem := mem_of_mem_distinctBy EventRow.path hrow
      rw [hrows] at hmem
      split at hmem
      · exact (mem_overlap.1 hmem).1
      · exact hmem
    obtain ⟨f, hf, o, rfl⟩ := exists_eventRow_of_mem hall
    exact ⟨f, hf, rfl, rfl⟩
  | false =>
    rw [selectSegments_of_not_isConfigured he h] at hx
    split at hx
    · obtain ⟨f, hf, rfl⟩ := List.mem_map.1 hx
      exact ⟨f, mem_of_mem_filesToMove (mem_of_mem_distinctBy TierFile.path hf), rfl, rfl⟩
    · simp at hx

/-- Without an events axis no recording follows, -/
theorem followers_eq_nil (he : events.isConfigured = false)
    (h : a.selectSegments t continuous events = .ok s) (outcomes : List (Path × Eviction)) :
    followers s.events outcomes = [] := by
  have hevents : s.events = [] := by
    rw [selectSegments_of_not_isConfigured he h]
    split <;> rfl
  rw [hevents]
  rfl

/-- and with one none that is in progress. -/
theorem id_notMem_followers (hk : a.catalog.Keyed)
    (h : a.selectSegments t continuous events = .ok s) (outcomes : List (Path × Eviction))
    {x : Recording} (hx : x ∈ a.catalog.recordings) (hopen : x.isClosed = false) :
    x.id ∉ followers s.events outcomes := by
  intro hid
  cases he : events.isConfigured with
  | false => simp [followers_eq_nil he h] at hid
  | true =>
    obtain ⟨y, hy, hsame, hleaves⟩ := exists_leaves_of_mem_followers hk he h hid
    have hmem : y ∈ a.catalog.recordings :=
      List.mem_of_mem_filter ((mem_newestFirst Recording.rank).1 hy)
    obtain rfl : y = x := List.inj_on_of_nodup_map hk.recordingIds hmem hx hsame
    rw [hleaves.isClosed] at hopen
    exact Bool.noConfusion hopen

/-- Without an events axis no recording is reported. -/
theorem recordingIds_eq_nil (ht : t.role = .segments continuous events)
    (he : events.isConfigured = false) {report : Report} (h : (a.runPolicy t).1 = .ok report) :
    report.recordingIds = [] := by
  obtain ⟨s, hs, hreport⟩ := runPolicy_eq_ok ht h
  rw [(evictSelection_eq_ok hreport).2]
  exact followers_eq_nil he hs _

/-- An evaluation of a segment tier hands over what is selected, lets recordings follow
that are not in progress, and does no more, also if it fails to delete them. -/
theorem exists_runPolicy_eq_evaluated (hk : a.catalog.Keyed)
    (ht : t.role = .segments continuous events) :
    ∃ (files : List (Path × Path)) (ids : List Int),
      files.map (·.1) = a.handedOver t continuous events ∧
      (∀ f ∈ files, ∃ row ∈ a.catalog.files, t.population.holds row = true ∧
        f = (row.path, row.tierPath)) ∧
      (∀ x ∈ a.catalog.recordings, x.isClosed = false → x.id ∉ ids) ∧
      (a.runPolicy t).2 = a.evaluated t files ids ∧
      ∀ report, (a.runPolicy t).1 = .ok report → report = ⟨(a.handOver t files).1, ids⟩ := by
  unfold handedOver
  cases hs : a.selectSegments t continuous events with
  | error e =>
    have hrun := runPolicy_of_segments_error ht hs
    refine ⟨[], [], rfl, by simp, by simp, congrArg Prod.snd hrun, fun report h => ?_⟩
    rw [hrun] at h
    cases h
  | ok s =>
    refine ⟨s.files, followers s.events (a.handOver t s.files).1, rfl, fun f hf => ?_,
      fun x hx hopen => id_notMem_followers hk hs _ hx hopen,
      snd_runPolicy_of_segments ht hs, fun report h => ?_⟩
    · obtain ⟨g, hg, hpath, hroot⟩ := exists_segment_of_mem_files hs f hf
      obtain ⟨row, hrow, hholds, rfl⟩ := Catalog.mem_population.1 hg
      exact ⟨row, hrow, hholds, Prod.ext hpath.symm hroot.symm⟩
    · obtain ⟨s', hs', hreport⟩ := runPolicy_eq_ok ht h
      obtain rfl : s' = s := Except.ok.inj (hs'.symm.trans hs)
      obtain ⟨houtcomes, hids⟩ := evictSelection_eq_ok hreport
      rw [houtcomes] at hids
      cases report
      exact congrArg₂ Report.mk houtcomes hids

/-- An evaluation hands over no segment that an axis of its tier protects, and it
reports no recording in progress. Whatever its result, it hands over these segments,
lets recordings follow that are not in progress either, and does nothing else. -/
theorem runPolicy_spares (hk : a.catalog.Keyed) (ht : t.role = .segments continuous events) :
    (∀ f ∈ a.segments t, f.path ∈ a.handedOver t continuous events →
      (events.isConfigured = true → settlingTime * 1000000000 < age a.now f.effective ∧
        ∀ x ∈ a.recordings t, x.covers a.now f = true → x.isClosed = true ∧
          Leaves (a.recordings t) (a.segments t) events a.now x) ∧
      (continuous.isConfigured = true →
        continuous.grace * 1000000000 ≤ age a.now f.effective)) ∧
      (∀ report, (a.runPolicy t).1 = .ok report →
        report.outcomes.map (·.1) = a.handedOver t continuous events ∧
          ∀ x ∈ a.catalog.recordings, x.isClosed = false → x.id ∉ report.recordingIds) ∧
      ∃ (files : List (Path × Path)) (ids : List Int),
        files.map (·.1) = a.handedOver t continuous events ∧
        (∀ f ∈ files, ∃ row ∈ a.catalog.files, t.population.holds row = true ∧
          f = (row.path, row.tierPath)) ∧
        (∀ x ∈ a.catalog.recordings, x.isClosed = false → x.id ∉ ids) ∧
        (a.runPolicy t).2 = a.evaluated t files ids ∧
        ∀ report, (a.runPolicy t).1 = .ok report → report = ⟨(a.handOver t files).1, ids⟩ := by
  refine ⟨fun f hf hpath => ?_, fun report h => ?_, exists_runPolicy_eq_evaluated hk ht⟩
  · unfold handedOver at hpath
    split at hpath
    · rename_i s hs
      refine ⟨fun he => ?_, fun hc => ?_⟩
      · obtain ⟨-, ⟨hsettled, hleaves⟩, -⟩ := picks_of_mem_files hk he hs hf hpath
        refine ⟨of_decide_eq_true hsettled, fun x hx hcov => ?_⟩
        exact ⟨(hleaves x hx hcov).isClosed, hleaves x hx hcov⟩
      · exact grace_le_age_of_mem_filesToMove (mem_filesToMove_of_mem_files hk hc hs hf hpath)
    · simp at hpath
  · obtain ⟨files, ids, hfiles, -, hopen, -, hreport⟩ := exists_runPolicy_eq_evaluated hk ht
    rw [hreport report h]
    exact ⟨(map_fst_handOver a t files).trans hfiles, hopen⟩

end Archive

/-- The last tier, with a continuous axis beside that of events. -/
def lastTierOfBoth : Tier :=
  { lastTier with role := .segments { maxAge := 600 } { maxAge := 3600 } }

/-- A third recording is in progress, and its only segment is of an hour ago. -/
def recordingInProgress : Archive :=
  { servedOverlap with
    catalog := { servedOverlap.catalog with
      files := lastTierSegment 3 "/t/3" 6400 :: servedOverlap.catalog.files
      recordings := { lastTierRecording 3 6390 0 with endTime := none } ::
        servedOverlap.catalog.recordings
      lastFileId := 3
      lastRecordingId := 3 } }

theorem keyed_recordingInProgress : recordingInProgress.catalog.Keyed where
  fileIds := by decide
  filePaths := by decide
  notePaths := by decide
  recordingIds := by decide
  fileId_le := by decide
  recordingId_le := by decide

/-- The segment of the recording in progress is old enough for both axes and is
not handed over. -/
theorem runPolicy_spares_recordingInProgress :
    recordingInProgress.catalog.Keyed ∧
      lastTierOfBoth.role = .segments { maxAge := 600 } { maxAge := 3600 } ∧
      recordingInProgress.handedOver lastTierOfBoth { maxAge := 600 } { maxAge := 3600 } =
        ["/t/2".toList, "/t/1".toList] ∧
      ∀ f ∈ recordingInProgress.segments lastTierOfBoth,
        f.path ∈ recordingInProgress.handedOver lastTierOfBoth { maxAge := 600 }
            { maxAge := 3600 } →
          ∀ x ∈ recordingInProgress.recordings lastTierOfBoth,
            x.covers recordingInProgress.now f = true → x.isClosed = true :=
  ⟨keyed_recordingInProgress, rfl, by decide, fun f hf hpath x hx hcov =>
    (((Archive.runPolicy_spares keyed_recordingInProgress rfl).1 f hf hpath).1 rfl).2 x hx hcov
      |>.1⟩

end TieredFootage
