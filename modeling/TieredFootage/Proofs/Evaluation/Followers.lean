import TieredFootage.Archive.Evaluation
import TieredFootage.Proofs.Catalog.Keys
import TieredFootage.Proofs.Selection.Attribution

/-!
# Recordings that follow their segments

An evaluation of a segment tier reports what became of every path and which
recordings followed their segments. The paths are those of the segments that
both axes pick, and a recording follows if it speaks for a picked segment and
none of those it speaks for stayed behind.

A segment shared with a newer recording is spoken for by that one alone, so it
counts for the older recording neither way: if it stays, the older recording
follows all the same, and if it is the only segment left, the older recording
is never reported.
-/

namespace TieredFootage

/-- The path was handled, and its file is no longer in the tier. -/
def Report.Gone (report : Report) (p : Path) : Prop :=
  ∃ e, (p, e) ∈ report.outcomes ∧ e.isGone = true

/-- The path was handled, and its file stayed in the tier. -/
def Report.Stayed (report : Report) (p : Path) : Prop :=
  ∃ e, (p, e) ∈ report.outcomes ∧ e.isGone = false

namespace Archive

/-- The segments an evaluation of a tier sees. -/
abbrev segments (a : Archive) (t : Tier) : List TierFile := a.catalog.population t.population

/-- The recordings an evaluation of a tier sees. -/
abbrev recordings (a : Archive) (t : Tier) : List Recording := a.catalog.recordingsOf t.camera

/-- Both axes select a segment, as far as the continuous one is configured. -/
def Picks (a : Archive) (t : Tier) (continuous events : Retention) (f : TierFile) : Prop :=
  f ∈ a.segments t ∧ Departs (a.recordings t) (a.segments t) events a.now f ∧
    (continuous.isConfigured = true → f ∈ filesToMove (a.segments t) continuous a.now)

section Selection

variable {a : Archive} {t : Tier} {continuous events : Retention} {s : SegmentSelection}

theorem selectEvents_of_isConfigured (he : events.isConfigured = true)
    {rows : Option (List EventRow)} (h : a.selectEvents t events = .ok rows) :
    rows = some (eventRows (a.recordings t) (a.segments t) events a.now) := by
  unfold selectEvents at h
  rw [if_pos he] at h
  unfold Catalog.selectFiles Catalog.selectRecordings recordingsToMove at h
  split at h
  · rename_i files recordings hfiles hrecordings
    split at hfiles
    · split at hrecordings
      · cases hfiles
        cases hrecordings
        split at h
        · rename_i hrows
          split at hrows
          · cases hrows
          · cases hrows
            cases h
            rfl
        · cases h
      · cases hrecordings
    · cases hfiles
  · cases h

theorem selectContinuous_of_isConfigured (hc : continuous.isConfigured = true)
    {plain : Option (List TierFile)} (h : a.selectContinuous t continuous = .ok plain) :
    plain = some (filesToMove (a.segments t) continuous a.now) := by
  unfold selectContinuous at h
  rw [if_pos hc] at h
  unfold Catalog.selectFiles at h
  split at h
  · cases h
  · rename_i hfiles
    split at hfiles
    · cases hfiles
      cases h
      rfl
    · cases hfiles

theorem selectContinuous_of_not_isConfigured (hc : continuous.isConfigured = false)
    {plain : Option (List TierFile)} (h : a.selectContinuous t continuous = .ok plain) :
    plain = none := by
  unfold selectContinuous at h
  rw [if_neg (by simp [hc])] at h
  cases h
  rfl

theorem selectSegments_eq_ok (h : a.selectSegments t continuous events = .ok s) :
    ∃ plain rows, a.selectContinuous t continuous = .ok plain ∧
      a.selectEvents t events = .ok rows ∧ s = combine plain rows := by
  unfold selectSegments at h
  cases hplain : a.selectContinuous t continuous with
  | error e => rw [hplain] at h; cases h
  | ok plain =>
    cases hrows : a.selectEvents t events with
    | error e => rw [hplain, hrows] at h; cases h
    | ok rows =>
      rw [hplain, hrows] at h
      cases h
      exact ⟨plain, rows, rfl, rfl, rfl⟩

/-- With the events axis configured the paths of a selection are those of its
rows, and its rows are those of the events axis that the continuous axis leaves
in. -/
theorem selectSegments_of_isConfigured (he : events.isConfigured = true)
    (h : a.selectSegments t continuous events = .ok s) :
    s = .ofEvents s.events ∧
      s.events = if continuous.isConfigured
        then overlap (eventRows (a.recordings t) (a.segments t) events a.now)
          (filesToMove (a.segments t) continuous a.now)
        else eventRows (a.recordings t) (a.segments t) events a.now := by
  obtain ⟨plain, rows, hplain, hrows, rfl⟩ := selectSegments_eq_ok h
  obtain rfl := selectEvents_of_isConfigured he hrows
  cases hc : continuous.isConfigured with
  | true =>
    obtain rfl := selectContinuous_of_isConfigured hc hplain
    exact ⟨rfl, rfl⟩
  | false =>
    obtain rfl := selectContinuous_of_not_isConfigured hc hplain
    exact ⟨rfl, rfl⟩

/-- The rows of a selection are those of the segments it picks. -/
theorem mem_events_iff (hk : a.catalog.Keyed) (he : events.isConfigured = true)
    (h : a.selectSegments t continuous events = .ok s) {row : EventRow} :
    row ∈ s.events ↔ ∃ f, a.Picks t continuous events f ∧ IsRowOf (a.recordings t) a.now f row := by
  have hids := hk.nodup_populationIds t.population
  have hrecordings := hk.nodup_recordingsOf t.camera
  have hrows : row ∈ eventRows (a.recordings t) (a.segments t) events a.now ↔
      ∃ f ∈ a.segments t, Departs (a.recordings t) (a.segments t) events a.now f ∧
        IsRowOf (a.recordings t) a.now f row := mem_eventRows_iff hids hrecordings
  rw [(selectSegments_of_isConfigured he h).2]
  cases hc : continuous.isConfigured with
  | false =>
    rw [if_neg Bool.false_ne_true, hrows]
    constructor
    · rintro ⟨f, hmem, hdep, hrow⟩
      exact ⟨f, ⟨hmem, hdep, fun hconf => by simp [hc] at hconf⟩, hrow⟩
    · rintro ⟨f, ⟨hmem, hdep, -⟩, hrow⟩
      exact ⟨f, hmem, hdep, hrow⟩
  | true =>
    rw [if_pos rfl, mem_overlap, hrows]
    constructor
    · rintro ⟨⟨f, hmem, hdep, hrow⟩, g, hg, hid⟩
      obtain rfl : g = f := List.inj_on_of_nodup_map hids (mem_of_mem_filesToMove hg) hmem
        (hid.trans hrow.fileId_eq)
      exact ⟨g, ⟨hmem, hdep, fun _ => hg⟩, hrow⟩
    · rintro ⟨f, ⟨hmem, hdep, hplain⟩, hrow⟩
      exact ⟨⟨f, hmem, hdep, hrow⟩, f, hplain hc, hrow.fileId_eq.symm⟩

end Selection

section Outcomes

variable {a : Archive} {t : Tier} {continuous events : Retention} {s : SegmentSelection}
  {report : Report}

theorem mem_followers_iff {rows : List EventRow} {outcomes : List (Path × Eviction)} {i : Int} :
    i ∈ followers rows outcomes ↔
      (∃ row ∈ rows, row.recordingId = some i) ∧
        ∀ row ∈ rows, row.recordingId = some i →
          ∀ e, (row.path, e) ∈ outcomes → e.isGone = true := by
  have hdistinct : ∀ xs : List Int, i ∈ distinctBy id xs ↔ i ∈ xs := by
    intro xs
    have hmap : i ∈ (distinctBy id xs).map id ↔ i ∈ xs.map id := mem_map_distinctBy_iff id
    rwa [List.map_id, List.map_id] at hmap
  have hstayed : ∀ p, p ∈ (outcomes.filter fun x => !x.2.isGone).map (·.1) ↔
      ∃ e, (p, e) ∈ outcomes ∧ e.isGone = false := by
    intro p
    simp
  unfold followers
  rw [hdistinct, List.mem_filter, List.mem_filterMap]
  refine and_congr_right fun _ => ?_
  simp only [decide_eq_true_eq, List.mem_filterMap, List.mem_filter, hstayed]
  constructor
  · intro hnot row hrow hid e he
    by_contra hgone
    exact hnot ⟨row, ⟨hrow, e, he, by simpa using hgone⟩, hid⟩
  · rintro hall ⟨row, ⟨hrow, e, he, hgone⟩, hid⟩
    rw [hall row hrow hid e he] at hgone
    exact Bool.noConfusion hgone

/-- What follows a selection are recordings of the camera that leave. -/
theorem exists_leaves_of_mem_followers (hk : a.catalog.Keyed) (he : events.isConfigured = true)
    (hs : a.selectSegments t continuous events = .ok s) {outcomes : List (Path × Eviction)}
    {i : Int} (hi : i ∈ followers s.events outcomes) :
    ∃ x ∈ a.recordings t, x.id = i ∧ Leaves (a.recordings t) (a.segments t) events a.now x := by
  obtain ⟨⟨row, hrow, hid⟩, -⟩ := mem_followers_iff.1 hi
  obtain ⟨f, hpick, hf⟩ := (mem_events_iff hk he hs).1 hrow
  rcases hf with ⟨x, hx, hspeaks, rfl⟩ | ⟨-, rfl⟩
  · exact ⟨x, hx, Option.some.inj hid, hpick.2.1.2 x hx hspeaks.1⟩
  · exact absurd hid (by simp [TierFile.eventRow])

theorem evictSelection_eq_ok (h : (a.evictSelection t s).1 = .ok report) :
    report.outcomes = (a.evictAll t s.files).1 ∧
      report.recordingIds = followers s.events report.outcomes := by
  simp only [evictSelection] at h
  split at h
  · rename_i hempty
    cases h
    exact ⟨rfl, (List.isEmpty_iff.1 hempty).symm⟩
  · split at h
    · cases h
      exact ⟨rfl, rfl⟩
    · split at h
      · cases h
        exact ⟨rfl, rfl⟩
      · cases h

theorem runPolicy_eq_ok (ht : t.role = .segments continuous events)
    (h : (a.runPolicy t).1 = .ok report) :
    ∃ s, (a.enterEvaluation t).selectSegments t continuous events = .ok s ∧
      ((a.enterEvaluation t).evictSelection t s).1 = .ok report := by
  have heval : ((a.enterEvaluation t).evaluateSegments t continuous events).1 = .ok report := by
    simpa [runPolicy, evaluate, ht] using h
  unfold evaluateSegments at heval
  split at heval
  · cases heval
  · rename_i s hs
    exact ⟨s, hs, heval⟩

section Run

variable (hk : a.catalog.Keyed) (ht : t.role = .segments continuous events)
  (he : events.isConfigured = true) (h : (a.runPolicy t).1 = .ok report)

include hk ht he h

/-- The evaluation that a report is about: the rows it went by, the paths it
handled, each once, and the recordings it reports. -/
theorem exists_rows_of_runPolicy :
    ∃ rows : List EventRow,
      (∀ row, row ∈ rows ↔
        ∃ f, a.Picks t continuous events f ∧ IsRowOf (a.recordings t) a.now f row) ∧
      report.outcomes.map (·.1) = (distinctBy EventRow.path rows).map (·.path) ∧
      report.recordingIds = followers rows report.outcomes := by
  obtain ⟨s, hs, hreport⟩ := runPolicy_eq_ok ht h
  obtain ⟨houtcomes, hids⟩ := evictSelection_eq_ok hreport
  have hfiles := (selectSegments_of_isConfigured he hs).1
  refine ⟨s.events, fun row => ?_, ?_, hids⟩
  · exact mem_events_iff (a := a.enterEvaluation t) hk he hs
  · rw [houtcomes, map_fst_evictAll, hfiles]
    simp only [SegmentSelection.ofEvents, List.map_map]
    rfl

/-- Exactly the picked segments are handled. -/
theorem handled_iff {p : Path} :
    (∃ e, (p, e) ∈ report.outcomes) ↔ ∃ f, a.Picks t continuous events f ∧ f.path = p := by
  obtain ⟨rows, hrows, houtcomes, -⟩ := exists_rows_of_runPolicy hk ht he h
  have hpath : (∃ e, (p, e) ∈ report.outcomes) ↔ p ∈ rows.map (·.path) := by
    rw [← mem_map_distinctBy_iff EventRow.path, ← houtcomes]
    simp
  rw [hpath, List.mem_map]
  constructor
  · rintro ⟨row, hrow, rfl⟩
    obtain ⟨f, hpick, hf⟩ := (hrows row).1 hrow
    exact ⟨f, hpick, hf.path_eq.symm⟩
  · rintro ⟨f, hpick, rfl⟩
    obtain ⟨row, hf⟩ := exists_isRowOf (a.recordings t) a.now f
    exact ⟨row, (hrows row).2 ⟨f, hpick, hf⟩, hf.path_eq⟩

/-- Nothing is handled twice, so what is gone has not stayed. -/
theorem not_stayed_of_gone {p : Path} (hgone : report.Gone p) : ¬ report.Stayed p := by
  obtain ⟨rows, -, houtcomes, -⟩ := exists_rows_of_runPolicy hk ht he h
  have hnodup : (report.outcomes.map (·.1)).Nodup := by
    rw [houtcomes]
    exact nodup_map_distinctBy EventRow.path rows
  rintro ⟨e', he', hstay⟩
  obtain ⟨e, he, hgone⟩ := hgone
  have heq : (p, e) = (p, e') := List.inj_on_of_nodup_map hnodup he he' rfl
  obtain rfl : e = e' := (Prod.mk.inj heq).2
  rw [hgone] at hstay
  exact Bool.noConfusion hstay

/-- A picked segment is gone unless it stayed. -/
theorem gone_iff_not_stayed {f : TierFile} (hf : a.Picks t continuous events f) :
    report.Gone f.path ↔ ¬ report.Stayed f.path := by
  constructor
  · exact not_stayed_of_gone hk ht he h
  · intro hstay
    obtain ⟨e, hmem⟩ := (handled_iff hk ht he h).2 ⟨f, hf, rfl⟩
    refine ⟨e, hmem, ?_⟩
    by_contra hgone
    exact hstay ⟨e, hmem, by simpa using hgone⟩

/-- Of the segments linked to a recording those that are gone are picked ones. -/
theorem picks_of_gone {f : TierFile} (hf : f ∈ a.segments t) (hgone : report.Gone f.path) :
    a.Picks t continuous events f := by
  obtain ⟨e, hmem, -⟩ := hgone
  obtain ⟨g, hpick, hpath⟩ := (handled_iff hk ht he h).1 ⟨e, hmem⟩
  obtain rfl : g = f :=
    List.inj_on_of_nodup_map (hk.nodup_populationPaths t.population) hpick.1 hf hpath
  exact hpick

/-- A recording is reported exactly if it speaks for a picked segment and every
picked segment that it speaks for is gone. -/
theorem id_mem_recordingIds_iff {x : Recording} (hx : x ∈ a.recordings t) :
    x.id ∈ report.recordingIds ↔
      (∃ f, a.Picks t continuous events f ∧ SpeaksFor (a.recordings t) a.now x f) ∧
        ∀ f, a.Picks t continuous events f → SpeaksFor (a.recordings t) a.now x f →
          report.Gone f.path := by
  obtain ⟨rows, hrows, -, hids⟩ := exists_rows_of_runPolicy hk ht he h
  have hrecordings := hk.nodup_recordingsOf t.camera
  rw [hids, mem_followers_iff]
  constructor
  · rintro ⟨⟨row, hrow, hid⟩, hall⟩
    constructor
    · obtain ⟨f, hpick, hf⟩ := (hrows row).1 hrow
      exact ⟨f, hpick, (hf.recordingId_eq_some_iff hrecordings hx).1 hid⟩
    · intro f hpick hspeaks
      obtain ⟨row, hf⟩ := exists_isRowOf (a.recordings t) a.now f
      have hmem := (hrows row).2 ⟨f, hpick, hf⟩
      have hid := (hf.recordingId_eq_some_iff hrecordings hx).2 hspeaks
      rw [gone_iff_not_stayed hk ht he h hpick]
      rintro ⟨e, hmem', hstay⟩
      rw [hall row hmem hid e (hf.path_eq ▸ hmem')] at hstay
      exact Bool.noConfusion hstay
  · rintro ⟨⟨f, hpick, hspeaks⟩, hall⟩
    constructor
    · obtain ⟨row, hf⟩ := exists_isRowOf (a.recordings t) a.now f
      exact ⟨row, (hrows row).2 ⟨f, hpick, hf⟩,
        (hf.recordingId_eq_some_iff hrecordings hx).2 hspeaks⟩
    · intro row hrow hid e hmem
      obtain ⟨f, hpick, hf⟩ := (hrows row).1 hrow
      have hspeaks := (hf.recordingId_eq_some_iff hrecordings hx).1 hid
      have hstay := not_stayed_of_gone hk ht he h (hall f hpick hspeaks)
      by_contra hgone
      exact hstay ⟨e, hf.path_eq ▸ hmem, by simpa using hgone⟩

/-- Every reported id is that of a recording of the camera that leaves. -/
theorem exists_leaves_of_mem_recordingIds {i : Int} (hi : i ∈ report.recordingIds) :
    ∃ x ∈ a.recordings t, x.id = i ∧ Leaves (a.recordings t) (a.segments t) events a.now x := by
  obtain ⟨s, hs, hreport⟩ := runPolicy_eq_ok ht h
  rw [(evictSelection_eq_ok hreport).2] at hi
  exact exists_leaves_of_mem_followers (a := a.enterEvaluation t) hk he hs hi

end Run

end Outcomes

end Archive

end TieredFootage
