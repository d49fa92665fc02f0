import TieredFootage.Proofs.Archive.Cameras
import TieredFootage.Proofs.Evaluation.Following
import TieredFootage.Proofs.Evaluation.Guarding

/-!
# When recordings could not be deleted

A last tier deletes the recordings that it reports when everything else is done. If
the catalog fails to, their segments are gone already, and so are the rows of these
segments. A later evaluation starts from the segments that are still there, so it
deletes such a recording only if it picks another segment that the recording speaks
for. Without one the recording stays for good.

What the deletion would have done is what the evaluation does when the catalog
answers it: nothing before the deletion asks whether it will be answered.
-/

namespace TieredFootage

namespace Catalog

variable {q query : Query}

theorem answers_setFailing_of_ne (h : query ≠ q) (c : Catalog) (on : Bool) :
    (c.setFailing q on).answers query = c.answers query := by
  unfold answers setFailing
  cases on <;> simp [h]

theorem deleteFile_setFailing (hq : q ≠ .deleteFile) (c : Catalog) (on : Bool) (p : Path) :
    (c.setFailing q on).deleteFile p = (c.deleteFile p).map id (·.setFailing q on) := by
  unfold deleteFile
  rw [answers_setFailing_of_ne hq.symm]
  split <;> rfl

theorem copyNote_setFailing (hq : q ≠ .copyNote) (c : Catalog) (on : Bool) (source target : Path) :
    (c.setFailing q on).copyNote source target =
      (c.copyNote source target).map id (·.setFailing q on) := by
  have hnote : ∀ p, (c.setFailing q on).noteAt? p = c.noteAt? p := fun _ => rfl
  unfold copyNote
  rw [answers_setFailing_of_ne hq.symm, hnote]
  split
  · split
    · rfl
    · unfold addNote
      rw [hnote]
      cases c.noteAt? target <;> rfl
  · rfl

/-- A row whose deletion is answered is gone. -/
theorem path_ne_of_mem_deleteFile {c : Catalog} (hc : c.answers .deleteFile = true) {p : Path}
    {r : FileRow} (hr : r ∈ (c.deleteFile p).2.files) : r.path ≠ p := by
  rw [deleteFile, if_pos hc] at hr
  simpa using (List.mem_filter.1 hr).2

theorem Keyed.setFailing {c : Catalog} (h : c.Keyed) (q : Query) (on : Bool) :
    (c.setFailing q on).Keyed := { h with }

end Catalog

namespace Holdings

/-- The holdings with one query of the catalog failing, or not failing any more. -/
def setFailing (h : Holdings) (q : Query) (on : Bool) : Holdings :=
  { h with catalog := h.catalog.setFailing q on }

variable {q : Query}

theorem dropRow_setFailing (hq : q ≠ .deleteFile) (h : Holdings) (on : Bool) (p : Path) :
    (h.setFailing q on).dropRow p = (h.dropRow p).setFailing q on := by
  simp only [dropRow, setFailing, Catalog.deleteFile_setFailing hq, Prod.map_snd]

theorem discard_setFailing (hq : q ≠ .deleteFile) (h : Holdings) (on : Bool) (p : Path) :
    (h.setFailing q on).discard p = (h.discard p).map id (·.setFailing q on) := by
  unfold discard
  rw [dropRow_setFailing hq]
  generalize h.dropRow p = g
  simp only [setFailing]
  split <;> rfl

theorem move_setFailing (hq : q ≠ .deleteFile) (hq' : q ≠ .copyNote) (h : Holdings) (on : Bool)
    (source target : Path) :
    (h.setFailing q on).move source target =
      (h.move source target).map id (·.setFailing q on) := by
  have hcopied : { h.setFailing q on with
      catalog := ((h.setFailing q on).catalog.copyNote source target).2 } =
        ({ h with
          catalog := (h.catalog.copyNote source target).2 } : Holdings).setFailing q on := by
    simp only [setFailing, Catalog.copyNote_setFailing hq', Prod.map_snd]
  unfold move
  rw [hcopied]
  generalize ({ h with catalog := (h.catalog.copyNote source target).2 } : Holdings) = g
  have hdisk : (g.setFailing q on).disk = g.disk := rfl
  simp only [hdisk]
  split
  · rfl
  · rename_i disk _
    exact Prod.ext rfl (dropRow_setFailing hq { g with disk := disk } on source)
  · rfl

/-- An eviction asks for nothing but the row and the note of its path. -/
theorem evict_setFailing (hq : q ≠ .deleteFile) (hq' : q ≠ .copyNote) (h : Holdings) (on : Bool)
    (p fileRoot root : Path) (next : Option Path) :
    (h.setFailing q on).evict p fileRoot root next =
      (h.evict p fileRoot root next).map id (·.setFailing q on) := by
  have hunserved : ∀ g : Holdings, (g.setFailing q on).evictUnserved p fileRoot next =
      (g.evictUnserved p fileRoot next).map id (·.setFailing q on) := by
    intro g
    cases next with
    | none => exact discard_setFailing hq g on p
    | some n =>
      simp only [evictUnserved]
      split
      · rfl
      · exact move_setFailing hq hq' g on p _
  unfold evict
  have hcontains : (h.setFailing q on).served.contains (h.setFailing q on).now p =
      h.served.contains h.now p := rfl
  rw [hcontains]
  split
  · rfl
  · rename_i served _
    have hg := hunserved { h with served := served }
    have hserved : { h.setFailing q on with served := served } =
      ({ h with served := served } : Holdings).setFailing q on := rfl
    rw [hserved, hg]
    simp only [Prod.map_apply']
    split
    · rfl
    · exact Prod.ext rfl (dropRow_setFailing hq _ on p)

/-- What is gone off a last tier has no row any more. -/
theorem path_ne_of_gone {h : Holdings} (ha : h.catalog.answers .deleteFile = true) {p : Path}
    (fileRoot root : Path) (hgone : (h.evict p fileRoot root none).1.isGone = true) {r : FileRow}
    (hr : r ∈ (h.evict p fileRoot root none).2.catalog.files) : r.path ≠ p := by
  unfold evict at hgone hr
  split at hgone
  · exact Bool.noConfusion hgone
  · rename_i served heq
    rw [heq] at hr
    simp only [evictUnserved] at hr
    refine Catalog.path_ne_of_mem_deleteFile (c := h.catalog) ha ?_
    split at hr
    · rwa [catalog_discard] at hr
    · have hrow := Catalog.files_deleteFile_subset _ p hr
      rwa [catalog_discard] at hrow

end Holdings

namespace Archive

/-- The archive with one query of the catalog failing, or not failing any more. -/
def setFailing (a : Archive) (q : Query) (on : Bool) : Archive :=
  a.withCatalog (a.catalog.setFailing q on)

variable {a b : Archive} {t : Tier} {continuous events : Retention} {q : Query}

theorem evictFrom_setFailing (hq : q ≠ .deleteFile) (hq' : q ≠ .copyNote) (a : Archive) (on : Bool)
    (t : Tier) (p fileRoot : Path) :
    (a.setFailing q on).evictFrom t p fileRoot =
      (a.evictFrom t p fileRoot).map id (·.setFailing q on) := by
  have hevict : (a.setFailing q on).toHoldings.evict p fileRoot t.root t.next =
      (a.toHoldings.evict p fileRoot t.root t.next).map id (·.setFailing q on) :=
    Holdings.evict_setFailing hq hq' a.toHoldings on p fileRoot t.root t.next
  unfold evictFrom
  rw [hevict]
  rfl

/-- What becomes of the paths of a selection does not depend on a query that no
eviction asks. -/
theorem evictAll_setFailing (hq : q ≠ .deleteFile) (hq' : q ≠ .copyNote) (a : Archive) (on : Bool)
    (t : Tier) (files : List (Path × Path)) :
    (a.setFailing q on).evictAll t files = (a.evictAll t files).map id (·.setFailing q on) := by
  induction files generalizing a with
  | nil => rfl
  | cons f files ih =>
    obtain ⟨p, fileRoot⟩ := f
    rw [evictAll_cons, evictFrom_setFailing hq hq', evictAll_cons]
    simp only [Prod.map_fst, Prod.map_snd, id_eq]
    rw [ih]
    rfl

theorem selectSegments_setFailing (hq : q ≠ .selectFiles) (hq' : q ≠ .selectRecordings)
    (a : Archive) (on : Bool) (t : Tier) (continuous events : Retention) :
    (a.setFailing q on).selectSegments t continuous events =
      a.selectSegments t continuous events := by
  have hfiles : (a.setFailing q on).catalog.selectFiles t.population =
      a.catalog.selectFiles t.population := by
    unfold Catalog.selectFiles
    rw [setFailing, withCatalog, Catalog.answers_setFailing_of_ne hq.symm]
    rfl
  have hrecordings : (a.setFailing q on).catalog.selectRecordings t.camera =
      a.catalog.selectRecordings t.camera := by
    unfold Catalog.selectRecordings
    rw [setFailing, withCatalog, Catalog.answers_setFailing_of_ne hq'.symm]
    rfl
  unfold selectSegments selectContinuous selectEvents
  rw [hfiles, hrecordings]
  rfl

/-- What an evaluation has seen off a last tier has no row any more. -/
theorem path_ne_of_mem_evictAll (hnext : t.next = none)
    (ha : a.catalog.answers .deleteFile = true) {files : List (Path × Path)} {p : Path}
    {e : Eviction} (hp : (p, e) ∈ (a.evictAll t files).1) (hgone : e.isGone = true) {r : FileRow}
    (hr : r ∈ (a.evictAll t files).2.catalog.files) : r.path ≠ p := by
  induction files generalizing a with
  | nil => simp at hp
  | cons f files ih =>
    obtain ⟨q, fileRoot⟩ := f
    rw [evictAll_cons] at hp hr
    rcases List.mem_cons.1 hp with heq | hp
    · obtain ⟨rfl, rfl⟩ := Prod.mk.inj heq
      have hrow := (files_evictAll_sublist (a.evictFrom t p fileRoot).2 t files).subset hr
      rw [evictFrom, hnext] at hgone hrow
      exact Holdings.path_ne_of_gone ha fileRoot t.root hgone hrow
    · exact ih (by rwa [answers_evictFrom]) hp hr

/-- Recordings that follow catalogue no file. -/
theorem files_followUp_sublist (a : Archive) (t : Tier) (ids : List Int) :
    (a.followUp t ids).catalog.files.Sublist a.catalog.files := by
  have hchanges : Changes [] a.tiers t a (a.moveSiblings t ids) := changes_moveSiblings rfl ids
  have hmoved := hchanges.files_sublist
  refine followUp_cases (P := fun b => b.catalog.files.Sublist a.catalog.files)
    (fun _ => List.Sublist.refl _) hmoved ?_
  have hdeleted := Catalog.files_deleteRecordings (a.moveSiblings t ids).catalog ids
  exact hdeleted ▸ hmoved

/-- A last tier deletes a recording exactly if the recording speaks for a segment that
is picked, and all those that it speaks for are gone. -/
theorem deleted_iff (hk : a.catalog.Keyed) (ht : t.role = .segments continuous events)
    (he : events.isConfigured = true) (hnext : t.next = none) {x : Recording}
    (hx : x ∈ a.recordings t) :
    x.id ∉ (a.runPolicy t).2.catalog.recordingIds ↔
      ∃ report, (a.runPolicy t).1 = .ok report ∧
        (∃ f, a.Picks t continuous events f ∧ SpeaksFor (a.recordings t) a.now x f) ∧
        ∀ f, a.Picks t continuous events f → SpeaksFor (a.recordings t) a.now x f →
          report.Gone f.path := by
  constructor
  · intro hdeleted
    obtain ⟨-, report, h, hi⟩ :=
      reported_of_deleted (List.mem_map_of_mem (mem_recordings_iff.1 hx).1) hdeleted
    exact ⟨report, h, (id_mem_recordingIds_iff hk ht he h hx).1 hi⟩
  · rintro ⟨report, h, hspeaks⟩
    have hi := (id_mem_recordingIds_iff hk ht he h hx).2 hspeaks
    rw [recordingIds_runPolicy, h, remainingIds, if_pos hnext]
    intro hmem
    simpa [hi] using (List.mem_filter.1 hmem).2

section Failed

variable (hk : a.catalog.Keyed) (ht : t.role = .segments continuous events) {x : Recording}
  (hx : x ∈ a.catalog.recordings)
  (hdeleted :
    x.id ∉ ((a.setFailing .deleteRecordings false).runPolicy t).2.catalog.recordingIds)

include hk ht hx hdeleted

/-- A recording that would be deleted if the catalog answered is one of the camera, and
an events axis of a last tier would report it. -/
theorem reported_of_setFailing :
    t.next = none ∧ events.isConfigured = true ∧ x ∈ a.recordings t ∧
      ∃ report, ((a.setFailing .deleteRecordings false).runPolicy t).1 = .ok report ∧
        x.id ∈ report.recordingIds := by
  have hkeyed := hk.setFailing .deleteRecordings false
  obtain ⟨hnext, report, h, hi⟩ := reported_of_deleted
    (a := a.setFailing .deleteRecordings false) (List.mem_map_of_mem hx) hdeleted
  have hcamera := (mem_recordings_of_reported (a := a.setFailing .deleteRecordings false) hkeyed
    ⟨continuous, events, ht⟩ h hi (hkeyed.recordingAt?_id hx)).1
  refine ⟨hnext, ?_, hcamera, report, h, hi⟩
  by_contra he
  simp [recordingIds_eq_nil ht (by simpa using he) h] at hi

/-- The segments for which such a recording speaks have lost their rows, whether or not
the deletion was answered. -/
theorem path_ne_of_picks (ha : a.catalog.answers .deleteFile = true) {f : TierFile}
    (hf : a.Picks t continuous events f) (hspeaks : SpeaksFor (a.recordings t) a.now x f)
    {r : FileRow} (hr : r ∈ (a.runPolicy t).2.catalog.files) : r.path ≠ f.path := by
  obtain ⟨hnext, he, hcamera, report, h, hi⟩ := reported_of_setFailing hk ht hx hdeleted
  obtain ⟨s, hs, hreport⟩ := runPolicy_eq_ok ht h
  have hentered : (a.setFailing .deleteRecordings false).enterEvaluation t =
      (a.enterEvaluation t).setFailing .deleteRecordings false := rfl
  rw [hentered] at hs hreport
  -- Up to the deletion both evaluations do the same.
  rw [selectSegments_setFailing (by decide) (by decide)] at hs
  have houtcomes : report.outcomes = ((a.enterEvaluation t).evictAll t s.files).1 := by
    rw [(evictSelection_eq_ok hreport).1, evictAll_setFailing (by decide) (by decide)]
    rfl
  have hstate : (a.runPolicy t).2.catalog =
      ((a.enterEvaluation t).evictSelection t s).2.catalog :=
    congrArg Holdings.catalog (toHoldings_runPolicy_of_segments ht hs)
  obtain ⟨e, hmem, hgone⟩ := ((id_mem_recordingIds_iff (a := a.setFailing .deleteRecordings false)
    (hk.setFailing _ _) ht he h hcamera).1 hi).2 f hf hspeaks
  rw [hstate, snd_evictSelection] at hr
  exact path_ne_of_mem_evictAll (a := a.enterEvaluation t) hnext ha (houtcomes ▸ hmem) hgone
    ((files_followUp_sublist _ t _).subset hr)

/-- As long as the recordings stay as the failed call left them, such a recording is
found among those of the camera. -/
theorem exists_recording_of_failed
    (h : (a.runPolicy t).1 = .error .deleteRecordings) (hb : b.catalog.recordings =
      (a.runPolicy t).2.catalog.recordings) : ∃ y ∈ b.recordings t, y.id = x.id := by
  obtain ⟨-, -, hcamera, -⟩ := reported_of_setFailing hk ht hx hdeleted
  have hid : x.id ∈ b.catalog.recordingIds := by
    rw [Catalog.recordingIds_congr hb, recordingIds_runPolicy, h]
    exact List.mem_map_of_mem hx
  obtain ⟨y, hy, hid⟩ := List.mem_map.1 hid
  refine ⟨y, mem_recordings_iff.2 ⟨hy, ?_⟩, hid⟩
  -- A recording of another camera is as it was before.
  by_contra hother
  have hbeside : y ∈ a.catalog.recordingsBeside t.camera := by
    rw [← keepsBeside_runPolicy hk t, ← Catalog.recordingsBeside_congr hb]
    exact Catalog.mem_recordingsBeside.2 ⟨hy, hother⟩
  have hmem := Catalog.mem_recordingsBeside.1 hbeside
  obtain rfl : y = x := List.inj_on_of_nodup_map hk.recordingIds hmem.1 hx hid
  exact hother (mem_recordings_iff.1 hcamera).2

/-- Once the deletion of recordings has failed, the segments of a recording that would
have been deleted are catalogued no more, and a later evaluation deletes it exactly if it
picks another segment that the recording speaks for and all of those are gone. -/
theorem failed_deletion_made_up_iff (h : (a.runPolicy t).1 = .error .deleteRecordings) :
    (a.catalog.answers .deleteFile = true →
      ∀ f, a.Picks t continuous events f → SpeaksFor (a.recordings t) a.now x f →
        ∀ r ∈ (a.runPolicy t).2.catalog.files, r.path ≠ f.path) ∧
      ∀ b : Archive, b.catalog.Keyed →
        b.catalog.recordings = (a.runPolicy t).2.catalog.recordings →
        ∃ y ∈ b.recordings t, y.id = x.id ∧
          (x.id ∉ (b.runPolicy t).2.catalog.recordingIds ↔
            ∃ report, (b.runPolicy t).1 = .ok report ∧
              (∃ f, b.Picks t continuous events f ∧ SpeaksFor (b.recordings t) b.now y f) ∧
              ∀ f, b.Picks t continuous events f → SpeaksFor (b.recordings t) b.now y f →
                report.Gone f.path) := by
  refine ⟨fun ha f hf hspeaks r hr => path_ne_of_picks hk ht hx hdeleted ha hf hspeaks hr, ?_⟩
  intro b hb hsame
  obtain ⟨hnext, he, -⟩ := reported_of_setFailing hk ht hx hdeleted
  obtain ⟨y, hy, hid⟩ := exists_recording_of_failed hk ht hx hdeleted h hsame
  exact ⟨y, hy, hid, hid ▸ deleted_iff hb ht he hnext hy⟩

end Failed

end Archive

/-- A recording leaves the last tier with its one segment, and the catalog fails to
delete recordings. -/
def undeletedRecording : Archive where
  now := 10000 * second
  disk := { nodes := [(["t".toList], .directory), (["t".toList, "1".toList], .file "own")] }
  catalog := {
    failing := [.deleteRecordings]
    files := [lastTierSegment 1 "/t/1" 2710]
    recordings := [lastTierRecording 1 2700 2800]
    lastFileId := 1
    lastRecordingId := 1 }

theorem keyed_undeletedRecording : undeletedRecording.catalog.Keyed where
  fileIds := by decide
  filePaths := by decide
  notePaths := by decide
  recordingIds := by decide
  fileId_le := by decide
  recordingId_le := by decide

theorem runPolicy_undeletedRecording :
    (undeletedRecording.runPolicy lastTier).1 = .error .deleteRecordings := by decide

theorem deleted_undeletedRecording :
    (lastTierRecording 1 2700 2800).id ∉ ((undeletedRecording.setFailing .deleteRecordings
      false).runPolicy lastTier).2.catalog.recordingIds := by decide

/-- The catalog answers again, and another segment of the recording has come in since. -/
def belatedSegment : Archive :=
  let a := (undeletedRecording.runPolicy lastTier).2.setFailing .deleteRecordings false
  a.withCatalog { a.catalog with files := [lastTierSegment 2 "/t/2" 2720], lastFileId := 2 }

theorem keyed_belatedSegment : belatedSegment.catalog.Keyed where
  fileIds := by decide
  filePaths := by decide
  notePaths := by decide
  recordingIds := by decide
  fileId_le := by decide
  recordingId_le := by decide

theorem failed_deletion_made_up_iff_belatedSegment :
    undeletedRecording.catalog.Keyed ∧ lastTier.role = .segments {} { maxAge := 3600 } ∧
      (undeletedRecording.runPolicy lastTier).1 = .error .deleteRecordings ∧
      ∃ y ∈ belatedSegment.recordings lastTier, y.id = 1 ∧
        (1 ∉ (belatedSegment.runPolicy lastTier).2.catalog.recordingIds ↔
          ∃ report, (belatedSegment.runPolicy lastTier).1 = .ok report ∧
            (∃ f, belatedSegment.Picks lastTier {} { maxAge := 3600 } f ∧
              SpeaksFor (belatedSegment.recordings lastTier) belatedSegment.now y f) ∧
            ∀ f, belatedSegment.Picks lastTier {} { maxAge := 3600 } f →
              SpeaksFor (belatedSegment.recordings lastTier) belatedSegment.now y f →
                report.Gone f.path) :=
  ⟨keyed_undeletedRecording, rfl, runPolicy_undeletedRecording,
    (Archive.failed_deletion_made_up_iff keyed_undeletedRecording rfl (by decide)
      deleted_undeletedRecording runPolicy_undeletedRecording).2 belatedSegment
      keyed_belatedSegment (by decide)⟩

/-- A deletion that has failed is not made up for: the segment that led to the recording
is catalogued no more. -/
theorem not_forall_failed_deletion_made_up :
    ¬ ∀ (a b : Archive) (t : Tier) (continuous events : Retention), a.catalog.Keyed →
      t.role = .segments continuous events → t.next = none →
      (a.runPolicy t).1 = .error .deleteRecordings →
      a.now ≤ b.now → b.catalog.Keyed → (∀ q, b.catalog.answers q = true) →
      b.catalog.recordings = (a.runPolicy t).2.catalog.recordings →
      ∀ x ∈ a.catalog.recordings,
        x.id ∉ ((a.setFailing .deleteRecordings false).runPolicy t).2.catalog.recordingIds →
        x.id ∉ (b.runPolicy t).2.catalog.recordingIds := by
  intro h
  have hkeyed : (undeletedRecording.runPolicy lastTier).2.catalog.Keyed :=
    ⟨by decide, by decide, by decide, by decide, by decide, by decide⟩
  refine absurd (h undeletedRecording
    ((undeletedRecording.runPolicy lastTier).2.setFailing .deleteRecordings false) lastTier {}
    { maxAge := 3600 } keyed_undeletedRecording rfl rfl runPolicy_undeletedRecording (by decide)
    (hkeyed.setFailing _ _) ?_ rfl (lastTierRecording 1 2700 2800) (by decide)
    deleted_undeletedRecording) (by decide)
  rintro ⟨⟩ <;> decide

end TieredFootage
