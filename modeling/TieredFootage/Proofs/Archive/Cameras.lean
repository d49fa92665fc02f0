import TieredFootage.Proofs.Archive.Operations
import TieredFootage.Proofs.Evaluation.Orphans

/-!
# The recordings of other cameras

A tier changes recordings in three ways: it points a clip elsewhere, points a
thumbnail elsewhere, or deletes them. Clips are found among the recordings of the
camera, and an evaluation goes by ids that it has selected for the camera, so both
stay within it. A new thumbnail does not: the id is read off its file name, and
whoever has a recording with that id sees it pointed at the new file.

`Catalog.recordingsBeside` are the rows that belong to other cameras. No other
camera has a recording with an id that is selected here, and this can be read off
those rows alone; so whatever leaves them as they were also keeps it true.
-/

namespace TieredFootage

namespace Catalog

/-- The recordings of all cameras but one. -/
def recordingsBeside (c : Catalog) (camera : String) : List Recording :=
  c.recordings.filter (·.camera != camera)

/-- No other camera has a recording with this id. -/
def Owns (c : Catalog) (camera : String) (i : Int) : Prop :=
  ∀ x ∈ c.recordingsBeside camera, x.id ≠ i

variable {c c' : Catalog} {camera : String} {i : Int} {p : Path}

theorem mem_recordingsBeside {x : Recording} :
    x ∈ c.recordingsBeside camera ↔ x ∈ c.recordings ∧ x.camera ≠ camera := by
  simp [recordingsBeside]

theorem Owns.congr (h : c.Owns camera i)
    (hc : c'.recordingsBeside camera = c.recordingsBeside camera) : c'.Owns camera i := by
  unfold Owns
  rwa [hc]

/-- An id belongs to one recording, and so to one camera. -/
theorem Keyed.owns (h : c.Keyed) {x : Recording} (hx : x ∈ c.recordingsOf camera) :
    c.Owns camera x.id := by
  rw [recordingsOf, mem_newestFirst, List.mem_filter] at hx
  intro y hy hid
  obtain ⟨hy, hother⟩ := mem_recordingsBeside.1 hy
  obtain rfl := List.inj_on_of_nodup_map h.recordingIds hy hx.1 hid
  exact hother (by simpa using hx.2)

theorem recordingsBeside_congr (h : c'.recordings = c.recordings) :
    c'.recordingsBeside camera = c.recordingsBeside camera :=
  congrArg (List.filter fun x : Recording => x.camera != camera) h

/-- Recordings changed in place are those of the same cameras. -/
theorem recordingsBeside_map {f : Recording → Recording} (hf : ∀ x, (f x).camera = x.camera) :
    ({ c with recordings := c.recordings.map f } : Catalog).recordingsBeside camera =
      (c.recordingsBeside camera).map f := by
  simp only [recordingsBeside, List.filter_map, Function.comp_def, hf]

/-- A thumbnail is pointed elsewhere in all recordings with the id, whoever they
belong to. -/
theorem recordingsBeside_updateThumbnail_iff :
    (c.updateThumbnail i p).2.recordingsBeside camera = c.recordingsBeside camera ↔
      (c.answers .updateThumbnail = true →
        ∀ x ∈ c.recordingsBeside camera, x.id = i → x.thumbnailPath = some p) := by
  unfold updateThumbnail
  split
  · rename_i hanswers
    rw [recordingsBeside_map fun x => by split <;> rfl]
    simp only [hanswers, true_imp_iff]
    constructor
    · intro hsame x hx hid
      have hx' := List.map_inj_left.1 (hsame.trans (List.map_id _).symm) x hx
      rw [if_pos hid] at hx'
      exact (congrArg (fun y : Recording => y.thumbnailPath) hx').symm
    · intro hpoints
      refine (List.map_congr_left fun x hx => ?_).trans (List.map_id _)
      split
      · rename_i hid
        rw [← hpoints x hx hid]
        rfl
      · rfl
  · rename_i hanswers
    exact iff_of_true rfl fun h => absurd h hanswers

theorem Owns.updateThumbnail (h : c.Owns camera i) (p : Path) :
    (c.updateThumbnail i p).2.recordingsBeside camera = c.recordingsBeside camera :=
  recordingsBeside_updateThumbnail_iff.2 fun _ x hx hid => absurd hid (h x hx)

/-- Clips are pointed elsewhere only in recordings of the camera. -/
theorem recordingsBeside_updateClip (c : Catalog) (camera : String) (suffix p : Path) :
    (c.updateClip camera suffix p).2.recordingsBeside camera = c.recordingsBeside camera := by
  unfold updateClip
  split
  · rw [recordingsBeside_map fun x => by split <;> rfl]
    refine (List.map_congr_left fun x hx => ?_).trans (List.map_id _)
    rw [if_neg]
    · rfl
    · simp [clipEndsWith, (mem_recordingsBeside.1 hx).2]
  · rfl

theorem recordingsBeside_deleteRecordings {ids : List Int} (h : ∀ i ∈ ids, c.Owns camera i) :
    (c.deleteRecordings ids).2.recordingsBeside camera = c.recordingsBeside camera := by
  unfold deleteRecordings
  split_ifs
  · rfl
  · rfl
  · simp only [recordingsBeside, List.filter_filter]
    refine List.filter_congr fun x hx => ?_
    by_cases hother : x.camera = camera
    · simp [hother]
    · have hid : x.id ∉ ids := fun hmem =>
        h x.id hmem x (mem_recordingsBeside.2 ⟨hx, hother⟩) rfl
      simp [hid]
  · rfl

end Catalog

namespace Archive

variable {a b : Archive} {t u : Tier} {camera : String} {i : Int}

/-- The recordings of other cameras are the same afterwards. -/
abbrev KeepsBeside (camera : String) (a b : Archive) : Prop :=
  b.catalog.recordingsBeside camera = a.catalog.recordingsBeside camera

section Evaluation

theorem keepsBeside_evictFrom (a : Archive) (t : Tier) (p fileRoot : Path) :
    KeepsBeside camera a (a.evictFrom t p fileRoot).2 :=
  Catalog.recordingsBeside_congr (recordings_evictFrom a t p fileRoot)

theorem keepsBeside_evictAll (a : Archive) (t : Tier) (files : List (Path × Path)) :
    KeepsBeside camera a (a.evictAll t files).2 :=
  Catalog.recordingsBeside_congr (recordings_evictAll a t files)

theorem keepsBeside_follow {pointer : Recording → Option Path} {repoint : Path → Archive → Archive}
    (hrepoint : ∀ q b, KeepsBeside camera a b → KeepsBeside camera b (repoint q b)) :
    KeepsBeside camera a (a.follow u pointer i repoint) := by
  refine follow_cases (P := KeepsBeside camera a) ?_ ?_ ?_
  · exact fun _ => rfl
  · exact fun x p _ _ _ => keepsBeside_evictFrom a u p u.root
  · intro x p q _ _ _
    have hevicted : KeepsBeside camera a _ := keepsBeside_evictFrom a u p u.root
    exact (hrepoint q _ hevicted).trans hevicted

theorem keepsBeside_moveThumbnail (hi : a.catalog.Owns camera i) (u : Tier) :
    KeepsBeside camera a (a.moveThumbnail u i) := by
  rw [moveThumbnail_eq_follow]
  exact keepsBeside_follow fun q _ hb => (hi.congr hb).updateThumbnail q

theorem keepsBeside_repointClip (a : Archive) (camera : String) (p : Path) :
    KeepsBeside camera a (a.repointClip camera p) := by
  unfold repointClip
  split
  · rfl
  · exact Catalog.recordingsBeside_updateClip a.catalog camera _ p

theorem keepsBeside_moveClip (a : Archive) (u : Tier) (i : Int) :
    KeepsBeside u.camera a (a.moveClip u i) := by
  rw [moveClip_eq_follow]
  exact keepsBeside_follow fun q b _ => keepsBeside_repointClip b u.camera q

theorem keepsBeside_foldl {f : Archive → Int → Archive} {ids : List Int}
    (hf : ∀ b, ∀ i ∈ ids, b.catalog.Owns camera i → KeepsBeside camera b (f b i))
    (hids : ∀ i ∈ ids, a.catalog.Owns camera i) : KeepsBeside camera a (ids.foldl f a) := by
  induction ids generalizing a with
  | nil => rfl
  | cons i ids ih =>
    have hfirst := hf a i List.mem_cons_self (hids i List.mem_cons_self)
    have hrest := ih (fun b j hj => hf b j (List.mem_cons_of_mem _ hj))
      fun j hj => (hids j (List.mem_cons_of_mem _ hj)).congr hfirst
    exact hrest.trans hfirst

/-- Thumbnails and clips follow under keepers of the same camera. -/
theorem keepsBeside_moveSiblings {ids : List Int} (hids : ∀ i ∈ ids, a.catalog.Owns t.camera i) :
    KeepsBeside t.camera a (a.moveSiblings t ids) := by
  have hthumbnails : KeepsBeside t.camera a (a.moveThumbnails t ids) := by
    unfold moveThumbnails
    split
    · rfl
    · exact keepsBeside_foldl (fun b i _ hi => keepsBeside_moveThumbnail hi _) hids
  refine Eq.trans ?_ hthumbnails
  unfold moveSiblings moveClips
  split
  · rfl
  · rename_i k hk
    have hcamera : k.tier.camera = t.camera :=
      congrArg Address.camera (sibling?_eq_some hk).2
    refine keepsBeside_foldl (fun b i _ _ => ?_) fun i hi => (hids i hi).congr hthumbnails
    rw [← hcamera]
    exact keepsBeside_moveClip b k.tier i

/-- The rows of a selection speak of recordings of the camera only. -/
theorem owns_of_mem_followers {continuous events : Retention} {s : SegmentSelection}
    (hk : a.catalog.Keyed) (h : a.selectSegments t continuous events = .ok s)
    {outcomes : List (Path × Eviction)} (hi : i ∈ followers s.events outcomes) :
    a.catalog.Owns t.camera i := by
  cases he : events.isConfigured with
  | true =>
    obtain ⟨x, hx, rfl, -⟩ := exists_leaves_of_mem_followers hk he h hi
    exact hk.owns hx
  | false => simp [followers_eq_nil he h] at hi

theorem keepsBeside_evictSelection {continuous events : Retention} {s : SegmentSelection}
    (hk : a.catalog.Keyed) (h : a.selectSegments t continuous events = .ok s) :
    KeepsBeside t.camera a (a.evictSelection t s).2 := by
  have hevicted : KeepsBeside t.camera a (a.evictAll t s.files).2 :=
    keepsBeside_evictAll a t s.files
  have howns : ∀ i ∈ followers s.events (a.evictAll t s.files).1,
      (a.evictAll t s.files).2.catalog.Owns t.camera i :=
    fun i hi => (owns_of_mem_followers hk h hi).congr hevicted
  have hmoved := (keepsBeside_moveSiblings howns).trans hevicted
  have hdeleted := Catalog.recordingsBeside_deleteRecordings
    fun i hi => (howns i hi).congr (keepsBeside_moveSiblings howns)
  rw [snd_evictSelection]
  exact followUp_cases (P := KeepsBeside t.camera a) (fun _ => hevicted) hmoved
    (hdeleted.trans hmoved)

theorem keepsBeside_runPolicy (hk : a.catalog.Keyed) (t : Tier) :
    KeepsBeside t.camera a (a.runPolicy t).2 := by
  have hevaluate : ∀ b : Archive, b.catalog.Keyed → KeepsBeside t.camera b (b.evaluate t).2 := by
    intro b hb
    unfold evaluate
    split
    · unfold evaluatePlain
      split
      · split
        · rfl
        · exact keepsBeside_evictAll b t _
      · rfl
    · unfold evaluateSegments
      split
      · rfl
      · rename_i s hs
        exact keepsBeside_evictSelection hb hs
    · rfl
    · rfl
  exact hevaluate (a.enterEvaluation t) hk

theorem keepsBeside_checkTier (hk : a.catalog.Keyed) (t : Tier) :
    KeepsBeside t.camera a (a.checkTier t) := by
  have hquietly : ∀ b : Archive, b.catalog.Keyed →
      KeepsBeside t.camera b (b.runPolicyQuietly t) := by
    intro b hb
    have hrun := keepsBeside_runPolicy hb t
    unfold runPolicyQuietly
    split <;> (rename_i heq; rw [heq] at hrun; exact hrun)
  unfold checkTier
  split
  case h_1 | h_2 => rfl
  case h_3 | h_4 =>
    split
    · rfl
    · split
      · rfl
      · exact hquietly (a.update t.address _) hk

theorem keepsBeside_drain (a : Archive) (t : Tier) : KeepsBeside camera a (a.drain t).2 := by
  unfold drain
  split
  · rfl
  · exact keepsBeside_evictAll a t _

end Evaluation

section Handling

theorem recordings_refreshSize (a : Archive) (p : Path) :
    (a.refreshSize p).2.catalog.recordings = a.catalog.recordings := by
  unfold refreshSize
  split
  · rfl
  · rename_i node _
    have hupdated := Catalog.recordings_updateFileSize a.catalog p (sizeOf node)
    split <;> (rename_i heq; rw [heq] at hupdated; exact hupdated)

theorem recordings_refreshSizes (ps : List Path) (a : Archive) :
    (a.refreshSizes ps).2.catalog.recordings = a.catalog.recordings := by
  induction ps generalizing a with
  | nil => rfl
  | cons p ps ih => exact (ih (a.refreshSize p).2).trans (recordings_refreshSize a p)

/-- Looking at files again changes no recording, and then the tier is evaluated. -/
theorem keepsBeside_lookAgain (hk : a.catalog.Keyed) (t : Tier) (ps : List Path) :
    KeepsBeside t.camera a (a.lookAgain t ps) := by
  have hchecked : ∀ (ns : List Nat) (b : Archive), b.catalog.Keyed →
      KeepsBeside t.camera b (ns.foldl (fun b _ => b.checkTier t) b) := by
    intro ns
    induction ns with
    | nil => exact fun b _ => rfl
    | cons n ns ih =>
      intro b hb
      exact (ih (b.checkTier t) ((runs_checkTier b t).keyed hb)).trans (keepsBeside_checkTier hb t)
  exact (hchecked _ _ ((runs_refreshSizes ps a).keyed hk)).trans
    (Catalog.recordingsBeside_congr (recordings_refreshSizes ps a))

/-- Cataloguing a file that appeared changes no recording of another camera. -/
theorem keepsBeside_catalogue (hk : a.catalog.Keyed) (t : Tier) (p : Path) :
    KeepsBeside t.camera a (a.catalogue t p).2 := by
  unfold catalogue
  split
  · rfl
  · rfl
  · rfl
  · rename_i content _
    have hkeyed := hk.insertFile (t.entry p content.utf8ByteSize a.now)
    have hinserted : (a.catalog.insertFile (t.entry p content.utf8ByteSize a.now)).2.recordings =
        a.catalog.recordings := by
      unfold Catalog.insertFile
      split
      · dsimp only
        split <;> rfl
      · rfl
    split
    · rename_i heq
      rw [heq] at hinserted
      exact Catalog.recordingsBeside_congr hinserted
    · rename_i c heq
      rw [heq] at hkeyed hinserted
      exact (keepsBeside_checkTier (a := a.withCatalog c) hkeyed t).trans
        (Catalog.recordingsBeside_congr hinserted)

/-- A new file at `p` in a tier of thumbnails is named after a recording of another
camera, and that one is pointed at it. -/
def Misleads (a : Archive) (t : Tier) (p : Path) : Prop :=
  t.role = .thumbnails ∧ t.skips p = false ∧ a.catalog.answers .updateThumbnail = true ∧
    ∃ x ∈ a.catalog.recordingsBeside t.camera,
      p.fileStem?.bind signedNumber? = some x.id ∧ x.thumbnailPath ≠ some p

theorem keepsBeside_announce_iff {p : Path} (hp : t.skips p = false) :
    KeepsBeside t.camera a (a.announce t p) ↔ ¬ a.Misleads t p := by
  unfold announce
  split
  · rename_i hrole
    unfold repointThumbnail
    split
    · rename_i hnone
      refine iff_of_true rfl fun h => ?_
      obtain ⟨-, -, -, x, -, hid, -⟩ := h
      rw [hnone] at hid
      cases hid
    · rename_i i hsome
      refine Catalog.recordingsBeside_updateThumbnail_iff.trans ?_
      constructor
      · rintro hpoints ⟨-, -, hanswers, x, hx, hid, hne⟩
        exact hne (hpoints hanswers x hx (Option.some.inj (hid.symm.trans hsome)))
      · intro hnot hanswers x hx hid
        by_contra hne
        exact hnot ⟨hrole, hp, hanswers, x, hx, hid ▸ hsome, hne⟩
  all_goals
    rename_i hrole
    refine iff_of_true ?_ fun h => absurd (hrole.symm.trans h.1) (by simp)
  · split
    · rfl
    · exact keepsBeside_repointClip a t.camera p
  · rfl
  · rfl

/-- What happens to a file changes a recording of another camera only if it is a
new thumbnail named after that recording. -/
theorem keepsBeside_onNotification_iff (hk : a.catalog.Keyed) (t : Tier) (n : Notification) :
    KeepsBeside t.camera a (a.onNotification t n).2 ↔
      (n.kind = .created → ¬ a.Misleads t n.path) := by
  unfold onNotification
  split
  · rename_i hkind
    unfold onCreated
    split
    · rename_i hskips
      refine iff_of_true rfl fun _ h => ?_
      rw [h.2.1] at hskips
      cases hskips
    · rename_i hskips
      have hannounced : KeepsBeside t.camera a
          ((a.update t.address Keeper.enterEvent).announce t n.path) ↔ ¬ a.Misleads t n.path :=
        keepsBeside_announce_iff (a := a.update t.address Keeper.enterEvent)
          (eq_false_of_ne_true hskips)
      have hkeyed := (runs_announce (a.update t.address Keeper.enterEvent) t n.path).keyed hk
      rw [← hannounced]
      simp only [hkind, true_imp_iff]
      -- Whatever the announcement did to the other cameras, cataloguing leaves so.
      exact Eq.congr_left (keepsBeside_catalogue hkeyed t n.path)
  · rename_i hkind
    unfold onModified
    refine iff_of_true ?_ fun h => by simp [hkind] at h
    split <;> rfl
  · rename_i hkind
    unfold onDeleted
    refine iff_of_true ?_ fun h => by simp [hkind] at h
    split
    · rfl
    · have hforgot : ∀ b : Archive, KeepsBeside t.camera b (b.forget n.path).2 := by
        intro b
        have hdeleted := Catalog.recordings_deleteFile b.catalog n.path
        unfold forget
        split <;>
          (rename_i heq; rw [heq] at hdeleted; exact Catalog.recordingsBeside_congr hdeleted)
      exact hforgot (a.update t.address Keeper.enterEvent)

end Handling

end Archive

/-- What the keeper of a tier does: it is told of a file, looks at files again once
they are quiet, is evaluated or drained, or is asked by the segments beside it to
let a thumbnail or a clip follow. Those ask for recordings of their camera only. -/
inductive Operation.IsDoneBy (c : Catalog) (t : Tier) : Operation → Prop
  | notify (n : Notification) : IsDoneBy c t (.notify t n)
  | lookAgain (ps : List Path) : IsDoneBy c t (.lookAgain t ps)
  | runPolicy : IsDoneBy c t (.runPolicy t)
  | checkTier : IsDoneBy c t (.checkTier t)
  | drain : IsDoneBy c t (.drain t)
  | moveThumbnail {i : Int} (hi : c.Owns t.camera i) : IsDoneBy c t (.moveThumbnail t i)
  | moveClip (i : Int) : IsDoneBy c t (.moveClip t i)

namespace Archive

/-- Whatever a tier does, the recordings of other cameras stay as they are, unless it
is told of a new thumbnail that is named after one of them. -/
theorem other_cameras_kept_iff {a : Archive} {t : Tier} {o : Operation} (hk : a.catalog.Keyed)
    (ho : o.IsDoneBy a.catalog t) :
    (a.operate o).catalog.recordingsBeside t.camera = a.catalog.recordingsBeside t.camera ↔
      ∀ p, o = .notify t ⟨.created, p⟩ → ¬ a.Misleads t p := by
  cases ho with
  | notify n =>
    refine (keepsBeside_onNotification_iff hk t n).trans ?_
    constructor
    · intro h p hp
      obtain ⟨-, rfl⟩ := Operation.notify.inj hp
      exact h rfl
    · rintro h hkind
      obtain ⟨kind, p⟩ := n
      obtain rfl : kind = .created := hkind
      exact h p rfl
  | lookAgain ps => exact iff_of_true (keepsBeside_lookAgain hk t ps) nofun
  | runPolicy => exact iff_of_true (keepsBeside_runPolicy hk t) nofun
  | checkTier => exact iff_of_true (keepsBeside_checkTier hk t) nofun
  | drain => exact iff_of_true (keepsBeside_drain a t) nofun
  | moveThumbnail hi => exact iff_of_true (keepsBeside_moveThumbnail hi t) nofun
  | moveClip i => exact iff_of_true (keepsBeside_moveClip a t i) nofun

end Archive

/-- Beside the recording whose thumbnail is being served there is one of another
camera, which was made at the same time and has a thumbnail of the same name. -/
def twoCameras : Archive :=
  { servedThumbnail with
    catalog := { servedThumbnail.catalog with
      recordings := servedThumbnail.catalog.recordings ++ [{ lastTierRecording 2 2700 2800 with
        camera := "other"
        thumbnailPath := some "/t/thumbnails/other/2.jpg".toList }]
      lastRecordingId := 2 } }

theorem keyed_twoCameras : twoCameras.catalog.Keyed where
  fileIds := by decide
  filePaths := by decide
  notePaths := by decide
  recordingIds := by decide
  fileId_le := by decide
  recordingId_le := by decide

/-- The evaluation of one camera's segments deletes its recording, and the one of
the other camera stays. -/
theorem other_cameras_kept_iff_twoCameras :
    twoCameras.catalog.Keyed ∧
      (Operation.runPolicy lastTier).IsDoneBy twoCameras.catalog lastTier ∧
      (twoCameras.operate (.runPolicy lastTier)).catalog.recordingIds = [2] ∧
      (twoCameras.operate (.runPolicy lastTier)).catalog.recordingsBeside lastTier.camera =
        twoCameras.catalog.recordingsBeside lastTier.camera :=
  ⟨keyed_twoCameras, .runPolicy, by decide,
    (Archive.other_cameras_kept_iff keyed_twoCameras .runPolicy).2 nofun⟩

/-- A thumbnail in the directory of one camera is taken for that of another camera's
recording. -/
theorem not_forall_other_cameras_kept :
    ¬ ∀ (a : Archive) (t : Tier) (p name : Path), a.catalog.Keyed →
      p = t.directory ++ '/' :: name →
      (a.operate (.notify t ⟨.created, p⟩)).catalog.recordingsBeside t.camera =
        a.catalog.recordingsBeside t.camera := by
  intro h
  have hkept := h twoCameras (lastSibling thumbnailsName .thumbnails)
    "/t/thumbnails/cam/2.jpg".toList "2.jpg".toList keyed_twoCameras (by decide)
  have hfree := (Archive.keepsBeside_onNotification_iff keyed_twoCameras
    (lastSibling thumbnailsName .thumbnails) ⟨.created, "/t/thumbnails/cam/2.jpg".toList⟩).1 hkept
  exact hfree rfl ⟨rfl, by decide, by decide, by decide⟩

end TieredFootage
