import TieredFootage.Archive.Lifecycle
import TieredFootage.Proofs.Evaluation.Draining

/-!
# Pointers that a drain leaves behind

Thumbnails and clips leave their tier in two ways. A lockstep call moves the file that
one recording points at and points it at the new path. A drain moves every file of the
tier that is catalogued, and does nothing about recordings: whoever pointed at a file
that was moved still points where it was. It is up to the watcher of the next tier to
point it elsewhere, and when the tier drains because it is stopped, there may be none.
-/

namespace TieredFootage

/-- What a recording points at among the files of a tier with a role. -/
def Role.pointer : Role → Recording → Option Path
  | .thumbnails, x => x.thumbnailPath
  | .clips, x => x.clipPath
  | .plain _, _ | .segments _ _, _ => none

/-- Whether a recording is pointed at `q` once a lockstep call for it has moved its file
there. A thumbnail is found by the id of its recording, a clip by how its path ends. -/
def Tier.Finds (t : Tier) (q : Path) (x : Recording) : Prop :=
  match t.role with
  | .thumbnails => True
  | .clips => ∃ s, clipSuffix? q = some s ∧ Catalog.clipEndsWith t.camera s x = true
  | .plain _ | .segments _ _ => False

namespace Holdings

variable {h : Holdings} {p q fileRoot root : Path} {next : Option Path}

/-- A file that was moved went elsewhere. -/
theorem ne_of_evict_eq_moved (hq : (h.evict p fileRoot root next).1 = .moved q) : q ≠ p := by
  obtain ⟨n, rfl, rfl⟩ := exists_next_of_evict_eq_moved hq
  intro heq
  unfold evict at hq
  split at hq
  · cases hq
  · simp only [evictUnserved, if_pos heq] at hq
    cases hq

end Holdings

namespace Archive

variable {a b : Archive} {t u : Tier} {p q : Path} {x : Recording} {i : Int}

/-- The lockstep call that moves the thumbnail or the clip of a recording. -/
def lockstep (a : Archive) (t : Tier) (i : Int) : Archive :=
  match t.role with
  | .thumbnails => a.moveThumbnail t i
  | .clips => a.moveClip t i
  | .plain _ | .segments _ _ => a

/-- Each recording that pointed at a path that was moved points at where it is now. -/
def PointersFollow (a b : Archive) (t : Tier) (outcomes : List (Path × Eviction)) : Prop :=
  ∀ p q, (p, .moved q) ∈ outcomes → ∀ x ∈ a.recordings t, t.role.pointer x = some p →
    ∃ y, b.catalog.recordingAt? x.id = some y ∧ t.role.pointer y = some q

theorem ne_of_mem_evictAll {files : List (Path × Path)}
    (h : (p, .moved q) ∈ (a.evictAll t files).1) : q ≠ p := by
  induction files generalizing a with
  | nil => cases h
  | cons f files ih =>
    rw [evictAll_cons] at h
    rcases List.mem_cons.1 h with heq | hrest
    · obtain ⟨rfl, hq⟩ := Prod.mk.inj heq
      exact Holdings.ne_of_evict_eq_moved (h := a.toHoldings) hq.symm
    · exact ih hrest

/-- When what a recording points at has moved, all recordings are gone through. -/
theorem recordingAt?_follow_of_moved (pointer : Recording → Option Path)
    {repoint : Path → Archive → Archive} {g : Path → Recording → Recording}
    (ha : ∀ query, a.catalog.answers query = true) (h : Repoints repoint g)
    (hx : a.catalog.recordingAt? i = some x) (hp : pointer x = some p)
    (hq : (a.evictFrom u p u.root).1 = .moved q) (k : Int) :
    (a.follow u pointer i repoint).catalog.recordingAt? k =
      (a.catalog.recordingAt? k).map (g q) := by
  have hanswers : ∀ query, (a.evictFrom u p u.root).2.catalog.answers query = true := by
    intro query
    rw [answers_evictFrom, ha]
  rw [← recordingAt?_evictFrom a u p u.root, ← h.recordingAt? hanswers]
  unfold follow
  rw [Catalog.getRecording_of_answers ha, hx]
  dsimp only
  rw [hp]
  dsimp only
  split
  · rename_i q' b heq
    rw [heq] at hq ⊢
    obtain rfl := Eviction.moved.inj hq
    rfl
  · rename_i hne heq
    exact absurd (by rw [heq] at hq; exact hq) (hne q)

/-- A lockstep call points the recording that it is for at where its file is now. -/
theorem pointer_lockstep (hk : a.catalog.Keyed) (ha : ∀ query, a.catalog.answers query = true)
    (hx : x ∈ a.catalog.recordings) (hp : t.role.pointer x = some p)
    (hq : (a.evictFrom t p t.root).1 = .moved q) (hfound : t.Finds q x) :
    ∃ y, (a.lockstep t x.id).catalog.recordingAt? x.id = some y ∧ t.role.pointer y = some q := by
  have hget := hk.recordingAt?_id hx
  unfold Tier.Finds at hfound
  unfold lockstep
  cases hrole : t.role with
  | plain r => simp [hrole, Role.pointer] at hp
  | segments continuous events => simp [hrole, Role.pointer] at hp
  | thumbnails =>
    have hthumbnail : x.thumbnailPath = some p := by rwa [hrole] at hp
    have hrow := recordingAt?_follow_of_moved (·.thumbnailPath) ha (repoints_thumbnail x.id)
      hget hthumbnail hq x.id
    rw [hget, Option.map_some] at hrow
    exact ⟨_, hrow, by simp [Role.pointer, pointThumbnail]⟩
  | clips =>
    have hclip : x.clipPath = some p := by rwa [hrole] at hp
    have hrow := recordingAt?_follow_of_moved (·.clipPath) ha (repoints_clip t.camera)
      hget hclip hq x.id
    rw [hget, Option.map_some] at hrow
    rw [hrole] at hfound
    obtain ⟨s, hs, hends⟩ := hfound
    exact ⟨_, hrow, by simp [Role.pointer, pointClip, hs, hends]⟩

/-- A drain leaves the table of recordings as it is. -/
theorem recordings_drained (a : Archive) (t : Tier) :
    (a.drained t).catalog.recordings = a.catalog.recordings := by
  unfold drained drain
  split
  · rfl
  · exact recordings_evictAll a t _

/-- The recordings point where the files of a drained tier are exactly if none of them
pointed at a file that was moved. A lockstep call for one of them would have pointed it
at where its file is now. -/
theorem pointers_follow_drain_iff (hk : a.catalog.Keyed)
    (ha : ∀ query, a.catalog.answers query = true) (t : Tier) :
    ∃ report, (a.drain t).1 = .ok report ∧
      report.outcomes.map (·.1) = (a.segments t).map (·.path) ∧
      (a.drained t).catalog.recordings = a.catalog.recordings ∧
      (a.PointersFollow (a.drained t) t report.outcomes ↔
        ∀ p q, (p, .moved q) ∈ report.outcomes →
          ∀ x ∈ a.recordings t, t.role.pointer x ≠ some p) ∧
      ∀ p q, (a.evictFrom t p t.root).1 = .moved q →
        ∀ x ∈ a.recordings t, t.role.pointer x = some p → t.Finds q x →
          ∃ y, (a.lockstep t x.id).catalog.recordingAt? x.id = some y ∧
            t.role.pointer y = some q := by
  obtain ⟨report, hreport, hpaths, -⟩ := drainsOnce hk ha t
  have hunchanged := recordings_drained a t
  refine ⟨report, hreport, hpaths, hunchanged, ⟨fun hfollow p q hmoved x hx hp => ?_,
    fun hnone p q hmoved x hx hp => absurd hp (hnone p q hmoved x hx)⟩,
    fun p q hq x hx hp hfound =>
      pointer_lockstep hk ha (mem_recordings_iff.1 hx).1 hp hq hfound⟩
  -- The recording is as it was, so it would have to point at two paths.
  obtain ⟨y, hy, hpointer⟩ := hfollow p q hmoved x hx hp
  rw [Catalog.recordingAt?, hunchanged, ← Catalog.recordingAt?,
    hk.recordingAt?_id (mem_recordings_iff.1 hx).1] at hy
  obtain rfl := Option.some.inj hy
  have houtcomes : report.outcomes = (a.evictAll t (a.leaving t)).1 := by
    rw [drain_of_answers ha] at hreport
    exact (congrArg Report.outcomes (Except.ok.inj hreport)).symm
  rw [houtcomes] at hmoved
  exact ne_of_mem_evictAll hmoved (Option.some.inj (hpointer.symm.trans hp))

end Archive

/-- The tiers of thumbnails and clips, drained when they are stopped. -/
def leavingThumbnails : Tier := { handingOnThumbnails with drainsOnStop := true }

def leavingClips : Tier := { handingOnClips with drainsOnStop := true }

/-- A recording with its thumbnail and its clip, both of them catalogued. -/
def cataloguedEvent : Archive := { properEvent with
  catalog := { properEvent.catalog with
    files := [⟨leavingThumbnails.entry "/t0/thumbnails/cam1/1.jpg".toList 5 0, 1⟩,
      ⟨leavingClips.entry clipPath 4 0, 2⟩]
    lastFileId := 2 }
  keepers := [{ tier := leavingClips }, { tier := leavingThumbnails }] }

theorem keyed_cataloguedEvent : cataloguedEvent.catalog.Keyed where
  fileIds := by decide
  filePaths := by decide
  notePaths := List.nodup_nil
  recordingIds := List.nodup_singleton _
  fileId_le := by decide
  recordingId_le := by decide

theorem answers_cataloguedEvent (q : Query) : cataloguedEvent.catalog.answers q = true := by
  cases q <;> rfl

/-- The clip goes to the next tier, and its recording points where it was. -/
theorem drain_cataloguedEvent :
    (cataloguedEvent.drain leavingClips).1 =
      .ok { outcomes := [(clipPath, .moved nextClipPath)] } ∧
    (cataloguedEvent.drained leavingClips).catalog.recordings.map (·.clipPath) =
      [some clipPath] := by
  decide

theorem exists_recording_cataloguedEvent :
    ∃ x ∈ cataloguedEvent.recordings leavingClips, x.id = 1 ∧ x.clipPath = some clipPath ∧
      Catalog.clipEndsWith leavingClips.camera "cam1/1.mp4".toList x = true := by
  decide

/-- The clip of the recording is moved by a drain, and the recording is not pointed at where
it is now; it is by a lockstep call. -/
theorem pointers_follow_drain_iff_cataloguedEvent :
    cataloguedEvent.catalog.Keyed ∧ (∀ q, cataloguedEvent.catalog.answers q = true) ∧
      (cataloguedEvent.drain leavingClips).1 =
        .ok { outcomes := [(clipPath, .moved nextClipPath)] } ∧
      ¬ cataloguedEvent.PointersFollow (cataloguedEvent.drained leavingClips) leavingClips
        [(clipPath, .moved nextClipPath)] ∧
      ∃ y, (cataloguedEvent.moveClip leavingClips 1).catalog.recordingAt? 1 = some y ∧
        y.clipPath = some nextClipPath := by
  obtain ⟨report, hreport, -, -, hiff, hlockstep⟩ := Archive.pointers_follow_drain_iff
    keyed_cataloguedEvent answers_cataloguedEvent leavingClips
  obtain rfl := Except.ok.inj (hreport.symm.trans drain_cataloguedEvent.1)
  obtain ⟨x, hx, hid, hclip, hends⟩ := exists_recording_cataloguedEvent
  obtain ⟨y, hy, hpath⟩ := hlockstep clipPath nextClipPath (by decide) x hx hclip
    ⟨_, by decide, hends⟩
  exact ⟨keyed_cataloguedEvent, answers_cataloguedEvent, hreport,
    fun hfollow => hiff.1 hfollow clipPath nextClipPath (List.mem_singleton_self _) x hx hclip,
    y, hid ▸ hy, hpath⟩

/-- A drain moves a clip, and a tier that is drained as it is stopped a thumbnail, and the
recording still points where they were. -/
theorem not_forall_pointers_follow_drain :
    (¬ ∀ (a : Archive) (t : Tier) (next : Path) (report : Report),
      a.catalog.Keyed → (∀ q, a.catalog.answers q = true) →
      t.role = .thumbnails ∨ t.role = .clips → t.next = some next →
      (a.drain t).1 = .ok report → a.PointersFollow (a.drained t) t report.outcomes) ∧
    ∃ b, cataloguedEvent.shutdown leavingThumbnails = some b ∧
      b.disk.isFile "/t0/thumbnails/cam1/1.jpg".toList = false ∧
      b.disk.isFile "/t1/thumbnails/cam1/1.jpg".toList = true ∧
      b.catalog.recordings.map (·.thumbnailPath) =
        [some "/t0/thumbnails/cam1/1.jpg".toList] := by
  refine ⟨fun hall => ?_, by decide⟩
  obtain ⟨x, hx, hid, hclip, -⟩ := exists_recording_cataloguedEvent
  obtain ⟨y, hy, hpath⟩ := hall cataloguedEvent leavingClips _ _ keyed_cataloguedEvent
    answers_cataloguedEvent (.inr rfl) rfl drain_cataloguedEvent.1 clipPath nextClipPath
    (List.mem_singleton_self _) x hx hclip
  have hstale : y.clipPath ∈ (cataloguedEvent.drained leavingClips).catalog.recordings.map
      (·.clipPath) := List.mem_map_of_mem (List.mem_of_find?_eq_some hy)
  rw [drain_cataloguedEvent.2, List.mem_singleton] at hstale
  exact absurd (hpath.symm.trans hstale) (by decide)

end TieredFootage
