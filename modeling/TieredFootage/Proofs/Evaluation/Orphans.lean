import TieredFootage.Proofs.Disk.Clearing
import TieredFootage.Proofs.Eviction.Reach
import TieredFootage.Proofs.Evaluation.Changes
import TieredFootage.Proofs.Evaluation.Recordings

/-!
# What deleted recordings leave behind

The row of a recording is all that leads to its thumbnail and its clip, and a
last tier deletes it once they have been handed over to be evicted. Nobody asks
what became of them: one that is being served stays, and nothing leads to it any
more.

Off a last tier nothing is moved, so a whole evaluation only takes files away,
those that the paths it hands over lead to, except where a path is protected.
`Swept` says this of every part of it.
-/

namespace TieredFootage

open Disk

/-- An evaluation with this report handed the path over to be evicted: as that
of a segment, or as the thumbnail or the clip of a recording that it reports. -/
def Report.HandsOver (report : Report) (c : Catalog) (p : Path) : Prop :=
  p ∈ report.outcomes.map (·.1) ∨
    ∃ i ∈ report.recordingIds, ∃ x, c.getRecording i = .ok (some x) ∧
      (x.thumbnailPath = some p ∨ x.clipPath = some p)

namespace Catalog

/-- A recording is found by its id. -/
theorem Keyed.recordingAt?_id {c : Catalog} (hk : c.Keyed) {x : Recording}
    (hx : x ∈ c.recordings) : c.recordingAt? x.id = some x := by
  unfold recordingAt?
  cases hfind : c.recordings.find? (·.id == x.id) with
  | none => exact absurd hx (by simpa using List.find?_eq_none.1 hfind x)
  | some y =>
    have hy := List.mem_of_find?_eq_some hfind
    have hid : y.id = x.id := by simpa using List.find?_some hfind
    rw [List.inj_on_of_nodup_map hk.recordingIds hy hx hid]

end Catalog

namespace Archive

variable {a b c : Archive} {t u : Tier} {ps qs : List Path}

/-- Paths have been handed over off a last tier, one after the other: the files
they lead to are gone unless the path is protected, and whatever decides about
the next path is as it was. -/
structure Swept (a b : Archive) (ps : List Path) : Prop where
  now_eq : b.now = a.now
  protects_eq : ∀ q, b.served.protects a.now q = a.served.protects a.now q
  getRecording_eq : b.catalog.getRecording = a.catalog.getRecording
  tiers_eq : b.tiers = a.tiers
  linked_eq : b.linked = a.linked
  cleared : Cleared a.disk b.disk (ps.filter fun q => !a.served.protects a.now q)

namespace Swept

theorem refl (a : Archive) : Swept a a [] :=
  ⟨rfl, fun _ => rfl, rfl, rfl, rfl, Cleared.refl a.disk⟩

theorem append (h : Swept a b ps) (hd : a.disk.IsTree) (h' : Swept b c qs) :
    Swept a c (ps ++ qs) where
  now_eq := h'.now_eq.trans h.now_eq
  protects_eq := by
    intro q
    rw [← h.protects_eq, ← h.now_eq, h'.protects_eq]
  getRecording_eq := h'.getRecording_eq.trans h.getRecording_eq
  tiers_eq := h'.tiers_eq.trans h.tiers_eq
  linked_eq := h'.linked_eq.trans h.linked_eq
  cleared := by
    have hsame : (fun q => !b.served.protects b.now q) = fun q => !a.served.protects a.now q := by
      funext q
      rw [h.now_eq, h.protects_eq]
    have hcleared := h'.cleared
    rw [hsame] at hcleared
    rw [List.filter_append]
    exact h.cleared.append hd hcleared

end Swept

/-- One path is handed over off a last tier. -/
theorem swept_evictFrom (hd : a.disk.IsTree) (hu : u.next = none) (p fileRoot : Path) :
    Swept a (a.evictFrom u p fileRoot).2 [p] where
  now_eq := Holdings.now_evict a.toHoldings p fileRoot u.root u.next
  protects_eq := Holdings.protects_evict a.toHoldings p fileRoot u.root u.next (Int.le_refl _)
  getRecording_eq :=
    Holdings.catalog_evict (P := fun c => c.getRecording = a.catalog.getRecording)
      (fun c hc => (Catalog.getRecording_deleteFile c p).trans hc)
      (fun c target hc => (Catalog.getRecording_copyNote c p target).trans hc) rfl
  tiers_eq := tiers_evictFrom a u p fileRoot
  linked_eq := rfl
  cleared := by
    have hdisk : (a.evictFrom u p fileRoot).2.disk =
        if a.served.protects a.now p then a.disk else (a.disk.removeFile p).2 := by
      have hevict := Holdings.disk_evict a.toHoldings p fileRoot u.root u.next
      rw [hu] at hevict
      rw [evictFrom, hu]
      exact hevict
    rw [hdisk, List.filter_singleton]
    cases a.served.protects a.now p with
    | true => exact Cleared.refl a.disk
    | false => exact cleared_removeFile hd p

theorem swept_evictAll (hd : a.disk.IsTree) (hu : u.next = none) (files : List (Path × Path)) :
    Swept a (a.evictAll u files).2 (files.map (·.1)) := by
  induction files generalizing a with
  | nil => exact Swept.refl a
  | cons f files ih =>
    obtain ⟨p, fileRoot⟩ := f
    have hfirst := swept_evictFrom hd hu p fileRoot
    exact hfirst.append hd (ih (hfirst.cleared.isTree hd))

/-- Where the recording with an id points, by one of its two pointers. -/
def pointedAt (a : Archive) (pointer : Recording → Option Path) (i : Int) : List Path :=
  match a.catalog.getRecording i with
  | .ok (some x) => (pointer x).toList
  | _ => []

theorem pointedAt_of_ok {pointer : Recording → Option Path} {i : Int} {x : Recording}
    (hx : a.catalog.getRecording i = .ok (some x)) :
    a.pointedAt pointer i = (pointer x).toList := by
  rw [pointedAt, hx]

theorem pointedAt_of_ne {pointer : Recording → Option Path} {i : Int}
    (h : ∀ x, a.catalog.getRecording i ≠ .ok (some x)) : a.pointedAt pointer i = [] := by
  unfold pointedAt
  split
  · rename_i x hx
    exact absurd hx (h x)
  · rfl

theorem mem_pointedAt {pointer : Recording → Option Path} {i : Int} {p : Path} :
    p ∈ a.pointedAt pointer i ↔
      ∃ x, a.catalog.getRecording i = .ok (some x) ∧ pointer x = some p := by
  by_cases h : ∃ x, a.catalog.getRecording i = .ok (some x)
  · obtain ⟨x, hx⟩ := h
    simp [pointedAt_of_ok hx, hx]
  · have hne : ∀ x, a.catalog.getRecording i ≠ .ok (some x) := fun x hx => h ⟨x, hx⟩
    simp [pointedAt_of_ne hne, hne]

theorem Swept.pointedAt_eq (h : Swept a b ps) : b.pointedAt = a.pointedAt := by
  funext pointer i
  rw [pointedAt, pointedAt, h.getRecording_eq]

theorem swept_follow (hd : a.disk.IsTree) (hu : u.next = none)
    {pointer : Recording → Option Path} {i : Int} {repoint : Path → Archive → Archive} :
    Swept a (a.follow u pointer i repoint) (a.pointedAt pointer i) := by
  have hne : ∀ p q, (a.evictFrom u p u.root).1 ≠ .moved q := by
    intro p q hq
    obtain ⟨n, hn, -⟩ := Holdings.exists_next_of_evict_eq_moved hq
    rw [hu] at hn
    cases hn
  refine follow_cases (P := fun b => Swept a b (a.pointedAt pointer i)) ?_ ?_ ?_
  · intro hnone
    have hempty : a.pointedAt pointer i = [] := by
      refine List.eq_nil_iff_forall_not_mem.2 fun p hp => ?_
      obtain ⟨x, hx, hxp⟩ := mem_pointedAt.1 hp
      exact hnone x p hx hxp
    rw [hempty]
    exact Swept.refl a
  · intro x p hx hp _
    rw [pointedAt_of_ok hx, hp]
    exact swept_evictFrom hd hu p u.root
  · exact fun x p q _ _ hq => absurd hq (hne p q)

/-- What hands over the pointers of one recording hands over those of all, one
recording after the other. -/
theorem swept_foldl {f : Archive → Int → Archive} {pointer : Recording → Option Path}
    (hf : ∀ b : Archive, b.disk.IsTree → ∀ i, Swept b (f b i) (b.pointedAt pointer i))
    (hd : a.disk.IsTree) (ids : List Int) :
    Swept a (ids.foldl f a) (ids.flatMap (a.pointedAt pointer)) := by
  induction ids generalizing a with
  | nil => exact Swept.refl a
  | cons i ids ih =>
    have hfirst := hf a hd i
    have hrest := ih (hfirst.cleared.isTree hd)
    rw [hfirst.pointedAt_eq] at hrest
    exact hfirst.append hd hrest

/-- Thumbnails and clips of a tier's recordings are kept beside it, on last tiers
as well. -/
structure HasLastSiblings (a : Archive) (t : Tier) : Prop where
  thumbnails : ∃ k, a.sibling? t thumbnailsName = some k ∧ k.tier.next = none
  clips : ∃ k, a.sibling? t clipsName = some k ∧ k.tier.next = none

theorem Swept.hasLastSiblings (h : Swept a b ps) (hs : a.HasLastSiblings t) :
    b.HasLastSiblings t := by
  have hkept : ∀ s, (∃ k, a.sibling? t s = some k ∧ k.tier.next = none) →
      ∃ k, b.sibling? t s = some k ∧ k.tier.next = none := by
    rintro s ⟨k, hk, hnext⟩
    have heq : (b.sibling? t s).map (·.tier) = (a.sibling? t s).map (·.tier) := by
      rw [map_tier_sibling?, map_tier_sibling?, h.tiers_eq, h.linked_eq]
    rw [hk] at heq
    obtain ⟨k', hk', htier⟩ := Option.map_eq_some_iff.1 heq
    exact ⟨k', hk', htier ▸ hnext⟩
  exact ⟨hkept _ hs.thumbnails, hkept _ hs.clips⟩

theorem swept_moveSiblings (hd : a.disk.IsTree) (hs : a.HasLastSiblings t) (ids : List Int) :
    Swept a (a.moveSiblings t ids) (ids.flatMap (a.pointedAt (·.thumbnailPath)) ++
      ids.flatMap (a.pointedAt (·.clipPath))) := by
  have hthumbnails : Swept a (a.moveThumbnails t ids)
      (ids.flatMap (a.pointedAt (·.thumbnailPath))) := by
    obtain ⟨k, hk, hnext⟩ := hs.thumbnails
    rw [moveThumbnails, hk]
    exact swept_foldl (fun b hb i => swept_follow hb hnext) hd ids
  -- The clips are looked up once the thumbnails have gone, beside the same tiers.
  refine hthumbnails.append hd ?_
  obtain ⟨k, hk, hnext⟩ := (hthumbnails.hasLastSiblings hs).clips
  rw [← hthumbnails.pointedAt_eq, moveSiblings, moveClips, hk]
  exact swept_foldl (fun b hb i => swept_follow hb hnext) (hthumbnails.cleared.isTree hd) ids

theorem swept_enterEvaluation (a : Archive) (t : Tier) : Swept a (a.enterEvaluation t) [] where
  now_eq := rfl
  protects_eq := fun _ => rfl
  getRecording_eq := rfl
  tiers_eq := tiers_update _ t.address fun _ => rfl
  linked_eq := rfl
  cleared := Cleared.refl a.disk

variable {s : SegmentSelection} {report : Report} {continuous events : Retention}

/-- The disk after a selection was evicted off a last tier. -/
theorem cleared_evictSelection (hd : a.disk.IsTree) (hs : a.HasLastSiblings t)
    (ht : t.next = none) (h : (a.evictSelection t s).1 = .ok report) :
    Cleared a.disk (a.evictSelection t s).2.disk
      ((report.outcomes.map (·.1) ++
        (report.recordingIds.flatMap (a.pointedAt (·.thumbnailPath)) ++
          report.recordingIds.flatMap (a.pointedAt (·.clipPath)))).filter
            fun q => !a.served.protects a.now q) := by
  have hfiles := swept_evictAll hd ht s.files
  have hsiblings := fun ids => hfiles.append hd
    (swept_moveSiblings (hfiles.cleared.isTree hd) (hfiles.hasLastSiblings hs) ids)
  rw [hfiles.pointedAt_eq, ← map_fst_evictAll a t] at hsiblings
  obtain ⟨houtcomes, hids⟩ := evictSelection_eq_ok h
  rw [← houtcomes] at hsiblings
  have hcleared := (hsiblings report.recordingIds).cleared
  rw [snd_evictSelection, ← houtcomes, ← hids]
  refine followUp_cases (P := fun b => Cleared a.disk b.disk _) (fun hempty => ?_) hcleared hcleared
  rw [houtcomes, hempty]
  simpa using (map_fst_evictAll a t s.files ▸ hfiles).cleared

theorem handsOver_iff {p : Path} :
    report.HandsOver a.catalog p ↔
      p ∈ report.outcomes.map (·.1) ++
        (report.recordingIds.flatMap (a.pointedAt (·.thumbnailPath)) ++
          report.recordingIds.flatMap (a.pointedAt (·.clipPath))) := by
  simp only [Report.HandsOver, List.mem_append, List.mem_flatMap, mem_pointedAt]
  refine or_congr_right ?_
  constructor
  · rintro ⟨i, hi, x, hx, hp | hp⟩
    · exact Or.inl ⟨i, hi, x, hx, hp⟩
    · exact Or.inr ⟨i, hi, x, hx, hp⟩
  · rintro (⟨i, hi, x, hx, hp⟩ | ⟨i, hi, x, hx, hp⟩)
    · exact ⟨i, hi, x, hx, Or.inl hp⟩
    · exact ⟨i, hi, x, hx, Or.inr hp⟩

/-- Only a last tier deletes recordings, and only those that it reports. -/
theorem reported_of_deleted {i : Int} (hi : i ∈ a.catalog.recordingIds)
    (hgone : i ∉ (a.runPolicy t).2.catalog.recordingIds) :
    t.next = none ∧ ∃ report, (a.runPolicy t).1 = .ok report ∧ i ∈ report.recordingIds := by
  rw [recordingIds_runPolicy] at hgone
  cases hresult : (a.runPolicy t).1 with
  | error e =>
    rw [hresult] at hgone
    exact absurd hi hgone
  | ok report =>
    rw [hresult, remainingIds] at hgone
    split at hgone
    · rename_i hnext
      refine ⟨hnext, report, rfl, ?_⟩
      by_contra hreported
      exact hgone (List.mem_filter.2 ⟨hi, by simpa using hreported⟩)
    · exact absurd hi hgone

theorem mem_recordings_iff {x : Recording} :
    x ∈ a.recordings t ↔ x ∈ a.catalog.recordings ∧ x.camera = t.camera := by
  rw [recordings, Catalog.recordingsOf, mem_newestFirst, List.mem_filter, beq_iff_eq]

/-- A recording that is reported is found under its id among those of the camera. -/
theorem mem_recordings_of_reported (hk : a.catalog.Keyed)
    (ht : ∃ continuous events, t.role = .segments continuous events)
    (h : (a.runPolicy t).1 = .ok report) {i : Int} (hi : i ∈ report.recordingIds) {x : Recording}
    (hx : a.catalog.recordingAt? i = some x) : x ∈ a.recordings t ∧ x.id = i := by
  obtain ⟨continuous, events, ht⟩ := ht
  cases he : events.isConfigured with
  | false =>
    rw [recordingIds_eq_nil ht he h] at hi
    simp at hi
  | true =>
    obtain ⟨y, hy, rfl, -⟩ := exists_leaves_of_mem_recordingIds hk ht he h hi
    have hfound := hk.recordingAt?_id (mem_recordings_iff.1 hy).1
    obtain rfl : y = x := Option.some.inj (hfound.symm.trans hx)
    exact ⟨hy, rfl⟩

theorem nodup_recordingIds (ht : ∃ continuous events, t.role = .segments continuous events)
    (h : (a.runPolicy t).1 = .ok report) : report.recordingIds.Nodup := by
  obtain ⟨continuous, events, ht⟩ := ht
  obtain ⟨s, -, hreport⟩ := runPolicy_eq_ok ht h
  rw [(evictSelection_eq_ok hreport).2, followers, ← List.map_id (distinctBy id _)]
  exact nodup_map_distinctBy id _

/-- A file is there after an evaluation of a last tier exactly if it was there and
every path that was handed over and leads to it is protected. -/
theorem isFile_runPolicy_iff (hd : a.disk.IsTree) (ht : t.role = .segments continuous events)
    (hnext : t.next = none) (hs : a.HasLastSiblings t) (h : (a.runPolicy t).1 = .ok report)
    (p : Path) :
    (a.runPolicy t).2.disk.isFile p = true ↔ a.disk.isFile p = true ∧
      ∀ q, report.HandsOver a.catalog q → a.disk.resolve q = a.disk.resolve p →
        a.served.protects a.now q = true := by
  obtain ⟨s, hselect, hreport⟩ := runPolicy_eq_ok ht h
  have hdisk : (a.runPolicy t).2.disk = ((a.enterEvaluation t).evictSelection t s).2.disk :=
    congrArg Holdings.disk (toHoldings_runPolicy_of_segments ht hselect)
  have hentered := swept_enterEvaluation a t
  have hcleared := cleared_evictSelection (a := a.enterEvaluation t) hd
    (hentered.hasLastSiblings hs) hnext hreport
  rw [hdisk, hcleared.isFile_iff hd]
  refine and_congr_right fun _ => ?_
  simp only [List.mem_filter, ← handsOver_iff]
  constructor
  · intro hnot q hq hsame
    by_contra hprotects
    refine hnot q ⟨hq, ?_⟩ hsame
    rw [hentered.now_eq, hentered.protects_eq, eq_false_of_ne_true hprotects]
    rfl
  · rintro hall q ⟨hq, hprotects⟩ hsame
    rw [hentered.now_eq, hentered.protects_eq, hall q hq hsame] at hprotects
    exact Bool.noConfusion hprotects

/-- When a last tier deletes a recording, a thumbnail or clip of it is left behind
exactly if no path leads to it that was handed over and is not being served. Its
own path is handed over, provided that the catalog can look the recording up. -/
theorem forgotten_file_stays_iff (hk : a.catalog.Keyed) (hd : a.disk.IsTree)
    (ht : t.role = .segments continuous events) (hnext : t.next = none)
    (hs : a.HasLastSiblings t) {x : Recording} (hx : x ∈ a.catalog.recordings)
    (hgone : x.id ∉ (a.runPolicy t).2.catalog.recordingIds) :
    ∃ report, (a.runPolicy t).1 = .ok report ∧ x.id ∈ report.recordingIds ∧
      ∀ p, x.thumbnailPath = some p ∨ x.clipPath = some p →
        ((a.runPolicy t).2.disk.isFile p = true ↔ a.disk.isFile p = true ∧
          ∀ q, report.HandsOver a.catalog q → a.disk.resolve q = a.disk.resolve p →
            a.served.protects a.now q = true) ∧
        (a.catalog.answers .getRecording = true → a.served.protects a.now p = false →
          (a.runPolicy t).2.disk.isFile p = false) := by
  have hid : x.id ∈ a.catalog.recordingIds := List.mem_map_of_mem hx
  obtain ⟨-, report, h, hreported⟩ := reported_of_deleted hid hgone
  refine ⟨report, h, hreported, fun p hp => ?_⟩
  have hiff := isFile_runPolicy_iff hd ht hnext hs h p
  refine ⟨hiff, fun hanswers hfree => ?_⟩
  have hlookup : a.catalog.getRecording x.id = .ok (some x) := by
    rw [Catalog.getRecording, if_pos hanswers, hk.recordingAt?_id hx]
  rw [← Bool.not_eq_true, hiff]
  rintro ⟨-, hall⟩
  have hserved := hall p (Or.inr ⟨x.id, hreported, x, hlookup, hp⟩) rfl
  rw [hfree] at hserved
  exact Bool.noConfusion hserved

end Archive

/-- The tier of the last tier's camera that holds one pointer of its recordings. -/
def lastSibling (name : String) (role : Role) : Tier :=
  { lastTier with subcategory := name, role := role }

/-- The only segment of a recording is old enough to leave. The thumbnail of the
recording is being served, and its clip is not. -/
def servedThumbnail : Archive where
  now := 10000 * second
  disk := { nodes := [(["t".toList], .directory), (["t".toList, "1".toList], .file "segment"),
    (["t".toList, "1.jpg".toList], .file "thumbnail"),
    (["t".toList, "1.mp4".toList], .file "clip")] }
  catalog := {
    files := [lastTierSegment 1 "/t/1" 2710]
    recordings := [{ lastTierRecording 1 2700 2800 with
      thumbnailPath := some "/t/1.jpg".toList
      clipPath := some "/t/1.mp4".toList }]
    lastFileId := 1
    lastRecordingId := 1 }
  served := ({} : Served).guard (10000 * second) "/t/1.jpg".toList
  keepers :=
    .ofTiers [lastTier, lastSibling thumbnailsName .thumbnails, lastSibling clipsName .clips]

theorem keyed_servedThumbnail : servedThumbnail.catalog.Keyed where
  fileIds := by decide
  filePaths := by decide
  notePaths := by decide
  recordingIds := by decide
  fileId_le := by decide
  recordingId_le := by decide

theorem isTree_servedThumbnail : servedThumbnail.disk.IsTree := isTree_of_nodes (by decide)

theorem hasLastSiblings_servedThumbnail : servedThumbnail.HasLastSiblings lastTier :=
  ⟨⟨_, rfl, rfl⟩, ⟨_, rfl, rfl⟩⟩

theorem forgotten_file_stays_iff_servedThumbnail :
    servedThumbnail.catalog.Keyed ∧ servedThumbnail.disk.IsTree ∧
      lastTier.role = .segments {} { maxAge := 3600 } ∧ lastTier.next = none ∧
      servedThumbnail.HasLastSiblings lastTier ∧
      ∀ x ∈ servedThumbnail.catalog.recordings,
        x.id ∉ (servedThumbnail.runPolicy lastTier).2.catalog.recordingIds ∧
          (servedThumbnail.runPolicy lastTier).2.disk.isFile "/t/1.mp4".toList = false := by
  refine ⟨keyed_servedThumbnail, isTree_servedThumbnail, rfl, rfl,
    hasLastSiblings_servedThumbnail, fun x hx => ?_⟩
  have hgone : x.id ∉ (servedThumbnail.runPolicy lastTier).2.catalog.recordingIds := by
    obtain rfl := List.mem_singleton.1 hx
    decide
  obtain ⟨report, -, -, hstays⟩ := Archive.forgotten_file_stays_iff keyed_servedThumbnail
    isTree_servedThumbnail rfl rfl hasLastSiblings_servedThumbnail hx hgone
  obtain rfl := List.mem_singleton.1 hx
  exact ⟨hgone, (hstays "/t/1.mp4".toList (Or.inr rfl)).2 (by decide) (by decide)⟩

/-- A thumbnail that is being served outlives its recording. -/
theorem not_forall_forgotten_file_gone :
    ¬ ∀ (a : Archive) (t : Tier) (continuous events : Retention),
      a.catalog.Keyed → a.disk.IsTree → t.role = .segments continuous events → t.next = none →
      a.HasLastSiblings t → ∀ x ∈ a.catalog.recordings,
        x.id ∉ (a.runPolicy t).2.catalog.recordingIds →
        ∀ p, x.thumbnailPath = some p ∨ x.clipPath = some p →
          (a.runPolicy t).2.disk.isFile p = false := by
  intro h
  have hgone := h servedThumbnail lastTier {} { maxAge := 3600 } keyed_servedThumbnail
    isTree_servedThumbnail rfl rfl hasLastSiblings_servedThumbnail _ (List.mem_singleton.2 rfl)
    (by decide) "/t/1.jpg".toList (Or.inl rfl)
  exact absurd hgone (by decide)

end TieredFootage
