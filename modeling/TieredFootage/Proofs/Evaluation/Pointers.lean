import TieredFootage.Proofs.Evaluation.Repointing

/-!
# Pointers that keep up

When a recording follows its segments to the next tier, the disk and the catalog are
to say the same: its thumbnail and its clip are in the next tier, and its pointers lead
there. A thumbnail is pointed at by the id of its recording, a clip by the end of its
path, so another recording can be mistaken for the one that was meant.

If everything that recordings point at lies where it belongs, and no clip ends like
another one, each pointer keeps up with its file. It does not if one file is thumbnail
and clip at once: the keeper of thumbnails moves it, and the pointer to the clip stays
behind.
-/

namespace TieredFootage

open Disk

/-- A tier beside another one: it keeps files of the same camera below the same root,
and has the same next root. -/
structure Tier.IsBeside (w t : Tier) (s : String) (next : Path) : Prop where
  camera : w.camera = t.camera
  subcategory : w.subcategory = s
  recorder : s ∈ CameraSpec.subcategories .recorder
  root : w.root = t.root
  next_eq : w.next = some next

/-- Files of two tiers beside one another are not in each other's way. -/
theorem Tier.IsBeside.not_below {w w' t : Tier} {s s' : String} {next : Path}
    (h : w.IsBeside t s next) (h' : w'.IsBeside t s' next) (hne : s ≠ s') (ns ms : List Path) :
    ¬ w.place ++ ns <+: w'.place ++ ms := by
  refine Tier.place_not_below (h.subcategory ▸ h.recorder) (h'.subcategory ▸ h'.recorder) ?_ ns ms
  rw [h.subcategory, h'.subcategory]
  exact hne

namespace Archive

variable {a b : Archive} {t u v w : Tier} {s : String} {next p q : Path} {report : Report}
  {content : String}

/-- A segment tier that moves on together with the tiers of thumbnails and of clips
beside it, in an archive in which all is well. -/
structure InStep (a : Archive) (t u v : Tier) (next : Path) : Prop where
  keyed : a.catalog.Keyed
  answers : ∀ q, a.catalog.answers q = true
  isTree : a.disk.IsTree
  roots : Path.AreRoots t.root next
  camera : Path.IsName t.camera.toList ∧ '/' ∉ t.camera.toList
  subcategory : t.subcategory = segmentsName
  role : ∃ continuous events, t.role = .segments continuous events
  next_eq : t.next = some next
  thumbnails : (a.sibling? t thumbnailsName).map (·.tier) = some u
  thumbnails_next : u.root = t.root ∧ u.next = some next
  clips : (a.sibling? t clipsName).map (·.tier) = some v
  clips_next : v.root = t.root ∧ v.next = some next
  segments : ∀ f ∈ a.segments t, t.Keeps f.path ∧ f.tierPath = t.root

/-- What recordings with certain ids point at lies where it belongs, and none of them
can be mistaken for another one by its clip. -/
structure InOrder (a : Archive) (t u v : Tier) (ids : List Int) : Prop where
  thumbnails : ∀ x ∈ a.recordings t, x.id ∈ ids → ∀ p, x.thumbnailPath = some p → u.Keeps p
  clips : ∀ x ∈ a.recordings t, x.id ∈ ids → ∀ p, x.clipPath = some p → v.Keeps p
  unlike : ∀ x ∈ a.recordings t, ∀ y ∈ a.recordings t, x.id ∈ ids → y.id ∈ ids → x.id ≠ y.id →
    ¬ x.CatchesClip y

/-- Nobody reads the file of a path, and a file can be written to another path. -/
structure IsMovable (a : Archive) (p q : Path) (content : String) : Prop where
  unserved : a.served.protects a.now p = false
  source : a.disk.stat p = .ok (.file content)
  target : a.disk.Accepts q

/-- A file has left one path for another one. -/
structure HasMoved (a : Archive) (p q : Path) (content : String) : Prop where
  source : a.disk.stat p = .error .absent
  target : a.disk.stat q = .ok (.file content)

theorem passedBy_enterEvaluation {R N : Location} {r : List Path} (hd : a.disk.IsTree) (t : Tier) :
    PassedBy R N r a (a.enterEvaluation t) := by
  refine ⟨⟨hd, rfl, fun _ => rfl, rfl, ?_, rfl⟩, fun _ h => h, fun _ h => h⟩
  exact tiers_update _ t.address fun _ => rfl

theorem passedBy_evictAll {r : List Path} (hroots : Path.AreRoots t.root next)
    (hnext : t.next = some next) (hd : a.disk.IsTree) {files : List (Path × Path)}
    (hfiles : ∀ x ∈ files, ∃ r', IsNamed r' ∧ r' ≠ [] ∧ x = (t.root.under r', t.root) ∧
      ¬ r <+: r') :
    PassedBy (Path.pieces t.root.tail) (Path.pieces next.tail) r a (a.evictAll t files).2 := by
  induction files generalizing a with
  | nil => exact PassedBy.refl hd
  | cons x files ih =>
    obtain ⟨r', hr', hne, rfl, hr⟩ := hfiles _ List.mem_cons_self
    have hpassed := passedBy_evictFrom hroots hnext hd hr' hne hr
    rw [evictAll_cons]
    exact hpassed.trans (ih hpassed.isTree fun x hx => hfiles x (List.mem_cons_of_mem _ hx))

/-- An evaluation that reports recordings evicts segments first, and then lets
thumbnails and clips follow. -/
theorem toHoldings_runPolicy {continuous events : Retention}
    (ht : t.role = .segments continuous events) (hnext : t.next = some next)
    (h : (a.runPolicy t).1 = .ok report) (hids : report.recordingIds ≠ []) :
    ∃ s, (a.enterEvaluation t).selectSegments t continuous events = .ok s ∧
      (a.runPolicy t).2.toHoldings =
        (((a.enterEvaluation t).evictAll t s.files).2.moveSiblings t
          report.recordingIds).toHoldings := by
  obtain ⟨s, hs, hreport⟩ := runPolicy_eq_ok ht h
  obtain ⟨houtcomes, hfollowers⟩ := evictSelection_eq_ok hreport
  refine ⟨s, hs, (toHoldings_runPolicy_of_segments ht hs).trans ?_⟩
  have hnonempty : report.recordingIds.isEmpty = false := by simpa using hids
  rw [snd_evictSelection, ← houtcomes, ← hfollowers]
  simp only [followUp, hnonempty, hnext]
  rfl

theorem isBeside_of_sibling (hw : (a.sibling? t s).map (·.tier) = some w)
    (hs : s ∈ CameraSpec.subcategories .recorder) (hroot : w.root = t.root)
    (hnext : w.next = some next) : w.IsBeside t s next := by
  obtain ⟨k, hk, rfl⟩ := Option.map_eq_some_iff.1 hw
  have haddress := (sibling?_eq_some hk).2
  exact ⟨congrArg Address.camera haddress, congrArg Address.subcategory haddress, hs, hroot, hnext⟩

namespace InStep

variable (h : a.InStep t u v next)

include h

theorem beside_segments : t.IsBeside t segmentsName next :=
  ⟨rfl, h.subcategory, by decide, rfl, h.next_eq⟩

theorem beside_thumbnails : u.IsBeside t thumbnailsName next :=
  isBeside_of_sibling h.thumbnails (by decide) h.thumbnails_next.1 h.thumbnails_next.2

theorem beside_clips : v.IsBeside t clipsName next :=
  isBeside_of_sibling h.clips (by decide) h.clips_next.1 h.clips_next.2

/-- Segments, thumbnails and clips lie below the one root, each in their place. -/
theorem exists_under (hw : w.IsBeside t s next) (hp : w.Keeps p) :
    ∃ ns, ns ≠ [] ∧ IsNamed (w.place ++ ns) ∧ p = t.root.under (w.place ++ ns) := by
  have hroot := h.roots.isNormal_root
  rw [← hw.root] at hroot ⊢
  exact hp.exists_under ⟨hw.subcategory ▸ folder_plain hw.recorder, hw.camera ▸ h.camera⟩ hroot

/-- Moving thumbnails leaves clips and cameras of recordings as they are, -/
theorem map_clipView_moveThumbnails (hb : Worked a b)
    (hsame : ∀ k, b.catalog.recordingAt? k = a.catalog.recordingAt? k) (ids : List Int) (k : Int) :
    ((b.moveThumbnails t ids).catalog.recordingAt? k).map Recording.clipView =
      (a.catalog.recordingAt? k).map Recording.clipView := by
  rw [moveThumbnails_eq_followAll ((hb.map_tier_sibling? t _).trans h.thumbnails), ← hsame]
  refine map_recordingAt?_followAll repoints_thumbnail ?_ hb.isTree
    (hb.answers h.answers) k
  intro i q x
  unfold pointThumbnail
  split <;> rfl

/-- and moving clips leaves thumbnails as they are. -/
theorem map_thumbnailPath_moveClips (hb : Worked a b) (ids : List Int) (k : Int) :
    ((b.moveClips t ids).catalog.recordingAt? k).map (·.thumbnailPath) =
      (b.catalog.recordingAt? k).map (·.thumbnailPath) := by
  rw [moveClips_eq_followAll ((hb.map_tier_sibling? t _).trans h.clips)]
  refine map_recordingAt?_followAll (fun _ => repoints_clip v.camera) ?_
    hb.isTree (hb.answers h.answers) k
  intro i q x
  unfold pointClip
  split <;> rfl

/-- Segments that are evicted pass by what goes by names of another place. -/
theorem passedBy_segments {continuous events : Retention} {s : SegmentSelection} {r : List Path}
    (hs : (a.enterEvaluation t).selectSegments t continuous events = .ok s)
    (hr : ∀ ns, ¬ r <+: t.place ++ ns) :
    PassedBy (Path.pieces t.root.tail) (Path.pieces next.tail) r a
      ((a.enterEvaluation t).evictAll t s.files).2 := by
  have hfiles : ∀ x ∈ s.files, ∃ r', IsNamed r' ∧ r' ≠ [] ∧ x = (t.root.under r', t.root) ∧
      ¬ r <+: r' := by
    intro x hx
    obtain ⟨f, hf, hpath, hroot⟩ := exists_segment_of_mem_files hs x hx
    obtain ⟨hkeeps, htierPath⟩ := h.segments f hf
    obtain ⟨ns, hne, hns, hunder⟩ := h.exists_under h.beside_segments hkeeps
    refine ⟨t.place ++ ns, hns, by simp [hne], ?_, hr ns⟩
    exact Prod.ext (hpath.symm.trans hunder) (hroot.symm.trans htierPath)
  have hentered := passedBy_enterEvaluation (R := Path.pieces t.root.tail)
    (N := Path.pieces next.tail) (r := r) h.isTree t
  exact hentered.trans (passedBy_evictAll h.roots h.next_eq hentered.isTree hfiles)

/-- No two recordings in order have one clip: it would catch itself. -/
theorem clipPath_ne {ids : List Int} (ho : a.InOrder t u v ids) {x y : Recording}
    (hx : x ∈ a.recordings t) (hy : y ∈ a.recordings t) (hxid : x.id ∈ ids) (hyid : y.id ∈ ids)
    (hne : y.id ≠ x.id) (hp : x.clipPath = some p) : y.clipPath ≠ some p := by
  intro hyp
  obtain ⟨ns, hns, hnamed, rfl⟩ := h.exists_under h.beside_clips (ho.clips x hx hxid p hp)
  obtain ⟨l, m, n, hlast⟩ := v.exists_last_two hns
  rw [hlast] at hnamed hp hyp
  refine ho.unlike x hx y hy hxid hyid (Ne.symm hne) (Recording.catchesClip_self
    h.roots.isNormal_root hnamed hp (hyp.trans hp.symm) ?_)
  rw [(mem_recordings_iff.1 hx).2, (mem_recordings_iff.1 hy).2]

end InStep

theorem recordingAt?_segments (a : Archive) (t : Tier) (files : List (Path × Path)) (k : Int) :
    ((a.enterEvaluation t).evictAll t files).2.catalog.recordingAt? k =
      a.catalog.recordingAt? k := by
  rw [Catalog.recordingAt?, recordings_evictAll]
  rfl

/-- The two paths of a file that goes from one root to the next by the same names. -/
theorem IsMovable.awaits {root : Path} {r : List Path} (hroots : Path.AreRoots root next)
    (hd : a.disk.IsTree) (hr : IsNamed r) (hne : r ≠ [])
    (h : a.IsMovable (root.under r) (next.under r) content) :
    IsSpelled (Path.pieces root.tail ++ r) ∧
      a.disk.Awaits (Path.pieces root.tail ++ r) (Path.pieces next.tail ++ r) content := by
  obtain ⟨l, -, hslot, hl⟩ := exists_slot_of_stat hd h.source
  obtain ⟨rfl, hspelled⟩ := slot_isNormal (Path.isNormal_under hroots.isNormal_root hr hne) hslot
  have hroom := (accepts_iff_hasRoom hd (Path.isNormal_under hroots.isNormal_next hr hne)).1
    h.target
  rw [Path.pieces_under hroots.isNormal_root hr hne] at hspelled hl
  rw [Path.pieces_under hroots.isNormal_next hr hne] at hroom
  exact ⟨hspelled, hl, hroom⟩

theorem HasMoved.congr (h : b.HasMoved p q content) (hdisk : a.disk = b.disk) :
    a.HasMoved p q content :=
  ⟨hdisk ▸ h.source, hdisk ▸ h.target⟩

theorem hasMoved_of_arrived {root : Path} {r : List Path} (hroots : Path.AreRoots root next)
    (hd : b.disk.IsTree) (hr : IsNamed r) (hne : r ≠ [])
    (hs : IsSpelled (Path.pieces root.tail ++ r)) (ht : IsSpelled (Path.pieces next.tail ++ r))
    (h : b.disk.Arrived (Path.pieces root.tail ++ r) (Path.pieces next.tail ++ r) content) :
    b.HasMoved (root.under r) (next.under r) content := by
  have hsource := Path.pieces_under hroots.isNormal_root hr hne
  have htarget := Path.pieces_under hroots.isNormal_next hr hne
  have hparent := hd _ (show b.disk.node? (Path.pieces next.tail ++ r) ≠ none by simp [h.target])
  constructor
  · rw [stat_of_slot (slot_of_isSpelled hd (Path.isNormal_under hroots.isNormal_root hr hne)
      (hsource ▸ hs) (hsource ▸ h.directory)), hsource, h.source]
  · rw [stat_of_slot (slot_of_isSpelled hd (Path.isNormal_under hroots.isNormal_next hr hne)
      (htarget ▸ ht) (htarget ▸ hparent)), htarget, h.target]

section Report

variable (h : a.InStep t u v next) (hreport : (a.runPolicy t).1 = .ok report)

section Beside

variable (hw : w.IsBeside t s next) {pointer : Recording → Option Path}
  (hkeeps : ∀ x ∈ a.recordings t, x.id ∈ report.recordingIds → ∀ p, pointer x = some p → w.Keeps p)
  {r : List Path}

include h hreport hw hkeeps

/-- What reported recordings point at lies in the place of its tier, beside other names. -/
theorem pointsBeside {i : Int} (hi : i ∈ report.recordingIds)
    (hr : ∀ x ∈ a.recordings t, x.id = i → ∀ ns,
      pointer x = some (t.root.under (w.place ++ ns)) → ¬ r <+: w.place ++ ns) :
    a.PointsBeside w pointer r i := by
  intro x p hx hp
  obtain ⟨hmem, hid⟩ := mem_recordings_of_reported h.keyed h.role hreport hi hx
  obtain ⟨ns, hne, hns, rfl⟩ := h.exists_under hw (hkeeps x hmem (hid ▸ hi) p hp)
  exact ⟨w.place ++ ns, hns, by simp [hne], by rw [hw.root], hr x hmem hid ns hp⟩

variable (hb : Worked a b) {repoint : Int → Path → Archive → Archive}
  {g : Int → Path → Recording → Recording} (hg : ∀ i, Repoints (repoint i) (g i))
  (hsame : ∀ k, (b.catalog.recordingAt? k).map pointer = (a.catalog.recordingAt? k).map pointer)
  (halone : ∀ i ∈ report.recordingIds, ∀ k ∈ report.recordingIds, k ≠ i →
    b.LeavesAlone w next pointer g i k)

include hb hg hsame halone

/-- What follows in a tier beside passes by what goes by names of another place. -/
theorem passedBy_beside (hr : ∀ ns, ¬ r <+: w.place ++ ns) :
    PassedBy (Path.pieces t.root.tail) (Path.pieces next.tail) r b
      (b.followAll w pointer repoint report.recordingIds) := by
  have hroots := h.roots
  rw [← hw.root] at hroots ⊢
  refine (passedBy_followAll hroots hw.next_eq hg report.recordingIds [] ?_ hb.isTree
    (hb.answers h.answers) (fun i hi => ?_) fun i hi k hk hne => ?_).1
  · simpa using nodup_recordingIds h.role hreport
  · exact (pointsBeside h hreport hw hkeeps hi fun x _ _ ns _ => hr ns).congr (hsame i)
  · exact halone i hi k (by simpa using hk) hne

/-- A file that waits in a tier beside arrives, and its pointer keeps up. -/
theorem followAll_beside {x : Recording} (hx : b.catalog.recordingAt? x.id = some x)
    (hid : x.id ∈ report.recordingIds) (hr : IsNamed r) (hne : r ≠ [])
    (hp : pointer x = some (t.root.under r)) (hs : IsSpelled (Path.pieces t.root.tail ++ r))
    (hfree : b.served.protects b.now (t.root.under r) = false)
    (hwait : b.disk.Awaits (Path.pieces t.root.tail ++ r) (Path.pieces next.tail ++ r) content)
    (hothers : ∀ y ∈ a.recordings t, y.id ∈ report.recordingIds → y.id ≠ x.id →
      ∀ ns, pointer y = some (t.root.under (w.place ++ ns)) → ¬ r <+: w.place ++ ns)
    (hlast : ∀ j ∈ report.recordingIds, j ≠ x.id → ∀ y p, b.catalog.recordingAt? j = some y →
      pointer y = some p → g j (Holdings.destination p t.root next) (g x.id (next.under r) x) =
        g x.id (next.under r) x) :
    Worked b (b.followAll w pointer repoint report.recordingIds) ∧
      (b.followAll w pointer repoint report.recordingIds).disk.Arrived
        (Path.pieces t.root.tail ++ r) (Path.pieces next.tail ++ r) content ∧
      (b.followAll w pointer repoint report.recordingIds).catalog.recordingAt? x.id =
        some (g x.id (next.under r) x) := by
  have hroots := h.roots
  rw [← hw.root] at hroots hp hs hfree hwait hlast ⊢
  refine followAll_of_awaits hroots hw.next_eq hg (nodup_recordingIds h.role hreport) hb.isTree
    (hb.answers h.answers) hid hx hr hne hp hs hfree hwait (fun j hj hjx => ?_) halone hlast
  refine (pointsBeside h hreport hw hkeeps hj fun y hy hyj ns => ?_).congr (hsame j)
  exact hothers y hy (hyj ▸ hj) (hyj ▸ hjx) ns

end Beside

variable (ho : a.InOrder t u v report.recordingIds) {i : Int} (hi : i ∈ report.recordingIds)

include h hreport ho hi

/-- Where the clips of recordings are what they were, each of them lies below the root,
with two names or more, and catches no other one. -/
theorem clip_of_view (hview : ∀ k, (b.catalog.recordingAt? k).map Recording.clipView =
      (a.catalog.recordingAt? k).map Recording.clipView)
    {x : Recording} (hx : b.catalog.recordingAt? i = some x) :
    x.camera = t.camera ∧
      (∀ p, x.clipPath = some p → ∃ l m n, IsNamed (l ++ [m] ++ [n]) ∧
        p = t.root.under (l ++ [m] ++ [n])) ∧
      ∀ k ∈ report.recordingIds, k ≠ i → ∀ y, b.catalog.recordingAt? k = some y →
        ¬ x.CatchesClip y := by
  have hfound : ∀ k ∈ report.recordingIds, ∀ y, b.catalog.recordingAt? k = some y →
      ∃ y' ∈ a.recordings t, y'.id = k ∧ y.clipView = y'.clipView := by
    intro k hk y hy
    have heq := hview k
    rw [hy, Option.map_some] at heq
    obtain ⟨y', hy', hsame⟩ := Option.map_eq_some_iff.1 heq.symm
    obtain ⟨hmem, hid⟩ := mem_recordings_of_reported h.keyed h.role hreport hk hy'
    exact ⟨y', hmem, hid, hsame.symm⟩
  obtain ⟨x', hmem, hid, hsame⟩ := hfound i hi x hx
  obtain ⟨hcamera, hclip⟩ := Prod.mk.inj hsame
  refine ⟨?_, fun p hp => ?_, fun k hk hki y hy hcatch => ?_⟩
  · rw [hcamera, (mem_recordings_iff.1 hmem).2]
  · obtain ⟨ns, hne, hns, rfl⟩ :=
      h.exists_under h.beside_clips (ho.clips x' hmem (hid ▸ hi) p (hclip ▸ hp))
    obtain ⟨l, m, n, hlast⟩ := v.exists_last_two hne
    rw [hlast] at hns
    exact ⟨l, m, n, hns, by rw [hlast]⟩
  · obtain ⟨y', hmem', hid', hsame'⟩ := hfound k hk y hy
    refine ho.unlike x' hmem y' hmem' (hid ▸ hi) (hid' ▸ hk) ?_ (hcatch.congr hsame hsame')
    rw [hid, hid']
    exact Ne.symm hki

theorem leavesAlone_clips (hview : ∀ k, (b.catalog.recordingAt? k).map Recording.clipView =
      (a.catalog.recordingAt? k).map Recording.clipView)
    {k : Int} (hk : k ∈ report.recordingIds) (hne : k ≠ i) :
    b.LeavesAlone v next (·.clipPath) (fun _ => pointClip v.camera) i k := by
  intro x y p hx hp hy
  obtain ⟨hcamera, hbelow, hunlike⟩ := clip_of_view h hreport ho hi hview hx
  obtain ⟨l, m, n, hns, rfl⟩ := hbelow p hp
  rw [h.beside_clips.root, Path.destination_under, h.beside_clips.camera, ← hcamera]
  exact pointClip_of_not_catchesClip h.roots.isNormal_root h.roots.isNormal_next hns hp
    (hunlike k hk hne y hy)

omit hi

section Phases

variable (hb : Worked a b) {r : List Path}

include hb

/-- Thumbnails that follow pass by what goes by names of another place. -/
theorem passedBy_moveThumbnails
    (hsame : ∀ k, b.catalog.recordingAt? k = a.catalog.recordingAt? k)
    (hr : ∀ ns, ¬ r <+: u.place ++ ns) :
    PassedBy (Path.pieces t.root.tail) (Path.pieces next.tail) r b
      (b.moveThumbnails t report.recordingIds) := by
  rw [moveThumbnails_eq_followAll ((hb.map_tier_sibling? t _).trans h.thumbnails)]
  exact passedBy_beside h hreport h.beside_thumbnails ho.thumbnails hb repoints_thumbnail
    (fun k => congrArg _ (hsame k)) (fun i _ k _ hki => leavesAlone_thumbnails b hki) hr

/-- Clips that follow pass by what goes by names of another place. -/
theorem passedBy_moveClips
    (hview : ∀ k, (b.catalog.recordingAt? k).map Recording.clipView =
      (a.catalog.recordingAt? k).map Recording.clipView)
    (hr : ∀ ns, ¬ r <+: v.place ++ ns) :
    PassedBy (Path.pieces t.root.tail) (Path.pieces next.tail) r b
      (b.moveClips t report.recordingIds) := by
  rw [moveClips_eq_followAll ((hb.map_tier_sibling? t _).trans h.clips)]
  exact passedBy_beside h hreport h.beside_clips ho.clips hb (fun _ => repoints_clip v.camera)
    (map_clipPath_of_clipView hview)
    (fun i hi k hk hki => leavesAlone_clips h hreport ho hi hview hk hki) hr

/-- The thumbnail of a recording arrives, and its pointer keeps up. -/
theorem moveThumbnails_of_awaits
    (hsame : ∀ k, b.catalog.recordingAt? k = a.catalog.recordingAt? k) {x : Recording}
    (hx : a.catalog.recordingAt? x.id = some x) (hid : x.id ∈ report.recordingIds)
    (hr : IsNamed r) (hne : r ≠ []) (hp : x.thumbnailPath = some (t.root.under r))
    (hs : IsSpelled (Path.pieces t.root.tail ++ r))
    (hfree : b.served.protects b.now (t.root.under r) = false)
    (hwait : b.disk.Awaits (Path.pieces t.root.tail ++ r) (Path.pieces next.tail ++ r) content)
    (hothers : ∀ y ∈ a.recordings t, y.id ∈ report.recordingIds → y.id ≠ x.id →
      ∀ ns, y.thumbnailPath = some (t.root.under (u.place ++ ns)) → ¬ r <+: u.place ++ ns) :
    Worked b (b.moveThumbnails t report.recordingIds) ∧
      (b.moveThumbnails t report.recordingIds).disk.Arrived (Path.pieces t.root.tail ++ r)
        (Path.pieces next.tail ++ r) content ∧
      (b.moveThumbnails t report.recordingIds).catalog.recordingAt? x.id =
        some { x with thumbnailPath := some (next.under r) } := by
  rw [moveThumbnails_eq_followAll ((hb.map_tier_sibling? t _).trans h.thumbnails)]
  have hself : pointThumbnail x.id (next.under r) x =
      { x with thumbnailPath := some (next.under r) } := if_pos rfl
  rw [← hself]
  refine followAll_beside h hreport h.beside_thumbnails ho.thumbnails hb repoints_thumbnail
    (fun k => congrArg _ (hsame k)) (fun i _ k _ hki => leavesAlone_thumbnails b hki)
    ((hsame x.id).trans hx) hid hr hne hp hs hfree hwait hothers fun j _ hjx y p _ _ => ?_
  rw [hself]
  exact if_neg (Ne.symm hjx)

/-- The clip of a recording arrives, and its pointer keeps up. -/
theorem moveClips_of_awaits
    (hview : ∀ k, (b.catalog.recordingAt? k).map Recording.clipView =
      (a.catalog.recordingAt? k).map Recording.clipView) {x : Recording}
    (hx : b.catalog.recordingAt? x.id = some x) (hid : x.id ∈ report.recordingIds)
    (hr : IsNamed r) (hne : r ≠ []) (hp : x.clipPath = some (t.root.under r))
    (hs : IsSpelled (Path.pieces t.root.tail ++ r))
    (hfree : b.served.protects b.now (t.root.under r) = false)
    (hwait : b.disk.Awaits (Path.pieces t.root.tail ++ r) (Path.pieces next.tail ++ r) content)
    (hothers : ∀ y ∈ a.recordings t, y.id ∈ report.recordingIds → y.id ≠ x.id →
      ∀ ns, y.clipPath = some (t.root.under (v.place ++ ns)) → ¬ r <+: v.place ++ ns) :
    Worked b (b.moveClips t report.recordingIds) ∧
      (b.moveClips t report.recordingIds).disk.Arrived (Path.pieces t.root.tail ++ r)
        (Path.pieces next.tail ++ r) content ∧
      (b.moveClips t report.recordingIds).catalog.recordingAt? x.id =
        some { x with clipPath := some (next.under r) } := by
  obtain ⟨hcamera, hbelow, hunlike⟩ := clip_of_view h hreport ho hid hview hx
  obtain ⟨l, m, n, hns, hunder⟩ := hbelow _ hp
  obtain rfl : r = l ++ [m] ++ [n] := by
    have hpieces := congrArg (fun p => Path.pieces (List.tail p)) hunder
    rw [Path.pieces_under h.roots.isNormal_root hr hne,
      Path.pieces_under h.roots.isNormal_root hns (by simp)] at hpieces
    exact List.append_cancel_left hpieces
  have hself := pointClip_self h.roots.isNormal_root h.roots.isNormal_next hns hp
  rw [moveClips_eq_followAll ((hb.map_tier_sibling? t _).trans h.clips), ← hself, hcamera,
    ← h.beside_clips.camera]
  refine followAll_beside h hreport h.beside_clips ho.clips hb (fun _ => repoints_clip v.camera)
    (map_clipPath_of_clipView hview)
    (fun j hj k hk hkj => leavesAlone_clips h hreport ho hj hview hk hkj) hx hid hr hne hp hs hfree
    hwait hothers fun j hj hjx y p hy hpy => ?_
  -- Another clip that moves does not end like this one, wherever this one is by then.
  obtain ⟨hcamera', hbelow', hunlike'⟩ := clip_of_view h hreport ho hj hview hy
  obtain ⟨l', m', n', hns', rfl⟩ := hbelow' p hpy
  have hunlike : ¬ y.CatchesClip
      { x with clipPath := some (next.under (l ++ [m] ++ [n])) } :=
    fun hcatch => hunlike' x.id hid (Ne.symm hjx) x hx
      (Recording.CatchesClip.of_next h.roots.isNormal_root hns' hpy hp hcatch)
  have hstays := pointClip_of_not_catchesClip h.roots.isNormal_root h.roots.isNormal_next hns'
    hpy hunlike
  rw [hcamera', ← hcamera] at hstays
  rw [Path.destination_under, h.beside_clips.camera, ← hcamera, hself]
  exact hstays

end Phases

end Report

/-- The thumbnail of a reported recording has moved, and its pointer leads there. -/
theorem thumbnail_follows (h : a.InStep t u v next) (hreport : (a.runPolicy t).1 = .ok report)
    (ho : a.InOrder t u v report.recordingIds) {x : Recording} (hx : x ∈ a.recordings t)
    (hid : x.id ∈ report.recordingIds)
    (hmovable : a.IsMovable p (Holdings.destination p t.root next) content)
    (hp : x.thumbnailPath = some p)
    (hothers : ∀ y ∈ a.recordings t, y.id ∈ report.recordingIds → y.id ≠ x.id →
      ∀ q, y.thumbnailPath = some q → q ≠ p ∧ ¬ p ++ ['/'] <+: q) :
    (a.runPolicy t).2.HasMoved p (Holdings.destination p t.root next) content ∧
      ∃ y, (a.runPolicy t).2.catalog.recordingAt? x.id = some y ∧
        y.thumbnailPath = some (Holdings.destination p t.root next) := by
  obtain ⟨continuous, events, ht⟩ := h.role
  obtain ⟨s, hs, hstate⟩ := toHoldings_runPolicy ht h.next_eq hreport (List.ne_nil_of_mem hid)
  obtain ⟨ns, hne, hns, rfl⟩ := h.exists_under h.beside_thumbnails (ho.thumbnails x hx hid p hp)
  rw [Path.destination_under] at hmovable ⊢
  have hsegments := h.beside_thumbnails.not_below h.beside_segments (by decide) ns
  have hclips := h.beside_thumbnails.not_below h.beside_clips (by decide) ns
  have hr : u.place ++ ns ≠ [] := by simp [hne]
  obtain ⟨hspelled, hwait⟩ := hmovable.awaits h.roots h.isTree hns hr
  -- The segments pass by it, it arrives, and the clips pass by it.
  have hevicted := h.passedBy_segments hs hsegments
  have hmem := (mem_recordings_iff.1 hx).1
  obtain ⟨hworked, harrived, hfound⟩ := moveThumbnails_of_awaits h hreport ho hevicted.toWorked
    (recordingAt?_segments a t s.files) (h.keyed.recordingAt?_id hmem) hid hns hr hp hspelled
    (by rw [hevicted.now_eq, hevicted.protects_eq, hmovable.unserved])
    (hevicted.awaits content hwait) (by
      intro y hy hyid hyx ms hyp hle
      obtain ⟨hyne, hbelow⟩ := hothers y hy hyid hyx _ hyp
      rcases Path.under_of_prefix t.root hr hle with heq | hbelow'
      · exact hyne heq.symm
      · exact hbelow hbelow')
  have hboth := hevicted.toWorked.trans hworked
  have hview := h.map_clipView_moveThumbnails hevicted.toWorked (recordingAt?_segments a t s.files)
    report.recordingIds
  have hpassed := passedBy_moveClips h hreport ho hboth hview hclips
  have hthumbnail := h.map_thumbnailPath_moveClips hboth report.recordingIds x.id
  rw [hfound, Option.map_some] at hthumbnail
  obtain ⟨y, hy, hpath⟩ := Option.map_eq_some_iff.1 hthumbnail
  have hmoved := hasMoved_of_arrived h.roots hpassed.isTree hns hr hspelled
    hwait.room.isSpelled (hpassed.arrived content harrived)
  have hcatalog := congrArg Holdings.catalog hstate
  rw [hcatalog]
  exact ⟨hmoved.congr (congrArg Holdings.disk hstate), y, hy, hpath⟩

/-- The clip of a reported recording has moved, and its pointer leads there. -/
theorem clip_follows (h : a.InStep t u v next) (hreport : (a.runPolicy t).1 = .ok report)
    (ho : a.InOrder t u v report.recordingIds) {x : Recording} (hx : x ∈ a.recordings t)
    (hid : x.id ∈ report.recordingIds)
    (hmovable : a.IsMovable p (Holdings.destination p t.root next) content)
    (hp : x.clipPath = some p)
    (hothers : ∀ y ∈ a.recordings t, y.id ∈ report.recordingIds → y.id ≠ x.id →
      ∀ q, y.clipPath = some q → ¬ p ++ ['/'] <+: q) :
    (a.runPolicy t).2.HasMoved p (Holdings.destination p t.root next) content ∧
      ∃ y, (a.runPolicy t).2.catalog.recordingAt? x.id = some y ∧
        y.clipPath = some (Holdings.destination p t.root next) := by
  obtain ⟨continuous, events, ht⟩ := h.role
  obtain ⟨s, hs, hstate⟩ := toHoldings_runPolicy ht h.next_eq hreport (List.ne_nil_of_mem hid)
  obtain ⟨ns, hne, hns, rfl⟩ := h.exists_under h.beside_clips (ho.clips x hx hid p hp)
  rw [Path.destination_under] at hmovable ⊢
  have hsegments := h.beside_clips.not_below h.beside_segments (by decide) ns
  have hthumbnails := h.beside_clips.not_below h.beside_thumbnails (by decide) ns
  have hr : v.place ++ ns ≠ [] := by simp [hne]
  obtain ⟨hspelled, hwait⟩ := hmovable.awaits h.roots h.isTree hns hr
  -- The segments and the thumbnails pass by it, and it arrives.
  have hevicted := h.passedBy_segments hs hsegments
  have hpassed := passedBy_moveThumbnails h hreport ho hevicted.toWorked
    (recordingAt?_segments a t s.files) hthumbnails
  have hboth := hevicted.trans hpassed
  have hview := h.map_clipView_moveThumbnails hevicted.toWorked (recordingAt?_segments a t s.files)
    report.recordingIds
  have hmem := (mem_recordings_iff.1 hx).1
  obtain ⟨x', hx', hsame⟩ : ∃ x', (((a.enterEvaluation t).evictAll t s.files).2.moveThumbnails t
      report.recordingIds).catalog.recordingAt? x.id = some x' ∧ x'.clipView = x.clipView := by
    have hfound := hview x.id
    rw [h.keyed.recordingAt?_id hmem, Option.map_some] at hfound
    exact Option.map_eq_some_iff.1 hfound
  have hid' : x'.id = x.id := by simpa using List.find?_some hx'
  obtain ⟨hworked, harrived, hfound⟩ := moveClips_of_awaits h hreport ho hboth.toWorked hview
    (hid' ▸ hx') (hid' ▸ hid) hns hr ((Prod.mk.inj hsame).2.trans hp) hspelled
    (by rw [hboth.now_eq, hboth.protects_eq, hmovable.unserved]) (hboth.awaits content hwait) (by
      intro y hy hyid hyx ms hyp hle
      rw [hid'] at hyx
      rcases Path.under_of_prefix t.root hr hle with heq | hbelow
      · exact h.clipPath_ne ho hx hy hid hyid hyx hp (heq ▸ hyp)
      · exact hothers y hy hyid hyx _ hyp hbelow)
  have hmoved := hasMoved_of_arrived h.roots hworked.isTree hns hr hspelled
    hwait.room.isSpelled harrived
  have hcatalog := congrArg Holdings.catalog hstate
  rw [hid'] at hfound
  rw [hcatalog]
  exact ⟨hmoved.congr (congrArg Holdings.disk hstate), _, hfound, rfl⟩

/-- When thumbnails and clips follow their segments to the next tier, the recordings
that are reported point at where they are now. -/
theorem pointers_follow (h : a.InStep t u v next) (hreport : (a.runPolicy t).1 = .ok report)
    (ho : a.InOrder t u v report.recordingIds) {x : Recording} (hx : x ∈ a.recordings t)
    (hid : x.id ∈ report.recordingIds)
    (hmovable : a.IsMovable p (Holdings.destination p t.root next) content) :
    (x.thumbnailPath = some p →
      (∀ y ∈ a.recordings t, y.id ∈ report.recordingIds → y.id ≠ x.id →
        ∀ q, y.thumbnailPath = some q → q ≠ p ∧ ¬ p ++ ['/'] <+: q) →
      (a.runPolicy t).2.HasMoved p (Holdings.destination p t.root next) content ∧
        ∃ y, (a.runPolicy t).2.catalog.recordingAt? x.id = some y ∧
          y.thumbnailPath = some (Holdings.destination p t.root next)) ∧
    (x.clipPath = some p →
      (∀ y ∈ a.recordings t, y.id ∈ report.recordingIds → y.id ≠ x.id →
        ∀ q, y.clipPath = some q → ¬ p ++ ['/'] <+: q) →
      (a.runPolicy t).2.HasMoved p (Holdings.destination p t.root next) content ∧
        ∃ y, (a.runPolicy t).2.catalog.recordingAt? x.id = some y ∧
          y.clipPath = some (Holdings.destination p t.root next)) :=
  ⟨thumbnail_follows h hreport ho hx hid hmovable, clip_follows h hreport ho hx hid hmovable⟩

end Archive

/-- The first tier of a chain from `/t0` to `/t1`. -/
def handingOn (subcategory : String) (role : Role) : Tier where
  camera := "cam1"
  category := .recorder
  subcategory := subcategory
  index := 0
  root := "/t0".toList
  next := some "/t1".toList
  role := role

/-- Its segments, which it keeps for an hour. -/
def handingOnSegments : Tier := handingOn segmentsName (.segments {} { maxAge := 3600 })

def handingOnThumbnails : Tier := handingOn thumbnailsName .thumbnails

def handingOnClips : Tier := handingOn clipsName .clips

/-- A segment, a thumbnail and a clip, each in its directory. -/
def eventDisk : Disk where
  nodes := [
    (["t0".toList], .directory),
    (["t0".toList, "segments".toList], .directory),
    (["t0".toList, "segments".toList, "cam1".toList], .directory),
    (["t0".toList, "segments".toList, "cam1".toList, "1.m4s".toList], .file "footage"),
    (["t0".toList, "thumbnails".toList], .directory),
    (["t0".toList, "thumbnails".toList, "cam1".toList], .directory),
    (["t0".toList, "thumbnails".toList, "cam1".toList, "1.jpg".toList], .file "still"),
    (["t0".toList, "recordings".toList], .directory),
    (["t0".toList, "recordings".toList, "cam1".toList], .directory),
    (["t0".toList, "recordings".toList, "cam1".toList, "1.mp4".toList], .file "clip")]

/-- One recording, pointing at these paths, with one segment that is old enough to go. -/
def oneEvent (thumbnail clip : String) : Archive where
  now := 10000 * second
  disk := eventDisk
  catalog := {
    files := [{
      tierIndex := 0
      tierPath := "/t0".toList
      camera := "cam1"
      category := Category.recorder.text
      subcategory := segmentsName
      path := "/t0/segments/cam1/1.m4s".toList
      directory := "/t0/segments/cam1".toList
      filename := "1.m4s".toList
      size := 7
      createdAt := 2710 * second
      id := 1 }]
    recordings := [{
      camera := "cam1"
      startTime := 2700 * second
      endTime := some (2800 * second)
      clipPath := some clip.toList
      thumbnailPath := some thumbnail.toList
      id := 1
      createdAt := 2700 * second }]
    lastFileId := 1
    lastRecordingId := 1 }
  keepers := [{ tier := handingOnClips }, { tier := handingOnSegments },
    { tier := handingOnThumbnails }]

/-- The segment goes to the next tier, and the recording with it. -/
def oneEventReport : Report where
  outcomes := [("/t0/segments/cam1/1.m4s".toList, .moved "/t1/segments/cam1/1.m4s".toList)]
  recordingIds := [1]

theorem isTree_eventDisk : eventDisk.IsTree := isTree_of_nodes (by decide)

theorem inStep_oneEvent (thumbnail clip : String) :
    (oneEvent thumbnail clip).InStep handingOnSegments handingOnThumbnails handingOnClips
      "/t1".toList where
  keyed := {
    fileIds := List.nodup_singleton _
    filePaths := List.nodup_singleton _
    notePaths := List.nodup_nil
    recordingIds := List.nodup_singleton _
    fileId_le := by simp [oneEvent]
    recordingId_le := by simp [oneEvent] }
  answers := fun q => by cases q <;> rfl
  isTree := isTree_eventDisk
  roots := ⟨by decide, by decide, by decide⟩
  camera := by decide
  subcategory := rfl
  role := ⟨_, _, rfl⟩
  next_eq := rfl
  thumbnails := rfl
  thumbnails_next := ⟨rfl, rfl⟩
  clips := rfl
  clips_next := ⟨rfl, rfl⟩
  segments := by
    intro f hf
    obtain ⟨row, hrow, -, rfl⟩ := Catalog.mem_population.1 hf
    obtain rfl := List.mem_singleton.1 hrow
    exact ⟨⟨["1.m4s".toList], by decide, by decide, rfl⟩, rfl⟩

/-- A recording whose thumbnail and clip are in their own directories. -/
def properEvent : Archive := oneEvent "/t0/thumbnails/cam1/1.jpg" "/t0/recordings/cam1/1.mp4"

/-- A recording whose thumbnail is its clip. -/
def sharedFileEvent : Archive := oneEvent "/t0/recordings/cam1/1.mp4" "/t0/recordings/cam1/1.mp4"

theorem inOrder_properEvent :
    properEvent.InOrder handingOnSegments handingOnThumbnails handingOnClips [1] := by
  have hone : ∀ x ∈ properEvent.recordings handingOnSegments, x ∈ properEvent.catalog.recordings :=
    fun x hx => (Archive.mem_recordings_iff.1 hx).1
  refine ⟨fun x hx _ p hp => ?_, fun x hx _ p hp => ?_, fun x hx y hy _ _ hne => ?_⟩
  · obtain rfl := List.mem_singleton.1 (hone x hx)
    obtain rfl := Option.some.inj hp
    exact ⟨["1.jpg".toList], by decide, by decide, rfl⟩
  · obtain rfl := List.mem_singleton.1 (hone x hx)
    obtain rfl := Option.some.inj hp
    exact ⟨["1.mp4".toList], by decide, by decide, rfl⟩
  · rw [List.mem_singleton.1 (hone x hx), List.mem_singleton.1 (hone y hy)] at hne
    exact absurd rfl hne

/-- The path of the clip, and the one it is to go to. -/
def clipPath : Path := "/t0/recordings/cam1/1.mp4".toList

def nextClipPath : Path := "/t1/recordings/cam1/1.mp4".toList

theorem accepts_eventDisk : eventDisk.Accepts nextClipPath :=
  ⟨rfl, ["t1".toList, "recordings".toList, "cam1".toList, "1.mp4".toList], rfl, by decide⟩

theorem isMovable_clip (thumbnail clip : String) :
    (oneEvent thumbnail clip).IsMovable clipPath
      (Holdings.destination clipPath handingOnSegments.root "/t1".toList) "clip" where
  unserved := rfl
  source := rfl
  target := accepts_eventDisk

theorem runPolicy_oneEvent :
    (properEvent.runPolicy handingOnSegments).1 = .ok oneEventReport ∧
      (sharedFileEvent.runPolicy handingOnSegments).1 = .ok oneEventReport := by
  decide

/-- Its clip goes to the next tier, and its pointer leads there. -/
theorem pointers_follow_properEvent :
    properEvent.InStep handingOnSegments handingOnThumbnails handingOnClips "/t1".toList ∧
      (properEvent.runPolicy handingOnSegments).1 = .ok oneEventReport ∧
      properEvent.InOrder handingOnSegments handingOnThumbnails handingOnClips
        oneEventReport.recordingIds ∧
      properEvent.IsMovable clipPath
        (Holdings.destination clipPath handingOnSegments.root "/t1".toList) "clip" ∧
      (properEvent.runPolicy handingOnSegments).2.HasMoved clipPath nextClipPath "clip" ∧
      ∃ y, (properEvent.runPolicy handingOnSegments).2.catalog.recordingAt? 1 = some y ∧
        y.clipPath = some nextClipPath := by
  have hstep := inStep_oneEvent "/t0/thumbnails/cam1/1.jpg" "/t0/recordings/cam1/1.mp4"
  have hmovable := isMovable_clip "/t0/thumbnails/cam1/1.jpg" "/t0/recordings/cam1/1.mp4"
  have hmem : ∀ y ∈ properEvent.recordings handingOnSegments, y.id = 1 := by decide
  obtain ⟨x, hx, hclip⟩ : ∃ x ∈ properEvent.recordings handingOnSegments,
      x.clipPath = some clipPath := ⟨_, List.mem_cons_self, rfl⟩
  have hid := hmem x hx
  obtain ⟨hmoved, y, hy, hpath⟩ := (Archive.pointers_follow hstep runPolicy_oneEvent.1
    inOrder_properEvent hx (hid ▸ List.mem_singleton_self 1) hmovable).2 hclip
    fun y hy _ hne => absurd ((hmem y hy).trans hid.symm) hne
  exact ⟨hstep, runPolicy_oneEvent.1, inOrder_properEvent, hmovable, hmoved, y, hid ▸ hy, hpath⟩

/-- A clip that is a thumbnail at once leaves its pointer behind. -/
theorem not_forall_pointers_follow :
    ¬ ∀ (a : Archive) (t u v : Tier) (next p : Path) (report : Report) (x : Recording)
        (content : String),
      a.InStep t u v next → (a.runPolicy t).1 = .ok report → x ∈ a.recordings t →
      x.id ∈ report.recordingIds →
      a.IsMovable p (Holdings.destination p t.root next) content → v.Keeps p →
      x.clipPath = some p →
      (∀ y ∈ a.catalog.recordings, y.id ≠ x.id → y.thumbnailPath ≠ x.thumbnailPath) →
      (∀ y ∈ a.recordings t, y.id ≠ x.id → ¬ x.CatchesClip y ∧ ¬ y.CatchesClip x) →
      (a.runPolicy t).2.HasMoved p (Holdings.destination p t.root next) content ∧
        ∃ y, (a.runPolicy t).2.catalog.recordingAt? x.id = some y ∧
          y.clipPath = some (Holdings.destination p t.root next) := by
  intro hall
  have hmem : ∀ y ∈ sharedFileEvent.catalog.recordings, y.id = 1 := by decide
  obtain ⟨x, hx, hclip⟩ : ∃ x ∈ sharedFileEvent.recordings handingOnSegments,
      x.clipPath = some clipPath := ⟨_, List.mem_cons_self, rfl⟩
  have hid := hmem x (Archive.mem_recordings_iff.1 hx).1
  have hone : ∀ y ∈ sharedFileEvent.catalog.recordings, ¬ y.id ≠ x.id :=
    fun y hy hne => hne ((hmem y hy).trans hid.symm)
  obtain ⟨-, y, hy, hpath⟩ := hall sharedFileEvent _ _ _ _ _ _ x _ (inStep_oneEvent _ _)
    runPolicy_oneEvent.2 hx (hid ▸ List.mem_singleton_self 1) (isMovable_clip _ _)
    ⟨["1.mp4".toList], by decide, by decide, rfl⟩ hclip (fun y hy hne => absurd hne (hone y hy))
    fun y hy hne => absurd hne (hone y (Archive.mem_recordings_iff.1 hy).1)
  have hstale : ((sharedFileEvent.runPolicy handingOnSegments).2.catalog.recordingAt? 1).map
      (·.clipPath) = some (some clipPath) := by decide
  rw [hid] at hy
  rw [hy, Option.map_some, hpath] at hstale
  exact absurd hstale (by decide)

end TieredFootage
