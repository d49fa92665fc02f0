import TieredFootage.Proofs.Evaluation.Changes
import TieredFootage.Proofs.Evaluation.Recordings
import TieredFootage.Proofs.Eviction.Reach
import TieredFootage.Proofs.Serving.History

/-!
# What a call leaves alone

A call evaluates or drains a tier, or has a thumbnail or a clip follow. Whatever
the retentions say, it touches neither row nor file of a path that is being
served. The registry speaks of texts, though, and the disk of locations: a file
is safe if the path that spells its location is protected. In a tidy archive all
paths that can be evicted are normal, so no other text leads there.
-/

namespace TieredFootage

open Disk Relation

/-- The tier hands files over between normal roots. -/
structure Tier.HasNormalRoots (t : Tier) : Prop where
  root : t.root.IsNormal
  next : ∀ n, t.next = some n → n.IsNormal

/-- The thumbnail and the clip of a recording are known by normal paths. -/
def Recording.HasNormalPointers (x : Recording) : Prop :=
  ∀ p, x.thumbnailPath = some p ∨ x.clipPath = some p → p.IsNormal

namespace Catalog

variable {c : Catalog} {p q : Path}

theorem mem_recordings_of_getRecording {i : Int} {x : Recording}
    (h : c.getRecording i = .ok (some x)) : x ∈ c.recordings := by
  unfold getRecording at h
  split at h
  · exact List.mem_of_find?_eq_some (Except.ok.inj h)
  · cases h

theorem hasNormalPointers_updateThumbnail (h : ∀ x ∈ c.recordings, x.HasNormalPointers)
    (hp : p.IsNormal) (i : Int) :
    ∀ x ∈ (c.updateThumbnail i p).2.recordings, x.HasNormalPointers := by
  unfold updateThumbnail
  split
  · intro x hx
    obtain ⟨y, hy, rfl⟩ := List.mem_map.1 hx
    split
    · rintro q (hq | hq)
      · exact Option.some.inj hq ▸ hp
      · exact h y hy q (Or.inr hq)
    · exact h y hy
  · exact h

theorem hasNormalPointers_updateClip (h : ∀ x ∈ c.recordings, x.HasNormalPointers)
    (hp : p.IsNormal) (camera : String) (suffix : Path) :
    ∀ x ∈ (c.updateClip camera suffix p).2.recordings, x.HasNormalPointers := by
  unfold updateClip
  split
  · intro x hx
    obtain ⟨y, hy, rfl⟩ := List.mem_map.1 hx
    split
    · rintro q (hq | hq)
      · exact h y hy q (Or.inl hq)
      · exact Option.some.inj hq ▸ hp
    · exact h y hy
  · exact h

theorem recordings_deleteRecordings_subset (c : Catalog) (ids : List Int) :
    (c.deleteRecordings ids).2.recordings ⊆ c.recordings := by
  unfold deleteRecordings
  split_ifs
  · exact fun _ hx => hx
  · exact fun _ hx => hx
  · exact List.filter_subset_self _
  · exact fun _ hx => hx

end Catalog

namespace Archive

variable {a b c : Archive} {t u : Tier} {p : Path}

/-- The disk is a tree, and every path that can be evicted, and every root, is
normal. -/
structure Tidy (a : Archive) : Prop where
  disk : a.disk.IsTree
  rows : ∀ r ∈ a.catalog.files, r.path.IsNormal ∧ r.tierPath.IsNormal
  recordings : ∀ x ∈ a.catalog.recordings, x.HasNormalPointers
  tiers : ∀ t ∈ a.tiers, t.HasNormalRoots

/-- A later archive that is still tidy, and in which neither row nor file of a
protected path has been touched. -/
structure Guarded (a b : Archive) : Prop where
  tidy : b.Tidy
  now_eq : b.now = a.now
  agree : Served.Agree a.now a.served b.served
  row : ∀ p, a.served.protects a.now p = true → b.catalog.fileAt? p = a.catalog.fileAt? p
  keepsDirectories : KeepsDirectories a.disk b.disk
  hasFile : ∀ l, a.served.protects a.now (locationText l) = true → a.disk.HasFile l →
    b.disk.HasFile l

namespace Guarded

theorem refl (ha : a.Tidy) : Guarded a a :=
  ⟨ha, rfl, Served.Agree.refl _ _, fun _ _ => rfl, KeepsDirectories.refl _, fun _ _ h => h⟩

theorem trans (h : Guarded a b) (h' : Guarded b c) : Guarded a c := by
  have hprotects : ∀ p, b.served.protects b.now p = a.served.protects a.now p := by
    intro p
    rw [h.now_eq, h.agree.protects_eq p a.now (Int.le_refl _)]
  refine ⟨h'.tidy, h'.now_eq.trans h.now_eq, h.agree.trans (h.now_eq ▸ h'.agree),
    fun p hp => ?_, h.keepsDirectories.trans h'.keepsDirectories, fun l hl hfile => ?_⟩
  · exact (h'.row p ((hprotects p).trans hp)).trans (h.row p hp)
  · exact h'.hasFile l ((hprotects _).trans hl) (h.hasFile l hl hfile)

/-- Recordings, counters and keepers may change, as long as the pointers stay
normal and the tiers the same. -/
theorem of_disk_eq (ha : a.Tidy) (hdisk : b.disk = a.disk) (hnow : b.now = a.now)
    (hserved : b.served = a.served) (hfiles : b.catalog.files = a.catalog.files)
    (hrecordings : ∀ x ∈ b.catalog.recordings, x.HasNormalPointers)
    (htiers : b.tiers = a.tiers) : Guarded a b where
  tidy := ⟨hdisk ▸ ha.disk, hfiles ▸ ha.rows, hrecordings, htiers ▸ ha.tiers⟩
  now_eq := hnow
  agree := hserved ▸ Served.Agree.refl _ _
  row := fun p _ => by rw [Catalog.fileAt?, hfiles, Catalog.fileAt?]
  keepsDirectories := hdisk ▸ KeepsDirectories.refl _
  hasFile := fun l _ hl => hdisk ▸ hl

end Guarded

theorem guarded_evictFrom (ha : a.Tidy) (t : Tier) (hp : p.IsNormal) (fileRoot : Path) :
    Guarded a (a.evictFrom t p fileRoot).2 where
  tidy := by
    refine ⟨Holdings.isTree_evict ha.disk p fileRoot t.root t.next, ?_, ?_, ?_⟩
    · refine Holdings.catalog_evict
        (P := fun c => ∀ r ∈ c.files, r.path.IsNormal ∧ r.tierPath.IsNormal) ?_ ?_ ha.rows
      · exact fun c hc r hr => hc r (Catalog.files_deleteFile_subset c p hr)
      · intro c target hc
        rwa [Catalog.files_copyNote]
    · rw [recordings_evictFrom]
      exact ha.recordings
    · rw [tiers_evictFrom]
      exact ha.tiers
  now_eq := Holdings.now_evict a.toHoldings p fileRoot t.root t.next
  agree := by
    have hserved : (a.evictFrom t p fileRoot).2.served = (a.served.contains a.now p).2 :=
      Holdings.served_evict a.toHoldings p fileRoot t.root t.next
    rw [hserved]
    exact Served.agree_contains a.now a.served p
  row := by
    intro q hq
    by_cases hqp : q = p
    · rw [hqp] at hq ⊢
      exact congrArg (·.fileAt? p) (Holdings.evict_of_protects hq fileRoot t.root t.next).2.2
    · refine Holdings.catalog_evict (P := fun c => c.fileAt? q = a.catalog.fileAt? q) ?_ ?_ rfl
      · exact fun c hc => (Catalog.fileAt?_deleteFile_ne hqp).trans hc
      · intro c target hc
        rwa [Catalog.fileAt?, Catalog.files_copyNote]
  keepsDirectories := (Holdings.spares_evict ha.disk hp fileRoot t.root t.next).keepsDirectories
  hasFile := by
    intro l hl hfile
    -- Only the file that `p` spells can go, and if `p` is protected nothing happens.
    rcases (Holdings.spares_evict ha.disk hp fileRoot t.root t.next).hasFile l hfile with h | rfl
    · exact h
    · have hsame : (a.evictFrom t (locationText l) fileRoot).2.disk = a.disk :=
        (Holdings.evict_of_protects hl fileRoot t.root t.next).2.1
      rwa [hsame]

/-- Only between normal roots are pointers moved, so they stay normal. -/
theorem isNormal_of_evictFrom_eq_moved {q : Path} (hp : p.IsNormal) (hu : u.HasNormalRoots)
    (h : (a.evictFrom u p u.root).1 = .moved q) : q.IsNormal := by
  obtain ⟨n, hn, rfl⟩ := Holdings.exists_next_of_evict_eq_moved h
  exact Path.isNormal_replaceFirst hp hu.root.1 (hu.next n hn)

/-- A catalog with the same files and normal pointers may take the place of the
present one. -/
theorem guarded_withCatalog (ha : a.Tidy) {c : Catalog} (hfiles : c.files = a.catalog.files)
    (hrecordings : ∀ x ∈ c.recordings, x.HasNormalPointers) : Guarded a (a.withCatalog c) :=
  Guarded.of_disk_eq ha rfl rfl rfl hfiles hrecordings rfl

theorem guarded_repointClip (ha : a.Tidy) (hp : p.IsNormal) (camera : String) :
    Guarded a (a.repointClip camera p) := by
  unfold repointClip
  split
  · exact Guarded.refl ha
  · exact guarded_withCatalog ha (Catalog.files_updateClip _ _ _ _)
      (Catalog.hasNormalPointers_updateClip ha.recordings hp camera _)

theorem guarded_follow (ha : a.Tidy) (hu : u.HasNormalRoots) {pointer : Recording → Option Path}
    {i : Int} {repoint : Path → Archive → Archive}
    (hpointer : ∀ x ∈ a.catalog.recordings, ∀ p, pointer x = some p → p.IsNormal)
    (hrepoint : ∀ q b, b.Tidy → q.IsNormal → Guarded b (repoint q b)) :
    Guarded a (a.follow u pointer i repoint) := by
  have hnormal : ∀ x p, a.catalog.getRecording i = .ok (some x) → pointer x = some p →
      p.IsNormal :=
    fun x p hx hp => hpointer x (Catalog.mem_recordings_of_getRecording hx) p hp
  refine follow_cases (P := Guarded a) (fun _ => Guarded.refl ha) ?_ ?_
  · exact fun x p hx hp _ => guarded_evictFrom ha u (hnormal x p hx hp) u.root
  · intro x p q hx hp hq
    have hevicted := guarded_evictFrom ha u (hnormal x p hx hp) u.root
    exact hevicted.trans
      (hrepoint q _ hevicted.tidy (isNormal_of_evictFrom_eq_moved (hnormal x p hx hp) hu hq))

theorem guarded_moveThumbnail (ha : a.Tidy) (hu : u.HasNormalRoots) (i : Int) :
    Guarded a (a.moveThumbnail u i) := by
  rw [moveThumbnail_eq_follow]
  refine guarded_follow ha hu (fun x hx p hp => ha.recordings x hx p (Or.inl hp)) ?_
  intro q b hb hq
  exact guarded_withCatalog hb (Catalog.files_updateThumbnail _ _ _)
    (Catalog.hasNormalPointers_updateThumbnail hb.recordings hq i)

theorem guarded_moveClip (ha : a.Tidy) (hu : u.HasNormalRoots) (i : Int) :
    Guarded a (a.moveClip u i) := by
  rw [moveClip_eq_follow]
  exact guarded_follow ha hu (fun x hx p hp => ha.recordings x hx p (Or.inr hp))
    fun q b hb hq => guarded_repointClip hb hq u.camera

/-- Every change leaves what is being served alone. -/
theorem guarded_of_change {rows : List FileRow} {ts : List Tier} (ha : a.Tidy)
    (hrows : ∀ r ∈ rows, r.path.IsNormal) (hts : ∀ u ∈ ts, u.HasNormalRoots)
    (h : Change rows ts t a b) : Guarded a b := by
  cases h with
  | evictRow r hr => exact guarded_evictFrom ha t (hrows r hr) r.tierPath
  | moveThumbnail hu _ i => exact guarded_moveThumbnail ha (hts _ hu) i
  | moveClip hu _ i => exact guarded_moveClip ha (hts _ hu) i
  | deleteRecordings ids =>
    refine guarded_withCatalog ha (Catalog.files_deleteRecordings _ ids) fun x hx => ?_
    exact ha.recordings x (Catalog.recordings_deleteRecordings_subset _ ids hx)
  | count c => exact Guarded.of_disk_eq ha rfl rfl rfl rfl ha.recordings rfl
  | update x hf => exact Guarded.of_disk_eq ha rfl rfl rfl rfl ha.recordings (tiers_update a x hf)
  | overflow => exact Guarded.of_disk_eq ha rfl rfl rfl rfl ha.recordings rfl

theorem Changes.guarded {rows : List FileRow} {ts : List Tier} (ha : a.Tidy)
    (hrows : ∀ r ∈ rows, r.path.IsNormal) (hts : ∀ u ∈ ts, u.HasNormalRoots)
    (h : Changes rows ts t a b) : Guarded a b := by
  induction h with
  | refl => exact Guarded.refl ha
  | tail _ hchange ih => exact ih.trans (guarded_of_change ih.tidy hrows hts hchange)

theorem files_evictFrom_sublist (a : Archive) (t : Tier) (p fileRoot : Path) :
    (a.evictFrom t p fileRoot).2.catalog.files.Sublist a.catalog.files := by
  refine Holdings.catalog_evict (P := fun c => c.files.Sublist a.catalog.files) ?_ ?_
    (List.Sublist.refl _)
  · exact fun c hc => (c.files_deleteFile_sublist p).trans hc
  · intro c target hc
    rwa [Catalog.files_copyNote]

theorem files_evictAll_sublist (a : Archive) (t : Tier) (files : List (Path × Path)) :
    (a.evictAll t files).2.catalog.files.Sublist a.catalog.files := by
  induction files generalizing a with
  | nil => exact List.Sublist.refl _
  | cons f files ih =>
    obtain ⟨p, fileRoot⟩ := f
    exact (ih (a.evictFrom t p fileRoot).2).trans (files_evictFrom_sublist a t p fileRoot)

@[simp] theorem files_repointClip (a : Archive) (camera : String) (p : Path) :
    (a.repointClip camera p).catalog.files = a.catalog.files := by
  unfold repointClip
  split
  · rfl
  · exact Catalog.files_updateClip _ _ _ _

theorem files_follow_sublist {pointer : Recording → Option Path} {i : Int}
    {repoint : Path → Archive → Archive}
    (hrepoint : ∀ q b, (repoint q b).catalog.files = b.catalog.files) (a : Archive) (u : Tier) :
    (a.follow u pointer i repoint).catalog.files.Sublist a.catalog.files := by
  refine follow_cases (P := fun b => b.catalog.files.Sublist a.catalog.files) ?_ ?_ ?_
  · exact fun _ => List.Sublist.refl _
  · exact fun x p _ _ _ => files_evictFrom_sublist a u p u.root
  · intro x p q _ _ _
    rw [hrepoint]
    exact files_evictFrom_sublist a u p u.root

/-- No change catalogues a file, or alters the row of one. -/
theorem Changes.files_sublist {rows : List FileRow} {ts : List Tier} (h : Changes rows ts t a b) :
    b.catalog.files.Sublist a.catalog.files := by
  induction h with
  | refl => exact List.Sublist.refl _
  | tail _ hchange ih =>
    refine List.Sublist.trans ?_ ih
    cases hchange with
    | evictRow r _ => exact files_evictFrom_sublist _ t r.path r.tierPath
    | moveThumbnail _ _ i =>
      rw [moveThumbnail_eq_follow]
      exact files_follow_sublist (fun q b => Catalog.files_updateThumbnail b.catalog i q) _ _
    | moveClip _ _ i =>
      rw [moveClip_eq_follow]
      exact files_follow_sublist (fun q b => files_repointClip b _ q) _ _
    | deleteRecordings ids => rw [withCatalog, Catalog.files_deleteRecordings]
    | count c => exact List.Sublist.refl _
    | update x _ => exact List.Sublist.refl _
    | overflow => exact List.Sublist.refl _

/-- What can be asked of the keeper of a tier. -/
inductive Call
  | runPolicy
  | checkTier
  | drain
  | moveThumbnail (id : Int)
  | moveClip (id : Int)
  deriving DecidableEq, Repr

/-- The archive after a call to the keeper at an address. -/
def perform (a : Archive) (x : Address) (c : Call) : Archive :=
  match a.keepers.get? x with
  | none => a
  | some k =>
    match c with
    | .runPolicy => (a.runPolicy k.tier).2
    | .checkTier => a.checkTier k.tier
    | .drain => (a.drain k.tier).2
    | .moveThumbnail i => a.moveThumbnail k.tier i
    | .moveClip i => a.moveClip k.tier i

/-- Whatever is called, what is being served is left alone. -/
theorem guarded_perform (ha : a.Tidy) (x : Address) (c : Call) : Guarded a (a.perform x c) := by
  unfold perform
  cases hk : a.keepers.get? x with
  | none => exact Guarded.refl ha
  | some k =>
    have hu : k.tier.HasNormalRoots :=
      ha.tiers _ (List.mem_map_of_mem (List.mem_of_find?_eq_some hk))
    have hrows : ∀ r ∈ a.catalog.files, r.path.IsNormal := fun r hr => (ha.rows r hr).1
    cases c with
    | runPolicy => exact (changes_runPolicy a k.tier).guarded ha hrows ha.tiers
    | checkTier => exact (changes_checkTier a k.tier).guarded ha hrows ha.tiers
    | drain => exact (changes_drain a k.tier).guarded ha hrows ha.tiers
    | moveThumbnail i => exact guarded_moveThumbnail ha hu i
    | moveClip i => exact guarded_moveClip ha hu i

end Archive

end TieredFootage
