import TieredFootage.Proofs.Evaluation.Namesakes
import TieredFootage.Proofs.Evaluation.Stranding

/-!
# Files that are gone when they are reported

Between a file and the report that it was made lies a queue, and in the meantime the file
may have been moved on or deleted. A tier that finds nothing there catalogues nothing. But
a tier of thumbnails or clips makes the path known before it looks: the recordings that the
path names are pointed at it, whether or not there is anything, and even if a lockstep move
has pointed them elsewhere after the report was queued.

So such a report is harmless exactly if no recording is named by the path, or all that are
point there already (`late_creation_iff`).
-/

namespace TieredFootage

/-- A path names a recording: a thumbnail by the id that it is called after, a clip that
was moved to its tier by its last two names. -/
def Tier.Names (t : Tier) (p : Path) (x : Recording) : Prop :=
  match t.role with
  | .thumbnails => p.fileStem?.bind signedNumber? = some x.id
  | .clips => t.isFirst = false ∧ ∃ s, clipSuffix? p = some s ∧ x.IsNamesake t.camera s
  | .plain _ | .segments _ _ => False

/-- What becomes of a recording when a tier makes a path known. -/
def Tier.announced (t : Tier) (p : Path) (x : Recording) : Recording :=
  match t.role with
  | .thumbnails =>
    match p.fileStem?.bind signedNumber? with
    | none => x
    | some i => Archive.pointThumbnail i p x
  | .clips => if t.isFirst then x else Archive.pointClip t.camera p x
  | .plain _ | .segments _ _ => x

namespace Archive

variable {a : Archive} {t : Tier} {p : Path} {x : Recording}

/-- Whether the catalog lets a tier point recordings elsewhere. -/
def letsPoint (a : Archive) (t : Tier) : Bool :=
  match t.role with
  | .thumbnails => a.catalog.answers .updateThumbnail
  | .clips => a.catalog.answers .updateClip
  | .plain _ | .segments _ _ => true

theorem pointThumbnail_eq_self_iff {i : Int} :
    pointThumbnail i p x = x ↔ (x.id = i → x.thumbnailPath = some p) := by
  unfold pointThumbnail
  split
  · rename_i hid
    constructor
    · exact fun heq _ => (congrArg (fun y : Recording => y.thumbnailPath) heq).symm
    · intro h
      rw [← h hid]
  · rename_i hid
    exact iff_of_true rfl fun h => absurd h hid

theorem pointClip_eq_self_iff {camera : String} :
    pointClip camera p x = x ↔
      ∀ s, clipSuffix? p = some s → x.IsNamesake camera s → x.clipPath = some p := by
  rw [← clipPath_pointClip_eq_iff]
  refine ⟨fun heq => congrArg (fun y : Recording => y.clipPath) heq, fun heq => ?_⟩
  unfold pointClip at heq ⊢
  split
  · rename_i hends
    rw [if_pos hends] at heq
    dsimp only at heq
    rw [heq]
  · rfl

/-- A recording stays as it is exactly if the path does not name it or it points there. -/
theorem announced_eq_self_iff :
    t.announced p x = x ↔ (t.Names p x → t.role.pointer x = some p) := by
  unfold Tier.announced Tier.Names
  cases t.role with
  | plain r => exact iff_of_true rfl False.elim
  | segments continuous events => exact iff_of_true rfl False.elim
  | thumbnails =>
    dsimp only [Role.pointer]
    cases p.fileStem?.bind signedNumber? with
    | none => exact iff_of_true rfl nofun
    | some i =>
      rw [pointThumbnail_eq_self_iff, Option.some_inj]
      exact imp_congr_left eq_comm
  | clips =>
    dsimp only [Role.pointer]
    cases t.isFirst with
    | true => exact iff_of_true rfl fun h => absurd h.1 (by decide)
    | false =>
      rw [if_neg (by decide), pointClip_eq_self_iff]
      exact ⟨fun h ⟨_, s, hs, hx⟩ => h s hs hx, fun h s hs hx => h ⟨rfl, s, hs, hx⟩⟩

/-- A recording that is changed points at the path. -/
theorem announced_eq_self_or :
    t.announced p x = x ∨ t.role.pointer (t.announced p x) = some p := by
  unfold Tier.announced
  cases t.role with
  | plain r => exact .inl rfl
  | segments continuous events => exact .inl rfl
  | thumbnails =>
    dsimp only
    split
    · exact .inl rfl
    · unfold pointThumbnail
      split
      · exact .inr rfl
      · exact .inl rfl
  | clips =>
    dsimp only
    unfold pointClip
    split
    · exact .inl rfl
    · split
      · exact .inr rfl
      · exact .inl rfl

/-- Making a path known goes through all recordings, if the catalog answers, and does nothing
else. -/
theorem announce_eq (a : Archive) (t : Tier) (p : Path) :
    a.announce t p = a.withCatalog { a.catalog with
      recordings := if a.letsPoint t then a.catalog.recordings.map (t.announced p)
        else a.catalog.recordings } := by
  unfold announce letsPoint Tier.announced
  cases t.role with
  | plain r => simp [withCatalog]
  | segments continuous events => simp [withCatalog]
  | thumbnails =>
    dsimp only
    unfold repointThumbnail
    cases p.fileStem?.bind signedNumber? with
    | none => simp [withCatalog]
    | some i =>
      simp only [Catalog.updateThumbnail]
      split <;> rfl
  | clips =>
    dsimp only
    split
    · simp [withCatalog]
    · unfold repointClip pointClip
      cases clipSuffix? p with
      | none => simp [withCatalog]
      | some s =>
        simp only [Option.any_some, Catalog.updateClip]
        split <;> rfl

/-- Where nothing is, nothing is catalogued. -/
theorem catalogue_of_not_isPresent (h : a.disk.isPresent p = false) (t : Tier) :
    (a.catalogue t p).2 = a := by
  unfold catalogue
  cases hstat : a.disk.stat p with
  | error e => cases e <;> rfl
  | ok n =>
    rw [Disk.isPresent, hstat] at h
    cases h

/-- The latest thumbnail, which is skipped, is not called after a recording. -/
theorem announced_of_skips (h : t.skips p = true) (x : Recording) : t.announced p x = x := by
  refine announced_eq_self_iff.2 fun hnames => ?_
  unfold Tier.skips at h
  unfold Tier.Names at hnames
  split at h
  · rename_i hrole
    rw [hrole] at hnames
    have hstem : p.fileStem? = some "latest_thumbnail".toList := by
      rw [Path.fileStem?, beq_iff_eq.1 h]
      rfl
    have hnumber : (some "latest_thumbnail".toList).bind signedNumber? = none := by decide
    rw [hstem] at hnames
    cases hnumber.symm.trans hnames
  · cases h

/-- What is left of the report of a file that is gone: the path was made known. -/
theorem catalog_onCreated_of_not_isPresent (h : a.disk.isPresent p = false) (t : Tier) :
    (a.onCreated t p).2.catalog = (a.announce t p).catalog := by
  have hgone : ((a.update t.address Keeper.enterEvent).announce t p).disk.isPresent p = false := by
    rw [announce_eq]
    exact h
  unfold onCreated
  split
  · rename_i hskips
    rw [announce_eq, List.map_congr_left fun x _ => announced_of_skips hskips x, List.map_id',
      ite_self]
    rfl
  · change (((a.update t.address Keeper.enterEvent).announce t p).catalogue t p).2.catalog = _
    rw [catalogue_of_not_isPresent hgone, announce_eq, announce_eq]
    rfl

/-- The report of a file that is gone changes no file and no note. It changes a recording
exactly if the path names one that does not point there, and the catalog lets it be pointed
elsewhere; all that are changed then point at the path, where nothing is. -/
theorem late_creation_iff (h : a.disk.isPresent p = false) (t : Tier) :
    (a.onCreated t p).2.catalog.files = a.catalog.files ∧
      (a.onCreated t p).2.catalog.notes = a.catalog.notes ∧
      ((a.onCreated t p).2.catalog.recordings = a.catalog.recordings ↔
        (a.letsPoint t = true →
          ∀ x ∈ a.catalog.recordings, t.Names p x → t.role.pointer x = some p)) ∧
      ∀ y ∈ (a.onCreated t p).2.catalog.recordings,
        y ∉ a.catalog.recordings → t.role.pointer y = some p := by
  rw [catalog_onCreated_of_not_isPresent h, announce_eq]
  refine ⟨rfl, rfl, ?_, ?_⟩
  · change (if a.letsPoint t then a.catalog.recordings.map (t.announced p)
      else a.catalog.recordings) = a.catalog.recordings ↔ _
    split
    · rename_i hlets
      simp only [hlets, true_imp_iff, ← announced_eq_self_iff]
      exact ⟨fun hsame x hx => List.map_inj_left.1 (hsame.trans (List.map_id _).symm) x hx,
        fun hsame => (List.map_congr_left hsame).trans (List.map_id _)⟩
    · rename_i hlets
      exact iff_of_true rfl fun hpoints => absurd hpoints hlets
  · intro y hy hnew
    change y ∈ (if a.letsPoint t then a.catalog.recordings.map (t.announced p)
      else a.catalog.recordings) at hy
    split at hy
    · obtain ⟨x, hx, rfl⟩ := List.mem_map.1 hy
      refine announced_eq_self_or.resolve_left fun hsame => hnew ?_
      rwa [hsame]
    · exact absurd hy hnew

end Archive

/-- The tier of clips behind the first one. -/
def laterClips : Tier := { handingOnClips with index := 1 }

/-- The thumbnail and the clip of a recording were moved on in lockstep while the reports that
they were made still waited. -/
def movedEvent : Archive := (properEvent.moveThumbnail handingOnThumbnails 1).moveClip laterClips 1

/-- When the report of the thumbnail is taken in, the recording points back at where it was;
that of a clip in the first tier is harmless. -/
theorem late_creation_iff_movedEvent :
    movedEvent.disk.isPresent "/t0/thumbnails/cam1/1.jpg".toList = false ∧
      movedEvent.disk.isPresent clipPath = false ∧
      (movedEvent.onCreated handingOnThumbnails
        "/t0/thumbnails/cam1/1.jpg".toList).2.catalog.recordings ≠ movedEvent.catalog.recordings ∧
      (movedEvent.onCreated handingOnClips clipPath).2.catalog.recordings =
        movedEvent.catalog.recordings := by
  have hthumbnail : movedEvent.disk.isPresent "/t0/thumbnails/cam1/1.jpg".toList = false := by
    decide
  have hclip : movedEvent.disk.isPresent clipPath = false := by decide
  obtain ⟨-, -, hiff, -⟩ := Archive.late_creation_iff hthumbnail handingOnThumbnails
  obtain ⟨-, -, hiff', -⟩ := Archive.late_creation_iff hclip handingOnClips
  obtain ⟨x, hx, hid, hpath⟩ : ∃ x ∈ movedEvent.catalog.recordings,
      x.id = 1 ∧ x.thumbnailPath ≠ some "/t0/thumbnails/cam1/1.jpg".toList := by decide
  have hnames : handingOnThumbnails.Names "/t0/thumbnails/cam1/1.jpg".toList x := by
    have hnumber : (Path.fileStem? "/t0/thumbnails/cam1/1.jpg".toList).bind signedNumber? =
        some 1 := by decide
    rw [← hid] at hnumber
    exact hnumber
  exact ⟨hthumbnail, hclip, fun hsame => hpath (hiff.1 hsame (by decide) x hx hnames),
    hiff'.2 fun _ _ _ hfirst => absurd hfirst.1 (by decide)⟩

/-- A report that waited during a lockstep move points the recording back at the path that was
left, a thumbnail in any tier and a clip behind the first one. -/
theorem not_forall_late_creation_harmless :
    (¬ ∀ (a : Archive) (t : Tier) (p : Path), a.disk.isPresent p = false →
      (a.onCreated t p).2.catalog.files = a.catalog.files ∧
      (a.onCreated t p).2.catalog.notes = a.catalog.notes ∧
      (a.onCreated t p).2.catalog.recordings = a.catalog.recordings) ∧
    movedEvent.catalog.recordings.map (fun x => (x.thumbnailPath, x.clipPath)) =
      [(some "/t1/thumbnails/cam1/1.jpg".toList, some nextClipPath)] ∧
    (movedEvent.onCreated handingOnThumbnails
        "/t0/thumbnails/cam1/1.jpg".toList).2.catalog.recordings.map (·.thumbnailPath) =
      [some "/t0/thumbnails/cam1/1.jpg".toList] ∧
    (movedEvent.onCreated laterClips clipPath).2.catalog.recordings.map (·.clipPath) =
      [some clipPath] := by
  have hclips : (movedEvent.onCreated laterClips clipPath).2.catalog.recordings.map (·.clipPath) =
      [some clipPath] := by decide
  refine ⟨fun hall => ?_, by decide, by decide, hclips⟩
  obtain ⟨-, -, hsame⟩ := hall movedEvent laterClips clipPath (by decide)
  rw [hsame] at hclips
  exact absurd hclips (by decide)

end TieredFootage
