import TieredFootage.Proofs.Catalog.Endings
import TieredFootage.Proofs.Evaluation.Following

/-!
# Which recordings are pointed elsewhere

When a thumbnail has moved, the recording with its id is pointed at its new path. When
a clip has moved, every recording of the camera is whose clip ends like the new path,
by directory and file name and ignoring the case of ASCII letters.

Moving to another root keeps these endings. So a clip that has moved is pointed at by
its own recording, and by another one only if its clip was caught by the old path.
-/

namespace TieredFootage

open Disk

/-- Repointing clips by this one's would catch the other one's. -/
def Recording.CatchesClip (x y : Recording) : Prop :=
  ∃ p s, x.clipPath = some p ∧ clipSuffix? p = some s ∧ Catalog.clipEndsWith x.camera s y = true

/-- All that is looked at when a clip is repointed. -/
def Recording.clipView (x : Recording) : String × Option Path := (x.camera, x.clipPath)

namespace Recording

variable {x y x' y' : Recording} {root next : Path} {l : List Path} {m n : Path}

theorem CatchesClip.congr (h : x'.CatchesClip y') (hx : x'.clipView = x.clipView)
    (hy : y'.clipView = y.clipView) : x.CatchesClip y := by
  obtain ⟨p, s, hp, hs, hends⟩ := h
  obtain ⟨hcamera, hclip⟩ := Prod.mk.inj hx
  obtain ⟨hcamera', hclip'⟩ := Prod.mk.inj hy
  refine ⟨p, s, hclip ▸ hp, hs, ?_⟩
  rw [Catalog.clipEndsWith, hcamera', hclip', hcamera] at hends
  exact hends

/-- A clip catches itself. -/
theorem catchesClip_self (hroot : root.IsNormal) (hns : IsNamed (l ++ [m] ++ [n]))
    (hx : x.clipPath = some (root.under (l ++ [m] ++ [n]))) (hy : y.clipPath = x.clipPath)
    (hcamera : y.camera = x.camera) : x.CatchesClip y := by
  refine ⟨_, _, hx, Path.clipSuffix?_under hroot hns, ?_⟩
  have hends := Like.matchesText_endsWith_self ['/'] (m ++ '/' :: n)
  rw [List.singleton_append, ← Path.endsWith_under (Path.count_slash_suffix hns).le root l] at hends
  simp only [Catalog.clipEndsWith, hcamera, hy, hx, beq_self_eq_true, Option.any_some, hends,
    Bool.and_self]

/-- A clip is caught below the next root by what caught it below its own. -/
theorem CatchesClip.of_next (hroot : root.IsNormal) (hns : IsNamed (l ++ [m] ++ [n]))
    (hx : x.clipPath = some (root.under (l ++ [m] ++ [n]))) {l' : List Path} {m' n' : Path}
    (hy : y.clipPath = some (root.under (l' ++ [m'] ++ [n'])))
    (h : x.CatchesClip { y with clipPath := some (next.under (l' ++ [m'] ++ [n'])) }) :
    x.CatchesClip y := by
  obtain ⟨p, s, hp, hs, hends⟩ := h
  obtain rfl := Option.some.inj (hx.symm.trans hp)
  rw [Path.clipSuffix?_under hroot hns] at hs
  obtain rfl := Option.some.inj hs
  have hcount := (Path.count_slash_suffix hns).le
  refine ⟨_, _, hx, Path.clipSuffix?_under hroot hns, ?_⟩
  simp only [Catalog.clipEndsWith, Option.any_some] at hends ⊢
  rw [Path.endsWith_under hcount] at hends
  rw [hy, Option.any_some, Path.endsWith_under hcount]
  exact hends

end Recording

namespace Archive

variable {a b : Archive} {t u v : Tier} {next : Path}

/-- How the recording with an id is pointed at a thumbnail. -/
def pointThumbnail (i : Int) (q : Path) (x : Recording) : Recording :=
  if x.id = i then { x with thumbnailPath := some q } else x

/-- How the recordings of a camera are pointed at a clip. -/
def pointClip (camera : String) (q : Path) (x : Recording) : Recording :=
  if (clipSuffix? q).any fun s => Catalog.clipEndsWith camera s x then
    { x with clipPath := some q }
  else x

/-- A clip that has moved is pointed at by its own recording, -/
theorem pointClip_self {x : Recording} {root : Path} {l : List Path} {m n : Path}
    (hroot : root.IsNormal) (hnext : next.IsNormal) (hns : IsNamed (l ++ [m] ++ [n]))
    (hx : x.clipPath = some (root.under (l ++ [m] ++ [n]))) :
    pointClip x.camera (next.under (l ++ [m] ++ [n])) x =
      { x with clipPath := some (next.under (l ++ [m] ++ [n])) } := by
  obtain ⟨p, s, hp, hs, hends⟩ := Recording.catchesClip_self hroot hns hx rfl rfl
  obtain rfl := Option.some.inj (hx.symm.trans hp)
  rw [Path.clipSuffix?_under hroot hns] at hs
  refine if_pos ?_
  rw [Path.clipSuffix?_under hnext hns, hs, Option.any_some, hends]

/-- and by no other one that it does not catch. -/
theorem pointClip_of_not_catchesClip {x y : Recording} {root : Path} {l : List Path} {m n : Path}
    (hroot : root.IsNormal) (hnext : next.IsNormal) (hns : IsNamed (l ++ [m] ++ [n]))
    (hx : x.clipPath = some (root.under (l ++ [m] ++ [n]))) (hxy : ¬ x.CatchesClip y) :
    pointClip x.camera (next.under (l ++ [m] ++ [n])) y = y := by
  refine if_neg fun hends => hxy ?_
  rw [Path.clipSuffix?_under hnext hns, Option.any_some] at hends
  exact ⟨_, _, hx, Path.clipSuffix?_under hroot hns, hends⟩

theorem repoints_thumbnail (i : Int) :
    Repoints (fun q b => b.withCatalog (b.catalog.updateThumbnail i q).2) (pointThumbnail i) where
  id_eq := by
    intro q x
    unfold pointThumbnail
    split <;> rfl
  repoint_eq := by
    intro q b hb
    rw [Catalog.updateThumbnail, if_pos (hb _)]
    rfl

theorem repoints_clip (camera : String) :
    Repoints (fun q b => b.repointClip camera q) (pointClip camera) where
  id_eq := by
    intro q x
    unfold pointClip
    split <;> rfl
  repoint_eq := by
    intro q b hb
    unfold repointClip pointClip
    cases clipSuffix? q with
    | none =>
      simp only [Option.any_none, Bool.false_eq_true, if_false, List.map_id']
      rfl
    | some s =>
      dsimp only
      rw [Catalog.updateClip, if_pos (hb _)]
      rfl

theorem moveThumbnails_eq_followAll (h : (a.sibling? t thumbnailsName).map (·.tier) = some u)
    (ids : List Int) :
    a.moveThumbnails t ids = a.followAll u (·.thumbnailPath)
      (fun i q b => b.withCatalog (b.catalog.updateThumbnail i q).2) ids := by
  obtain ⟨k, hk, rfl⟩ := Option.map_eq_some_iff.1 h
  rw [moveThumbnails, hk]
  rfl

theorem moveClips_eq_followAll (h : (a.sibling? t clipsName).map (·.tier) = some v)
    (ids : List Int) :
    a.moveClips t ids = a.followAll v (·.clipPath) (fun _ q b => b.repointClip v.camera q) ids := by
  obtain ⟨k, hk, rfl⟩ := Option.map_eq_some_iff.1 h
  rw [moveClips, hk]
  rfl

theorem map_clipPath_of_clipView (h : ∀ k, (b.catalog.recordingAt? k).map Recording.clipView =
    (a.catalog.recordingAt? k).map Recording.clipView) (k : Int) :
    (b.catalog.recordingAt? k).map (·.clipPath) = (a.catalog.recordingAt? k).map (·.clipPath) := by
  have hclip := congrArg (Option.map Prod.snd) (h k)
  rwa [Option.map_map, Option.map_map] at hclip

/-- A thumbnail is no other recording's. -/
theorem leavesAlone_thumbnails (b : Archive) {i k : Int} (hne : k ≠ i) :
    b.LeavesAlone u next (·.thumbnailPath) pointThumbnail i k := by
  intro x y p _ _ hy
  have hid : y.id = k := by simpa using List.find?_some hy
  exact if_neg fun heq => hne (hid.symm.trans heq)

end Archive

end TieredFootage
