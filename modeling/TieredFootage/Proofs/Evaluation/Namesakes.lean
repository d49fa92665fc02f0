import TieredFootage.Proofs.Evaluation.Repointing
import TieredFootage.Proofs.Evaluation.Touching

/-!
# Whose clip moves along

When the clip of a recording has moved, recordings are looked up by the end of its path,
its last two names, and not by the id of the recording. All those found are pointed at the
new place, so that a recording with another clip loses sight of it if it is found as well:
a namesake.

An ending need not begin where a name begins, and the case of ASCII letters does not
count. So `11/a.mp4` and `1/A.MP4` are namesakes of `1/a.mp4`, whatever comes before, but
`1/a.mp4` is none of `11/a.mp4`.
-/

namespace TieredFootage

open Disk

namespace Archive

variable {a b : Archive} {t : Tier} {i : Int}

/-- The recordings are pointed at a clip row by row, if the catalog answers. -/
theorem recordings_repointClip (a : Archive) (camera : String) (q : Path) :
    (a.repointClip camera q).catalog.recordings =
      if a.catalog.answers .updateClip then a.catalog.recordings.map (pointClip camera q)
      else a.catalog.recordings := by
  unfold repointClip pointClip
  cases clipSuffix? q with
  | none => simp
  | some s =>
    simp only [Option.any_some, Catalog.updateClip]
    split <;> rfl

/-- The clip of the recording with an id. -/
def clipOf (a : Archive) (i : Int) : Option Path := (a.catalog.recordingAt? i).bind (·.clipPath)

/-- Every recording whose clip is not that of the recording with an id has kept its clip. -/
def OtherClipsKept (a b : Archive) (i : Int) : Prop :=
  ∀ y ∈ a.catalog.recordings, y.clipPath ≠ a.clipOf i → b.clipOf y.id = y.clipPath

/-- Pointing recordings at a clip changes that of a recording exactly if it is a namesake and
does not point there already. -/
theorem clipPath_pointClip_eq_iff {camera : String} {q : Path} {y : Recording} :
    (pointClip camera q y).clipPath = y.clipPath ↔
      ∀ s, clipSuffix? q = some s → y.IsNamesake camera s → y.clipPath = some q := by
  unfold pointClip
  cases clipSuffix? q with
  | none => simp
  | some s =>
    rw [Option.any_some]
    by_cases hends : Catalog.clipEndsWith camera s y = true
    · have hnamesake := Catalog.clipEndsWith_iff.1 hends
      rw [if_pos hends]
      exact ⟨fun h _ _ _ => h.symm, fun h => (h s rfl hnamesake).symm⟩
    · rw [if_neg hends]
      refine ⟨fun _ s' hs' hnamesake => ?_, fun _ => rfl⟩
      obtain rfl := Option.some.inj hs'
      exact absurd (Catalog.clipEndsWith_iff.2 hnamesake) hends

theorem clipOf_repointClip {y : Recording} (hy : a.catalog.recordingAt? y.id = some y)
    (camera : String) (q : Path) :
    (a.repointClip camera q).clipOf y.id =
      if a.catalog.answers .updateClip then (pointClip camera q y).clipPath else y.clipPath := by
  have hfound := Catalog.recordingAt?_map (c := a.catalog) ((repoints_clip camera).id_eq q) y.id
  rw [hy, Option.map_some] at hfound
  rw [clipOf, Catalog.recordingAt?, recordings_repointClip]
  split
  · exact congrArg (Option.bind · (·.clipPath)) hfound
  · exact congrArg (Option.bind · (·.clipPath)) hy

theorem otherClipsKept_of_eq (hk : a.catalog.Keyed)
    (h : b.catalog.recordingAt? = a.catalog.recordingAt?) : OtherClipsKept a b i := by
  intro y hy _
  rw [clipOf, h, hk.recordingAt?_id hy, Option.bind_some]

/-- Pointing recordings at a clip leaves those with another clip alone exactly if those of
them that are namesakes point there already. -/
theorem otherClipsKept_repointClip_iff (hk : a.catalog.Keyed)
    (hb : b.catalog.recordingAt? = a.catalog.recordingAt?) {p : Path} (hp : a.clipOf i = some p)
    (camera : String) (q : Path) :
    OtherClipsKept a (b.repointClip camera q) i ↔
      (b.catalog.answers .updateClip = true → ∀ s, clipSuffix? q = some s →
        ∀ y ∈ a.catalog.recordings, y.IsNamesake camera s →
          y.clipPath = some p ∨ y.clipPath = some q) := by
  have hafter : ∀ y ∈ a.catalog.recordings, (b.repointClip camera q).clipOf y.id =
      if b.catalog.answers .updateClip then (pointClip camera q y).clipPath else y.clipPath := by
    intro y hy
    exact clipOf_repointClip ((congrFun hb y.id).trans (hk.recordingAt?_id hy)) camera q
  constructor
  · intro hkept hanswers s hs y hy hnamesake
    by_cases hyp : y.clipPath = some p
    · exact Or.inl hyp
    · have hpointed := hkept y hy (hp ▸ hyp)
      rw [hafter y hy, if_pos hanswers] at hpointed
      exact Or.inr (clipPath_pointClip_eq_iff.1 hpointed s hs hnamesake)
  · intro hfree y hy hother
    rw [hafter y hy]
    split
    · rename_i hanswers
      refine clipPath_pointClip_eq_iff.2 fun s hs hnamesake => ?_
      exact (hfree hanswers s hs y hy hnamesake).resolve_left (hp ▸ hother)
    · rfl

/-- When the clip of a recording moves, every recording with another clip keeps its own
exactly if the clip does not get anywhere, or the recordings cannot be pointed elsewhere, or
none of the recordings of the camera is a namesake of the clip at its new place, but those
that point at one of its two places. -/
theorem otherClipsKept_iff (hk : a.catalog.Keyed) (t : Tier) (i : Int) :
    OtherClipsKept a (a.moveClip t i) i ↔
      ∀ x p q s, a.catalog.getRecording i = .ok (some x) → x.clipPath = some p →
        (a.evictFrom t p t.root).1 = .moved q → a.catalog.answers .updateClip = true →
        clipSuffix? q = some s →
        ∀ y ∈ a.catalog.recordings, y.IsNamesake t.camera s →
          y.clipPath = some p ∨ y.clipPath = some q := by
  rw [moveClip_eq_follow]
  refine follow_cases (P := fun b => OtherClipsKept a b i ↔ _) ?_ ?_ ?_
  · intro hnone
    exact iff_of_true (otherClipsKept_of_eq hk rfl) fun x p _ _ hx hp => absurd hp (hnone x p hx)
  · intro x p hx hp hstayed
    have hsame := funext (recordingAt?_evictFrom a t p t.root)
    refine iff_of_true (otherClipsKept_of_eq hk hsame) ?_
    intro x' p' q' s' hx' hp' hq'
    obtain rfl : x = x' := Option.some.inj (Except.ok.inj (hx.symm.trans hx'))
    obtain rfl : p = p' := Option.some.inj (hp.symm.trans hp')
    exact absurd hq' (hstayed q')
  · intro x p q hx hp hq
    have hclip : a.clipOf i = some p := by
      rw [clipOf, Catalog.recordingAt?_of_getRecording hx, Option.bind_some, hp]
    have hsame := funext (recordingAt?_evictFrom a t p t.root)
    rw [otherClipsKept_repointClip_iff hk hsame hclip, answers_evictFrom]
    constructor
    · intro hfree x' p' q' s hx' hp' hq' hanswers
      obtain rfl : x = x' := Option.some.inj (Except.ok.inj (hx.symm.trans hx'))
      obtain rfl : p = p' := Option.some.inj (hp.symm.trans hp')
      obtain rfl : q = q' := Eviction.moved.inj (hq.symm.trans hq')
      exact hfree hanswers s
    · exact fun hfree hanswers s => hfree x p q s hx hp hq hanswers

end Archive

/-- The tier of the clips beside the segments of `sameEnding`. -/
def carryingOnClips : Tier := carryingOn clipsName .clips

/-- The clip in directory `11` can move without the one in directory `1`. -/
theorem otherClipsKept_iff_sameEnding :
    sameEnding.catalog.Keyed ∧
      Archive.OtherClipsKept sameEnding (sameEnding.moveClip carryingOnClips 1) 1 := by
  refine ⟨keyed_sameEnding, (Archive.otherClipsKept_iff keyed_sameEnding carryingOnClips 1).2 ?_⟩
  intro x p q s hx hp hq _ hs y hy hnamesake
  obtain rfl : carriedRecording 1 2700 "/disk/recordings/11/a.mp4" = x :=
    Option.some.inj (Except.ok.inj hx)
  obtain rfl : "/disk/recordings/11/a.mp4".toList = p := Option.some.inj hp
  obtain rfl : "/disk2/recordings/11/a.mp4".toList = q := by
    have hmoved : (sameEnding.evictFrom carryingOnClips "/disk/recordings/11/a.mp4".toList
        carryingOnClips.root).1 = .moved "/disk2/recordings/11/a.mp4".toList := by decide
    exact Eviction.moved.inj (hmoved.symm.trans hq)
  obtain rfl : "11/a.mp4".toList = s := by
    have hsuffix : clipSuffix? "/disk2/recordings/11/a.mp4".toList =
        some "11/a.mp4".toList := by decide
    exact Option.some.inj (hsuffix.symm.trans hs)
  have hfound : ∀ y ∈ sameEnding.catalog.recordings,
      Catalog.clipEndsWith carryingOnClips.camera "11/a.mp4".toList y = true →
        y.clipPath = some "/disk/recordings/11/a.mp4".toList := by decide
  exact Or.inl (hfound y hy (Catalog.clipEndsWith_iff.2 hnamesake))

/-- The clip in directory `1` takes the recording along whose clip is in directory `11`. -/
theorem not_forall_otherClipsKept :
    ¬ ∀ (a : Archive) (t : Tier) (i : Int), a.catalog.Keyed → a.disk.IsTree →
        (∀ q, a.catalog.answers q = true) → t ∈ a.tiers → t.role = .clips →
        Archive.OtherClipsKept a (a.moveClip t i) i := by
  intro hall
  have hkept := hall sameEnding carryingOnClips 2 keyed_sameEnding isTree_sameEnding
    answers_sameEnding (by decide) rfl (carriedRecording 1 2700 "/disk/recordings/11/a.mp4")
    (by decide) (by decide)
  revert hkept
  decide

end TieredFootage
