import TieredFootage.Proofs.Disk.Touching
import TieredFootage.Proofs.Evaluation.Failing
import TieredFootage.Proofs.Evaluation.Guarding
import TieredFootage.Proofs.Evaluation.Pointers

/-!
# What an evaluation touches

An evaluation hands over paths one after the other: those of the files it selected, and
then the thumbnails and the clips of the recordings it reports. Each of them touches
its own place and the place where it is to go, drops the row of its own path at most,
and leaves a note at most where it is to go.

There is one exception. When a clip has moved, all clips with the same ending are
pointed at its new path, so that of a recording whose turn comes later may be. If the
root of the tier occurs in the new path as well, the clip is carried on from there, to
a place that no recording spoke of.
-/

namespace TieredFootage

open Disk

namespace Catalog

variable {c : Catalog}

theorem deleteRecordings_of_answers (h : c.answers .deleteRecordings = true) (ids : List Int) :
    ∃ n, (c.deleteRecordings ids).1 = .ok n := by
  obtain ⟨htables, hfailing⟩ := Bool.and_eq_true_iff.1 h
  unfold deleteRecordings
  rw [if_neg (by simpa using hfailing)]
  split_ifs
  · exact ⟨_, rfl⟩
  · exact ⟨_, rfl⟩

/-- Only rows of the path are dropped. -/
theorem path_eq_of_dropped {p : Path} {r : FileRow} (hr : r ∈ c.files)
    (hdropped : r ∉ (c.deleteFile p).2.files) : r.path = p := by
  by_contra hne
  refine hdropped ?_
  unfold deleteFile
  split
  · exact List.mem_filter.2 ⟨hr, by simpa using hne⟩
  · exact hr

/-- Copying a note adds one for the target at most. -/
theorem notes_copyNote (c : Catalog) (source target : Path) :
    (c.copyNote source target).2.notes = c.notes ∨
      ∃ n, n.path = target ∧ (c.copyNote source target).2.notes = c.notes ++ [n] := by
  unfold copyNote addNote
  split
  · split
    · exact Or.inl rfl
    · cases c.noteAt? target with
      | some _ => exact Or.inl rfl
      | none => exact Or.inr ⟨_, rfl, rfl⟩
  · exact Or.inl rfl

end Catalog

namespace Holdings

/-- What would be moved onto itself stays, and so does its row. -/
theorem evict_of_destination_eq (h : Holdings) {p root n : Path} (hp : destination p root n = p) :
    (h.evict p root root (some n)).2.disk = h.disk ∧
      (h.evict p root root (some n)).2.catalog = h.catalog := by
  unfold evict
  split
  · exact ⟨rfl, rfl⟩
  · simp [evictUnserved, hp]

end Holdings

/-- The clip of a recording ends like a path, as repointing the clips of a camera sees it. -/
def Recording.EndsLike (x : Recording) (camera : String) (q : Path) : Prop :=
  ∃ s, clipSuffix? q = some s ∧ Catalog.clipEndsWith camera s x = true

namespace Recording

variable {x y : Recording} {camera : String} {p q : Path}

/-- A recording is pointed elsewhere only if its clip ends like the new path, as far as
that can be told from its camera and its clip. -/
theorem pointClip_cases (camera : String) (q : Path) (x : Recording) :
    Archive.pointClip camera q x = x ∨
      Archive.pointClip camera q x = { x with clipPath := some q } ∧
        ∃ p, x.clipPath = some p ∧ ∀ y : Recording, y.camera = x.camera →
          { y with clipPath := some p }.EndsLike camera q := by
  unfold Archive.pointClip
  split
  · rename_i hends
    refine Or.inr ⟨rfl, ?_⟩
    obtain ⟨s, hs, hends⟩ := (Option.any_eq_true _ _).1 hends
    simp only [Catalog.clipEndsWith, Bool.and_eq_true, Option.any_eq_true] at hends
    obtain ⟨hcamera, p, hp, hmatches⟩ := hends
    refine ⟨p, hp, fun y hy => ⟨s, hs, ?_⟩⟩
    simp [Catalog.clipEndsWith, hy, hcamera, hmatches]
  · exact Or.inl rfl

end Recording

namespace Archive

variable {a b c : Archive} {t u : Tier} {p fileRoot : Path} {H : Path → Option Path → Prop}

/-- Between two archives nothing was touched but what was handed over: `H p q` says of a
path that it was, and where it was to go if anywhere. -/
structure Touched (a b : Archive) (H : Path → Option Path → Prop) : Prop where
  disk : Disk.Touched a.disk b.disk (fun x => ∃ p q, H p q ∧ (x = p ∨ q = some x))
    fun x => ∃ p q, H p (some q) ∧ x.IsAbove q
  files : b.catalog.files.Sublist a.catalog.files
  dropped : ∀ r ∈ a.catalog.files, r ∉ b.catalog.files → ∃ q, H r.path q
  notes : a.catalog.notes <+: b.catalog.notes
  noted : ∀ n ∈ b.catalog.notes, n ∉ a.catalog.notes → ∃ p, H p (some n.path)

namespace Touched

/-- Recordings, counters and keepers may change. -/
theorem of_eq (hdisk : b.disk = a.disk) (hfiles : b.catalog.files = a.catalog.files)
    (hnotes : b.catalog.notes = a.catalog.notes) : Touched a b H where
  disk := hdisk ▸ Disk.Touched.refl a.disk
  files := hfiles ▸ List.Sublist.refl _
  dropped := fun _ hr hdropped => absurd (hfiles ▸ hr) hdropped
  notes := hnotes ▸ List.prefix_refl _
  noted := fun _ hn hnew => absurd (hnotes ▸ hn) hnew

theorem refl (a : Archive) : Touched a a H := of_eq rfl rfl rfl

theorem trans (h : Touched a b H) (h' : Touched b c H) : Touched a c H where
  disk := h.disk.trans h'.disk
  files := h'.files.trans h.files
  dropped := by
    intro r hr hdropped
    by_cases hkept : r ∈ b.catalog.files
    · exact h'.dropped r hkept hdropped
    · exact h.dropped r hr hkept
  notes := h.notes.trans h'.notes
  noted := by
    intro n hn hnew
    by_cases hearlier : n ∈ b.catalog.notes
    · exact h.noted n hearlier hnew
    · exact h'.noted n hn hearlier

theorem mono {H' : Path → Option Path → Prop} (h : Touched a b H) (hH : ∀ p q, H p q → H' p q) :
    Touched a b H' where
  disk := h.disk.mono (fun _ ⟨p, q, hp, hx⟩ => ⟨p, q, hH p q hp, hx⟩)
    fun _ ⟨p, q, hp, hx⟩ => ⟨p, q, hH p _ hp, hx⟩
  files := h.files
  dropped := by
    intro r hr hdropped
    obtain ⟨q, hp⟩ := h.dropped r hr hdropped
    exact ⟨q, hH _ q hp⟩
  notes := h.notes
  noted := by
    intro n hn hnew
    obtain ⟨p, hp⟩ := h.noted n hn hnew
    exact ⟨p, hH p _ hp⟩

end Touched

@[simp] theorem disk_repointClip (a : Archive) (camera : String) (p : Path) :
    (a.repointClip camera p).disk = a.disk := by
  unfold repointClip
  split <;> rfl

@[simp] theorem notes_repointClip (a : Archive) (camera : String) (p : Path) :
    (a.repointClip camera p).catalog.notes = a.catalog.notes := by
  unfold repointClip
  split
  · rfl
  · exact Catalog.notes_updateClip _ _ _ _

/-- One path is handed over. -/
theorem touched_evictFrom (a : Archive) (t : Tier)
    (hp : H p (t.next.map (Holdings.destination p fileRoot))) :
    Touched a (a.evictFrom t p fileRoot).2 H where
  disk := by
    have hdisk : (a.evictFrom t p fileRoot).2.disk = _ :=
      Holdings.disk_evict a.toHoldings p fileRoot t.root t.next
    rw [hdisk]
    split
    · exact Disk.Touched.refl a.disk
    · cases hnext : t.next with
      | none => exact touched_removeFile a.disk ⟨p, _, hp, Or.inl rfl⟩
      | some n =>
        rw [hnext] at hp
        dsimp only
        split
        · exact Disk.Touched.refl a.disk
        · exact touched_moveFile a.disk ⟨p, _, hp, Or.inl rfl⟩ ⟨p, _, hp, Or.inr rfl⟩
            fun x hx => ⟨p, _, hp, hx⟩
  files := files_evictFrom_sublist a t p fileRoot
  dropped := by
    refine Holdings.catalog_evict
      (P := fun c => ∀ r ∈ a.catalog.files, r ∉ c.files → ∃ q, H r.path q) ?_ ?_
      fun r hr hdropped => absurd hr hdropped
    · intro c hc r hr hdropped
      by_cases hkept : r ∈ c.files
      · exact ⟨_, Catalog.path_eq_of_dropped hkept hdropped ▸ hp⟩
      · exact hc r hr hkept
    · intro c target hc
      rwa [Catalog.files_copyNote]
  notes := by
    refine Holdings.catalog_evict (P := fun c => a.catalog.notes <+: c.notes) ?_ ?_
      (List.prefix_refl _)
    · intro c hc
      rwa [Catalog.notes_deleteFile]
    · intro c target hc
      rcases Catalog.notes_copyNote c p target with hsame | ⟨n, -, hadded⟩
      · rwa [hsame]
      · rw [hadded]
        exact hc.trans (List.prefix_append _ _)
  noted := by
    refine Holdings.catalog_evict_to
      (P := fun c => ∀ n ∈ c.notes, n ∉ a.catalog.notes → ∃ p, H p (some n.path)) ?_ ?_
      fun n hn hnew => absurd hn hnew
    · intro c hc
      rwa [Catalog.notes_deleteFile]
    · intro c next hnext hc
      rcases Catalog.notes_copyNote c p (Holdings.destination p fileRoot next) with
        hsame | ⟨m, hm, hadded⟩
      · rwa [hsame]
      · rw [hadded]
        intro n hn hnew
        rcases List.mem_append.1 hn with hn | hn
        · exact hc n hn hnew
        · obtain rfl := List.mem_singleton.1 hn
          rw [hnext] at hp
          exact ⟨p, hm ▸ hp⟩

theorem touched_evictAll {files : List (Path × Path)}
    (hfiles : ∀ x ∈ files, H x.1 (t.next.map (Holdings.destination x.1 x.2))) (a : Archive) :
    Touched a (a.evictAll t files).2 H := by
  induction files generalizing a with
  | nil => exact Touched.refl a
  | cons x files ih =>
    obtain ⟨p, fileRoot⟩ := x
    exact (touched_evictFrom a t (hfiles _ List.mem_cons_self)).trans
      (ih (fun x hx => hfiles x (List.mem_cons_of_mem _ hx)) _)

/-- What would be moved onto itself is not touched. -/
theorem touched_evictFrom_of_eq (a : Archive) {n : Path} (hnext : u.next = some n)
    (hp : Holdings.destination p u.root n = p) : Touched a (a.evictFrom u p u.root).2 H := by
  have hevict := Holdings.evict_of_destination_eq a.toHoldings hp
  rw [← hnext] at hevict
  exact Touched.of_eq hevict.1 (congrArg Catalog.files hevict.2) (congrArg Catalog.notes hevict.2)

section FollowAll

variable {pointer : Recording → Option Path} {repoint : Int → Path → Archive → Archive}
  {g : Int → Path → Recording → Recording} {ids : List Int} {J : Int → Recording → Prop}

theorem worked_followAll (h : ∀ i, Repoints (repoint i) (g i)) (hd : a.disk.IsTree)
    (ha : ∀ q, a.catalog.answers q = true) : Worked a (a.followAll u pointer repoint ids) := by
  induction ids generalizing a with
  | nil => exact Worked.refl hd
  | cons i ids ih =>
    have hworked := worked_follow u pointer i hd ha (h i)
    exact hworked.trans (ih hworked.isTree (hworked.answers ha))

/-- What a recording points at is handed over when its turn comes. `J i x` says what the
recording with an id may look like by then. -/
theorem touched_followAll (h : ∀ i, Repoints (repoint i) (g i)) (hd : a.disk.IsTree)
    (ha : ∀ q, a.catalog.answers q = true)
    (hsame : ∀ i q b, (repoint i q b).disk = b.disk ∧
      (repoint i q b).catalog.files = b.catalog.files ∧
      (repoint i q b).catalog.notes = b.catalog.notes)
    (hpointed : ∀ i ∈ ids, ∀ x, a.catalog.recordingAt? i = some x → J i x)
    (hturn : ∀ i j, [i, j].Sublist ids → ∀ x y p n, J i x → pointer x = some p → u.next = some n →
      J j y → J j (g i (Holdings.destination p u.root n) y))
    (hands : ∀ i ∈ ids, ∀ x p, J i x → pointer x = some p →
      H p (u.next.map (Holdings.destination p u.root)) ∨
        ∃ n, u.next = some n ∧ Holdings.destination p u.root n = p) :
    Touched a (a.followAll u pointer repoint ids) H := by
  induction ids generalizing a with
  | nil => exact Touched.refl a
  | cons i ids ih =>
    have hJ : ∀ x, a.catalog.getRecording i = .ok (some x) → J i x := fun x hx =>
      hpointed i List.mem_cons_self x (Catalog.recordingAt?_of_getRecording hx)
    have hevicted : ∀ x p, a.catalog.getRecording i = .ok (some x) → pointer x = some p →
        Touched a (a.evictFrom u p u.root).2 H := by
      intro x p hx hp
      rcases hands i List.mem_cons_self x p (hJ x hx) hp with hH | ⟨n, hnext, heq⟩
      · exact touched_evictFrom a u hH
      · exact touched_evictFrom_of_eq a hnext heq
    have hfollowed : Touched a (a.follow u pointer i (repoint i)) H := by
      refine follow_cases (P := fun b => Touched a b H) ?_ ?_ ?_
      · exact fun _ => Touched.refl a
      · exact fun x p hx hp _ => hevicted x p hx hp
      · intro x p q hx hp _
        obtain ⟨hdisk, hfiles, hnotes⟩ := hsame i q (a.evictFrom u p u.root).2
        exact (hevicted x p hx hp).trans (Touched.of_eq hdisk hfiles hnotes)
    have hworked := worked_follow u pointer i hd ha (h i)
    refine hfollowed.trans (ih hworked.isTree (hworked.answers ha) ?_ ?_ ?_)
    · intro j hj y hy
      have hpair : [i, j].Sublist (i :: ids) := (List.singleton_sublist.2 hj).cons_cons i
      rcases recordingAt?_follow hd ha (h i) u pointer i with
        hkept | ⟨n, x, p, hnext, hx, hp, hmapped⟩
      · exact hpointed j (List.mem_cons_of_mem i hj) y (hkept j ▸ hy)
      · rw [hmapped] at hy
        obtain ⟨z, hz, rfl⟩ := Option.map_eq_some_iff.1 hy
        exact hturn i j hpair x z p n (hpointed i List.mem_cons_self x hx) hp hnext
          (hpointed j (List.mem_cons_of_mem i hj) z hz)
    · exact fun j k hjk => hturn j k (hjk.cons i)
    · exact fun j hj => hands j (List.mem_cons_of_mem i hj)

end FollowAll

/-- What an evaluation selects: a path, and where it is to go if anywhere. These are the
files of the tier that it reports, and the thumbnails and clips of the recordings that
it reports. -/
inductive Selects (a : Archive) (t : Tier) (report : Report) : Path → Option Path → Prop
  | file {r : FileRow} (hr : r ∈ a.catalog.files) (hrow : t.population.holds r = true)
      (h : r.path ∈ report.outcomes.map (·.1)) :
      Selects a t report r.path (t.next.map (Holdings.destination r.path r.tierPath))
  | thumbnail {u : Tier} {i : Int} {x : Recording} {p : Path}
      (hu : (a.sibling? t thumbnailsName).map (·.tier) = some u) (hi : i ∈ report.recordingIds)
      (hx : a.catalog.recordingAt? i = some x) (hp : x.thumbnailPath = some p) :
      Selects a t report p (u.next.map (Holdings.destination p u.root))
  | clip {v : Tier} {i : Int} {x : Recording} {p : Path}
      (hv : (a.sibling? t clipsName).map (·.tier) = some v) (hi : i ∈ report.recordingIds)
      (hx : a.catalog.recordingAt? i = some x) (hp : x.clipPath = some p) :
      Selects a t report p (v.next.map (Holdings.destination p v.root))

/-- The clip that a recording may point at when its turn comes: its own one, or where
an earlier one went whose new path it ends like. -/
inductive ClipTurn (a : Archive) (v : Tier) (ids : List Int) : Int → Path → Prop
  | own {i : Int} {x : Recording} {p : Path} (hi : i ∈ ids)
      (hx : a.catalog.recordingAt? i = some x) (hp : x.clipPath = some p) : ClipTurn a v ids i p
  | caught {i j : Int} {y : Recording} {p q n : Path} (hp : ClipTurn a v ids i p)
      (hq : ClipTurn a v ids j q) (hij : [i, j].Sublist ids) (hn : v.next = some n)
      (hy : a.catalog.recordingAt? j = some y)
      (hends : { y with clipPath := some q }.EndsLike v.camera
        (Holdings.destination p v.root n)) :
      ClipTurn a v ids j (Holdings.destination p v.root n)

/-- A clip that an earlier turn has brought to `p` is carried on from there. -/
def CarriesOn (a : Archive) (t : Tier) (report : Report) (p : Path) (q : Option Path) : Prop :=
  ∃ v n i j p₀ q₀ y, (a.sibling? t clipsName).map (·.tier) = some v ∧ v.next = some n ∧
    [i, j].Sublist report.recordingIds ∧ a.ClipTurn v report.recordingIds i p₀ ∧
    a.ClipTurn v report.recordingIds j q₀ ∧ a.catalog.recordingAt? j = some y ∧
    { y with clipPath := some q₀ }.EndsLike v.camera p ∧
    p = Holdings.destination p₀ v.root n ∧ q = some (Holdings.destination p v.root n) ∧
    Holdings.destination p v.root n ≠ p

section Siblings

variable {report : Report} (hb : Worked a b) (ha : ∀ q, a.catalog.answers q = true)

include hb ha

theorem touched_moveThumbnails (hnodup : report.recordingIds.Nodup)
    (hsame : ∀ i, b.catalog.recordingAt? i = a.catalog.recordingAt? i) :
    Touched b (b.moveThumbnails t report.recordingIds) (a.Selects t report) := by
  cases hu : (b.sibling? t thumbnailsName).map (·.tier) with
  | none =>
    rw [moveThumbnails, Option.map_eq_none_iff.1 hu]
    exact Touched.refl b
  | some u =>
    rw [moveThumbnails_eq_followAll hu]
    rw [hb.map_tier_sibling?] at hu
    refine touched_followAll (J := fun i x => a.catalog.recordingAt? i = some x)
      repoints_thumbnail hb.isTree (hb.answers ha) ?_ ?_ ?_ ?_
    · exact fun i q c =>
        ⟨rfl, Catalog.files_updateThumbnail _ _ _, Catalog.notes_updateThumbnail _ _ _⟩
    · exact fun i _ x hx => hsame i ▸ hx
    · intro i j hij x y p n _ _ _ hy
      have hne : j ≠ i := by
        have hpair := hnodup.sublist hij
        simp only [List.nodup_cons, List.mem_singleton] at hpair
        exact fun h => hpair.1 h.symm
      have hid : y.id = j := by simpa using List.find?_some hy
      rwa [pointThumbnail, if_neg fun heq => hne (hid.symm.trans heq)]
    · exact fun i hi x p hx hp => Or.inl (.thumbnail hu hi hx hp)

theorem touched_moveClips (hview : ∀ k, (b.catalog.recordingAt? k).map Recording.clipView =
      (a.catalog.recordingAt? k).map Recording.clipView) :
    Touched b (b.moveClips t report.recordingIds)
      fun p q => a.Selects t report p q ∨ a.CarriesOn t report p q := by
  cases hv : (b.sibling? t clipsName).map (·.tier) with
  | none =>
    rw [moveClips, Option.map_eq_none_iff.1 hv]
    exact Touched.refl b
  | some v =>
    rw [moveClips_eq_followAll hv]
    rw [hb.map_tier_sibling?] at hv
    refine touched_followAll (J := fun i x => ∃ y, a.catalog.recordingAt? i = some y ∧
        x.camera = y.camera ∧ ∀ p, x.clipPath = some p → a.ClipTurn v report.recordingIds i p)
      (fun _ => repoints_clip v.camera) hb.isTree (hb.answers ha) ?_ ?_ ?_ ?_
    · exact fun i q d => ⟨disk_repointClip d v.camera q, files_repointClip d v.camera q,
        notes_repointClip d v.camera q⟩
    · intro i hi x hx
      have hsame := hview i
      rw [hx, Option.map_some] at hsame
      obtain ⟨y, hy, heq⟩ := Option.map_eq_some_iff.1 hsame.symm
      obtain ⟨hcamera, hclip⟩ := Prod.mk.inj heq
      exact ⟨y, hy, hcamera.symm, fun p hp => .own hi hy (hclip.trans hp)⟩
    · rintro i j hij x y p n ⟨-, -, -, hx⟩ hp hn ⟨z, hz, hcamera, hy⟩
      rcases Recording.pointClip_cases v.camera (Holdings.destination p v.root n) y with
        hsame | ⟨hpointed, q, hq, hends⟩
      · rw [hsame]
        exact ⟨z, hz, hcamera, hy⟩
      · rw [hpointed]
        refine ⟨z, hz, hcamera, fun p' hp' => ?_⟩
        obtain rfl := Option.some.inj hp'
        exact .caught (hx p hp) (hy q hq) hij hn hz (hends z hcamera.symm)
    · rintro i hi x p ⟨z, hz, -, hx⟩ hp
      rcases hx p hp with ⟨-, hy, hown⟩ | ⟨hp₀, hq, hij, hn, hy, hends⟩
      · exact Or.inl (Or.inl (.clip hv hi hy hown))
      · rename_i i₀ y p₀ q₀ n
        by_cases hagain : Holdings.destination (Holdings.destination p₀ v.root n) v.root n =
            Holdings.destination p₀ v.root n
        · exact Or.inr ⟨n, hn, hagain⟩
        · refine Or.inl (Or.inr ⟨v, n, i₀, i, p₀, q₀, y, hv, hn, hij, hp₀, hq, hy, hends, rfl, ?_,
            hagain⟩)
          rw [hn, Option.map_some]

/-- Moving thumbnails leaves the tiers as they are, and clips and cameras of recordings. -/
theorem worked_moveThumbnails (t : Tier) (ids : List Int) :
    Worked a (b.moveThumbnails t ids) ∧ ∀ k,
      ((b.moveThumbnails t ids).catalog.recordingAt? k).map Recording.clipView =
        (b.catalog.recordingAt? k).map Recording.clipView := by
  cases hu : (b.sibling? t thumbnailsName).map (·.tier) with
  | none =>
    rw [moveThumbnails, Option.map_eq_none_iff.1 hu]
    exact ⟨hb, fun _ => rfl⟩
  | some u =>
    rw [moveThumbnails_eq_followAll hu]
    refine ⟨hb.trans (worked_followAll repoints_thumbnail hb.isTree (hb.answers ha)), fun k => ?_⟩
    refine map_recordingAt?_followAll repoints_thumbnail ?_ hb.isTree (hb.answers ha) k
    intro i q x
    unfold pointThumbnail
    split <;> rfl

theorem worked_moveSiblings (t : Tier) (ids : List Int) : Worked a (b.moveSiblings t ids) := by
  have hworked := (worked_moveThumbnails hb ha t ids).1
  rw [moveSiblings]
  cases hv : ((b.moveThumbnails t ids).sibling? t clipsName).map (·.tier) with
  | none =>
    rw [moveClips, Option.map_eq_none_iff.1 hv]
    exact hworked
  | some v =>
    rw [moveClips_eq_followAll hv]
    exact hworked.trans (worked_followAll (fun _ => repoints_clip v.camera) hworked.isTree
      (hworked.answers ha))

theorem touched_moveSiblings (hnodup : report.recordingIds.Nodup)
    (hsame : ∀ i, b.catalog.recordingAt? i = a.catalog.recordingAt? i) :
    Touched b (b.moveSiblings t report.recordingIds)
      fun p q => a.Selects t report p q ∨ a.CarriesOn t report p q := by
  obtain ⟨hworked, hview⟩ := worked_moveThumbnails hb ha t report.recordingIds
  exact ((touched_moveThumbnails (t := t) hb ha hnodup hsame).mono fun p q hp => Or.inl hp).trans
    (touched_moveClips hworked ha fun k => by rw [hview, hsame])

end Siblings

section Run

variable {report : Report} {s : SegmentSelection}

/-- The files that are reported are handed over with the roots they are catalogued under. -/
theorem touched_files {files : List (Path × Path)}
    (hfiles : ∀ x ∈ files, ∃ f ∈ a.segments t, f.path = x.1 ∧ f.tierPath = x.2)
    (houtcomes : report.outcomes = (b.evictAll t files).1) :
    Touched b (b.evictAll t files).2
      fun p q => a.Selects t report p q ∨ a.CarriesOn t report p q := by
  refine touched_evictAll (fun x hx => ?_) b
  obtain ⟨f, hf, hpath, hroot⟩ := hfiles x hx
  obtain ⟨r, hr, hrow, rfl⟩ := Catalog.mem_population.1 hf
  have hreported : r.path ∈ report.outcomes.map (·.1) := by
    rw [houtcomes, map_fst_evictAll, ← a.catalog.path_tierFile r, hpath]
    exact List.mem_map_of_mem hx
  have hselects := Selects.file hr hrow hreported
  rw [← hpath, ← hroot]
  exact Or.inl hselects

variable (hb : Worked a b) (ha : ∀ q, a.catalog.answers q = true)
  (hrecordings : b.catalog.recordings = a.catalog.recordings)

include hb ha hrecordings

theorem touched_evictSelection (h : (b.evictSelection t s).1 = .ok report)
    (hfiles : ∀ x ∈ s.files, ∃ f ∈ a.segments t, f.path = x.1 ∧ f.tierPath = x.2)
    (hnodup : report.recordingIds.Nodup) :
    Touched b (b.evictSelection t s).2
      fun p q => a.Selects t report p q ∨ a.CarriesOn t report p q := by
  obtain ⟨houtcomes, hids⟩ := evictSelection_eq_ok h
  have hevicted := touched_files hfiles houtcomes
  have hworked := hb.trans (worked_evictAll hb.isTree t s.files)
  have hsame : ∀ i, (b.evictAll t s.files).2.catalog.recordingAt? i = a.catalog.recordingAt? i := by
    intro i
    rw [Catalog.recordingAt?, recordings_evictAll, hrecordings, ← Catalog.recordingAt?]
  have hmoved := hevicted.trans (touched_moveSiblings (t := t) hworked ha hnodup hsame)
  have hdeleted := hmoved.trans (Touched.of_eq rfl
    (Catalog.files_deleteRecordings _ report.recordingIds)
    (Catalog.notes_deleteRecordings _ report.recordingIds)
    (b := ((b.evictAll t s.files).2.moveSiblings t report.recordingIds).withCatalog
      (((b.evictAll t s.files).2.moveSiblings t report.recordingIds).catalog.deleteRecordings
        report.recordingIds).2))
  rw [snd_evictSelection, ← houtcomes, ← hids]
  exact followUp_cases (P := fun c => Touched b c
    fun p q => a.Selects t report p q ∨ a.CarriesOn t report p q) (fun _ => hevicted) hmoved hdeleted

omit hb hrecordings in
/-- An evaluation that reports touches what it has selected, and what it carries on. -/
theorem touched_of_report (hd : a.disk.IsTree) (h : (a.runPolicy t).1 = .ok report) :
    Touched a (a.runPolicy t).2
      fun p q => a.Selects t report p q ∨ a.CarriesOn t report p q := by
  have hentered : Worked a (a.enterEvaluation t) :=
    ⟨hd, rfl, fun _ => rfl, rfl, tiers_update _ t.address fun _ => rfl, rfl⟩
  have hevaluate : ((a.enterEvaluation t).evaluate t).1 = .ok report := h
  have htouched : Touched (a.enterEvaluation t) ((a.enterEvaluation t).evaluate t).2
      fun p q => a.Selects t report p q ∨ a.CarriesOn t report p q := by
    cases ht : t.role with
    | plain r =>
      simp only [evaluate, ht, evaluatePlain] at hevaluate ⊢
      by_cases hr : r.isConfigured = true
      · have hfiles : (a.enterEvaluation t).catalog.selectFiles t.population =
            .ok (a.segments t) := if_pos (ha _)
        rw [if_pos hr, hfiles] at hevaluate ⊢
        cases hevaluate
        refine touched_files (fun x hx => ?_) rfl
        obtain ⟨f, hf, rfl⟩ := List.mem_map.1 hx
        exact ⟨f, mem_of_mem_filesToMove hf, rfl, rfl⟩
      · rw [if_neg hr]
        exact Touched.refl _
    | segments continuous events =>
      obtain ⟨s, hs, hreport⟩ := runPolicy_eq_ok ht h
      simp only [evaluate, ht, evaluateSegments, hs]
      exact touched_evictSelection hentered ha rfl hreport (exists_segment_of_mem_files hs)
        (nodup_recordingIds ⟨continuous, events, ht⟩ h)
    | thumbnails => simpa only [evaluate, ht] using Touched.refl _
    | clips => simpa only [evaluate, ht] using Touched.refl _
  have hentering : Touched a (a.enterEvaluation t)
      fun p q => a.Selects t report p q ∨ a.CarriesOn t report p q := Touched.of_eq rfl rfl rfl
  exact (hentering.trans htouched).trans (Touched.of_eq rfl rfl rfl)

end Run

/-- Only segments report recordings, by an axis of events. -/
theorem segments_of_mem_recordingIds {report : Report} (h : (a.runPolicy t).1 = .ok report)
    {i : Int} (hi : i ∈ report.recordingIds) :
    ∃ continuous events, t.role = .segments continuous events ∧ events.isConfigured = true := by
  cases ht : t.role with
  | segments continuous events =>
    refine ⟨continuous, events, rfl, ?_⟩
    by_contra he
    simp [recordingIds_eq_nil ht (by simpa using he) h] at hi
  | plain r =>
    have hevaluate : ((a.enterEvaluation t).evaluate t).1 = .ok report := h
    simp only [evaluate, ht, evaluatePlain] at hevaluate
    split at hevaluate
    · split at hevaluate
      · cases hevaluate
      · cases hevaluate
        simp at hi
    · cases hevaluate
      simp at hi
  | thumbnails | clips =>
    have hevaluate : ((a.enterEvaluation t).evaluate t).1 = .ok report := h
    simp only [evaluate, ht] at hevaluate
    cases hevaluate
    simp at hi

/-- A selection is evicted without failing if the catalog answers. -/
theorem exists_evictSelection_eq_ok (hd : a.disk.IsTree) (ha : ∀ q, a.catalog.answers q = true)
    (t : Tier) (s : SegmentSelection) : ∃ report, (a.evictSelection t s).1 = .ok report := by
  simp only [evictSelection]
  split
  · exact ⟨_, rfl⟩
  · split
    · exact ⟨_, rfl⟩
    · have hworked := worked_evictAll hd t s.files
      have hanswered := (worked_moveSiblings hworked ha t
        (followers s.events (a.evictAll t s.files).1)).answers ha .deleteRecordings
      obtain ⟨n, hdeleted⟩ := Catalog.deleteRecordings_of_answers hanswered
        (followers s.events (a.evictAll t s.files).1)
      split
      · exact ⟨_, rfl⟩
      · rename_i heq
        rw [heq] at hdeleted
        cases hdeleted

/-- An evaluation touches the files it selects, and thumbnails and clips of the recordings
it reports, with the places where they are to go, and what it carries on; it deletes no
recording of another camera and none in progress. One that fails touches nothing. -/
theorem touched_runPolicy (hk : a.catalog.Keyed) (hd : a.disk.IsTree)
    (ha : ∀ q, a.catalog.answers q = true) (t : Tier) :
    (∀ report, (a.runPolicy t).1 = .ok report →
      Touched a (a.runPolicy t).2 fun p q => a.Selects t report p q ∨ a.CarriesOn t report p q) ∧
      (∀ e, (a.runPolicy t).1 = .error e →
        (a.runPolicy t).2.disk = a.disk ∧ (a.runPolicy t).2.catalog = a.catalog) ∧
      ∀ x ∈ a.catalog.recordings, x.camera ≠ t.camera ∨ x.isClosed = false →
        x.id ∈ (a.runPolicy t).2.catalog.recordingIds := by
  refine ⟨fun report h => touched_of_report ha hd h, fun e h => ?_, fun x hx hkept => ?_⟩
  · have hevaluate : ((a.enterEvaluation t).evaluate t).1 = .error e := h
    have hsame : ((a.enterEvaluation t).evaluate t).2 = a.enterEvaluation t := by
      rcases eq_or_exists_evictSelection hevaluate with hsame | ⟨s, hs⟩
      · exact hsame
      · obtain ⟨report, hreport⟩ := exists_evictSelection_eq_ok (a := a.enterEvaluation t) hd ha t s
        rw [hs] at hreport
        cases hreport
    simp only [runPolicy, hsame]
    exact ⟨rfl, rfl⟩
  · by_contra hdeleted
    obtain ⟨-, report, h, hi⟩ := reported_of_deleted (List.mem_map_of_mem hx) hdeleted
    obtain ⟨continuous, events, ht, he⟩ := segments_of_mem_recordingIds h hi
    obtain ⟨y, hy, hid, hleaves⟩ := exists_leaves_of_mem_recordingIds hk ht he h hi
    obtain ⟨hmem, hcamera⟩ := mem_recordings_iff.1 hy
    obtain rfl : y = x := List.inj_on_of_nodup_map hk.recordingIds hmem hx hid
    rcases hkept with hother | hopen
    · exact hother hcamera
    · rw [hleaves.isClosed] at hopen
      cases hopen

end Archive

/-- The first tier of a chain from `/disk` to `/disk2`. -/
def carryingOn (subcategory : String) (role : Role) : Tier :=
  { handingOn subcategory role with root := "/disk".toList, next := some "/disk2".toList }

def carryingOnSegments : Tier := carryingOn segmentsName (.segments {} { maxAge := 3600 })

/-- A segment that is no longer there, and the recording of it with a clip. -/
def carriedSegment (id madeAt : Int) (path : String) : FileRow where
  tierIndex := 0
  tierPath := carryingOnSegments.root
  camera := carryingOnSegments.camera
  category := carryingOnSegments.category.text
  subcategory := carryingOnSegments.subcategory
  path := path.toList
  directory := "/disk/segments/cam1".toList
  filename := []
  size := 1
  createdAt := madeAt * second
  id := id

def carriedRecording (id start : Int) (clip : String) : Recording where
  camera := carryingOnSegments.camera
  startTime := start * second
  endTime := some ((start + 100) * second)
  clipPath := some clip.toList
  id := id
  createdAt := start * second

/-- Two recordings with a clip each, whose names are the same and whose directories end
in the same digit. -/
def sameEnding : Archive where
  now := 10000 * second
  disk := { nodes := [
    (["disk".toList], .directory),
    (["disk".toList, "recordings".toList], .directory),
    (["disk".toList, "recordings".toList, "1".toList], .directory),
    (["disk".toList, "recordings".toList, "1".toList, "a.mp4".toList], .file "newer"),
    (["disk".toList, "recordings".toList, "11".toList], .directory),
    (["disk".toList, "recordings".toList, "11".toList, "a.mp4".toList], .file "older")] }
  catalog := {
    files := [carriedSegment 1 2710 "/disk/segments/cam1/1.m4s",
      carriedSegment 2 2910 "/disk/segments/cam1/2.m4s"]
    recordings := [carriedRecording 1 2700 "/disk/recordings/11/a.mp4",
      carriedRecording 2 2900 "/disk/recordings/1/a.mp4"]
    lastFileId := 2
    lastRecordingId := 2 }
  keepers := [{ tier := carryingOn clipsName .clips }, { tier := carryingOnSegments }]

theorem keyed_sameEnding : sameEnding.catalog.Keyed where
  fileIds := by decide
  filePaths := by decide
  notePaths := by decide
  recordingIds := by decide
  fileId_le := by decide
  recordingId_le := by decide

theorem isTree_sameEnding : sameEnding.disk.IsTree := isTree_of_nodes (by decide)

theorem answers_sameEnding (q : Query) : sameEnding.catalog.answers q = true := by
  cases q <;> rfl

def sameEndingReport : Report where
  outcomes := [("/disk/segments/cam1/2.m4s".toList, .missing),
    ("/disk/segments/cam1/1.m4s".toList, .missing)]
  recordingIds := [2, 1]

theorem runPolicy_sameEnding :
    (sameEnding.runPolicy carryingOnSegments).1 = .ok sameEndingReport := by decide

theorem touched_runPolicy_sameEnding :
    sameEnding.catalog.Keyed ∧ sameEnding.disk.IsTree ∧
      (∀ q, sameEnding.catalog.answers q = true) ∧
      (sameEnding.runPolicy carryingOnSegments).1 = .ok sameEndingReport ∧
      Archive.Touched sameEnding (sameEnding.runPolicy carryingOnSegments).2 fun p q =>
        sameEnding.Selects carryingOnSegments sameEndingReport p q ∨
          sameEnding.CarriesOn carryingOnSegments sameEndingReport p q :=
  ⟨keyed_sameEnding, isTree_sameEnding, answers_sameEnding, runPolicy_sameEnding,
    (Archive.touched_runPolicy keyed_sameEnding isTree_sameEnding answers_sameEnding
      carryingOnSegments).1 sameEndingReport runPolicy_sameEnding⟩

theorem tidy_sameEnding : sameEnding.Tidy where
  disk := isTree_sameEnding
  rows := by decide
  recordings := by
    intro x hx p hp
    have hclips : ∀ x ∈ sameEnding.catalog.recordings,
        x.thumbnailPath = none ∧ ∀ p ∈ x.clipPath, p.IsNormal := by decide
    obtain ⟨hnone, hclip⟩ := hclips x hx
    rcases hp with hp | hp
    · rw [hnone] at hp
      cases hp
    · exact hclip p hp
  tiers := by
    intro u hu
    have hroots : ∀ u ∈ sameEnding.tiers, u.root.IsNormal ∧ ∀ n ∈ u.next, n.IsNormal := by decide
    exact ⟨(hroots u hu).1, (hroots u hu).2⟩

/-- Where the clip of the newer recording ends up: in no tier. -/
def strandedClip : Location :=
  ["disk22".toList, "recordings".toList, "1".toList, "a.mp4".toList]

/-- Nothing that is selected is at this place, or goes there. -/
theorem spot_ne_strandedClip {p : Path} {q : Option Path}
    (h : sameEnding.Selects carryingOnSegments sameEndingReport p q) :
    Path.spot [] p ≠ strandedClip ∧ ∀ x ∈ q, Path.spot [] x ≠ strandedClip := by
  cases h with
  | file hr _ _ =>
    have hrows : ∀ r ∈ sameEnding.catalog.files, Path.spot [] r.path ≠ strandedClip ∧
        ∀ x ∈ carryingOnSegments.next.map (Holdings.destination r.path r.tierPath),
          Path.spot [] x ≠ strandedClip := by decide
    exact hrows _ hr
  | thumbnail hu _ _ _ => exact nomatch hu
  | clip hv _ hx hp =>
    have hclips : ∀ x ∈ sameEnding.catalog.recordings, ∀ p ∈ x.clipPath,
        Path.spot [] p ≠ strandedClip ∧
          ∀ x ∈ (carryingOn clipsName .clips).next.map
            (Holdings.destination p (carryingOn clipsName .clips).root),
            Path.spot [] x ≠ strandedClip := by decide
    obtain rfl := Option.some.inj hv
    exact hclips _ (List.mem_of_find?_eq_some hx) _ hp

/-- A clip can be carried on to a place where nothing that is selected goes. -/
theorem not_forall_touched_selected :
    ¬ ∀ (a : Archive) (t : Tier) (report : Report), a.Tidy → a.catalog.Keyed →
      (∀ q, a.catalog.answers q = true) → t ∈ a.tiers → (a.runPolicy t).1 = .ok report →
      Archive.Touched a (a.runPolicy t).2 (a.Selects t report) := by
  intro hall
  have h := hall sameEnding carryingOnSegments sameEndingReport tidy_sameEnding
    keyed_sameEnding answers_sameEnding (by decide) runPolicy_sameEnding
  rcases h.disk.node?_cases strandedClip with heq | ⟨x, ⟨p, q, hselects, hx⟩, hspot⟩ | ⟨-, hmade, -⟩
  · exact absurd heq (by decide)
  · obtain ⟨hsource, htarget⟩ := spot_ne_strandedClip hselects
    rcases hx with rfl | hx
    · exact hsource hspot.symm
    · exact htarget x hx hspot.symm
  · exact absurd hmade (by decide)

end TieredFootage
