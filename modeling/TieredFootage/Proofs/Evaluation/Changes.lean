import Mathlib.Logic.Relation
import TieredFootage.Proofs.Evaluation.Sparing

/-!
# What evaluating and draining consist of

Whatever a tier does when it is evaluated or drained is a chain of a few kinds of
changes: a catalogued file is evicted, a thumbnail or a clip follows, recordings
are deleted, and what is counted or remembered about keepers is brought up to
date. What each of these keeps, an evaluation keeps as a whole.

Thumbnails and clips follow in one way, `follow`: what differs is the pointer
that is read and how the recording is pointed elsewhere.
-/

namespace TieredFootage

open Relation

namespace Archive

/-- The tiers that have a keeper. -/
def tiers (a : Archive) : List Tier := a.keepers.map (·.tier)

/-- One change on behalf of a tier, where `rows` are the files catalogued and
`tiers` those with a keeper when it all began. -/
inductive Change (rows : List FileRow) (tiers : List Tier) (t : Tier) : Archive → Archive → Prop
  | evictRow {a : Archive} (r : FileRow) (hr : r ∈ rows) :
      Change rows tiers t a (a.evictFrom t r.path r.tierPath).2
  | moveThumbnail {a : Archive} {u : Tier} (hu : u ∈ tiers)
      (haddress : u.address = ⟨t.camera, thumbnailsName, t.index⟩) (i : Int) :
      Change rows tiers t a (a.moveThumbnail u i)
  | moveClip {a : Archive} {u : Tier} (hu : u ∈ tiers)
      (haddress : u.address = ⟨t.camera, clipsName, t.index⟩) (i : Int) :
      Change rows tiers t a (a.moveClip u i)
  | deleteRecordings {a : Archive} (ids : List Int) :
      Change rows tiers t a (a.withCatalog (a.catalog.deleteRecordings ids).2)
  | count {a : Archive} (c : Counters) : Change rows tiers t a { a with counters := c }
  | update {a : Archive} (x : Address) {f : Keeper → Keeper} (hf : ∀ k, (f k).tier = k.tier) :
      Change rows tiers t a (a.update x f)
  | overflow {a : Archive} : Change rows tiers t a { a with overflowed := true }

/-- Changes, one after the other. -/
abbrev Changes (rows : List FileRow) (tiers : List Tier) (t : Tier) : Archive → Archive → Prop :=
  ReflTransGen (Change rows tiers t)

variable {a b : Archive} {rows : List FileRow} {ts : List Tier} {t u : Tier}

theorem tiers_update (a : Archive) (x : Address) {f : Keeper → Keeper}
    (hf : ∀ k, (f k).tier = k.tier) : (a.update x f).tiers = a.tiers := by
  simp only [tiers, Archive.update, Keepers.update, List.map_map]
  refine List.map_congr_left fun k _ => ?_
  rw [Function.comp_apply]
  split
  · exact hf k
  · rfl

theorem tiers_evictFrom (a : Archive) (t : Tier) (p fileRoot : Path) :
    (a.evictFrom t p fileRoot).2.tiers = a.tiers :=
  tiers_update _ t.address fun _ => rfl

/-- Evicts what a recording points at and, if it was moved, points elsewhere. -/
def follow (a : Archive) (u : Tier) (pointer : Recording → Option Path) (i : Int)
    (repoint : Path → Archive → Archive) : Archive :=
  match a.catalog.getRecording i with
  | .ok (some x) =>
    match pointer x with
    | none => a
    | some p =>
      match a.evictFrom u p u.root with
      | (.moved q, b) => repoint q b
      | (_, b) => b
  | _ => a

theorem moveThumbnail_eq_follow (a : Archive) (u : Tier) (i : Int) :
    a.moveThumbnail u i = a.follow u (·.thumbnailPath) i
      fun q b => b.withCatalog (b.catalog.updateThumbnail i q).2 := rfl

theorem moveClip_eq_follow (a : Archive) (u : Tier) (i : Int) :
    a.moveClip u i = a.follow u (·.clipPath) i fun q b => b.repointClip u.camera q := rfl

/-- Nothing follows, or the path that a recording points at was evicted, and was
moved if and only if there is something to point elsewhere. -/
theorem follow_cases {P : Archive → Prop} {pointer : Recording → Option Path} {i : Int}
    {repoint : Path → Archive → Archive}
    (hnone : (∀ x p, a.catalog.getRecording i = .ok (some x) → pointer x ≠ some p) → P a)
    (hstayed : ∀ x p, a.catalog.getRecording i = .ok (some x) → pointer x = some p →
      (∀ q, (a.evictFrom u p u.root).1 ≠ .moved q) → P (a.evictFrom u p u.root).2)
    (hmoved : ∀ x p q, a.catalog.getRecording i = .ok (some x) → pointer x = some p →
      (a.evictFrom u p u.root).1 = .moved q → P (repoint q (a.evictFrom u p u.root).2)) :
    P (a.follow u pointer i repoint) := by
  unfold follow
  split
  · rename_i x hx
    split
    · rename_i hp
      refine hnone fun y p hy => ?_
      obtain rfl : x = y := Option.some.inj (Except.ok.inj (hx.symm.trans hy))
      simp [hp]
    · rename_i p hp
      split
      · rename_i q b heq
        have h := hmoved x p q hx hp (congrArg Prod.fst heq)
        rwa [heq] at h
      · rename_i e b hne heq
        have h := hstayed x p hx hp fun q hq => hne q (by rw [heq] at hq; exact hq)
        rwa [heq] at h
  · rename_i hne
    exact hnone fun x p hx => absurd hx (hne x)

theorem tiers_follow {pointer : Recording → Option Path} {i : Int}
    {repoint : Path → Archive → Archive} (hrepoint : ∀ q b, (repoint q b).tiers = b.tiers)
    (a : Archive) (u : Tier) : (a.follow u pointer i repoint).tiers = a.tiers := by
  refine follow_cases (P := fun b => b.tiers = a.tiers) ?_ ?_ ?_
  · exact fun _ => rfl
  · exact fun x p _ _ _ => tiers_evictFrom a u p u.root
  · exact fun x p q _ _ _ => (hrepoint q _).trans (tiers_evictFrom a u p u.root)

theorem tiers_repointClip (a : Archive) (camera : String) (p : Path) :
    (a.repointClip camera p).tiers = a.tiers := by
  unfold repointClip
  split <;> rfl

theorem Changes.tiers_eq (h : Changes rows ts t a b) : b.tiers = a.tiers := by
  induction h with
  | refl => rfl
  | tail _ hchange ih =>
    refine Eq.trans ?_ ih
    cases hchange with
    | evictRow r hr => exact tiers_evictFrom _ t r.path r.tierPath
    | moveThumbnail hu haddress i =>
      rw [moveThumbnail_eq_follow]
      refine tiers_follow ?_ _ _
      exact fun _ _ => rfl
    | moveClip hu haddress i =>
      rw [moveClip_eq_follow]
      exact tiers_follow (fun q b => tiers_repointClip b _ q) _ _
    | deleteRecordings ids => rfl
    | count c => rfl
    | update x hf => exact tiers_update _ x hf
    | overflow => rfl

theorem changes_evictAll {files : List (Path × Path)}
    (hfiles : ∀ x ∈ files, ∃ r ∈ rows, r.path = x.1 ∧ r.tierPath = x.2) (a : Archive) :
    Changes rows ts t a (a.evictAll t files).2 := by
  induction files generalizing a with
  | nil => exact ReflTransGen.refl
  | cons x files ih =>
    obtain ⟨p, fileRoot⟩ := x
    obtain ⟨r, hr, rfl, rfl⟩ := hfiles _ List.mem_cons_self
    have hrest := ih (fun x hx => hfiles x (List.mem_cons_of_mem _ hx))
      (a.evictFrom t r.path r.tierPath).2
    exact ReflTransGen.head (.evictRow r hr) hrest

theorem changes_foldl {f : Archive → Int → Archive}
    (hf : ∀ b i, Change rows ts t b (f b i)) (ids : List Int) (a : Archive) :
    Changes rows ts t a (ids.foldl f a) := by
  induction ids generalizing a with
  | nil => exact ReflTransGen.refl
  | cons i ids ih => exact ReflTransGen.head (hf a i) (ih (f a i))

theorem mem_of_get? {x : Address} {k : Keeper} (h : a.keepers.get? x = some k) :
    k ∈ a.keepers ∧ k.address = x :=
  ⟨List.mem_of_find?_eq_some h, by simpa using List.find?_some h⟩

/-- Keepers with addresses of their own are found by them. -/
theorem get?_of_mem {k : Keeper} (hkeys : (a.keepers.map Keeper.address).Nodup)
    (hk : k ∈ a.keepers) : a.keepers.get? k.address = some k := by
  cases hget : a.keepers.get? k.address with
  | none => simpa using List.find?_eq_none.1 hget k hk
  | some j =>
    obtain ⟨hj, haddress⟩ := mem_of_get? hget
    rw [List.inj_on_of_nodup_map hkeys hj hk haddress]

theorem sibling?_eq_some {s : String} {k : Keeper} (h : a.sibling? t s = some k) :
    k.tier ∈ a.tiers ∧ k.tier.address = ⟨t.camera, s, t.index⟩ := by
  unfold sibling? at h
  split at h
  · obtain ⟨hmem, haddress⟩ := mem_of_get? h
    exact ⟨List.mem_map_of_mem hmem, haddress⟩
  · cases h

/-- Which tiers are found beside a tier depends on the tiers alone. -/
theorem map_tier_sibling? (a : Archive) (t : Tier) (s : String) :
    (a.sibling? t s).map (·.tier) =
      if a.linked then a.tiers.find? (·.address == ⟨t.camera, s, t.index⟩) else none := by
  unfold sibling?
  split
  · rw [Keepers.get?, tiers, List.find?_map]
    rfl
  · rfl

theorem changes_moveSiblings (hts : a.tiers = ts) (ids : List Int) :
    Changes rows ts t a (a.moveSiblings t ids) := by
  have hthumbnails : Changes rows ts t a (a.moveThumbnails t ids) := by
    unfold moveThumbnails
    split
    · exact ReflTransGen.refl
    · rename_i k hk
      obtain ⟨hu, haddress⟩ := sibling?_eq_some hk
      exact changes_foldl (fun _ i => .moveThumbnail (hts ▸ hu) haddress i) ids a
  refine hthumbnails.trans ?_
  unfold moveSiblings moveClips
  split
  · exact ReflTransGen.refl
  · rename_i k hk
    obtain ⟨hu, haddress⟩ := sibling?_eq_some hk
    rw [hthumbnails.tiers_eq, hts] at hu
    exact changes_foldl (fun _ i => .moveClip hu haddress i) ids _

theorem changes_evictSelection {s : SegmentSelection} (hts : a.tiers = ts)
    (hfiles : ∀ x ∈ s.files, ∃ r ∈ rows, r.path = x.1 ∧ r.tierPath = x.2) :
    Changes rows ts t a (a.evictSelection t s).2 := by
  have hevicted : Changes rows ts t a (a.evictAll t s.files).2 := changes_evictAll hfiles a
  have hmoved := hevicted.trans (changes_moveSiblings
    (hevicted.tiers_eq.trans hts) (followers s.events (a.evictAll t s.files).1))
  rw [snd_evictSelection]
  exact followUp_cases (fun _ => hevicted) hmoved (hmoved.tail (.deleteRecordings _))

theorem exists_row_of_mem_population {p : Population} {f : TierFile}
    (h : f ∈ a.catalog.population p) :
    ∃ r ∈ a.catalog.files, r.path = f.path ∧ r.tierPath = f.tierPath := by
  obtain ⟨r, hr, -, rfl⟩ := Catalog.mem_population.1 h
  exact ⟨r, hr, rfl, rfl⟩

/-- Only catalogued files are selected. -/
theorem exists_row_of_mem_files {continuous events : Retention} {s : SegmentSelection}
    (h : a.selectSegments t continuous events = .ok s) :
    ∀ x ∈ s.files, ∃ r ∈ a.catalog.files, r.path = x.1 ∧ r.tierPath = x.2 := by
  intro x hx
  obtain ⟨f, hf, hpath, hroot⟩ := exists_segment_of_mem_files h x hx
  rw [← hpath, ← hroot]
  exact exists_row_of_mem_population hf

theorem changes_evaluate (a : Archive) (t : Tier) :
    Changes a.catalog.files a.tiers t a (a.evaluate t).2 := by
  unfold evaluate
  split
  · rename_i r _
    unfold evaluatePlain
    split
    · unfold Catalog.selectFiles
      split
      · exact ReflTransGen.refl
      · rename_i files hfiles
        split at hfiles
        · cases hfiles
          refine changes_evictAll (fun x hx => ?_) a
          obtain ⟨f, hf, rfl⟩ := List.mem_map.1 hx
          exact exists_row_of_mem_population (mem_of_mem_filesToMove hf)
        · cases hfiles
    · exact ReflTransGen.refl
  · unfold evaluateSegments
    split
    · exact ReflTransGen.refl
    · rename_i s hs
      exact changes_evictSelection rfl (exists_row_of_mem_files hs)
  · exact ReflTransGen.refl
  · exact ReflTransGen.refl

theorem tier_leaveEvaluation (before : Phase) (k : Keeper) :
    (k.leaveEvaluation before).tier = k.tier := by
  unfold Keeper.leaveEvaluation
  split <;> rfl

/-- An evaluation is a chain of changes. -/
theorem changes_runPolicy (a : Archive) (t : Tier) :
    Changes a.catalog.files a.tiers t a (a.runPolicy t).2 := by
  have hcounted : Change a.catalog.files a.tiers t a
      { a with counters := { a.counters with evaluations := a.counters.evaluations + 1 } } :=
    .count _
  have hentered : Changes a.catalog.files a.tiers t a (a.enterEvaluation t) :=
    (ReflTransGen.single hcounted).tail (.update t.address fun _ => rfl)
  have hevaluated := changes_evaluate (a.enterEvaluation t) t
  rw [hentered.tiers_eq] at hevaluated
  exact (hentered.trans hevaluated).tail
    (.update t.address (tier_leaveEvaluation (a.phaseOf t.address)))

theorem changes_runPolicyQuietly (a : Archive) (t : Tier) :
    Changes a.catalog.files a.tiers t a (a.runPolicyQuietly t) := by
  have hrun := changes_runPolicy a t
  unfold runPolicyQuietly
  split
  · rename_i heq
    rw [heq] at hrun
    exact hrun.tail .overflow
  · rename_i heq
    rw [heq] at hrun
    exact hrun

theorem changes_checkTier (a : Archive) (t : Tier) :
    Changes a.catalog.files a.tiers t a (a.checkTier t) := by
  unfold checkTier
  split
  case h_1 | h_2 => exact ReflTransGen.refl
  case h_3 | h_4 =>
    split
    · exact ReflTransGen.refl
    · split
      · exact ReflTransGen.refl
      · rename_i throttle _
        have hacquired : Change a.catalog.files a.tiers t a
            (a.update t.address fun k => { k with throttle := throttle }) :=
          .update t.address fun _ => rfl
        have htiers : (a.update t.address fun k => { k with throttle := throttle }).tiers =
            a.tiers := tiers_update a t.address fun _ => rfl
        have hrun :=
          changes_runPolicyQuietly (a.update t.address fun k => { k with throttle := throttle }) t
        rw [htiers] at hrun
        exact ReflTransGen.head hacquired hrun

/-- Draining a tier is a chain of changes. -/
theorem changes_drain (a : Archive) (t : Tier) :
    Changes a.catalog.files a.tiers t a (a.drain t).2 := by
  unfold drain Catalog.selectFiles
  split
  · exact ReflTransGen.refl
  · rename_i files hfiles
    split at hfiles
    · cases hfiles
      refine changes_evictAll (fun x hx => ?_) a
      obtain ⟨f, hf, rfl⟩ := List.mem_map.1 hx
      exact exists_row_of_mem_population hf
    · cases hfiles

end Archive

end TieredFootage
