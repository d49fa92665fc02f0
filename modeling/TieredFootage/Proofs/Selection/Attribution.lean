import Mathlib.Data.List.Nodup
import TieredFootage.Selection.Events

/-!
# Which recording a segment leaves with

Windows of recordings overlap, so a segment can be linked to several recordings
at once. The events axis lets it leave only if all of them leave, and gives it a
single row. `SpeaksFor recordings now x f` says that `x` is the newest of the
recordings linked to `f`; it is the recording whose id that row carries. A
recording that speaks for none of its segments has no row at all.

`mem_eventRows_iff_isFree` states this for the whole selection: the two passes over
recordings and files, the set of retained ids and the removal of repeated rows come
down to one row for each segment that no recording keeps, on behalf of the recording
that speaks for it. Ids of recordings need not be distinct for this; where they are,
a segment is free exactly if it departs (`mem_eventRows_iff`).
-/

namespace TieredFootage

section Distinct

variable {α β : Type} [DecidableEq β] (key : α → β)

/-- An entry with no entry of the same key before it is kept. -/
theorem mem_distinctFrom_of_first {met : List β} {x : α} {before after : List α}
    (hmet : key x ∉ met) (hbefore : ∀ y ∈ before, key y ≠ key x) :
    x ∈ distinctFrom key met (before ++ x :: after) := by
  induction before generalizing met with
  | nil =>
    rw [List.nil_append, distinctFrom_cons, if_neg hmet]
    exact List.mem_cons_self
  | cons y ys ih =>
    have hrest : ∀ z ∈ ys, key z ≠ key x := fun z hz => hbefore z (List.mem_cons_of_mem y hz)
    rw [List.cons_append, distinctFrom_cons]
    split
    · exact ih hmet hrest
    · have hy : key y ≠ key x := hbefore y List.mem_cons_self
      apply List.mem_cons_of_mem
      apply ih _ hrest
      simpa [hmet] using fun h => hy h.symm

theorem distinctFrom_sublist (met : List β) (xs : List α) :
    (distinctFrom key met xs).Sublist xs := by
  induction xs generalizing met with
  | nil => exact List.Sublist.refl _
  | cons x xs ih =>
    rw [distinctFrom_cons]
    split
    · exact (ih met).cons x
    · exact (ih _).cons_cons x

theorem nodup_map_distinctBy (xs : List α) : ((distinctBy key xs).map key).Nodup :=
  List.pairwise_map.2 (pairwise_distinctFrom key [] xs)

theorem mem_of_mem_distinctBy {x : α} {xs : List α} (h : x ∈ distinctBy key xs) : x ∈ xs :=
  (distinctFrom_sublist key [] xs).subset h

theorem mem_map_distinctBy_iff {xs : List α} {k : β} :
    k ∈ (distinctBy key xs).map key ↔ k ∈ xs.map key := by
  constructor
  · intro h
    obtain ⟨x, hx, rfl⟩ := List.mem_map.1 h
    exact List.mem_map_of_mem (mem_of_mem_distinctBy key hx)
  · intro h
    obtain ⟨x, hx, rfl⟩ := List.mem_map.1 h
    have hfirst : ∃ y ∈ distinctBy key xs, key y = key x :=
      exists_mem_distinctFrom key hx List.not_mem_nil
    exact List.mem_map.2 hfirst

end Distinct

theorem Rank.atLeast_refl (a : Rank) : a.atLeast a = true :=
  or_self_iff.1 (a.atLeast_total a)

theorem Rank.atLeast_antisymm {a b : Rank} (hab : a.atLeast b = true) (hba : b.atLeast a = true) :
    a = b := by
  obtain ⟨m, i⟩ := a
  obtain ⟨n, j⟩ := b
  simp only [Rank.atLeast, Bool.or_eq_true, Bool.and_eq_true, decide_eq_true_eq] at hab hba
  rw [Rank.mk.injEq]
  omega

/-- The newest of the recordings linked to a segment. -/
def SpeaksFor (recordings : List Recording) (now : Int) (x : Recording) (f : TierFile) : Prop :=
  x.covers now f = true ∧ ∀ y ∈ recordings, y.covers now f = true → x.rank.atLeast y.rank = true

/-- The events axis selects a recording. -/
def Leaves (recordings : List Recording) (files : List TierFile) (r : Retention) (now : Int)
    (x : Recording) : Prop :=
  (x, true) ∈ judgedRecordings recordings files r now

/-- The events axis selects a segment: it has settled, and every recording linked
to it leaves. -/
def Departs (recordings : List Recording) (files : List TierFile) (r : Retention) (now : Int)
    (f : TierFile) : Prop :=
  f.isSettled now = true ∧
    ∀ x ∈ recordings, x.covers now f = true → Leaves recordings files r now x

/-- A recording keeps its segments in the tier: it is in progress, or the events axis
does not select it. -/
def Stays (recordings : List Recording) (files : List TierFile) (r : Retention) (now : Int)
    (x : Recording) : Prop :=
  x ∈ recordings ∧ x.isClosed = false ∨ (x, false) ∈ judgedRecordings recordings files r now

/-- No recording keeps a segment: it has settled, and none that stays is linked to it.
Recordings with one id may leave and stay at once, and a segment of theirs is not free. -/
def IsFree (recordings : List Recording) (files : List TierFile) (r : Retention) (now : Int)
    (f : TierFile) : Prop :=
  f.isSettled now = true ∧ ∀ x, Stays recordings files r now x → x.covers now f = false

variable {recordings : List Recording} {files : List TierFile} {r : Retention} {now : Int}

/-- The recordings are judged in order, the newest one first. -/
theorem map_fst_judgedRecordings (recordings : List Recording) (files : List TierFile)
    (r : Retention) (now : Int) :
    (judgedRecordings recordings files r now).map (·.1) =
      newestFirst Recording.rank (recordings.filter Recording.isClosed) :=
  Retention.map_fst_judge ..

/-- Every closed recording is judged, and no other. -/
theorem exists_mem_judgedRecordings_iff {x : Recording} :
    (∃ b, (x, b) ∈ judgedRecordings recordings files r now) ↔
      x ∈ recordings ∧ x.isClosed = true := by
  have hmem : x ∈ (judgedRecordings recordings files r now).map (·.1) ↔
      x ∈ recordings ∧ x.isClosed = true := by
    rw [map_fst_judgedRecordings, mem_newestFirst, List.mem_filter]
  rw [← hmem, List.mem_map]
  constructor
  · rintro ⟨b, hb⟩
    exact ⟨(x, b), hb, rfl⟩
  · rintro ⟨⟨y, b⟩, hb, rfl⟩
    exact ⟨b, hb⟩

theorem Leaves.mem {x : Recording} (h : Leaves recordings files r now x) : x ∈ recordings :=
  (exists_mem_judgedRecordings_iff.1 ⟨true, h⟩).1

theorem Leaves.isClosed {x : Recording} (h : Leaves recordings files r now x) :
    x.isClosed = true :=
  (exists_mem_judgedRecordings_iff.1 ⟨true, h⟩).2

/-- Of recordings that are told apart by their ids, none is judged twice. -/
theorem nodup_judgedRecordings (hr : (recordings.map (·.id)).Nodup) :
    ((judgedRecordings recordings files r now).map (·.1.id)).Nodup := by
  have hmap : (judgedRecordings recordings files r now).map (·.1.id) =
      (newestFirst Recording.rank (recordings.filter Recording.isClosed)).map (·.id) := by
    rw [← map_fst_judgedRecordings recordings files r now, List.map_map]
    rfl
  rw [hmap, ((newestFirst_perm Recording.rank _).map _).nodup_iff]
  exact (List.filter_sublist.map _).nodup hr

theorem Stays.mem {x : Recording} (h : Stays recordings files r now x) : x ∈ recordings := by
  rcases h with ⟨hx, -⟩ | hfalse
  · exact hx
  · exact (exists_mem_judgedRecordings_iff.1 ⟨false, hfalse⟩).1

/-- Where ids tell recordings apart, one that leaves does not stay. -/
theorem Leaves.not_stays (hr : (recordings.map (·.id)).Nodup) {x : Recording}
    (h : Leaves recordings files r now x) : ¬ Stays recordings files r now x := by
  rintro (⟨-, hopen⟩ | hfalse)
  · rw [h.isClosed] at hopen
    exact Bool.noConfusion hopen
  · have heq : (x, true) = (x, false) :=
      List.inj_on_of_nodup_map (nodup_judgedRecordings hr) h hfalse rfl
    simp at heq

/-- A recording that does not stay leaves. -/
theorem leaves_of_not_stays {x : Recording} (hx : x ∈ recordings)
    (h : ¬ Stays recordings files r now x) : Leaves recordings files r now x := by
  have hclosed : x.isClosed = true := by
    by_contra hopen
    exact h (Or.inl ⟨hx, Bool.not_eq_true _ ▸ hopen⟩)
  have hjudged : ∃ b, (x, b) ∈ judgedRecordings recordings files r now :=
    exists_mem_judgedRecordings_iff.2 ⟨hx, hclosed⟩
  obtain ⟨b, hb⟩ := hjudged
  cases b with
  | true => exact hb
  | false => exact absurd (Or.inr hb) h

theorem mem_retainedIds_iff {i : Int} :
    i ∈ retainedIds recordings files r now ↔
      ∃ x, Stays recordings files r now x ∧ ∃ f ∈ files, x.covers now f = true ∧ f.id = i := by
  simp [retainedIds, Stays, Recording.linked, and_assoc, or_and_right, exists_or]

/-- A segment is retained exactly if a recording linked to it stays. -/
theorem notMem_retainedIds_iff (hf : (files.map (·.id)).Nodup) {f : TierFile} (hmem : f ∈ files) :
    f.id ∉ retainedIds recordings files r now ↔
      ∀ x, Stays recordings files r now x → x.covers now f = false := by
  rw [mem_retainedIds_iff]
  constructor
  · intro hnot x hstays
    by_contra hcov
    exact hnot ⟨x, hstays, f, hmem, by simpa using hcov, rfl⟩
  · rintro hall ⟨x, hstays, g, hg, hcov, hid⟩
    obtain rfl : g = f := List.inj_on_of_nodup_map hf hg hmem hid
    rw [hall x hstays] at hcov
    exact Bool.noConfusion hcov

/-- Where ids tell recordings apart, a segment is free exactly if all recordings linked
to it leave. -/
theorem departs_iff_isFree (hr : (recordings.map (·.id)).Nodup) {f : TierFile} :
    Departs recordings files r now f ↔ IsFree recordings files r now f := by
  refine and_congr_right fun _ => ?_
  constructor
  · intro hall x hstays
    by_contra hcov
    exact (hall x hstays.mem (by simpa using hcov)).not_stays hr hstays
  · intro hnone x hx hcov
    refine leaves_of_not_stays hx fun hstays => ?_
    rw [hnone x hstays] at hcov
    exact Bool.noConfusion hcov

/-- The recordings that leave, newest first. -/
def leavingRecordings (recordings : List Recording) (files : List TierFile) (r : Retention)
    (now : Int) : List Recording :=
  ((judgedRecordings recordings files r now).filter (·.2)).map (·.1)

theorem mem_leavingRecordings {x : Recording} :
    x ∈ leavingRecordings recordings files r now ↔ Leaves recordings files r now x := by
  constructor
  · intro h
    obtain ⟨⟨y, b⟩, hy, rfl⟩ := List.mem_map.1 h
    obtain ⟨hmem, hb⟩ := List.mem_filter.1 hy
    obtain rfl : b = true := hb
    exact hmem
  · intro h
    exact List.mem_map.2 ⟨(x, true), List.mem_filter.2 ⟨h, rfl⟩, rfl⟩

theorem pairwise_leavingRecordings :
    (leavingRecordings recordings files r now).Pairwise
      fun x y => x.rank.atLeast y.rank = true := by
  have hsorted := newestFirst_pairwise Recording.rank (recordings.filter Recording.isClosed)
  rw [← map_fst_judgedRecordings recordings files r now] at hsorted
  exact hsorted.sublist (List.filter_sublist.map _)

/-- The row of a segment on behalf of one leaving recording. -/
theorem recordingRows_eq :
    recordingRows recordings files r now =
      (leavingRecordings recordings files r now).flatMap fun x =>
        (files.filter fun f => x.covers now f &&
          (f.isSettled now && decide (f.id ∉ retainedIds recordings files r now))).map
          (·.eventRow (some x.id)) := by
  simp only [recordingRows, leavingRecordings, List.flatMap_map, Recording.linked,
    List.filter_filter]
  congr 1
  funext x
  congr 2
  funext f
  exact Bool.and_comm _ _

theorem mem_recordingRows {row : EventRow} (h : row ∈ recordingRows recordings files r now) :
    ∃ x, Leaves recordings files r now x ∧ ∃ f ∈ files, x.covers now f = true ∧
      f.isSettled now = true ∧ f.id ∉ retainedIds recordings files r now ∧
      row = f.eventRow (some x.id) := by
  rw [recordingRows_eq] at h
  obtain ⟨x, hx, hrow⟩ := List.mem_flatMap.1 h
  obtain ⟨f, hf, rfl⟩ := List.mem_map.1 hrow
  obtain ⟨hmem, hp⟩ := List.mem_filter.1 hf
  simp only [Bool.and_eq_true, decide_eq_true_eq] at hp
  exact ⟨x, mem_leavingRecordings.1 hx, f, hmem, hp.1, hp.2.1, hp.2.2, rfl⟩

/-- Recordings that speak for one segment have one id. -/
theorem SpeaksFor.id_eq {x y : Recording} {f : TierFile} (hx : x ∈ recordings) (hy : y ∈ recordings)
    (hxf : SpeaksFor recordings now x f) (hyf : SpeaksFor recordings now y f) : x.id = y.id :=
  congrArg Rank.id (Rank.atLeast_antisymm (hxf.2 y hy hyf.1) (hyf.2 x hx hxf.1))

/-- In a list sorted newest first the first recording linked to a segment is the
newest one, and those in front of it are not linked. -/
theorem exists_first_covering {xs : List Recording} {f : TierFile}
    (hsorted : xs.Pairwise fun x y => x.rank.atLeast y.rank = true)
    (h : ∃ x ∈ xs, x.covers now f = true) :
    ∃ before x after, xs = before ++ x :: after ∧ (∀ y ∈ before, y.covers now f = false) ∧
      SpeaksFor xs now x f := by
  have hsome : (xs.find? (·.covers now f)).isSome = true := by
    rw [List.find?_isSome]
    exact h
  obtain ⟨x, hx⟩ := Option.isSome_iff_exists.1 hsome
  obtain ⟨hcov, before, after, hxs, hbefore⟩ := List.find?_eq_some_iff_append.1 hx
  refine ⟨before, x, after, hxs, fun y hy => by simpa using hbefore y hy, hcov, ?_⟩
  intro y hy hyf
  subst hxs
  have hafter := (List.pairwise_append.1 hsorted).2.1
  rcases List.mem_append.1 hy with hy | hy
  · have hnot := hbefore y hy
    simp [hyf] at hnot
  · rcases List.mem_cons.1 hy with rfl | hy
    · exact Rank.atLeast_refl y.rank
    · exact (List.pairwise_cons.1 hafter).1 y hy

/-- Some recording speaks for every segment that any recording is linked to. -/
theorem exists_speaksFor {f : TierFile} (h : ∃ x ∈ recordings, x.covers now f = true) :
    ∃ x ∈ recordings, SpeaksFor recordings now x f := by
  have hmem : ∀ y, y ∈ newestFirst Recording.rank recordings ↔ y ∈ recordings := fun y =>
    mem_newestFirst Recording.rank
  have hsorted : ∃ x ∈ newestFirst Recording.rank recordings, x.covers now f = true := by
    obtain ⟨x, hx, hcov⟩ := h
    exact ⟨x, (hmem x).2 hx, hcov⟩
  obtain ⟨before, x, after, hxs, -, hcov, hnewest⟩ :=
    exists_first_covering (newestFirst_pairwise Recording.rank recordings) hsorted
  have hx : x ∈ newestFirst Recording.rank recordings := by simp [hxs]
  exact ⟨x, (hmem x).1 hx, hcov, fun y hy => hnewest y ((hmem y).2 hy)⟩

/-- A segment in the middle of a population, with the rows in front of its own. -/
theorem exists_rows_split (hf : (files.map (·.id)).Nodup) {f : TierFile} (hmem : f ∈ files)
    (p : TierFile → Bool) (hp : p f = true) (o : Option Int) :
    ∃ before after, (files.filter p).map (·.eventRow o) = before ++ f.eventRow o :: after ∧
      ∀ row ∈ before, row.fileId ≠ f.id := by
  obtain ⟨front, back, rfl⟩ := List.append_of_mem hmem
  refine ⟨(front.filter p).map (·.eventRow o), (back.filter p).map (·.eventRow o), ?_, ?_⟩
  · rw [List.filter_append, List.filter_cons_of_pos hp, List.map_append, List.map_cons]
  · intro row hrow hid
    obtain ⟨g, hg, rfl⟩ := List.mem_map.1 hrow
    have hgfront := List.mem_of_mem_filter hg
    rw [List.map_append, List.map_cons] at hf
    have hdisjoint := (List.nodup_append.1 hf).2.2
    exact hdisjoint g.id (List.mem_map_of_mem hgfront) f.id List.mem_cons_self hid

/-- A free segment has the row of the recording that speaks for it. -/
theorem eventRow_mem_of_speaksFor (hf : (files.map (·.id)).Nodup) {f : TierFile} (hmem : f ∈ files)
    (hfree : IsFree recordings files r now f) {x : Recording} (hx : x ∈ recordings)
    (hspeaks : SpeaksFor recordings now x f) :
    f.eventRow (some x.id) ∈ eventRows recordings files r now := by
  have hkept : f.id ∉ retainedIds recordings files r now :=
    (notMem_retainedIds_iff hf hmem).2 hfree.2
  have hleaves : ∀ y ∈ recordings, y.covers now f = true → Leaves recordings files r now y := by
    intro y hy hcov
    refine leaves_of_not_stays hy fun hstays => ?_
    rw [hfree.2 y hstays] at hcov
    exact Bool.noConfusion hcov
  -- the first leaving recording linked to the segment is the newest of all
  have hleaving : ∃ y ∈ leavingRecordings recordings files r now, y.covers now f = true :=
    ⟨x, mem_leavingRecordings.2 (hleaves x hx hspeaks.1), hspeaks.1⟩
  obtain ⟨before, y, after, hxs, hbefore, hcov, hnewest⟩ :=
    exists_first_covering pairwise_leavingRecordings hleaving
  have hy : y ∈ recordings := by
    have hyl : y ∈ leavingRecordings recordings files r now := by simp [hxs]
    exact (mem_leavingRecordings.1 hyl).mem
  have hyspeaks : SpeaksFor recordings now y f :=
    ⟨hcov, fun z hz hzf => hnewest z (mem_leavingRecordings.2 (hleaves z hz hzf)) hzf⟩
  rw [SpeaksFor.id_eq hx hy hspeaks hyspeaks]
  -- and no row in front of its row is about the segment
  have hp : (y.covers now f &&
      (f.isSettled now && decide (f.id ∉ retainedIds recordings files r now))) = true := by
    simp [hcov, hfree.1, hkept]
  obtain ⟨front, back, hrows, hfront⟩ := exists_rows_split hf hmem
    (fun f => y.covers now f &&
      (f.isSettled now && decide (f.id ∉ retainedIds recordings files r now))) hp (some y.id)
  rw [eventRows, recordingRows_eq, hxs, List.flatMap_append, List.flatMap_cons, hrows]
  simp only [List.append_assoc, List.cons_append]
  rw [← List.append_assoc]
  apply mem_distinctFrom_of_first EventRow.fileId (by simp)
  intro row hrow
  rcases List.mem_append.1 hrow with hrow | hrow
  · obtain ⟨z, hz, hzrow⟩ := List.mem_flatMap.1 hrow
    obtain ⟨g, hg, rfl⟩ := List.mem_map.1 hzrow
    obtain ⟨hgmem, hgp⟩ := List.mem_filter.1 hg
    intro hid
    obtain rfl : g = f := List.inj_on_of_nodup_map hf hgmem hmem hid
    simp [hbefore z hz] at hgp
  · exact hfront row hrow

theorem notMem_linkedIds_iff (hf : (files.map (·.id)).Nodup) {f : TierFile} (hmem : f ∈ files) :
    f.id ∉ (recordings.flatMap fun x => (x.linked now files).map (·.id)) ↔
      ∀ x ∈ recordings, x.covers now f = false := by
  constructor
  · intro hnot x hx
    by_contra hcov
    apply hnot
    refine List.mem_flatMap.2 ⟨x, hx, List.mem_map_of_mem (List.mem_filter.2 ⟨hmem, ?_⟩)⟩
    simpa using hcov
  · intro hall hlinked
    obtain ⟨x, hx, hid⟩ := List.mem_flatMap.1 hlinked
    obtain ⟨g, hg, hgid⟩ := List.mem_map.1 hid
    obtain ⟨hgmem, hcov⟩ := List.mem_filter.1 hg
    obtain rfl : g = f := List.inj_on_of_nodup_map hf hgmem hmem hgid
    rw [hall x hx] at hcov
    exact Bool.noConfusion hcov

theorem mem_orphanRows_iff (hf : (files.map (·.id)).Nodup) {row : EventRow} :
    row ∈ orphanRows recordings files now ↔
      ∃ f ∈ files, f.isSettled now = true ∧ (∀ x ∈ recordings, x.covers now f = false) ∧
        row = f.eventRow none := by
  constructor
  · intro h
    obtain ⟨f, hmem, rfl⟩ := List.mem_map.1 h
    obtain ⟨hfmem, hp⟩ := List.mem_filter.1 hmem
    simp only [Bool.and_eq_true, decide_eq_true_eq] at hp
    exact ⟨f, hfmem, hp.2, (notMem_linkedIds_iff hf hfmem).1 hp.1, rfl⟩
  · rintro ⟨f, hmem, hsettled, hnone, rfl⟩
    have hid := (notMem_linkedIds_iff hf hmem).2 hnone
    exact List.mem_map_of_mem (List.mem_filter.2 ⟨hmem, by simp [hsettled, hid]⟩)

/-- A settled segment outside every recording has a row of its own. -/
theorem eventRow_mem_of_orphan (hf : (files.map (·.id)).Nodup) {f : TierFile} (hmem : f ∈ files)
    (hsettled : f.isSettled now = true) (hnone : ∀ x ∈ recordings, x.covers now f = false) :
    f.eventRow none ∈ eventRows recordings files r now := by
  have hid := (notMem_linkedIds_iff hf hmem).2 hnone
  obtain ⟨before, after, hrows, hbefore⟩ := exists_rows_split hf hmem
    (fun f => decide (f.id ∉ recordings.flatMap fun x => (x.linked now files).map (·.id)) &&
      f.isSettled now) (by simp [hsettled, hid]) none
  have horphans : orphanRows recordings files now = before ++ f.eventRow none :: after := hrows
  rw [eventRows, horphans, ← List.append_assoc]
  apply mem_distinctFrom_of_first EventRow.fileId (by simp)
  intro row hrow
  rcases List.mem_append.1 hrow with hrow | hrow
  · obtain ⟨x, hx, g, hgmem, hcov, -, -, rfl⟩ := mem_recordingRows hrow
    intro heq
    obtain rfl : g = f := List.inj_on_of_nodup_map hf hgmem hmem heq
    simp [hnone x hx.mem] at hcov
  · exact hbefore row hrow

/-- The row of a segment on the events axis: it carries the id of the recording
that speaks for the segment, or none if no recording is linked to it. -/
def IsRowOf (recordings : List Recording) (now : Int) (f : TierFile) (row : EventRow) : Prop :=
  (∃ x ∈ recordings, SpeaksFor recordings now x f ∧ row = f.eventRow (some x.id)) ∨
    ((∀ x ∈ recordings, x.covers now f = false) ∧ row = f.eventRow none)

theorem exists_isRowOf (recordings : List Recording) (now : Int) (f : TierFile) :
    ∃ row, IsRowOf recordings now f row := by
  by_cases h : ∃ x ∈ recordings, x.covers now f = true
  · obtain ⟨x, hx, hspeaks⟩ := exists_speaksFor h
    exact ⟨f.eventRow (some x.id), Or.inl ⟨x, hx, hspeaks, rfl⟩⟩
  · refine ⟨f.eventRow none, Or.inr ⟨fun x hx => ?_, rfl⟩⟩
    by_contra hcov
    exact h ⟨x, hx, by simpa using hcov⟩

theorem IsRowOf.fileId_eq {f : TierFile} {row : EventRow} (h : IsRowOf recordings now f row) :
    row.fileId = f.id := by
  rcases h with ⟨x, -, -, rfl⟩ | ⟨-, rfl⟩ <;> rfl

theorem IsRowOf.path_eq {f : TierFile} {row : EventRow} (h : IsRowOf recordings now f row) :
    row.path = f.path := by
  rcases h with ⟨x, -, -, rfl⟩ | ⟨-, rfl⟩ <;> rfl

/-- The row of a segment names a recording exactly if that recording speaks for
the segment. -/
theorem IsRowOf.recordingId_eq_some_iff (hr : (recordings.map (·.id)).Nodup) {f : TierFile}
    {row : EventRow} (h : IsRowOf recordings now f row) {x : Recording} (hx : x ∈ recordings) :
    row.recordingId = some x.id ↔ SpeaksFor recordings now x f := by
  rcases h with ⟨y, hy, hspeaks, rfl⟩ | ⟨hnone, rfl⟩
  · constructor
    · intro hid
      obtain rfl : y = x := List.inj_on_of_nodup_map hr hy hx (Option.some.inj hid)
      exact hspeaks
    · intro hxf
      exact congrArg some (SpeaksFor.id_eq hy hx hspeaks hxf)
  · constructor
    · intro hid
      exact absurd hid (by simp [TierFile.eventRow])
    · intro hxf
      have hcov := hxf.1
      rw [hnone x hx] at hcov
      exact Bool.noConfusion hcov

/-- The rows of the events axis are those of the free segments. -/
theorem mem_eventRows_iff_isFree (hf : (files.map (·.id)).Nodup) {row : EventRow} :
    row ∈ eventRows recordings files r now ↔
      ∃ f ∈ files, IsFree recordings files r now f ∧ IsRowOf recordings now f row := by
  have hback : ∀ f ∈ files, IsFree recordings files r now f →
      ∀ row, IsRowOf recordings now f row → row ∈ eventRows recordings files r now := by
    intro f hmem hfree row hrow
    rcases hrow with ⟨x, hx, hspeaks, rfl⟩ | ⟨hnone, rfl⟩
    · exact eventRow_mem_of_speaksFor hf hmem hfree hx hspeaks
    · exact eventRow_mem_of_orphan hf hmem hfree.1 hnone
  constructor
  · intro h
    have hsome : ∃ f ∈ files, IsFree recordings files r now f ∧ row.fileId = f.id := by
      rcases List.mem_append.1 (mem_of_mem_distinctBy EventRow.fileId h) with hrow | hrow
      · obtain ⟨x, -, f, hmem, -, hsettled, hkept, rfl⟩ := mem_recordingRows hrow
        exact ⟨f, hmem, ⟨hsettled, (notMem_retainedIds_iff hf hmem).1 hkept⟩, rfl⟩
      · obtain ⟨f, hmem, hsettled, hnone, rfl⟩ := (mem_orphanRows_iff hf).1 hrow
        exact ⟨f, hmem, ⟨hsettled, fun x hstays => hnone x hstays.mem⟩, rfl⟩
    obtain ⟨f, hmem, hfree, hid⟩ := hsome
    obtain ⟨row', hrow'⟩ := exists_isRowOf recordings now f
    -- no two rows are about one segment, so this is the row of `f`
    have hinj := List.inj_on_of_nodup_map
      (nodup_map_distinctBy EventRow.fileId
        (recordingRows recordings files r now ++ orphanRows recordings files now))
    obtain rfl : row = row' :=
      hinj h (hback f hmem hfree row' hrow') (hid.trans hrow'.fileId_eq.symm)
    exact ⟨f, hmem, hfree, hrow'⟩
  · rintro ⟨f, hmem, hfree, hrow⟩
    exact hback f hmem hfree row hrow

/-- Where ids tell recordings apart, the rows are those of the segments that depart. -/
theorem mem_eventRows_iff (hf : (files.map (·.id)).Nodup) (hr : (recordings.map (·.id)).Nodup)
    {row : EventRow} :
    row ∈ eventRows recordings files r now ↔
      ∃ f ∈ files, Departs recordings files r now f ∧ IsRowOf recordings now f row := by
  simp only [mem_eventRows_iff_isFree hf, departs_iff_isFree hr]

/-- Every row of the events axis is the row of a file of the population. -/
theorem exists_eventRow_of_mem {row : EventRow} (h : row ∈ eventRows recordings files r now) :
    ∃ f ∈ files, ∃ o, row = f.eventRow o := by
  rcases List.mem_append.1 (mem_of_mem_distinctBy EventRow.fileId h) with hrow | hrow
  · obtain ⟨x, -, f, hmem, -, -, -, rfl⟩ := mem_recordingRows hrow
    exact ⟨f, hmem, some x.id, rfl⟩
  · obtain ⟨f, hmem, rfl⟩ := List.mem_map.1 hrow
    exact ⟨f, List.mem_of_mem_filter hmem, none, rfl⟩

/-- The rows of the events axis, if everything can be represented. -/
theorem recordingsToMove_eq_ok_iff {rows : List EventRow} :
    recordingsToMove recordings files r now = .ok rows ↔
      eventOverflow? recordings files now = none ∧ eventRows recordings files r now = rows := by
  unfold recordingsToMove
  cases eventOverflow? recordings files now with
  | none => simp
  | some o => simp

/-- A segment of four bytes made so many seconds after the start of time. -/
def segmentMadeAt (id seconds : Int) : TierFile where
  id := id
  path := "/t/".toList ++ (toString id).toList
  tierPath := "/t".toList
  size := 4
  createdAt := seconds * second

/-- A recording from one second to another, counted from the start of time, or still in
progress. -/
def recordingOver (id start : Int) (finish : Option Int) : Recording where
  camera := "cam"
  startTime := start * second
  endTime := finish.map (· * second)
  id := id
  createdAt := start * second

end TieredFootage
