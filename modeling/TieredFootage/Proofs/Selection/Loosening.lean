import TieredFootage.Proofs.Selection.EventsRule
import TieredFootage.Proofs.Selection.Removal

/-!
# Looser retentions and later moments

A larger threshold is not always a looser one, since zero means that there is none:
`Loosens q p` says that each upper threshold of `q` is unset, or set and no smaller than
one that `p` sets as well, and that at least as many bytes have to stay. Least ages are
compared apart, because the two axes do not go by the same one.

What a looser retention selects, a stricter one selects at the same moment and at every
later one. A walk passes the same bytes in front of an item whatever the retention and the
moment (`passing`), so verdicts compare item by item. On the events axis fewer recordings
that stay keep fewer segments. The windows of recordings in progress open wider as time
goes by, but a segment that has settled was made before now: such a window has it at both
moments or at neither, and so the recording that speaks for it stays the same.
-/

namespace TieredFootage

variable {recordings : List Recording} {files : List TierFile} {p q : Retention} {now later : Int}

namespace Retention

/-- One retention is no stricter than another, least ages left aside. -/
structure Loosens (q p : Retention) : Prop where
  maxBytes : q.maxBytes = 0 ∨ p.maxBytes ≠ 0 ∧ p.maxBytes ≤ q.maxBytes
  maxAge : q.maxAge = 0 ∨ p.maxAge ≠ 0 ∧ p.maxAge ≤ q.maxAge
  minBytes : p.minBytes ≤ q.minBytes

theorem Loosens.refl (r : Retention) : r.Loosens r where
  maxBytes := by omega
  maxAge := by omega
  minBytes := Nat.le_refl _

/-- What a looser retention evicts, a stricter one evicts at that age and at every larger
one. -/
theorem Loosens.evicts (h : q.Loosens p) {grace grace' age age' newer size : Nat}
    (hgrace : grace' ≤ grace) (hage : age ≤ age') (he : q.evicts grace age newer size = true) :
    p.evicts grace' age' newer size = true := by
  rw [evicts_iff] at he ⊢
  obtain ⟨hleast, hwhy⟩ := he
  have hleast' : grace' * 1000000000 ≤ age' := calc
    grace' * 1000000000 ≤ grace * 1000000000 := Nat.mul_le_mul_right _ hgrace
    _ ≤ age := hleast
    _ ≤ age' := hage
  refine ⟨hleast', ?_⟩
  rcases hwhy with ⟨hset, hold⟩ | ⟨hset, hmuch, hfloor⟩
  · obtain ⟨hset', hle⟩ := h.maxAge.resolve_left hset
    refine Or.inl ⟨hset', ?_⟩
    calc p.maxAge * 1000000000
      _ ≤ q.maxAge * 1000000000 := Nat.mul_le_mul_right _ hle
      _ < age := hold
      _ ≤ age' := hage
  · obtain ⟨hset', hle⟩ := h.maxBytes.resolve_left hset
    exact Or.inr ⟨hset', Nat.lt_of_le_of_lt hle hmuch, Nat.le_trans h.minBytes hfloor⟩

section Walk

variable {α : Type} {bytes : α → Nat} {since : α → Int}

theorem Loosens.leaving_sublist (h : q.Loosens p) {grace grace' : Nat} (hgrace : grace' ≤ grace)
    (hnow : now ≤ later) (xs : List α) :
    (q.leaving grace now bytes since xs).Sublist (p.leaving grace' later bytes since xs) := by
  rw [leaving_eq_filter_passing, leaving_eq_filter_passing]
  exact (List.monotone_filter_right _ fun y hy => h.evicts hgrace (age_mono hnow) hy).map _

/-- What stays by a stricter retention stays by a looser one, and did before. -/
theorem Loosens.mem_judge_false (h : q.Loosens p) {grace grace' : Nat} (hgrace : grace' ≤ grace)
    (hnow : now ≤ later) {newer : Nat} {xs : List α} {x : α}
    (hx : (x, false) ∈ p.judge grace' later bytes since newer xs) :
    (x, false) ∈ q.judge grace now bytes since newer xs := by
  rw [judge_eq_map_passing, List.mem_map] at hx ⊢
  obtain ⟨⟨y, passed⟩, hy, heq⟩ := hx
  obtain ⟨rfl, hstays⟩ := Prod.mk.inj heq
  refine ⟨(y, passed), hy, Prod.ext rfl ?_⟩
  by_contra hleaves
  have hleaves' := h.evicts hgrace (age_mono hnow) (Bool.not_eq_false _ ▸ hleaves)
  rw [hstays] at hleaves'
  exact Bool.noConfusion hleaves'

end Walk

end Retention

open Retention (Loosens)

/-- The files that leave under a looser retention leave under a stricter one, then and
later, in the same order. -/
theorem filesToMove_sublist (h : q.Loosens p) (hgrace : p.grace ≤ q.grace) (hnow : now ≤ later) :
    (filesToMove files q now).Sublist (filesToMove files p later) :=
  h.leaving_sublist hgrace hnow _

section Moments

theorem TierFile.effective_le_of_isSettled {f : TierFile} (h : f.isSettled now = true) :
    f.effective ≤ now := by
  by_contra hfuture
  have hage : age now f.effective = 0 := age_eq_zero_of_le (Int.le_of_lt (Int.not_le.1 hfuture))
  have hsettled : settlingTime * 1000000000 < age now f.effective := of_decide_eq_true h
  rw [hage] at hsettled
  exact absurd hsettled (Nat.not_lt_zero _)

theorem TierFile.isSettled_mono {f : TierFile} (hnow : now ≤ later)
    (h : f.isSettled now = true) : f.isSettled later = true := by
  have hsettled : settlingTime * 1000000000 < age now f.effective := of_decide_eq_true h
  exact decide_eq_true (Nat.lt_of_lt_of_le hsettled (age_mono hnow))

/-- Time opens the window of a recording in progress wider, but not for a segment that has
settled. -/
theorem Recording.covers_of_isSettled (x : Recording) {f : TierFile} (hnow : now ≤ later)
    (hsettled : f.isSettled now = true) : x.covers later f = x.covers now f := by
  have hmade := TierFile.effective_le_of_isSettled hsettled
  unfold covers closesAt
  cases x.endTime with
  | some e => rfl
  | none =>
    simp only [Option.getD_none, decide_eq_true hmade, decide_eq_true (Int.le_trans hmade hnow)]

/-- The window of a closed recording does not change. -/
theorem Recording.linkedBytes_of_isClosed {x : Recording} (h : x.isClosed = true)
    (now later : Int) : x.linkedBytes later files = x.linkedBytes now files := by
  have hcloses : x.closesAt later = x.closesAt now := by
    unfold closesAt
    cases hend : x.endTime with
    | some e => rfl
    | none => simp [isClosed, hend] at h
  have hcovers : x.covers later = x.covers now := by
    funext f
    rw [covers, covers, hcloses]
  rw [linkedBytes, linkedBytes, linked, linked, hcovers]

/-- Whether anything cannot be represented does not depend on the moment: open windows end
at now, but bytes are added up for closed ones only. -/
theorem eventOverflow?_eq (now later : Int) :
    eventOverflow? recordings files later = eventOverflow? recordings files now := by
  have hrecording : ∀ x : Recording, x.overflow? later files = x.overflow? now files := by
    intro x
    unfold Recording.overflow?
    cases hclosed : x.isClosed with
    | true => rw [Recording.linkedBytes_of_isClosed hclosed now later]
    | false => rfl
  simp only [eventOverflow?, hrecording]

theorem judgedRecordings_eq_judge (r : Retention) (now later : Int) :
    judgedRecordings recordings files r later =
      r.judge r.minAge later (fun x => x.linkedBytes now files) (fun x => x.startTime) 0
        (newestFirst Recording.rank (recordings.filter Recording.isClosed)) := by
  refine Retention.judge_congr fun x hx => Recording.linkedBytes_of_isClosed ?_ now later
  exact (List.mem_filter.1 ((mem_newestFirst Recording.rank).1 hx)).2

end Moments

section Events

variable (h : q.Loosens p) (hleast : p.minAge ≤ q.minAge) (hnow : now ≤ later)

include h hleast hnow

/-- A recording that stays under a stricter retention stays under a looser one, and did
before. -/
theorem Stays.of_loosens {x : Recording} (hx : Stays recordings files p later x) :
    Stays recordings files q now x := by
  refine hx.imp_right fun hfalse => ?_
  rw [judgedRecordings_eq_judge p now later] at hfalse
  exact h.mem_judge_false hleast hnow hfalse

/-- A segment that no recording keeps under a looser retention is kept by none under a
stricter one, then and later. -/
theorem IsFree.of_loosens {f : TierFile} (hfree : IsFree recordings files q now f) :
    IsFree recordings files p later f := by
  refine ⟨TierFile.isSettled_mono hnow hfree.1, fun x hx => ?_⟩
  -- the window is read back at the earlier moment, where `x` stayed as well
  rw [x.covers_of_isSettled hnow hfree.1]
  exact hfree.2 x (hx.of_loosens h hleast hnow)

omit h hleast in
theorem IsRowOf.of_le {f : TierFile} {row : EventRow} (hsettled : f.isSettled now = true)
    (hrow : IsRowOf recordings now f row) : IsRowOf recordings later f row := by
  have hcovers : ∀ x : Recording, x.covers later f = x.covers now f := fun x =>
    x.covers_of_isSettled hnow hsettled
  simpa only [IsRowOf, SpeaksFor, hcovers] using hrow

theorem eventRows_subset (hf : (files.map (·.id)).Nodup) :
    eventRows recordings files q now ⊆ eventRows recordings files p later := by
  intro row hrow
  rw [mem_eventRows_iff_isFree hf] at hrow ⊢
  obtain ⟨f, hmem, hfree, hrowOf⟩ := hrow
  exact ⟨f, hmem, hfree.of_loosens h hleast hnow, hrowOf.of_le hnow hfree.1⟩

/-- Rows under a looser retention are rows under a stricter one, then and later. -/
theorem exists_recordingsToMove_of_loosens (hf : (files.map (·.id)).Nodup)
    {rows : List EventRow} (hrows : recordingsToMove recordings files q now = .ok rows) :
    ∃ rows', recordingsToMove recordings files p later = .ok rows' ∧ rows ⊆ rows' := by
  obtain ⟨hfits, rfl⟩ := recordingsToMove_eq_ok_iff.1 hrows
  refine ⟨eventRows recordings files p later, recordingsToMove_eq_ok_iff.2 ⟨?_, rfl⟩,
    eventRows_subset h hleast hnow hf⟩
  rw [eventOverflow?_eq now later, hfits]

end Events

namespace Axes

variable {x : Axes}

theorem exists_leavingIds_of_select {s : SegmentSelection}
    (h : x.select recordings files now = .ok s) :
    ∃ ids, x.leavingIds recordings files now = .ok ids := by
  unfold select at h
  unfold leavingIds
  cases hrows : x.rows recordings files now with
  | error o =>
    rw [hrows] at h
    cases h
  | ok rows => exact ⟨_, rfl⟩

/-- The paths that two axes select together are selected later as well. -/
theorem exists_select_later (hf : (files.map (·.id)).Nodup) (hnow : now ≤ later)
    {s : SegmentSelection} (h : x.select recordings files now = .ok s) :
    ∃ s', x.select recordings files later = .ok s' ∧ s.files.map (·.1) ⊆ s'.files.map (·.1) := by
  obtain ⟨ids, hids⟩ := exists_leavingIds_of_select h
  have hlater : ∃ ids', x.leavingIds recordings files later = .ok ids' :=
    exists_leavingIds_iff.2 fun hevents =>
      (eventOverflow?_eq now later).trans (exists_leavingIds_iff.1 ⟨ids, hids⟩ hevents)
  obtain ⟨ids', hids'⟩ := hlater
  have hsub : ids ⊆ ids' := by
    intro i hi
    rw [mem_leavingIds_iff hids] at hi
    rw [mem_leavingIds_iff hids']
    obtain ⟨hsome, hplain, hevents⟩ := hi
    refine ⟨hsome, fun r hr => ?_, fun r hr => ?_⟩
    · exact List.map_subset _ (filesToMove_sublist (Loosens.refl r) (Nat.le_refl _) hnow).subset
        (hplain r hr)
    · exact List.map_subset _ (eventRows_subset (Loosens.refl r) (Nat.le_refl _) hnow hf)
        (hevents r hr)
  obtain ⟨s₁, hs₁, hpaths⟩ := exists_select hf hids
  obtain ⟨s', hs', hpaths'⟩ := exists_select hf hids'
  obtain rfl : s₁ = s := Except.ok.inj (hs₁.symm.trans h)
  refine ⟨s', hs', fun path hpath => ?_⟩
  obtain ⟨f, hmem, hid, heq⟩ := (hpaths path).1 hpath
  exact (hpaths' path).2 ⟨f, hmem, hsub hid, heq⟩

end Axes

/-- What is selected at one moment is selected at every later one, by the plain axis, by
the events axis with the same recording for every segment, and by both together. -/
theorem selected_later (hf : (files.map (·.id)).Nodup) (hnow : now ≤ later) :
    (∀ r, (filesToMove files r now).Sublist (filesToMove files r later)) ∧
      (∀ r rows, recordingsToMove recordings files r now = .ok rows →
        ∃ rows', recordingsToMove recordings files r later = .ok rows' ∧ rows ⊆ rows') ∧
      ∀ (x : Axes) (s : SegmentSelection), x.select recordings files now = .ok s →
        ∃ s', x.select recordings files later = .ok s' ∧
          s.files.map (·.1) ⊆ s'.files.map (·.1) := by
  refine ⟨fun r => ?_, fun r rows hrows => ?_, fun x s hs => Axes.exists_select_later hf hnow hs⟩
  · exact filesToMove_sublist (Loosens.refl r) (Nat.le_refl _) hnow
  · exact exists_recordingsToMove_of_loosens (Loosens.refl r) (Nat.le_refl _) hnow hf hrows

/-- While the newer of two recordings is not an hour old yet, the older one leaves without
the segment that they share. Eight minutes later its segments are selected still, and the
shared one with the newer recording. -/
theorem selected_later_overlapping :
    (overlappingSegments.map (·.id)).Nodup ∧ 4620 * second ≤ 5100 * second ∧
      ∃ rows', recordingsToMove overlappingRecordings overlappingSegments { maxAge := 3600 }
          (5100 * second) = .ok rows' ∧
        [(segmentMadeAt 1 1010).eventRow (some 1), (segmentMadeAt 5 1020).eventRow (some 1),
          (segmentMadeAt 4 500).eventRow none] ⊆ rows' ∧
        (segmentMadeAt 2 1060).eventRow (some 2) ∈ rows' := by
  have hf : (overlappingSegments.map (·.id)).Nodup := by decide
  have hnow : 4620 * second ≤ 5100 * second := by decide
  have hrows : recordingsToMove overlappingRecordings overlappingSegments { maxAge := 3600 }
      (4620 * second) = .ok [(segmentMadeAt 1 1010).eventRow (some 1),
        (segmentMadeAt 5 1020).eventRow (some 1), (segmentMadeAt 4 500).eventRow none] := by
    decide
  obtain ⟨rows', hrows', hsub⟩ := (selected_later hf hnow).2.1 _ _ hrows
  refine ⟨hf, hnow, rows', hrows', hsub, ?_⟩
  obtain rfl := Except.ok.inj hrows'
  decide

/-- A looser retention selects no file and no row that a stricter one does not select, and
cannot be evaluated exactly if the stricter one cannot. -/
theorem looser_selects_less (hf : (files.map (·.id)).Nodup) (h : q.Loosens p) :
    (p.grace ≤ q.grace → (filesToMove files q now).Sublist (filesToMove files p now)) ∧
      (p.minAge ≤ q.minAge → ∀ rows, recordingsToMove recordings files q now = .ok rows →
        ∃ rows', recordingsToMove recordings files p now = .ok rows' ∧ rows ⊆ rows') ∧
      ∀ o, recordingsToMove recordings files q now = .error o ↔
        recordingsToMove recordings files p now = .error o := by
  refine ⟨fun hgrace => filesToMove_sublist h hgrace (Int.le_refl now), fun hleast rows hrows =>
    exists_recordingsToMove_of_loosens h hleast (Int.le_refl now) hf hrows, fun o => ?_⟩
  unfold recordingsToMove
  cases eventOverflow? recordings files now with
  | none => simp
  | some o' => rfl

/-- Half the room, half the floor and a largest age select what the looser retention
selects, with the same recordings, and one segment more. -/
theorem looser_selects_less_overlapping :
    (overlappingSegments.map (·.id)).Nodup ∧
      Loosens { maxBytes := 16, minBytes := 8, minAge := 10 }
        { maxBytes := 8, minBytes := 4, maxAge := 3600 } ∧
      ∃ rows', recordingsToMove overlappingRecordings overlappingSegments
          { maxBytes := 8, minBytes := 4, maxAge := 3600 } (10000 * second) = .ok rows' ∧
        [(segmentMadeAt 1 1010).eventRow (some 1), (segmentMadeAt 5 1020).eventRow (some 1),
          (segmentMadeAt 4 500).eventRow none] ⊆ rows' ∧
        (segmentMadeAt 2 1060).eventRow (some 2) ∈ rows' := by
  have hf : (overlappingSegments.map (·.id)).Nodup := by decide
  have hlooser : Loosens { maxBytes := 16, minBytes := 8, minAge := 10 }
      { maxBytes := 8, minBytes := 4, maxAge := 3600 } := ⟨by decide, by decide, by decide⟩
  have hrows : recordingsToMove overlappingRecordings overlappingSegments
      { maxBytes := 16, minBytes := 8, minAge := 10 } (10000 * second) =
        .ok [(segmentMadeAt 1 1010).eventRow (some 1),
          (segmentMadeAt 5 1020).eventRow (some 1), (segmentMadeAt 4 500).eventRow none] := by
    decide
  obtain ⟨rows', hrows', hsub⟩ := (looser_selects_less hf hlooser).2.1 (by decide) _ hrows
  refine ⟨hf, hlooser, rows', hrows', hsub, ?_⟩
  obtain rfl := Except.ok.inj hrows'
  decide

end TieredFootage
