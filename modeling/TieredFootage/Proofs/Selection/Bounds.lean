import Mathlib.Data.List.Basic
import TieredFootage.Proofs.Selection.Attribution
import TieredFootage.Selection.Bounded

/-!
# Where the selections have no result

In bounded numbers a selection can come to nothing: a sum, a span or a moment on the way
has no room. On the plain axis this never happens to files of the calendar, since every
sum there is cut and two moments are never too far apart for a span.

On the events axis it happens in three ways only. The window of a recording can reach too
far back, for a span or for the calendar, and this ends the selection even if the recording
is in progress and no file is near. And the files linked to a closed recording can have
more bytes than an amount can hold. In all other cases the bounded selection is the
unbounded one.
-/

namespace TieredFootage

namespace Bounded

section Lists

variable {α β : Type} {xs : List α}

theorem mapM_eq_some_map {f : α → Option β} {g : α → β} (h : ∀ x ∈ xs, f x = some (g x)) :
    xs.mapM f = some (xs.map g) := by
  induction xs with
  | nil => rfl
  | cons x xs ih =>
    rw [List.mapM_cons, h x List.mem_cons_self, ih fun y hy => h y (List.mem_cons_of_mem x hy)]
    rfl

theorem mapM_eq_none {f : α → Option β} (h : ∃ x ∈ xs, f x = none) : xs.mapM f = none := by
  induction xs with
  | nil => simp at h
  | cons x xs ih =>
    rw [List.mapM_cons]
    cases hx : f x with
    | none => rfl
    | some y =>
      obtain ⟨z, hz, hnone⟩ := h
      rcases List.mem_cons.1 hz with rfl | hz
      · rw [hx] at hnone
        cases hnone
      · rw [ih ⟨z, hz, hnone⟩]
        rfl

theorem toOption_eq_none_iff {ε : Type} {result : Except ε α} :
    result.toOption = none ↔ ¬ result.isOk = true := by
  cases result <;> simp [Except.toOption, Except.isOk, Except.toBool]

end Lists

section Numbers

variable {now since : Int}

/-- A chain of checked sums is the sum, checked once. -/
theorem foldlM_amount? (ns : List Nat) {n : Nat} (hn : n ≤ maxAmount) :
    ns.foldlM (fun n m => amount? (n + m)) n = amount? (n + total ns) := by
  induction ns generalizing n with
  | nil => simp [amount?, hn]
  | cons m ns ih =>
    rw [List.foldlM_cons, total_cons, ← Nat.add_assoc]
    by_cases hm : n + m ≤ maxAmount
    · rw [amount?, if_pos hm]
      exact ih hm
    · have hover : ¬ n + m + total ns ≤ maxAmount := fun h => hm (Nat.le_of_add_right_le h)
      rw [amount?, if_neg hm, amount?, if_neg hover]
      rfl

theorem sum?_eq (ns : List Nat) : sum? ns = amount? (total ns) := by
  rw [sum?, foldlM_amount? ns (Nat.zero_le _), Nat.zero_add]

/-- Two moments of the calendar are never too far apart. -/
theorem age?_eq (hnow : OnCalendar now) (hsince : OnCalendar since) :
    age? now since = some (age now since) := by
  have hspan : -spanEnd ≤ now - since ∧ now - since ≤ spanEnd := by
    simp only [OnCalendar, earliest_eq, latest_eq, spanEnd, signedEnd, second, millisecond] at *
    omega
  rw [age?, span?, if_pos hspan]
  rfl

end Numbers

section Windows

variable {x : Recording} {files : List TierFile} {now : Int}

/-- The window of a recording has room: its lead is a span, and it opens on the calendar. -/
def HasWindow (x : Recording) : Prop := x.lead * second ≤ spanEnd ∧ earliest ≤ x.opensAt

instance (x : Recording) : Decidable (HasWindow x) := inferInstanceAs (Decidable (_ ∧ _))

/-- If the lead is a span, so are the two spans that it is made of. -/
theorem lead?_eq (x : Recording) :
    lead? x = if x.lead * second ≤ spanEnd then some (x.lead * second) else none := by
  have hlookback : 0 ≤ max x.lookback 0 * second :=
    Int.mul_nonneg (Int.le_max_right _ _) (by decide)
  have hsegment : (0 : Int) < segmentLength * second := by decide
  have hlead : x.lead * second = max x.lookback 0 * second + segmentLength * second :=
    Int.add_mul _ _ _
  have hlow : -spanEnd ≤ 0 := by decide
  have hshort : span? (segmentLength * second) = some (segmentLength * second) := by decide
  rw [lead?, hshort, hlead]
  by_cases hfits : max x.lookback 0 * second + segmentLength * second ≤ spanEnd
  · have hlong : span? (max x.lookback 0 * second) = some (max x.lookback 0 * second) :=
      if_pos (by omega)
    rw [if_pos hfits, hlong]
    exact if_pos (by omega)
  · rw [if_neg hfits]
    cases hlong : span? (max x.lookback 0 * second) with
    | none => rfl
    | some z =>
      obtain rfl : max x.lookback 0 * second = z := by
        rw [span?] at hlong
        split at hlong
        · exact Option.some.inj hlong
        · cases hlong
      exact if_neg (by omega)

theorem window?_eq (hx : OnCalendar x.startTime) (now : Int) :
    window? x now = if HasWindow x then some (x.opensAt, x.closesAt now) else none := by
  have hback : x.opensAt ≤ x.startTime := by
    refine Int.sub_le_self _ (Int.mul_nonneg ?_ (by decide))
    unfold Recording.lead segmentLength
    omega
  have hon : OnCalendar x.opensAt ↔ earliest ≤ x.opensAt :=
    and_iff_left (Int.le_trans hback hx.2)
  rw [window?, lead?_eq]
  by_cases hfits : x.lead * second ≤ spanEnd
  · have hmoment : moment? (x.startTime - x.lead * second) =
        if earliest ≤ x.opensAt then some x.opensAt else none := by
      rw [← if_congr hon rfl rfl]
      rfl
    rw [if_pos hfits]
    simp only [HasWindow, hfits, true_and, Option.bind_eq_bind, Option.bind_some, hmoment]
    split <;> rfl
  · rw [if_neg hfits, if_neg fun h : HasWindow x => hfits h.1]
    rfl

theorem linked?_eq (hx : OnCalendar x.startTime) (now : Int) (files : List TierFile) :
    linked? now files x = if HasWindow x then some (x.linked now files) else none := by
  rw [linked?, window?_eq hx]
  split <;> rfl

theorem settled?_eq (hnow : OnCalendar now) (hfiles : ∀ f ∈ files, OnCalendar f.effective) :
    settled? now files = some (files.filter fun f => f.isSettled now) := by
  have hmarked : ∀ f ∈ files,
      ((age? now f.effective).map fun a => (f, decide (settlingTime * 1000000000 < a))) =
        some (f, f.isSettled now) := by
    intro f hf
    rw [age?_eq hnow (hfiles f hf)]
    rfl
  rw [settled?, mapM_eq_some_map hmarked]
  simp [List.filter_map, Function.comp_def]

/-- There is nothing that cannot be represented about a recording exactly if its window has
room and, once it is closed, the bytes linked to it do not pass the largest amount. -/
theorem overflow?_eq_none_iff : x.overflow? now files = none ↔
    HasWindow x ∧ (x.isClosed = true → x.linkedBytes now files ≤ maxAmount) := by
  have hspan : x.lead * second ≤ spanEnd ↔ ¬ longestSpan < x.lead := by
    simp only [spanEnd, longestSpan, signedEnd, second, millisecond]
    omega
  rw [Recording.overflow?, HasWindow, hspan, ← Int.not_lt]
  split_ifs with hlong hearly hmany
  · simp [hlong]
  · simp [hearly]
  · rw [Bool.and_eq_true, decide_eq_true_eq] at hmany
    simp [hmany.1, hmany.2]
  · rw [Bool.and_eq_true, decide_eq_true_eq, not_and, Nat.not_lt] at hmany
    simpa [hlong, hearly] using hmany

/-- What cannot be represented about a recording. -/
theorem overflow?_ne_none_iff : x.overflow? now files ≠ none ↔
    spanEnd < max x.lookback 0 * second ∨
    spanEnd < (max x.lookback 0 + segmentLength) * second ∨
    x.startTime - (max x.lookback 0 + segmentLength) * second < earliest ∨
    x.isClosed = true ∧ maxAmount < total ((x.linked now files).map TierFile.bytes) := by
  -- A lookback that is no span makes no lead either.
  have hlead : spanEnd < max x.lookback 0 * second →
      spanEnd < (max x.lookback 0 + segmentLength) * second := by
    have hlonger : (0 : Int) < segmentLength * second := by decide
    rw [Int.add_mul]
    omega
  rw [Ne, overflow?_eq_none_iff, not_and_or, HasWindow, not_and_or, Int.not_le, Int.not_le,
    Classical.not_imp, Nat.not_le, or_assoc]
  exact ⟨Or.inr, fun h => h.elim (fun h => Or.inl (hlead h)) id⟩

end Windows

section Places

variable {α : Type} (r : Retention) (grace : Nat) {now : Int} {bytes? : α → Option Nat}
  {bytes : α → Nat} {since : α → Int} {xs : List α}

/-- The places, counted from `place`, of the items that leave by some verdicts. -/
def placesOf (place : Nat) (verdicts : List (α × Bool)) : List Nat :=
  ((verdicts.zipIdx place).filter fun x => x.1.2).map (·.2)

theorem places?_eq_some (hnow : OnCalendar now) (hsince : ∀ x ∈ xs, OnCalendar (since x))
    (hbytes : ∀ x ∈ xs, bytes? x = some (bytes x)) (place newer : Nat) :
    places? r grace now bytes? since place newer xs =
      some (placesOf place (r.judge grace now bytes since newer xs)) := by
  induction xs generalizing place newer with
  | nil => rfl
  | cons x xs ih =>
    have hrest := ih (fun y hy => hsince y (List.mem_cons_of_mem x hy))
      (fun y hy => hbytes y (List.mem_cons_of_mem x hy)) (place + 1) (capped (newer + bytes x))
    rw [places?, hbytes x List.mem_cons_self, age?_eq hnow (hsince x List.mem_cons_self)]
    simp only [Option.bind_eq_bind, Option.bind_some, hrest, Retention.judge_cons, placesOf,
      List.zipIdx_cons]
    cases r.evicts grace (age now (since x)) newer (bytes x) <;> rfl

theorem places?_eq_none (hnow : OnCalendar now) (hsince : ∀ x ∈ xs, OnCalendar (since x))
    (hbytes : ∃ x ∈ xs, bytes? x = none) (place newer : Nat) :
    places? r grace now bytes? since place newer xs = none := by
  induction xs generalizing place newer with
  | nil => simp at hbytes
  | cons x xs ih =>
    rw [places?, age?_eq hnow (hsince x List.mem_cons_self)]
    cases hx : bytes? x with
    | none => rfl
    | some size =>
      have hrest : ∃ y ∈ xs, bytes? y = none := by
        obtain ⟨y, hy, hnone⟩ := hbytes
        rcases List.mem_cons.1 hy with rfl | hy
        · rw [hx] at hnone
          cases hnone
        · exact ⟨y, hy, hnone⟩
      simp only [Option.bind_eq_bind, Option.bind_some,
        ih (fun y hy => hsince y (List.mem_cons_of_mem x hy)) hrest, Option.bind_none]

/-- A place tells whether the item there leaves. -/
theorem mem_placesOf_iff {verdicts : List (α × Bool)} {x : (α × Bool) × Nat}
    (hx : x ∈ verdicts.zipIdx) : x.2 ∈ placesOf 0 verdicts ↔ x.1.2 = true := by
  have hplace : ∀ {y : (α × Bool) × Nat}, y ∈ verdicts.zipIdx → verdicts[y.2]? = some y.1 :=
    fun hy => List.mk_mem_zipIdx_iff_getElem?.1 hy
  rw [placesOf, List.mem_map]
  constructor
  · rintro ⟨y, hy, heq⟩
    obtain ⟨hy, hleaves⟩ := List.mem_filter.1 hy
    have hsame : y.1 = x.1 :=
      Option.some.inj ((hplace hy).symm.trans (heq ▸ hplace hx))
    rwa [hsame] at hleaves
  · intro hleaves
    exact ⟨x, List.mem_filter.2 ⟨hx, hleaves⟩, rfl⟩

/-- Items told by their places are told by their verdicts. -/
theorem map_filter_zipIdx (b : Bool → Bool) (verdicts : List (α × Bool)) :
    ((verdicts.map (·.1)).zipIdx.filter fun x =>
        b (decide (x.2 ∈ placesOf 0 verdicts))).map (·.1) =
      (verdicts.filter fun v => b v.2).map (·.1) := by
  have hfilter : (verdicts.zipIdx.filter fun x => b (decide (x.2 ∈ placesOf 0 verdicts))) =
      verdicts.zipIdx.filter fun x => b x.1.2 := by
    refine List.filter_congr fun x hx => ?_
    rw [Bool.eq_iff_iff.2 (decide_eq_true_iff.trans (mem_placesOf_iff hx))]
  calc ((verdicts.map (·.1)).zipIdx.filter fun x =>
        b (decide (x.2 ∈ placesOf 0 verdicts))).map (·.1)
    _ = (verdicts.zipIdx.filter fun x => b (decide (x.2 ∈ placesOf 0 verdicts))).map
          (·.1.1) := by
        rw [List.zipIdx_map, List.filter_map, List.map_map]
        rfl
    _ = (verdicts.zipIdx.filter fun x => b x.1.2).map (·.1.1) := by rw [hfilter]
    _ = (((verdicts.zipIdx.map (·.1)).filter fun v => b v.2).map (·.1)) := by
        rw [List.filter_map, List.map_map]
        rfl
    _ = (verdicts.filter fun v => b v.2).map (·.1) := by rw [List.zipIdx_map_fst]

theorem itemsAt_placesOf (verdicts : List (α × Bool)) :
    itemsAt (placesOf 0 verdicts) (verdicts.map (·.1)) =
      (verdicts.filter fun v => v.2).map (·.1) :=
  map_filter_zipIdx id verdicts

theorem itemsOff_placesOf (verdicts : List (α × Bool)) :
    itemsOff (placesOf 0 verdicts) (verdicts.map (·.1)) =
      (verdicts.filter fun v => !v.2).map (·.1) := by
  rw [← map_filter_zipIdx Bool.not verdicts, itemsOff]
  simp only [decide_not]

/-- No place of an item that leaves is past the end. -/
theorem mapM_placesOf (verdicts : List (α × Bool)) :
    (placesOf 0 verdicts).mapM (fun i => (verdicts.map (·.1))[i]?) =
      some ((verdicts.filter fun v => v.2).map (·.1)) := by
  have hitem : ∀ x ∈ verdicts.zipIdx.filter fun x => x.1.2,
      (verdicts.map (·.1))[x.2]? = some x.1.1 := by
    intro x hx
    have hplace : verdicts[x.2]? = some x.1 :=
      List.mk_mem_zipIdx_iff_getElem?.1 (List.mem_of_mem_filter hx)
    rw [List.getElem?_map, hplace, Option.map_some]
  rw [placesOf, List.mapM_map, mapM_eq_some_map (f := _ ∘ _) hitem]
  conv_rhs => rw [← List.zipIdx_map_fst 0 verdicts, List.filter_map, List.map_map]
  rfl

end Places

section Mapped

variable {α β : Type}

theorem newestFirst_map (rank : β → Rank) (g : α → β) (xs : List α) :
    newestFirst rank (xs.map g) = (newestFirst (fun x => rank (g x)) xs).map g := by
  have hinsert : ∀ (x : α) (ys : List α), insertNewest rank (g x) (ys.map g) =
      (insertNewest (fun x => rank (g x)) x ys).map g := by
    intro x ys
    induction ys with
    | nil => rfl
    | cons y ys ih =>
      rw [List.map_cons, insertNewest, insertNewest, ih]
      split <;> rfl
  induction xs with
  | nil => rfl
  | cons x xs ih => rw [List.map_cons, newestFirst_cons, newestFirst_cons, ih, hinsert]

theorem judge_map (r : Retention) (grace : Nat) (now : Int) (bytes : β → Nat) (since : β → Int)
    (g : α → β) (newer : Nat) (xs : List α) :
    r.judge grace now bytes since newer (xs.map g) =
      (r.judge grace now (fun x => bytes (g x)) (fun x => since (g x)) newer xs).map
        (Prod.map g id) := by
  induction xs generalizing newer with
  | nil => rfl
  | cons x xs ih =>
    rw [List.map_cons, Retention.judge_cons, Retention.judge_cons, List.map_cons, ih,
      Prod.map_apply, id_eq]

end Mapped

section Selections

variable {recordings : List Recording} {files : List TierFile} {r : Retention} {now : Int}

theorem filesToMove?_eq (hnow : OnCalendar now) (hfiles : ∀ f ∈ files, OnCalendar f.effective) :
    filesToMove? files r now = some (filesToMove files r now) := by
  have hordered : ∀ f ∈ newestFirst TierFile.rank files, OnCalendar f.effective :=
    fun f hf => hfiles f ((mem_newestFirst TierFile.rank).1 hf)
  have hjudged := Retention.map_fst_judge r r.grace now TierFile.bytes TierFile.effective 0
    (newestFirst TierFile.rank files)
  have htaken := mapM_placesOf (r.judge r.grace now TierFile.bytes TierFile.effective 0
    (newestFirst TierFile.rank files))
  rw [hjudged] at htaken
  rw [filesToMove?]
  simp only [places?_eq_some r r.grace hnow hordered fun _ _ => rfl, Option.bind_eq_bind,
    Option.bind_some]
  exact htaken

/-- The closed recordings, each with the files linked to it and the verdict on it. -/
def judgedLinked (recordings : List Recording) (files : List TierFile) (r : Retention)
    (now : Int) : List ((Recording × List TierFile) × Bool) :=
  (judgedRecordings recordings files r now).map fun v => ((v.1, v.1.linked now files), v.2)

/-- The closed recordings with their files are sorted as they are without. -/
theorem closed_eq (recordings : List Recording) (files : List TierFile) (r : Retention)
    (now : Int) :
    newestFirst (fun x => x.1.rank)
        ((recordings.map fun x => (x, x.linked now files)).filter fun x => x.1.isClosed) =
      (judgedLinked recordings files r now).map (·.1) := by
  calc newestFirst (fun x => x.1.rank)
        ((recordings.map fun x => (x, x.linked now files)).filter fun x => x.1.isClosed)
    _ = (newestFirst Recording.rank (recordings.filter Recording.isClosed)).map
          fun x => (x, x.linked now files) := by
        rw [List.filter_map, newestFirst_map]
        rfl
    _ = ((judgedRecordings recordings files r now).map (·.1)).map
          fun x => (x, x.linked now files) := by rw [map_fst_judgedRecordings]
    _ = (judgedLinked recordings files r now).map (·.1) := by
        rw [judgedLinked, List.map_map, List.map_map]
        rfl

/-- and so they are judged. -/
theorem judge_closed (recordings : List Recording) (files : List TierFile) (r : Retention)
    (now : Int) :
    r.judge r.minAge now (fun x => total (x.2.map TierFile.bytes)) (fun x => x.1.startTime) 0
        ((judgedLinked recordings files r now).map (·.1)) =
      judgedLinked recordings files r now := by
  rw [← closed_eq, List.filter_map, newestFirst_map, judge_map]
  rfl

theorem mem_recordings_of_mem_judgedLinked {v : (Recording × List TierFile) × Bool}
    (h : v ∈ judgedLinked recordings files r now) :
    v.1.1 ∈ recordings ∧ v.1.1.isClosed = true ∧ v.1.2 = v.1.1.linked now files := by
  obtain ⟨⟨x, b⟩, hx, rfl⟩ := List.mem_map.1 h
  obtain ⟨hmem, hclosed⟩ := exists_mem_judgedRecordings_iff.1 ⟨b, hx⟩
  exact ⟨hmem, hclosed, rfl⟩

/-- The ids that stay are those of the files linked to what stays. -/
theorem keptIds_eq (recordings : List Recording) (files : List TierFile) (r : Retention)
    (now : Int) :
    ((recordings.filter fun x => !x.isClosed).map (·.linked now files) ++
        (((judgedLinked recordings files r now).filter fun v => !v.2).map (·.1)).map
          (·.2)).flatMap (fun fs => fs.map (·.id)) =
      retainedIds recordings files r now := by
  simp only [retainedIds, judgedLinked, List.filter_map, List.map_map, List.flatMap_append,
    List.flatMap_map]
  rfl

theorem linkedIds_eq (recordings : List Recording) (files : List TierFile) (now : Int) :
    (recordings.map fun x => (x, x.linked now files)).flatMap (fun x => x.2.map (·.id)) =
      recordings.flatMap fun x => (x.linked now files).map (·.id) :=
  List.flatMap_map ..

theorem filter_settled (files : List TierFile) (now : Int) (ids : List Int) :
    (files.filter fun f => f.isSettled now).filter (fun f => decide (f.id ∉ ids)) =
      files.filter fun f => f.isSettled now && decide (f.id ∉ ids) := by
  rw [List.filter_filter]
  simp only [Bool.and_comm]

/-- The rows of the recordings that leave. -/
theorem mapM_rows (hnow : OnCalendar now) (hfiles : ∀ f ∈ files, OnCalendar f.effective)
    (recordings : List Recording) (r : Retention) :
    ∃ rows, (((judgedLinked recordings files r now).filter fun v => v.2).map (·.1)).mapM
        (fun x => (settled? now x.2).map fun settled =>
          (settled.filter fun f => decide (f.id ∉ retainedIds recordings files r now)).map
            (·.eventRow (some x.1.id))) = some rows ∧
      rows.flatten = recordingRows recordings files r now := by
  refine ⟨_, mapM_eq_some_map (g := fun x =>
    (x.2.filter fun f => f.isSettled now &&
      decide (f.id ∉ retainedIds recordings files r now)).map (·.eventRow (some x.1.id))) ?_, ?_⟩
  · intro x hx
    obtain ⟨v, hv, rfl⟩ := List.mem_map.1 hx
    obtain ⟨-, -, hlinked⟩ := mem_recordings_of_mem_judgedLinked (List.mem_of_mem_filter hv)
    have hon : ∀ f ∈ v.1.2, OnCalendar f.effective :=
      fun f hf => hfiles f (Recording.mem_linked.1 (hlinked ▸ hf)).1
    rw [settled?_eq hnow hon, Option.map_some, filter_settled]
  · simp only [recordingRows, judgedLinked, List.filter_map, List.map_map, List.flatMap_def]
    rfl

theorem mapM_linked (hrecordings : ∀ x ∈ recordings, OnCalendar x.startTime)
    (hwindows : ∀ x ∈ recordings, HasWindow x) (now : Int) (files : List TierFile) :
    recordings.mapM (fun x => (linked? now files x).map (x, ·)) =
      some (recordings.map fun x => (x, x.linked now files)) := by
  refine mapM_eq_some_map fun x hx => ?_
  rw [linked?_eq (hrecordings x hx), if_pos (hwindows x hx), Option.map_some]

theorem onCalendar_of_mem_judgedLinked (hrecordings : ∀ x ∈ recordings, OnCalendar x.startTime) :
    ∀ y ∈ (judgedLinked recordings files r now).map (·.1), OnCalendar y.1.startTime := by
  intro y hy
  obtain ⟨v, hv, rfl⟩ := List.mem_map.1 hy
  exact hrecordings _ (mem_recordings_of_mem_judgedLinked hv).1

/-- Where all windows have room and no sum passes the largest amount, the bounded selection
is the unbounded one. -/
theorem recordingsToMove?_eq_some (hnow : OnCalendar now)
    (hfiles : ∀ f ∈ files, OnCalendar f.effective)
    (hrecordings : ∀ x ∈ recordings, OnCalendar x.startTime)
    (hwindows : ∀ x ∈ recordings, HasWindow x)
    (hbytes : ∀ x ∈ recordings, x.isClosed = true → x.linkedBytes now files ≤ maxAmount) :
    recordingsToMove? recordings files r now = some (eventRows recordings files r now) := by
  have hopen : (recordings.filter fun x => !x.isClosed).mapM (linked? now files) =
      some ((recordings.filter fun x => !x.isClosed).map (·.linked now files)) := by
    refine mapM_eq_some_map fun x hx => ?_
    have hmem := List.mem_of_mem_filter hx
    rw [linked?_eq (hrecordings x hmem), if_pos (hwindows x hmem)]
  have hsums : ∀ y ∈ (judgedLinked recordings files r now).map (·.1),
      sum? (y.2.map TierFile.bytes) = some (total (y.2.map TierFile.bytes)) := by
    intro y hy
    obtain ⟨v, hv, rfl⟩ := List.mem_map.1 hy
    obtain ⟨hmem, hclosed, heq⟩ := mem_recordings_of_mem_judgedLinked hv
    rw [sum?_eq, heq]
    exact if_pos (hbytes _ hmem hclosed)
  have hplaces := places?_eq_some r r.minAge hnow
    (onCalendar_of_mem_judgedLinked hrecordings) hsums 0 0
  rw [judge_closed] at hplaces
  have halone : ∀ ids : List Int,
      settled? now (files.filter fun f => decide (f.id ∉ ids)) =
        some (files.filter fun f => decide (f.id ∉ ids) && f.isSettled now) := by
    intro ids
    rw [settled?_eq hnow fun f hf => hfiles f (List.mem_of_mem_filter hf), List.filter_filter]
    simp only [Bool.and_comm]
  obtain ⟨rows, hrows, hflat⟩ := mapM_rows hnow hfiles recordings r
  rw [recordingsToMove?, mapM_linked hrecordings hwindows]
  simp only [Option.bind_eq_bind, Option.bind_some, Option.pure_def, closed_eq recordings files r,
    hplaces, hopen, itemsOff_placesOf, itemsAt_placesOf, keptIds_eq, linkedIds_eq, halone, hrows,
    hflat, eventRows, orphanRows]

/-- A window without room ends the bounded selection. -/
theorem recordingsToMove?_eq_none_of_window
    (hrecordings : ∀ x ∈ recordings, OnCalendar x.startTime)
    (h : ∃ x ∈ recordings, ¬ HasWindow x) : recordingsToMove? recordings files r now = none := by
  have hall : recordings.mapM (fun x => (linked? now files x).map (x, ·)) = none := by
    obtain ⟨x, hx, hwindow⟩ := h
    refine mapM_eq_none ⟨x, hx, ?_⟩
    rw [linked?_eq (hrecordings x hx), if_neg hwindow, Option.map_none]
  rw [recordingsToMove?, hall, Option.bind_eq_bind, Option.bind_none]

/-- So does a sum past the largest amount. -/
theorem recordingsToMove?_eq_none_of_bytes (hnow : OnCalendar now)
    (hrecordings : ∀ x ∈ recordings, OnCalendar x.startTime)
    (h : ∃ x ∈ recordings, x.isClosed = true ∧ maxAmount < x.linkedBytes now files) :
    recordingsToMove? recordings files r now = none := by
  by_cases hwindows : ∀ x ∈ recordings, HasWindow x
  · have hsum : ∃ y ∈ (judgedLinked recordings files r now).map (·.1),
        sum? (y.2.map TierFile.bytes) = none := by
      obtain ⟨x, hx, hclosed, hmany⟩ := h
      obtain ⟨b, hb⟩ := exists_mem_judgedRecordings_iff.2 ⟨hx, hclosed⟩
      refine ⟨_, List.mem_map_of_mem (List.mem_map_of_mem hb), ?_⟩
      rw [sum?_eq]
      exact if_neg (Nat.not_le.2 hmany)
    have hplaces := places?_eq_none r r.minAge hnow
      (onCalendar_of_mem_judgedLinked hrecordings) hsum 0 0
    rw [recordingsToMove?, mapM_linked hrecordings hwindows]
    simp only [Option.bind_eq_bind, Option.bind_some, closed_eq recordings files r, hplaces,
      Option.bind_none]
  · exact recordingsToMove?_eq_none_of_window hrecordings (by simpa using hwindows)

/-- Bounded and unbounded selection agree on the events axis, also in having no result. -/
theorem recordingsToMove?_eq (hnow : OnCalendar now)
    (hfiles : ∀ f ∈ files, OnCalendar f.effective)
    (hrecordings : ∀ x ∈ recordings, OnCalendar x.startTime) :
    recordingsToMove? recordings files r now =
      (recordingsToMove recordings files r now).toOption := by
  cases hresult : recordingsToMove recordings files r now with
  | ok rows =>
    obtain ⟨hnone, rfl⟩ := recordingsToMove_eq_ok_iff.1 hresult
    have hroom : ∀ x ∈ recordings, HasWindow x ∧
        (x.isClosed = true → x.linkedBytes now files ≤ maxAmount) :=
      fun x hx => overflow?_eq_none_iff.1 (List.findSome?_eq_none_iff.1 hnone x hx)
    exact recordingsToMove?_eq_some hnow hfiles hrecordings (fun x hx => (hroom x hx).1)
      fun x hx => (hroom x hx).2
  | error o =>
    have hsome : ¬ ∀ x ∈ recordings, x.overflow? now files = none := by
      rw [← recordingsToMove_isOk_iff (r := r), hresult]
      exact Bool.false_ne_true
    obtain ⟨x, hx⟩ := not_forall.1 hsome
    obtain ⟨hx, hover⟩ := Classical.not_imp.1 hx
    rw [overflow?_eq_none_iff, not_and_or, Classical.not_imp, Nat.not_le] at hover
    rcases hover with hwindow | hbytes
    · exact recordingsToMove?_eq_none_of_window hrecordings ⟨x, hx, hwindow⟩
    · exact recordingsToMove?_eq_none_of_bytes hnow hrecordings ⟨x, hx, hbytes⟩

end Selections

/-- Carried out in bounded numbers on files and recordings of the calendar, the selection of
the events axis has no result exactly if some recording, closed or not, has a lookback or a
lead that is no span of time or a window that opens before the calendar, or if the files
linked to a closed recording have more bytes than an amount can hold. In all other cases it
has the result it has in numbers without ends, and the plain axis always has. -/
theorem bounded_selections {recordings : List Recording} {files : List TierFile} (r : Retention)
    {now : Int} (hnow : OnCalendar now) (hfiles : ∀ f ∈ files, OnCalendar f.effective)
    (hrecordings : ∀ x ∈ recordings, OnCalendar x.startTime) :
    (recordingsToMove? recordings files r now = none ↔
      ∃ x ∈ recordings,
        spanEnd < max x.lookback 0 * second ∨
        spanEnd < (max x.lookback 0 + segmentLength) * second ∨
        x.startTime - (max x.lookback 0 + segmentLength) * second < earliest ∨
        x.isClosed = true ∧ maxAmount < total ((x.linked now files).map TierFile.bytes)) ∧
    recordingsToMove? recordings files r now =
      (recordingsToMove recordings files r now).toOption ∧
    filesToMove? files r now = some (filesToMove files r now) := by
  have hselected := recordingsToMove?_eq (r := r) hnow hfiles hrecordings
  refine ⟨?_, hselected, filesToMove?_eq hnow hfiles⟩
  simp only [← overflow?_ne_none_iff]
  rw [hselected, toOption_eq_none_iff, recordingsToMove_isOk_iff]
  simp only [not_forall, exists_prop, ne_eq]

-- A window may open at the first moment of the calendar, and at none before.
example :
    recordingsToMove? [{ recordingOver 1 0 none with startTime := earliest }] [] {} 0 = none ∧
    recordingsToMove? [{ recordingOver 1 0 none with
      startTime := earliest + segmentLength * second }] [] {} 0 = some [] := by
  decide

/-- A recording in progress whose lookback is the longest span in whole seconds. Its lead
is five seconds longer. -/
def farLookback : Recording := { recordingOver 1 1000 none with lookback := 9223372036854775 }

/-- It ends the selection with no file at hand. -/
theorem bounded_selections_farLookback :
    OnCalendar (2000 * second) ∧ (∀ x ∈ [farLookback], OnCalendar x.startTime) ∧
    recordingsToMove? [farLookback] [] {} (2000 * second) = none := by
  have hnow : OnCalendar (2000 * second) := by decide
  have hrecordings : ∀ x ∈ [farLookback], OnCalendar x.startTime := by decide
  refine ⟨hnow, hrecordings, ((bounded_selections {} hnow ?_ hrecordings).1).2 ?_⟩
  · exact fun f hf => absurd hf List.not_mem_nil
  · exact ⟨farLookback, List.mem_cons_self, Or.inr (Or.inl (by decide))⟩

end Bounded

end TieredFootage
