import TieredFootage.Timer.Alarms
import Mathlib.Data.List.Nodup
import Mathlib.Data.List.Pairwise

/-!
# The schedule of a debouncer

What was armed when can be read off the steps alone, and so can what has become of
it. An arming lasts if its key is not armed again before it is due. Of those that
last, the ones that are due have ended, and the others are waiting. A step of the
history moves armings from `waiting` to `ended` and drops those that are replaced:
`waiting_moveTo`, `ended_moveTo`, `waiting_push`, `ended_push`.

A `Debouncer` keeps exactly those that are waiting, and hands out exactly those that
have ended.
-/

namespace TieredFootage

variable {κ α : Type} [DecidableEq κ]

/-- What was armed, oldest first, and the time. -/
structure TimerHistory (κ α : Type) where
  armings : List (Arming κ α) := []
  now : Int

namespace TimerHistory

def push (h : TimerHistory κ α) (key : κ) (task : α) : TimerHistory κ α :=
  { h with armings := h.armings ++ [⟨h.armings.length, key, h.now, task⟩] }

def moveTo (h : TimerHistory κ α) (moment : Int) : TimerHistory κ α := { h with now := moment }

/-- A flush takes until the latest arming is due. -/
def flushEnd (delay : Nat) (h : TimerHistory κ α) : Int :=
  match h.armings.getLast? with
  | none => h.now
  | some r => max h.now (r.moment + delay)

def step (delay : Nat) (h : TimerHistory κ α) : TimerStep κ α → TimerHistory κ α
  | .arm key task _ => h.push key task
  | .wait span => h.moveTo (h.now + span)
  | .flush => h.moveTo (h.flushEnd delay)

/-- What was armed in the course of some steps, and the time after them. -/
def after (delay : Nat) (start : Int) (steps : List (TimerStep κ α)) : TimerHistory κ α :=
  steps.foldl (step delay) { now := start }

end TimerHistory

section Lasting

variable {delay : Nat} {r : Arming κ α}

/-- Those of a list of armings that last: their key is not armed again before they
are due. -/
def lasting (delay : Nat) : List (Arming κ α) → List (Arming κ α)
  | [] => []
  | r :: later =>
    if ∀ s ∈ later, s.key = r.key → r.moment + delay ≤ s.moment then r :: lasting delay later
    else lasting delay later

theorem lasting_sublist (delay : Nat) (l : List (Arming κ α)) : (lasting delay l).Sublist l := by
  induction l with
  | nil => exact .slnil
  | cons r later ih =>
    unfold lasting
    split
    · exact ih.cons_cons r
    · exact ih.cons r

/-- An arming ends those of its key that are not due yet, and lasts so far. -/
theorem lasting_concat (delay : Nat) (l : List (Arming κ α)) (s : Arming κ α) :
    lasting delay (l ++ [s]) =
      (lasting delay l).filter (fun r => decide (s.key = r.key → r.moment + delay ≤ s.moment)) ++
        [s] := by
  induction l with
  | nil => simp [lasting]
  | cons r later ih =>
    have hsplit : (∀ x ∈ later ++ [s], x.key = r.key → r.moment + delay ≤ x.moment) ↔
        (∀ x ∈ later, x.key = r.key → r.moment + delay ≤ x.moment) ∧
          (s.key = r.key → r.moment + delay ≤ s.moment) := by
      simp only [List.forall_mem_append, List.forall_mem_singleton]
    simp only [List.cons_append, lasting, hsplit, ih]
    by_cases hlater : ∀ x ∈ later, x.key = r.key → r.moment + delay ≤ x.moment
    · rw [if_pos hlater]
      by_cases hs : s.key = r.key → r.moment + delay ≤ s.moment
      · rw [if_pos ⟨hlater, hs⟩, List.filter_cons_of_pos (by exact decide_eq_true hs)]
        rfl
      · rw [if_neg fun h => hs h.2, List.filter_cons_of_neg (by simpa using hs)]
    · rw [if_neg hlater, if_neg fun h => hlater h.1]

/-- Whether an arming lasts depends on those of its key only. -/
theorem lasting_filter_key (delay : Nat) (l : List (Arming κ α)) (key : κ) :
    (lasting delay l).filter (·.key == key) = lasting delay (l.filter (·.key == key)) := by
  induction l with
  | nil => rfl
  | cons r later ih =>
    by_cases hr : r.key = key
    · subst hr
      have hsame :
          (∀ s ∈ later.filter (·.key == r.key), s.key = r.key → r.moment + delay ≤ s.moment) ↔
            ∀ s ∈ later, s.key = r.key → r.moment + delay ≤ s.moment := by
        simp only [List.mem_filter, beq_iff_eq]
        exact ⟨fun h s hs hk => h s ⟨hs, hk⟩ hk, fun h s hs hk => h s hs.1 hk⟩
      simp only [List.filter_cons, beq_self_eq_true, if_true, lasting, hsame]
      split
      · simp [ih]
      · exact ih
    · have hskip : (r.key == key) = false := by simpa using hr
      simp only [List.filter_cons, hskip, lasting]
      split
      · simp only [List.filter_cons, hskip]
        exact ih
      · exact ih

/-- It depends on keys and moments only. -/
theorem lasting_map {f : Arming κ α → Arming κ α} (hkey : ∀ r, (f r).key = r.key)
    (hmoment : ∀ r, (f r).moment = r.moment) (l : List (Arming κ α)) :
    lasting delay (l.map f) = (lasting delay l).map f := by
  induction l with
  | nil => rfl
  | cons r later ih =>
    simp only [List.map_cons, lasting, List.forall_mem_map, hkey, hmoment, ih]
    split <;> rfl

/-- Of armings with different numbers, the one of a number lasts if its key is not
armed again before it is due. -/
theorem lasting_filter_number {before later : List (Arming κ α)}
    (hnumbers : ((before ++ r :: later).map (·.number)).Nodup) :
    (lasting delay (before ++ r :: later)).filter (·.number == r.number) =
      if ∀ s ∈ later, s.key = r.key → r.moment + delay ≤ s.moment then [r] else [] := by
  induction before with
  | nil =>
    have hnone : (lasting delay later).filter (·.number == r.number) = [] := by
      refine List.filter_eq_nil_iff.2 fun s hs hnumber => ?_
      have hlater := (lasting_sublist delay later).subset hs
      exact (List.nodup_cons.1 hnumbers).1 (List.mem_map.2 ⟨s, hlater, by simpa using hnumber⟩)
    simp only [List.nil_append, lasting]
    split
    · rw [List.filter_cons_of_pos (by simp), hnone]
    · exact hnone
  | cons b before ih =>
    obtain ⟨hb, hrest⟩ := List.nodup_cons.1 hnumbers
    have hskip : (b.number == r.number) = false := by
      rw [beq_eq_false_iff_ne]
      intro hnumber
      exact hb (List.mem_map.2 ⟨r, by simp, hnumber.symm⟩)
    rw [← ih hrest]
    simp only [List.cons_append, lasting]
    split
    · rw [List.filter_cons_of_neg (by simp [hskip])]
    · rfl

theorem mem_lasting_concat (delay : Nat) (l : List (Arming κ α)) (s : Arming κ α) :
    s ∈ lasting delay (l ++ [s]) := by
  rw [lasting_concat]
  exact List.mem_append_right _ (List.mem_singleton_self s)

end Lasting

section Splitting

variable {β : Type} {p : β → Bool} {l : List β}

/-- A list whose first elements are those with a property falls into those with it
and those without it. -/
theorem filter_append_filter_not (h : l.Pairwise fun x y => p y = true → p x = true) :
    l.filter p ++ l.filter (fun x => !p x) = l := by
  induction l with
  | nil => rfl
  | cons x l ih =>
    obtain ⟨hx, hl⟩ := List.pairwise_cons.1 h
    cases hp : p x with
    | true =>
      rw [List.filter_cons_of_pos hp, List.filter_cons_of_neg (by simp [hp]), List.cons_append,
        ih hl]
    | false =>
      have hnone : ∀ y ∈ x :: l, p y = false := by
        simp only [List.forall_mem_cons, hp, true_and]
        exact fun y hy => Bool.eq_false_iff.2 fun hpy => by simp [hx y hy hpy] at hp
      rw [List.filter_eq_nil_iff.2 fun y hy => by simp [hnone y hy],
        List.filter_eq_self.2 fun y hy => by simp [hnone y hy], List.nil_append]

end Splitting

namespace TimerHistory

variable {delay : Nat} {h : TimerHistory κ α} {key : κ} {task : α} {moment : Int}

/-- Those that last and are not due yet. -/
def waiting (delay : Nat) (h : TimerHistory κ α) : List (Arming κ α) :=
  (lasting delay h.armings).filter fun r => decide (h.now < r.moment + delay)

/-- Those that last and are due. -/
def ended (delay : Nat) (h : TimerHistory κ α) : List (Arming κ α) :=
  (lasting delay h.armings).filter fun r => decide (r.moment + delay ≤ h.now)

theorem waiting_subset (delay : Nat) (h : TimerHistory κ α) : h.waiting delay ⊆ h.armings :=
  fun _ hr => (lasting_sublist delay h.armings).subset (List.mem_filter.1 hr).1

/-- Armings are numbered and dated in order, and none of them is still to come. -/
structure Ordered (h : TimerHistory κ α) : Prop where
  numbers : h.armings.map (·.number) = List.range h.armings.length
  moments : h.armings.Pairwise (·.moment ≤ ·.moment)
  past : ∀ r ∈ h.armings, r.moment ≤ h.now

omit [DecidableEq κ] in
theorem Ordered.moveTo (hh : h.Ordered) (hm : h.now ≤ moment) : (h.moveTo moment).Ordered where
  numbers := hh.numbers
  moments := hh.moments
  past r hr := Int.le_trans (hh.past r hr) hm

omit [DecidableEq κ] in
theorem Ordered.push (hh : h.Ordered) (key : κ) (task : α) : (h.push key task).Ordered where
  numbers := by simp [TimerHistory.push, hh.numbers, List.range_succ]
  moments := by
    refine List.pairwise_append.2 ⟨hh.moments, List.pairwise_singleton _ _, fun r hr s hs => ?_⟩
    rw [List.mem_singleton.1 hs]
    exact hh.past r hr
  past := by
    simp only [TimerHistory.push, List.forall_mem_append, List.forall_mem_singleton]
    exact ⟨hh.past, Int.le_refl _⟩

omit [DecidableEq κ] in
theorem le_flushEnd (delay : Nat) (h : TimerHistory κ α) : h.now ≤ h.flushEnd delay := by
  unfold flushEnd
  split
  · exact Int.le_refl _
  · exact Int.le_max_left _ _

omit [DecidableEq κ] in
theorem Ordered.step (hh : h.Ordered) (delay : Nat) (e : TimerStep κ α) :
    (h.step delay e).Ordered := by
  cases e with
  | arm key task heard => exact hh.push key task
  | wait span => exact hh.moveTo (by omega)
  | flush => exact hh.moveTo (le_flushEnd delay h)

omit [DecidableEq κ] in
theorem ordered_after (delay : Nat) (start : Int) (steps : List (TimerStep κ α)) :
    (after delay start steps).Ordered := by
  refine List.foldlRecOn steps (step delay) ⟨rfl, .nil, by simp⟩ fun h hh e _ => ?_
  exact hh.step delay e

omit [DecidableEq κ] in
theorem Ordered.nodup_numbers (hh : h.Ordered) : (h.armings.map (·.number)).Nodup :=
  hh.numbers ▸ List.nodup_range

theorem Ordered.lasting_moments (hh : h.Ordered) (delay : Nat) :
    (lasting delay h.armings).Pairwise (·.moment ≤ ·.moment) :=
  hh.moments.sublist (lasting_sublist delay h.armings)

/-- As time goes on, those that are waiting become due in the order of their making. -/
theorem ended_moveTo (hh : h.Ordered) (hm : h.now ≤ moment) :
    (h.moveTo moment).ended delay =
      h.ended delay ++ (h.waiting delay).filter fun r => decide (r.moment + delay ≤ moment) := by
  have hmoments := (hh.lasting_moments delay).filter fun r => decide (r.moment + delay ≤ moment)
  have hsplit := filter_append_filter_not (p := fun r => decide (r.moment + delay ≤ h.now))
    (hmoments.imp fun hle => by simpa using fun hs => by omega)
  refine hsplit.symm.trans (congrArg₂ (· ++ ·) ?_ ?_)
  · rw [ended, List.filter_filter]
    refine List.filter_congr fun r _ => ?_
    by_cases hr : r.moment + delay ≤ h.now
    · simp [hr, Int.le_trans hr hm]
    · simp [hr]
  · rw [waiting, List.filter_filter, List.filter_filter]
    refine List.filter_congr fun r _ => ?_
    by_cases hr : r.moment + delay ≤ h.now
    · simp [hr, Int.not_lt.2 hr]
    · simp [hr, Int.not_le.1 hr]

theorem waiting_moveTo (hm : h.now ≤ moment) :
    (h.moveTo moment).waiting delay =
      (h.waiting delay).filter fun r => decide (moment < r.moment + delay) := by
  rw [waiting, waiting, List.filter_filter]
  refine List.filter_congr fun r _ => ?_
  by_cases hr : moment < r.moment + delay
  · simp [TimerHistory.moveTo, hr, Int.lt_of_le_of_lt hm hr]
  · simp [TimerHistory.moveTo, hr]

/-- The armings that may be waiting once a key is armed: those of the other keys and
the new one. -/
def pool (delay : Nat) (h : TimerHistory κ α) (key : κ) (task : α) : List (Arming κ α) :=
  (h.waiting delay).filter (·.key != key) ++ [⟨h.armings.length, key, h.now, task⟩]

theorem waiting_push :
    (h.push key task).waiting delay =
      (h.pool delay key task).filter fun r => decide (h.now < r.moment + delay) := by
  rw [waiting, TimerHistory.push, lasting_concat, pool, waiting]
  simp only [List.filter_append, List.filter_filter]
  congr 1
  refine List.filter_congr fun r _ => ?_
  by_cases hr : h.now < r.moment + delay
  · have hnot : ¬ r.moment + delay ≤ h.now := by omega
    by_cases hk : key = r.key
    · simp [hr, hnot, hk]
    · simp [hr, hk, Ne.symm hk]
  · simp [hr]

theorem ended_push :
    (h.push key task).ended delay =
      h.ended delay ++
        (h.pool delay key task).filter fun r => decide (r.moment + delay ≤ h.now) := by
  have hkept : ((h.waiting delay).filter (·.key != key)).filter
      (fun r => decide (r.moment + delay ≤ h.now)) = [] := by
    refine List.filter_eq_nil_iff.2 fun r hr => ?_
    have := of_decide_eq_true (List.mem_filter.1 (List.mem_filter.1 hr).1).2
    simpa using this
  rw [pool, List.filter_append, hkept, List.nil_append, ended, TimerHistory.push, lasting_concat,
    List.filter_append, ended, List.filter_filter]
  congr 1
  refine List.filter_congr fun r _ => ?_
  by_cases hr : r.moment + delay ≤ h.now <;> simp [hr]

omit [DecidableEq κ] in
/-- A flush ends at the first moment at which all that were armed are due. -/
theorem Ordered.flushEnd_le_iff (hh : h.Ordered) :
    h.flushEnd delay ≤ moment ↔
      h.now ≤ moment ∧ ∀ r ∈ h.armings, r.moment + delay ≤ moment := by
  unfold flushEnd
  split
  · rename_i hnone
    simp [List.getLast?_eq_none_iff.1 hnone]
  · rename_i s hlast
    obtain ⟨before, harmings⟩ := List.getLast?_eq_some_iff.1 hlast
    have hmoments := hh.moments
    rw [harmings, List.pairwise_append] at hmoments
    rw [harmings, Int.max_le, List.forall_mem_append, List.forall_mem_singleton]
    refine and_congr_right fun _ => ⟨fun hs => ⟨fun r hr => ?_, hs⟩, fun hall => hall.2⟩
    have := hmoments.2.2 r hr s (List.mem_singleton_self s)
    omega

/-- The latest arming lasts, so those that are waiting are enough. -/
theorem Ordered.flushEnd_le_iff_waiting (hh : h.Ordered) :
    h.flushEnd delay ≤ moment ↔
      h.now ≤ moment ∧ ∀ r ∈ h.waiting delay, r.moment + delay ≤ moment := by
  constructor
  · intro hend
    obtain ⟨hnow, hall⟩ := hh.flushEnd_le_iff.1 hend
    exact ⟨hnow, fun r hr => hall r (waiting_subset delay h hr)⟩
  · rintro ⟨hnow, hwaiting⟩
    unfold flushEnd
    split
    · exact hnow
    · rename_i s hlast
      obtain ⟨before, harmings⟩ := List.getLast?_eq_some_iff.1 hlast
      refine Int.max_le.2 ⟨hnow, ?_⟩
      by_cases hs : h.now < s.moment + delay
      · refine hwaiting s (List.mem_filter.2 ⟨?_, decide_eq_true hs⟩)
        rw [harmings]
        exact mem_lasting_concat delay before s
      · omega

/-- A wait for some armings ends with the flush, if all that are waiting are among
them. -/
theorem Ordered.eq_flushEnd (hh : h.Ordered) {l : List (Arming κ α)}
    (hwaiting : h.waiting delay ⊆ l) (hl : l ⊆ h.armings)
    (hend : ∀ m, moment ≤ m ↔ h.now ≤ m ∧ ∀ r ∈ l, r.moment + delay ≤ m) :
    moment = h.flushEnd delay := by
  refine Int.le_antisymm ?_ ?_
  · obtain ⟨hnow, hall⟩ := hh.flushEnd_le_iff.1 (Int.le_refl (h.flushEnd delay))
    exact (hend _).2 ⟨hnow, fun r hr => hall r (hl hr)⟩
  · obtain ⟨hnow, hall⟩ := (hend moment).1 (Int.le_refl moment)
    exact hh.flushEnd_le_iff_waiting.2 ⟨hnow, fun r hr => hall r (hwaiting hr)⟩

/-- A step of a history: up to a moment, those of a pool of armings that are due
then have ended, and the others are waiting. -/
structure Elapses (delay : Nat) (h h' : TimerHistory κ α) (pool : List (Arming κ α))
    (moment : Int) : Prop where
  now_eq : h'.now = moment
  waiting_eq : h'.waiting delay = pool.filter fun r => decide (moment < r.moment + delay)
  ended_eq : h'.ended delay =
    h.ended delay ++ pool.filter fun r => decide (r.moment + delay ≤ moment)

theorem elapses_push (delay : Nat) (h : TimerHistory κ α) (key : κ) (task : α) :
    h.Elapses delay (h.push key task) (h.pool delay key task) h.now :=
  ⟨rfl, waiting_push, ended_push⟩

theorem Ordered.elapses_moveTo (hh : h.Ordered) (delay : Nat) (hm : h.now ≤ moment) :
    h.Elapses delay (h.moveTo moment) (h.waiting delay) moment :=
  ⟨rfl, waiting_moveTo hm, ended_moveTo hh hm⟩

end TimerHistory

/-- The timer of an arming. -/
def Arming.timer (delay : Nat) (r : Arming κ α) : Timer κ α := ⟨r.key, r.moment + delay, r.task⟩

namespace Debouncer

omit [DecidableEq κ] in
theorem flushEnd_le_iff {d : Debouncer κ α} {now moment : Int} :
    d.flushEnd now ≤ moment ↔ now ≤ moment ∧ ∀ t ∈ d.timers, t.due ≤ moment := by
  unfold flushEnd lastDue?
  cases hmax : (d.timers.map (·.due)).max? with
  | none =>
    have hnone : d.timers = [] := by simpa using List.max?_eq_none_iff.1 hmax
    simp [hnone]
  | some last =>
    rw [Option.getD_some, Int.max_le, List.max?_le_iff hmax, List.forall_mem_map]

/-- A debouncer in use: the time, and the timers it has handed out. -/
structure InUse (κ α : Type) where
  debouncer : Debouncer κ α
  now : Int
  ended : List (Timer κ α) := []

namespace InUse

def moveTo (w : InUse κ α) (moment : Int) : InUse κ α where
  debouncer := w.debouncer.elapse moment
  now := moment
  ended := w.ended ++ w.debouncer.dueBy moment

def step (w : InUse κ α) : TimerStep κ α → InUse κ α
  | .arm key task _ => { w with debouncer := w.debouncer.arm w.now key task }.moveTo w.now
  | .wait span => w.moveTo (w.now + span)
  | .flush => w.moveTo (w.debouncer.flushEnd w.now)

def after (delay : Nat) (start : Int) (steps : List (TimerStep κ α)) : InUse κ α :=
  steps.foldl step { debouncer := { delay }, now := start }

/-- A debouncer keeps the timers that are waiting, and has handed out those that have
ended. -/
structure Follows (delay : Nat) (h : TimerHistory κ α) (w : InUse κ α) : Prop where
  delay_eq : w.debouncer.delay = delay
  now_eq : w.now = h.now
  timers_eq : w.debouncer.timers = (h.waiting delay).map (Arming.timer delay)
  ended_eq : w.ended = (h.ended delay).map (Arming.timer delay)

variable {delay : Nat} {h h' : TimerHistory κ α} {w : InUse κ α} {moment : Int}
  {pool : List (Arming κ α)}

/-- Moving the clock splits the timers by whether they are due. -/
theorem follows_moveTo (hdelay : w.debouncer.delay = delay)
    (htimers : w.debouncer.timers = pool.map (Arming.timer delay))
    (hended : w.ended = (h.ended delay).map (Arming.timer delay))
    (he : h.Elapses delay h' pool moment) : (w.moveTo moment).Follows delay h' where
  delay_eq := hdelay
  now_eq := he.now_eq.symm
  timers_eq := by
    rw [InUse.moveTo, elapse, htimers, he.waiting_eq, List.filter_map]
    rfl
  ended_eq := by
    rw [InUse.moveTo, dueBy, htimers, hended, he.ended_eq, List.map_append, List.filter_map]
    rfl

theorem Follows.flushEnd_eq (hw : w.Follows delay h) (hh : h.Ordered) :
    w.debouncer.flushEnd w.now = h.flushEnd delay := by
  refine hh.eq_flushEnd (List.Subset.refl _) (TimerHistory.waiting_subset delay h) fun m => ?_
  rw [flushEnd_le_iff, hw.timers_eq, hw.now_eq, List.forall_mem_map]
  rfl

theorem Follows.step (hw : w.Follows delay h) (hh : h.Ordered) (e : TimerStep κ α) :
    (w.step e).Follows delay (h.step delay e) := by
  cases e with
  | arm key task heard =>
    have hpool : (w.debouncer.arm w.now key task).timers =
        (h.pool delay key task).map (Arming.timer delay) := by
      rw [Debouncer.arm, hw.timers_eq, hw.delay_eq, hw.now_eq, TimerHistory.pool, List.map_append,
        List.filter_map]
      rfl
    have he := TimerHistory.elapses_push delay h key task
    rw [← hw.now_eq] at he
    exact follows_moveTo (w := { w with debouncer := w.debouncer.arm w.now key task })
      hw.delay_eq hpool hw.ended_eq he
  | wait span =>
    have he := hh.elapses_moveTo delay (show h.now ≤ h.now + span by omega)
    rw [← hw.now_eq] at he
    have := follows_moveTo hw.delay_eq hw.timers_eq hw.ended_eq he
    simpa only [InUse.step, TimerHistory.step, hw.now_eq] using this
  | flush =>
    have he := hh.elapses_moveTo delay (TimerHistory.le_flushEnd delay h)
    have := follows_moveTo hw.delay_eq hw.timers_eq hw.ended_eq he
    simpa only [InUse.step, TimerHistory.step, hw.flushEnd_eq hh] using this

/-- What a debouncer keeps and what it has handed out can be read off the history. -/
theorem follows_after (delay : Nat) (start : Int) (steps : List (TimerStep κ α)) :
    (after delay start steps).Follows delay (TimerHistory.after delay start steps) := by
  have hrun := List.foldl_rel (l := steps) (f := InUse.step) (g := TimerHistory.step delay)
    (r := fun w h => w.Follows delay h ∧ h.Ordered)
    (a := { debouncer := { delay }, now := start }) (b := { now := start })
    ⟨⟨rfl, rfl, rfl, rfl⟩, rfl, .nil, by simp⟩
    fun e _ w h hw => ⟨hw.1.step hw.2 e, hw.2.step delay e⟩
  exact hrun.1

end InUse

end Debouncer

end TieredFootage
