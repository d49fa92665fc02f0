import Mathlib.Data.List.Basic
import Mathlib.Data.List.Induction
import Mathlib.Data.List.Pairwise
import TieredFootage.Timer.Throttle

/-!
# What passes a throttle

Of a throttle nothing is left after some calls but when the last of them passed
(`lastRun_after`). So whether the next call passes can be read off those that passed:
there is none, or a whole period lies between the last of them and this call
(`isOpen_after_iff`). The calls come in order, so any two that pass lie a period apart,
and no more of them fit into a span of time than periods do, and one.
-/

namespace TieredFootage

namespace Throttle

variable {t : Throttle} {p lo hi now : Int} {calls : List Int}

/-- A throttle after calls, one after the other. -/
def after (t : Throttle) (calls : List Int) : Throttle :=
  calls.foldl (fun t now => (t.acquire now).2) t

theorem after_append (t : Throttle) (xs ys : List Int) :
    t.after (xs ++ ys) = (t.after xs).after ys := List.foldl_append

@[simp] theorem period_after (t : Throttle) (calls : List Int) :
    (t.after calls).period = t.period := by
  induction calls generalizing t with
  | nil => rfl
  | cons now calls ih => exact (ih (t.acquire now).2).trans (t.period_acquire now)

theorem isOpen_iff :
    t.isOpen now = true ↔ ∀ last, t.lastRun = some last → last + t.period ≤ now := by
  unfold isOpen
  cases t.lastRun with
  | none => simp
  | some last =>
    simp only [decide_eq_true_eq, Option.some.injEq, forall_eq']
    omega

theorem fst_acquire (t : Throttle) (now : Int) : (t.acquire now).1 = t.isOpen now := by
  unfold acquire
  split <;> simp_all

theorem passing_cons (t : Throttle) (now : Int) (calls : List Int) :
    t.passing (now :: calls) =
      (if t.isOpen now then [now] else []) ++ (t.acquire now).2.passing calls := by
  cases h : t.isOpen now with
  | true => simp [passing, acquire_of_isOpen h]
  | false => simp [passing, acquire_of_not_isOpen h]

theorem passing_append (t : Throttle) (xs ys : List Int) :
    t.passing (xs ++ ys) = t.passing xs ++ (t.after xs).passing ys := by
  induction xs generalizing t with
  | nil => rfl
  | cons now xs ih =>
    rw [List.cons_append, passing_cons, ih, passing_cons, List.append_assoc]
    rfl

theorem passing_concat (t : Throttle) (calls : List Int) (now : Int) :
    t.passing (calls ++ [now]) =
      t.passing calls ++ if (t.after calls).isOpen now then [now] else [] := by
  rw [passing_append, passing_cons, passing, List.append_nil]

theorem passing_sublist (t : Throttle) (calls : List Int) : (t.passing calls).Sublist calls := by
  induction calls generalizing t with
  | nil => exact List.Sublist.refl _
  | cons now calls ih =>
    rw [passing_cons]
    split
    · exact (ih _).cons_cons now
    · exact (ih _).cons now

/-- A throttle remembers the last call that passed. -/
theorem lastRun_after (t : Throttle) (calls : List Int) :
    (t.after calls).lastRun = (t.passing calls).getLast?.or t.lastRun := by
  induction calls using List.reverseRecOn with
  | nil => rfl
  | append_singleton calls now ih =>
    rw [after_append, passing_concat]
    change ((t.after calls).acquire now).2.lastRun = _
    unfold acquire
    split
    · rw [List.getLast?_concat]
      rfl
    · rw [List.append_nil, ih]

/-- The next call passes if none has passed, or a period after the last one that did. -/
theorem isOpen_after_iff : ((Throttle.mk p none).after calls).isOpen now = true ↔
    ∀ last, ((Throttle.mk p none).passing calls).getLast? = some last → last + p ≤ now := by
  rw [isOpen_iff, lastRun_after, Option.or_none, period_after]

/-- A call that passes is a period behind every call that passed before. -/
theorem add_period_le_of_isOpen (h : calls.Pairwise (· ≤ ·))
    (hopen : (t.after calls).isOpen now = true) {m : Int} (hm : m ∈ t.passing calls) :
    m + t.period ≤ now := by
  obtain ⟨ms, last, hlast⟩ := (List.eq_nil_or_concat' _).resolve_left (List.ne_nil_of_mem hm)
  have hremembers : (t.after calls).lastRun = some last := by
    rw [lastRun_after, hlast, List.getLast?_concat, Option.some_or]
  have hbehind := isOpen_iff.1 hopen last hremembers
  rw [period_after] at hbehind
  have hsorted := h.sublist (t.passing_sublist calls)
  rw [hlast] at hm hsorted
  rcases List.mem_append.1 hm with hm | hm
  · have := (List.pairwise_append.1 hsorted).2.2 m hm last (List.mem_singleton.2 rfl)
    omega
  · rwa [List.mem_singleton.1 hm]

/-- Calls that pass lie a period apart. -/
theorem pairwise_passing (t : Throttle) (h : calls.Pairwise (· ≤ ·)) :
    (t.passing calls).Pairwise fun m m' => m + t.period ≤ m' := by
  induction calls using List.reverseRecOn with
  | nil => exact List.Pairwise.nil
  | append_singleton calls now ih =>
    have hcalls := (List.pairwise_append.1 h).1
    rw [passing_concat]
    split
    · rename_i hopen
      refine List.pairwise_append.2 ⟨ih hcalls, List.pairwise_singleton _ _, fun m hm m' hm' => ?_⟩
      rw [List.mem_singleton.1 hm']
      exact add_period_le_of_isOpen hcalls hopen hm
    · rw [List.append_nil]
      exact ih hcalls

/-- A throttle lets calls pass greedily: the first one, and each one that is a period behind the
last one that passed. Those that pass lie a period apart, and one that does not is less than a
period behind one that did. -/
theorem passes_greedily (p : Int) (h : calls.Pairwise (· ≤ ·)) :
    (∀ before now later, calls = before ++ now :: later →
      ((((Throttle.mk p none).after before).acquire now).1 = true ↔
        ∀ last, ((Throttle.mk p none).passing before).getLast? = some last → last + p ≤ now) ∧
      ((((Throttle.mk p none).after before).acquire now).1 = false →
        ∃ m ∈ (Throttle.mk p none).passing before, m ≤ now ∧ now < m + p)) ∧
    ((Throttle.mk p none).passing calls).Pairwise fun m m' => m + p ≤ m' := by
  refine ⟨?_, pairwise_passing ⟨p, none⟩ h⟩
  rintro before now later rfl
  rw [fst_acquire]
  refine ⟨isOpen_after_iff, fun hclosed => ?_⟩
  obtain ⟨last, hnot⟩ := not_forall.1 (mt isOpen_after_iff.2 (Bool.eq_false_iff.1 hclosed))
  obtain ⟨hlast, hless⟩ := Classical.not_imp.1 hnot
  have hmem := List.mem_of_getLast? hlast
  have hbefore := (List.pairwise_append.1 h).2.2 last ((passing_sublist _ _).subset hmem) now
    List.mem_cons_self
  exact ⟨last, hmem, hbefore, Int.not_le.1 hless⟩

/-- Moments that lie a period apart in a span of time: there are no more of them than periods
fit into it, and one. -/
theorem length_le_of_pairwise {ms : List Int} (hp : 0 < p) (h : ms.Pairwise fun m m' => m + p ≤ m')
    (hms : ∀ m ∈ ms, lo ≤ m ∧ m ≤ hi) (hspan : lo ≤ hi) :
    (ms.length : Int) ≤ (hi - lo) / p + 1 := by
  suffices hspread : ((ms.length : Int) - 1) * p ≤ hi - lo by
    have := Int.le_ediv_of_mul_le hp hspread
    omega
  induction ms generalizing lo with
  | nil =>
    simp only [List.length_nil]
    omega
  | cons m ms ih =>
    obtain ⟨hm, hms'⟩ := List.pairwise_cons.1 h
    obtain ⟨hlo, hhi⟩ := hms m List.mem_cons_self
    rcases ms with - | ⟨m', ms⟩
    · simp only [List.length_singleton]
      omega
    · have hrest : ∀ x ∈ m' :: ms, lo + p ≤ x ∧ x ≤ hi := fun x hx =>
        ⟨by have := hm x hx; omega, (hms x (List.mem_cons_of_mem _ hx)).2⟩
      have hspread := ih hms' hrest (by have := hrest m' List.mem_cons_self; omega)
      rw [List.length_cons, Int.natCast_succ, Int.add_sub_cancel]
      rw [Int.sub_mul, Int.one_mul] at hspread
      omega

/-- In a span of time no more calls pass than periods fit into it, and one. -/
theorem length_passing_le (hp : 0 < t.period) (h : calls.Pairwise (· ≤ ·))
    (hcalls : ∀ m ∈ calls, lo ≤ m ∧ m ≤ hi) (hspan : lo ≤ hi) :
    ((t.passing calls).length : Int) ≤ (hi - lo) / t.period + 1 :=
  length_le_of_pairwise hp (t.pairwise_passing h)
    (fun m hm => hcalls m ((t.passing_sublist calls).subset hm)) hspan

end Throttle

end TieredFootage
