import TieredFootage.Proofs.Archive.Requests

/-!
# How often a tier is evaluated

In the course of time the throttle of a keeper is called in order, once for each request
(`Course.paced`). Every operation is done in the course of time, but for one: a tier can be
evaluated without asking its throttle. That is counted apart. What the throttle lets pass
in a span of time is bounded, and so is how often the tier is evaluated besides.
-/

namespace TieredFootage

open Relation

namespace Archive

variable {a b c : Archive} {t : Tier} {x : Address}

/-- From one time to another, the throttle of the keeper at an address was called at the given
moments, and the tier was evaluated `runs` times without asking it. -/
structure Paced (x : Address) (a : Archive) (calls : List Int) (runs : Nat) (b : Archive) :
    Prop where
  now_le : a.now ≤ b.now
  sorted : calls.Pairwise (· ≤ ·)
  within : ∀ m ∈ calls, a.now ≤ m ∧ m ≤ b.now
  pace?_eq : b.pace? x = (a.pace? x).map (·.after calls runs)
  /-- Where files only follow others, nobody calls. -/
  follows : ∀ t, a.tierAt? x = some t → t.role = .thumbnails ∨ t.role = .clips → calls = []

namespace Paced

variable {calls calls' : List Int} {m n : Nat}

theorem of_pace?_eq (hnow : a.now ≤ b.now) (h : b.pace? x = a.pace? x) : Paced x a [] 0 b :=
  ⟨hnow, List.Pairwise.nil, by simp, h.trans Option.map_id'.symm, fun _ _ _ => rfl⟩

theorem tierAt?_eq (h : Paced x a calls n b) : b.tierAt? x = a.tierAt? x := by
  rw [tierAt?_eq_map, h.pace?_eq, Option.map_map, tierAt?_eq_map]
  rfl

theorem trans (h : Paced x a calls m b) (h' : Paced x b calls' n c) :
    Paced x a (calls ++ calls') (m + n) c where
  now_le := h.now_le.trans h'.now_le
  sorted := List.pairwise_append.2 ⟨h.sorted, h'.sorted, fun _ hy _ hz =>
    (h.within _ hy).2.trans (h'.within _ hz).1⟩
  within := fun y hy => by
    rcases List.mem_append.1 hy with hy | hy
    · exact ⟨(h.within y hy).1, (h.within y hy).2.trans h'.now_le⟩
    · exact ⟨h.now_le.trans (h'.within y hy).1, (h'.within y hy).2⟩
  pace?_eq := by
    rw [h'.pace?_eq, h.pace?_eq, Option.map_map]
    exact congrArg (Option.map · _) (funext fun p => (p.after_append calls calls' m n).symm)
  follows := fun t ht hrole => by
    rw [h.follows t ht hrole, h'.follows t (h.tierAt?_eq.trans ht) hrole]
    rfl

end Paced

/-- A step calls the throttle once at most, unless it takes no notice of the keeper. -/
theorem Stride.paced (h : Stride x a b) : ∃ calls, Paced x a calls 0 b := by
  cases h with
  | wait hnow hpace => exact ⟨[], Paced.of_pace?_eq hnow hpace⟩
  | beat h =>
    cases h with
    | aside hnow hpace => exact ⟨[], Paced.of_pace?_eq hnow.ge hpace⟩
    | @request k hk =>
      obtain ⟨hnow, hpace⟩ := checkTier_of_get? hk
      have hmoment : ∀ m ∈ k.tier.role.calls a.now, m = a.now := by
        cases k.tier.role <;> simp [Role.calls]
      refine ⟨k.tier.role.calls a.now, hnow.ge, ?_, fun m hm => ?_, ?_, fun t ht hrole => ?_⟩
      · cases k.tier.role <;> simp [Role.calls]
      · exact ⟨(hmoment m hm).ge, ((hmoment m hm).trans hnow.symm).le⟩
      · rw [hpace, pace?, hk]
        rfl
      · rw [tierAt?, hk, Option.map_some, Option.some.injEq] at ht
        subst ht
        rcases hrole with hrole | hrole <;> rw [hrole] <;> rfl

/-- In the course of time the throttle is called in order. -/
theorem Course.paced (h : Course x a b) : ∃ calls, Paced x a calls 0 b := by
  induction h with
  | refl => exact ⟨[], Paced.of_pace?_eq (le_refl _) rfl⟩
  | tail _ hstride ih =>
    obtain ⟨calls, hcalls⟩ := ih
    obtain ⟨calls', hcalls'⟩ := hstride.paced
    exact ⟨calls ++ calls', hcalls.trans hcalls'⟩

end Archive

namespace Operation

/-- The tier that an operation tells of something by its name, for which it may be evaluated. -/
def addressed? : Operation → Option Tier
  | .checkTier t | .notify t _ | .takeInto t _ | .lookAgain t _ => some t
  | _ => none

/-- Whether an operation evaluates the tier at an address without asking its throttle. -/
def runs (x : Address) : Operation → Bool
  | .runPolicy t => decide (t.address = x)
  | _ => false

end Operation

namespace Archive

variable {a : Archive} {x : Address} {o : Operation} {os : List Operation}

/-- Every operation that does not evaluate the tier directly is done in the course of time. -/
theorem course_operate (hruns : o.runs x = false)
    (ha : ∀ t, o.addressed? = some t → a.Knows x t) : Course x a (a.operate o) := by
  have haside : ∀ {b : Archive}, b.now = a.now → b.pace? x = a.pace? x → Course x a b :=
    fun hnow hpace => ReflTransGen.single (Stride.beat (Beat.aside hnow hpace))
  have hkeeping : ∀ {b : Archive}, Keeping Keeper.pace a b → Course x a b :=
    fun h => h.beats.course
  cases o with
  | statement s => exact haside rfl rfl
  | move source target => exact haside (a.toHoldings.move_frame source target).1 rfl
  | discard p => exact haside (a.toHoldings.discard_frame p).1 rfl
  | evict p fileRoot root next => exact haside (a.toHoldings.now_evict p fileRoot root next) rfl
  | evictFrom t p fileRoot => exact hkeeping (keeping_evictFrom Keeper.pace_record a t p fileRoot)
  | moveThumbnail t i => exact hkeeping (keeping_moveThumbnail Keeper.pace_record a t i)
  | moveClip t i => exact hkeeping (keeping_moveClip Keeper.pace_record a t i)
  | runPolicy t =>
    obtain ⟨hnow, hpace⟩ := runPolicy_pace? a t x
    have hne : t.address ≠ x := of_decide_eq_false hruns
    simp only [if_neg hne, Option.map_id'] at hpace
    exact haside hnow hpace
  | checkTier t => exact (beats_checkTier (ha t rfl)).course
  | drain t => exact hkeeping (keeping_drain Keeper.pace_record a t)
  | notify t n => exact (beats_onNotification (ha t rfl) n).course
  | takeInto t ms => exact (beats_takeInto (ha t rfl) ms).course
  | lookAgain t ps => exact (beats_lookAgain (ha t rfl) ps).course
  | requestEvaluation y => exact hkeeping (Keeping.update a y fun _ => rfl)
  | settle => exact (beats_settle a x).course
  | advance ms =>
    have hspan : 0 ≤ (ms : Int) * millisecond :=
      Int.mul_nonneg (Int.natCast_nonneg ms) (by decide)
    exact course_advanceTo (Int.le_add_of_nonneg_right hspan)
  | start t => exact (beats_start a t).course
  | startAll => exact (beats_startAll a x).course
  | shutdown t =>
    cases h : a.shutdown t with
    | none =>
      rw [operate, h]
      exact ReflTransGen.refl
    | some b =>
      rw [operate, h]
      exact course_shutdown h
  | shutdownAll =>
    cases h : a.shutdownAll with
    | none =>
      rw [operate, h]
      exact ReflTransGen.refl
    | some b =>
      rw [operate, h]
      exact course_shutdownAll h
  | serve e => exact ReflTransGen.single (Stride.wait (e.le_elapse a.now) rfl)
  | disk d => exact haside rfl rfl

theorem paced_operate (ha : ∀ t, o.addressed? = some t → a.Knows x t) :
    ∃ calls, Paced x a calls (if o.runs x then 1 else 0) (a.operate o) := by
  split
  · rename_i hruns
    cases o with
    | runPolicy t =>
      obtain ⟨hnow, hpace⟩ := runPolicy_pace? a t x
      have ht : t.address = x := of_decide_eq_true hruns
      simp only [if_pos ht] at hpace
      exact ⟨[], hnow.ge, List.Pairwise.nil, by simp, hpace, fun _ _ _ => rfl⟩
    | _ => cases hruns
  · rename_i hruns
    exact (course_operate (Bool.eq_false_iff.2 hruns) ha).paced

theorem paced_operateAll (ha : ∀ o ∈ os, ∀ t, o.addressed? = some t → a.Knows x t) :
    ∃ calls, Paced x a calls (os.countP (·.runs x)) (a.operateAll os) := by
  induction os generalizing a with
  | nil => exact ⟨[], Paced.of_pace?_eq (le_refl _) rfl⟩
  | cons o os ih =>
    obtain ⟨calls, hcalls⟩ := paced_operate (ha o List.mem_cons_self)
    obtain ⟨calls', hcalls'⟩ := ih (a := a.operate o) fun o' ho' t ht htx u hu =>
      ha o' (List.mem_cons_of_mem _ ho') t ht htx u (hcalls.tierAt?_eq ▸ hu)
    refine ⟨calls ++ calls', ?_⟩
    rw [List.countP_cons, Nat.add_comm]
    exact hcalls.trans hcalls'

/-- Throttles let requests pass greedily. So in the course of any operations, a keeper evaluates
its tier, besides when it is told to do so without asking, no more often than its period fits into
the time that passes, and once; and not at all if the files of its tier only follow others. -/
theorem throttled_evaluations :
    (∀ (p : Int) (calls : List Int), calls.Pairwise (· ≤ ·) →
      (∀ before now later, calls = before ++ now :: later →
        ((((Throttle.mk p none).after before).acquire now).1 = true ↔
          ∀ last, ((Throttle.mk p none).passing before).getLast? = some last → last + p ≤ now) ∧
        ((((Throttle.mk p none).after before).acquire now).1 = false →
          ∃ m ∈ (Throttle.mk p none).passing before, m ≤ now ∧ now < m + p)) ∧
      ((Throttle.mk p none).passing calls).Pairwise fun m m' => m + p ≤ m') ∧
    ∀ (a : Archive) (k : Keeper) (os : List Operation), a.keepers.get? k.address = some k →
      k.throttle.period = evaluationPeriod →
      (∀ o ∈ os, ∀ t, o.addressed? = some t → t.address = k.address → t = k.tier) →
      ∃ k' calls, (a.operateAll os).keepers.get? k.address = some k' ∧ k'.tier = k.tier ∧
        calls.Pairwise (· ≤ ·) ∧ (∀ m ∈ calls, a.now ≤ m ∧ m ≤ (a.operateAll os).now) ∧
        k'.throttle = k.throttle.after calls ∧
        k'.tally.evaluations = k.tally.evaluations + (k.throttle.passing calls).length +
          os.countP (·.runs k.address) ∧
        ((k.throttle.passing calls).length : Int) ≤
          ((a.operateAll os).now - a.now) / evaluationPeriod + 1 ∧
        (k.tier.role = .thumbnails ∨ k.tier.role = .clips → calls = []) := by
  refine ⟨fun p calls h => Throttle.passes_greedily p h, fun a k os hk hperiod hnames => ?_⟩
  have htier : a.tierAt? k.address = some k.tier := by rw [tierAt?, hk, Option.map_some]
  obtain ⟨calls, hpaced⟩ := paced_operateAll (a := a) (x := k.address) fun o ho t ht htx u hu => by
    rw [htier] at hu
    rw [← Option.some.inj hu, hnames o ho t ht htx]
  have hpace := hpaced.pace?_eq
  rw [pace?, pace?, hk, Option.map_some, Option.map_some] at hpace
  obtain ⟨k', hk', hsame⟩ := Option.map_eq_some_iff.1 hpace
  refine ⟨k', calls, hk', congrArg Pace.tier hsame, hpaced.sorted, hpaced.within,
    congrArg Pace.throttle hsame, congrArg Pace.evaluations hsame, ?_, hpaced.follows _ htier⟩
  rw [← hperiod]
  exact Throttle.length_passing_le (by rw [hperiod]; decide) hpaced.sorted hpaced.within
    hpaced.now_le

end Archive

/-- A file is created, a request is made within the period of its evaluation, the file is modified
and looked at again when the period has just ended, and the tier is evaluated at once. The next
requests are made just before the following period ends, and when it has ended. -/
def pacedLife : List Operation :=
  [.start briefTier, .notify briefTier ⟨.created, "/t/segments/cam/a".toList⟩, .advance 4000,
    .takeInto briefTier [.evaluate, .event ⟨.modified, "/t/segments/cam/a".toList⟩], .advance 1000,
    .runPolicy briefTier, .advance 4999, .checkTier briefTier, .advance 1, .checkTier briefTier]

theorem throttled_evaluations_pacedLife :
    ((Throttle.mk evaluationPeriod none).passing [0, 4999999999, 5000000000]).Pairwise
        (fun m m' => m + evaluationPeriod ≤ m') ∧
      briefArchive.keepers.get? briefTier.address = some { tier := briefTier } ∧
      (briefArchive.operateAll pacedLife).keepers.map (·.tally.evaluations) = [4] ∧
      ∃ k' n, (briefArchive.operateAll pacedLife).keepers.get? briefTier.address = some k' ∧
        k'.tally.evaluations = n + 1 ∧
        (n : Int) ≤ ((briefArchive.operateAll pacedLife).now - briefArchive.now) /
          evaluationPeriod + 1 ∧
        ((briefArchive.operateAll pacedLife).now - briefArchive.now) / evaluationPeriod + 1 =
          3 := by
  obtain ⟨hgreedy, hrate⟩ := Archive.throttled_evaluations
  have hkeeper : briefArchive.keepers.get? briefTier.address = some { tier := briefTier } := rfl
  have hnames : ∀ o ∈ pacedLife, ∀ t, o.addressed? = some t →
      t.address = briefTier.address → t = briefTier := by
    simp [pacedLife, Operation.addressed?, eq_comm]
  obtain ⟨k', calls, hk', -, -, -, -, hcount, hbound, -⟩ :=
    hrate briefArchive { tier := briefTier } pacedLife hkeeper rfl hnames
  refine ⟨(hgreedy evaluationPeriod _ (by decide)).2, hkeeper, by decide +kernel, k', _, hk', ?_,
    hbound, by decide +kernel⟩
  simpa [pacedLife, Operation.runs] using hcount

end TieredFootage
