import TieredFootage.Proofs.Archive.Cataloguing
import TieredFootage.Proofs.Archive.Phases
import TieredFootage.Proofs.Timer.Throttling

/-!
# Requests for an evaluation

A keeper is asked for an evaluation when a file was created, when a modified file has been
quiet, and by messages. Whoever asks, the request goes to the throttle of the keeper.

Seen from one keeper, what happens at one moment comes down to beats: something that the
keeper takes no notice of, or a request. In the course of time there are beats, and time
passes. So whatever handling events, moving the clock, starting and stopping do besides,
what a request does to the pace of a keeper (`checkTier_of_get?`) is all there is to know.
-/

namespace TieredFootage

open Relation

/-- What decides when a keeper evaluates, and how often it has. -/
structure Pace where
  tier : Tier
  throttle : Throttle
  evaluations : Nat

namespace Pace

/-- The pace after the throttle was called at some moments, and the tier was evaluated `runs`
times without asking the throttle. -/
def after (p : Pace) (calls : List Int) (runs : Nat) : Pace :=
  { p with
    throttle := p.throttle.after calls
    evaluations := p.evaluations + (p.throttle.passing calls).length + runs }

theorem after_append (p : Pace) (xs ys : List Int) (m n : Nat) :
    p.after (xs ++ ys) (m + n) = (p.after xs m).after ys n := by
  simp only [after, Throttle.after_append, Throttle.passing_append, List.length_append, mk.injEq,
    true_and]
  omega

end Pace

def Keeper.pace (k : Keeper) : Pace := ⟨k.tier, k.throttle, k.tally.evaluations⟩

theorem Keeper.pace_record (k : Keeper) (e : Eviction) : (k.record e).pace = k.pace := by
  cases e <;> rfl

/-- The calls of the throttle that a request at a moment comes down to: where files only
follow others, there is none. -/
def Role.calls (now : Int) : Role → List Int
  | .thumbnails | .clips => []
  | .plain _ | .segments _ _ => [now]

namespace Archive

variable {a b c : Archive} {t : Tier} {x y : Address} {k : Keeper}

/-- The pace of the keeper at an address. -/
def pace? (a : Archive) (x : Address) : Option Pace := (a.keepers.get? x).map Keeper.pace

theorem Keeping.pace?_eq (h : Keeping Keeper.pace a b) (x : Address) : b.pace? x = a.pace? x :=
  h.map_get? (f := fun p => p.tier.address) (fun _ => rfl) x

section Asking

/-- A keeper that is changed has another pace, and no other keeper has. -/
theorem pace?_update (a : Archive) (y x : Address) {f : Keeper → Keeper} {h : Pace → Pace}
    (hf : ∀ k, (f k).pace = h k.pace) (hh : ∀ p, (h p).tier = p.tier) :
    (a.update y f).pace? x = (a.pace? x).map fun p => if y = x then h p else p := by
  have haddress : ∀ k, (f k).address = k.address := fun k =>
    congrArg Tier.address ((congrArg Pace.tier (hf k)).trans (hh k.pace))
  unfold pace? Archive.update
  split
  · rename_i hy
    subst hy
    rw [Keepers.get?_update_self _ _ f haddress, Option.map_map, Option.map_map]
    exact congrArg (Option.map · _) (funext hf)
  · rename_i hy
    rw [Keepers.get?_update_ne _ f haddress (Ne.symm hy), Option.map_id']

/-- A tier that is evaluated counts that, and no other tier does. -/
theorem runPolicy_pace? (a : Archive) (t : Tier) (x : Address) :
    (a.runPolicy t).2.now = a.now ∧
      (a.runPolicy t).2.pace? x = (a.pace? x).map fun p =>
        if t.address = x then { p with evaluations := p.evaluations + 1 } else p := by
  have hleft : ∀ b : Archive, Keeping Keeper.pace b
      (b.update t.address (Keeper.leaveEvaluation (a.phaseOf t.address))) := fun b => by
    refine Keeping.update b t.address fun k => ?_
    unfold Keeper.leaveEvaluation
    split <;> rfl
  have hinside : Keeping Keeper.pace (a.enterEvaluation t) (a.runPolicy t).2 :=
    (keeping_evaluate Keeper.pace_record (a.enterEvaluation t) t).trans (hleft _)
  exact ⟨hinside.now_eq, (hinside.pace?_eq x).trans
    (pace?_update _ t.address x (fun _ => rfl) fun _ => rfl)⟩

theorem runPolicyQuietly_pace? (a : Archive) (t : Tier) (x : Address) :
    (a.runPolicyQuietly t).now = a.now ∧
      (a.runPolicyQuietly t).pace? x = (a.pace? x).map fun p =>
        if t.address = x then { p with evaluations := p.evaluations + 1 } else p := by
  have hrun := runPolicy_pace? a t x
  unfold runPolicyQuietly
  split <;> (rename_i heq; rw [heq] at hrun; exact hrun)

/-- A keeper that is let pass is evaluated once, and its throttle is the one it is given. -/
theorem pace?_evaluated (a : Archive) (t : Tier) (throttle : Throttle) (x : Address) :
    ((a.update t.address fun k => { k with throttle := throttle }).runPolicyQuietly t).now = a.now ∧
      ((a.update t.address fun k => { k with throttle := throttle }).runPolicyQuietly t).pace? x =
        (a.pace? x).map fun p => if t.address = x then
          { p with throttle := throttle, evaluations := p.evaluations + 1 } else p := by
  obtain ⟨hnow, hpace⟩ := runPolicyQuietly_pace?
    (a.update t.address fun k => { k with throttle := throttle }) t x
  refine ⟨hnow, hpace.trans ?_⟩
  rw [pace?_update a t.address x (h := fun p => { p with throttle := throttle }) (fun _ => rfl)
    fun _ => rfl, Option.map_map]
  refine congrArg (Option.map · _) (funext fun p => ?_)
  rw [Function.comp_apply]
  split <;> rfl

/-- A request goes to the throttle of its keeper, unless the files of its tier only follow. -/
theorem checkTier_of_get? (hk : a.keepers.get? x = some k) :
    (a.checkTier k.tier).now = a.now ∧
      (a.checkTier k.tier).pace? x = some (k.pace.after (k.tier.role.calls a.now) 0) := by
  have hpace : a.pace? x = some k.pace := by rw [pace?, hk, Option.map_some]
  obtain rfl : k.tier.address = x := (mem_of_get? hk).2
  unfold checkTier
  split
  case h_1 hrole | h_2 hrole =>
    rw [hrole]
    exact ⟨rfl, hpace⟩
  case h_3 hrole | h_4 hrole =>
    rw [hrole, hk, Role.calls]
    dsimp only
    cases hopen : k.throttle.isOpen a.now with
    | false =>
      have hcall : k.pace.after [a.now] 0 = k.pace := by
        simp [Pace.after, Throttle.after, Throttle.passing, Keeper.pace,
          Throttle.acquire_of_not_isOpen hopen]
      rw [Throttle.acquire_of_not_isOpen hopen, hcall]
      exact ⟨rfl, hpace⟩
    | true =>
      have hcall : k.pace.after [a.now] 0 = { k.pace with
          throttle := { k.throttle with lastRun := some a.now }
          evaluations := k.tally.evaluations + 1 } := by
        simp [Pace.after, Throttle.after, Throttle.passing, Keeper.pace,
          Throttle.acquire_of_isOpen hopen]
      obtain ⟨hnow, hevaluated⟩ := pace?_evaluated a k.tier
        { k.throttle with lastRun := some a.now } k.tier.address
      rw [hpace, Option.map_some, if_pos rfl] at hevaluated
      rw [Throttle.acquire_of_isOpen hopen, hcall]
      exact ⟨hnow, hevaluated⟩

/-- Another keeper takes no notice of a request. -/
theorem checkTier_of_ne (h : t.address ≠ x) (a : Archive) :
    (a.checkTier t).now = a.now ∧ (a.checkTier t).pace? x = a.pace? x := by
  unfold checkTier
  split
  case h_1 | h_2 => exact ⟨rfl, rfl⟩
  case h_3 | h_4 =>
    split
    · exact ⟨rfl, rfl⟩
    · split
      · exact ⟨rfl, rfl⟩
      · obtain ⟨hnow, hevaluated⟩ := pace?_evaluated a t _ x
        simp only [if_neg h, Option.map_id'] at hevaluated
        exact ⟨hnow, hevaluated⟩

end Asking

/-- Doing one thing after the other is a chain of steps if each of them is. -/
theorem chain_foldl {α : Type} {r : Archive → Archive → Prop} {f : Archive → α → Archive}
    (hf : ∀ b z, ReflTransGen r b (f b z)) (zs : List α) (a : Archive) :
    ReflTransGen r a (zs.foldl f a) := by
  induction zs generalizing a with
  | nil => exact ReflTransGen.refl
  | cons z zs ih => exact (hf a z).trans (ih (f a z))

/-- What happens at one moment, seen from the keeper at an address: it takes no notice, or it is
asked for an evaluation. -/
inductive Beat (x : Address) : Archive → Archive → Prop
  | aside {a b : Archive} (hnow : b.now = a.now) (hpace : b.pace? x = a.pace? x) : Beat x a b
  | request {a : Archive} {k : Keeper} (hk : a.keepers.get? x = some k) :
      Beat x a (a.checkTier k.tier)

/-- What happens at one moment, one thing after the other. -/
abbrev Beats (x : Address) : Archive → Archive → Prop := ReflTransGen (Beat x)

/-- If a tier stands at an address, it is the tier of the keeper there. -/
def Knows (a : Archive) (x : Address) (t : Tier) : Prop :=
  t.address = x → ∀ u, a.tierAt? x = some u → u = t

theorem knows_of_get? (hk : a.keepers.get? y = some k) : a.Knows x k.tier := by
  rintro rfl u hu
  obtain rfl : k.tier.address = y := (mem_of_get? hk).2
  rw [tierAt?, hk] at hu
  exact (Option.some.inj hu).symm

theorem tierAt?_eq_map (a : Archive) (x : Address) : a.tierAt? x = (a.pace? x).map Pace.tier := by
  rw [pace?, Option.map_map]
  rfl

theorem Keeping.beats (h : Keeping Keeper.pace a b) : Beats x a b :=
  ReflTransGen.single (Beat.aside h.now_eq (h.pace?_eq x))

theorem beats_update (a : Archive) (y : Address) {f : Keeper → Keeper}
    (hf : ∀ k, (f k).pace = k.pace) : Beats x a (a.update y f) := (Keeping.update a y hf).beats

theorem beats_map {f : Keeper → Keeper} (hf : ∀ k, (f k).pace = k.pace) (hnow : b.now = a.now)
    (hlinked : b.linked = a.linked) (hkeepers : b.keepers = a.keepers.map f) : Beats x a b :=
  (Keeping.map hnow hlinked hkeepers hf).beats

namespace Beats

theorem now_eq (h : Beats x a b) : b.now = a.now := by
  induction h with
  | refl => rfl
  | tail _ hbeat ih =>
    refine Eq.trans ?_ ih
    cases hbeat with
    | aside hnow hpace => exact hnow
    | request hk => exact (checkTier_of_get? hk).1

theorem tierAt?_eq (h : Beats x a b) : b.tierAt? x = a.tierAt? x := by
  induction h with
  | refl => rfl
  | tail _ hbeat ih =>
    refine Eq.trans ?_ ih
    cases hbeat with
    | aside hnow hpace => rw [tierAt?_eq_map, tierAt?_eq_map, hpace]
    | request hk =>
      rw [tierAt?_eq_map, (checkTier_of_get? hk).2, tierAt?, hk]
      rfl

theorem knows (h : Beats x a b) (ha : a.Knows x t) : b.Knows x t :=
  fun ht u hu => ha ht u (h.tierAt?_eq ▸ hu)

/-- Doing one thing after the other for a tier takes place at one moment if each of them does. -/
theorem foldl {α : Type} {f : Archive → α → Archive}
    (hf : ∀ b, b.Knows x t → ∀ z, Beats x b (f b z)) (ha : a.Knows x t) (zs : List α) :
    Beats x a (zs.foldl f a) := by
  induction zs generalizing a with
  | nil => exact ReflTransGen.refl
  | cons z zs ih => exact (hf a ha z).trans (ih ((hf a ha z).knows ha))

end Beats

section Handling

theorem beats_checkTier (ha : a.Knows x t) : Beats x a (a.checkTier t) := by
  by_cases hx : t.address = x
  · cases hk : a.keepers.get? x with
    | none =>
      subst hx
      unfold checkTier
      split
      case h_1 | h_2 => exact ReflTransGen.refl
      case h_3 | h_4 => rw [hk]
    | some k =>
      obtain rfl : k.tier = t := ha hx k.tier (by rw [tierAt?, hk, Option.map_some])
      exact ReflTransGen.single (Beat.request hk)
  · obtain ⟨hnow, hpace⟩ := checkTier_of_ne hx a
    exact ReflTransGen.single (Beat.aside hnow hpace)

theorem beats_catalogue (ha : a.Knows x t) (p : Path) : Beats x a (a.catalogue t p).2 := by
  unfold catalogue
  split
  · exact ReflTransGen.refl
  · exact ReflTransGen.refl
  · exact ReflTransGen.refl
  · split
    · exact ReflTransGen.single (Beat.aside rfl rfl)
    · rename_i c _
      have hinserted : Beats x a (a.withCatalog c) := ReflTransGen.single (Beat.aside rfl rfl)
      exact hinserted.trans (beats_checkTier (hinserted.knows ha))

theorem beats_asEvent {α : Type} {f : Archive → α × Archive}
    (hf : ∀ b, b.Knows x t → Beats x b (f b).2) (ha : a.Knows x t) :
    Beats x a (a.asEvent t f).2 := by
  have hentered : Beats x a (a.update t.address Keeper.enterEvent) := by
    refine beats_update a t.address fun k => ?_
    unfold Keeper.enterEvent
    split <;> rfl
  refine (hentered.trans (hf _ (hentered.knows ha))).trans ?_
  refine beats_update _ t.address fun k => ?_
  unfold Keeper.leaveEvent
  split <;> rfl

theorem beats_onNotification (ha : a.Knows x t) (n : Notification) :
    Beats x a (a.onNotification t n).2 := by
  unfold onNotification
  split
  · unfold onCreated
    split
    · exact ReflTransGen.refl
    · refine beats_asEvent (fun b hb => ?_) ha
      have hannounced : Beats x b (b.announce t n.path) := (keeping_announce b t n.path).beats
      exact hannounced.trans (beats_catalogue (hannounced.knows hb) n.path)
  · unfold onModified
    split
    · exact ReflTransGen.refl
    · exact beats_update a t.address fun _ => rfl
  · unfold onDeleted
    split
    · exact ReflTransGen.refl
    · refine beats_asEvent (fun b _ => ?_) ha
      unfold forget
      split <;> exact ReflTransGen.single (Beat.aside rfl rfl)

theorem beats_takeInto (ha : a.Knows x t) (ms : List Message) : Beats x a (a.takeInto t ms) := by
  suffices hin : Beats x a (takeIn (sink t) ms a).2 from
    hin.trans (ReflTransGen.single (Beat.aside rfl rfl))
  induction ms generalizing a with
  | nil => exact ReflTransGen.refl
  | cons m ms ih =>
    cases m with
    | stop => exact ReflTransGen.refl
    | evaluate => exact (beats_checkTier ha).trans (ih ((beats_checkTier ha).knows ha))
    | event n => exact (beats_onNotification ha n).trans (ih ((beats_onNotification ha n).knows ha))

theorem beats_lookAgain (ha : a.Knows x t) (ps : List Path) : Beats x a (a.lookAgain t ps) := by
  have hrefreshed : Beats x a (a.refreshSizes ps).2 := (keeping_refreshSizes ps a).beats
  exact hrefreshed.trans (Beats.foldl (fun b hb _ => beats_checkTier hb) (hrefreshed.knows ha) _)

end Handling

section Clock

theorem beats_deliver (a : Archive) (x : Address) : Beats x a a.deliver :=
  beats_map (fun k => k.foldl_tell Keeper.pace (fun _ _ _ => rfl) _ a.ignored _) rfl rfl rfl

theorem beats_takeInbox (a : Archive) (y : Address) : Beats x a (a.takeInbox y) := by
  unfold takeInbox
  split
  · exact ReflTransGen.refl
  · rename_i k hk
    split
    · exact ReflTransGen.refl
    · exact ReflTransGen.refl
    · have hopened : Beats x a (a.update y fun k => { k with inbox := some [] }) :=
        beats_update a y fun _ => rfl
      exact (hopened.trans (beats_takeInto (hopened.knows (knows_of_get? hk)) _)).trans
        (beats_deliver _ x)

theorem beats_rounds (n : ℕ) (a : Archive) : Beats x a (rounds n a) := by
  induction n generalizing a with
  | zero => exact ReflTransGen.refl
  | succ n ih =>
    rw [rounds]
    split
    · exact (chain_foldl beats_takeInbox _ a).trans (ih a.round)
    · exact ReflTransGen.refl

theorem beats_settle (a : Archive) (x : Address) : Beats x a a.settle :=
  (beats_deliver a x).trans (beats_rounds _ _)

theorem beats_fireTimers (a : Archive) (y : Address) : Beats x a (a.fireTimers y) := by
  unfold fireTimers
  split
  · exact ReflTransGen.refl
  · rename_i k hk
    dsimp only
    split
    · exact ReflTransGen.refl
    · have helapsed : Beats x a
          (a.update y fun k => { k with debouncer := k.debouncer.elapse a.now }) :=
        beats_update a y fun _ => rfl
      exact helapsed.trans (beats_lookAgain (helapsed.knows (knows_of_get? hk)) _)

theorem beats_fire (a : Archive) (x : Address) : Beats x a a.fire := by
  have hsweep : ∀ b : Archive, Beats x b b.sweep := fun b =>
    beats_map (f := (·.send .evaluate)) (fun _ => rfl) rfl rfl rfl
  have hsweeps : ∀ b : Archive, Beats x b b.fireSweeps := fun b =>
    (chain_foldl (f := fun b (_ : Int) => b.sweep) (fun b _ => hsweep b)
      (b.sweeps.filter fun s => decide (s ≤ b.now)) b).trans
      (ReflTransGen.single (Beat.aside rfl rfl))
  exact ((chain_foldl beats_fireTimers _ a).trans (hsweeps _)).trans (beats_settle _ x)

end Clock

/-- What happens in the course of time: what happens at one moment, and time that passes. -/
inductive Stride (x : Address) : Archive → Archive → Prop
  | beat {a b : Archive} (h : Beat x a b) : Stride x a b
  | wait {a b : Archive} (hnow : a.now ≤ b.now) (hpace : b.pace? x = a.pace? x) : Stride x a b

/-- What happens in the course of time, one thing after the other. -/
abbrev Course (x : Address) : Archive → Archive → Prop := ReflTransGen (Stride x)

theorem Beats.course (h : Beats x a b) : Course x a b :=
  ReflTransGen.mono (fun _ _ => Stride.beat) _ _ h

section Course

theorem course_advanceWithin (fuel : ℕ) {moment : Int} (h : a.now ≤ moment) :
    Course x a (advanceWithin fuel moment a) ∧ (advanceWithin fuel moment a).now = moment := by
  have hwait : ∀ {b : Archive} {m : Int}, b.now ≤ m → Course x b { b with now := m } :=
    fun hm => ReflTransGen.single (Stride.wait hm rfl)
  induction fuel generalizing a with
  | zero => exact ⟨hwait h, rfl⟩
  | succ fuel ih =>
    rw [advanceWithin]
    split
    · exact ⟨hwait h, rfl⟩
    · rename_i stop _
      split
      · rename_i hstop
        have hfired := beats_fire { a with now := max a.now stop } x
        obtain ⟨hrest, hnow⟩ := ih (hfired.now_eq.trans_le (max_le h hstop))
        exact ⟨((hwait (le_max_left _ _)).trans hfired.course).trans hrest, hnow⟩
      · exact ⟨hwait h, rfl⟩

theorem course_advanceTo {moment : Int} (h : a.now ≤ moment) : Course x a (a.advanceTo moment) :=
  (course_advanceWithin _ h).1.trans (beats_settle _ x).course

theorem course_toNextStop (a : Archive) : Course x a a.toNextStop := by
  unfold toNextStop
  split
  · exact ReflTransGen.refl
  · exact course_advanceTo (le_max_left _ _)

theorem course_drainOnStop (a : Archive) (t : Tier) : Course x a (a.drainOnStop t) := by
  unfold drainOnStop
  split
  · have hdrained : Beats x a (a.drain t).2 := (keeping_drain Keeper.pace_record a t).beats
    exact hdrained.course.trans (beats_settle _ x).course
  · exact ReflTransGen.refl

theorem course_flush? {fuel : ℕ} (h : flush? fuel y a = some b) : Course x a b := by
  induction fuel generalizing a with
  | zero =>
    rw [flush?] at h
    split at h
    · cases h
    · exact Option.some.inj h ▸ ReflTransGen.refl
  | succ fuel ih =>
    rw [flush?] at h
    split at h
    · exact ((beats_settle a x).course.trans (course_toNextStop _)).trans (ih h)
    · exact Option.some.inj h ▸ ReflTransGen.refl

theorem beats_setPhase (a : Archive) (y : Address) (q : Phase) : Beats x a (a.setPhase y q) :=
  beats_update a y fun _ => rfl

theorem beats_halt (a : Archive) (y : Address) : Beats x a (a.halt y) :=
  (beats_takeInbox a y).trans (beats_update _ y fun _ => rfl)

theorem beats_haltIdle (ys : List Address) (a : Archive) : Beats x a (a.haltIdle ys) := by
  refine chain_foldl (fun b y => ?_) ys a
  split
  · exact ReflTransGen.refl
  · exact beats_halt b y

theorem course_haltAll? {fuel : ℕ} {ys : List Address} (h : haltAll? fuel ys a = some b) :
    Course x a b := by
  have hidle : ∀ ys, Course x a (a.haltIdle ys) := fun ys => (beats_haltIdle ys a).course
  induction fuel generalizing a ys with
  | zero =>
    rw [haltAll?] at h
    split at h
    · exact Option.some.inj h ▸ hidle ys
    · cases h
  | succ fuel ih =>
    rw [haltAll?] at h
    split at h
    · exact Option.some.inj h ▸ hidle ys
    · exact (((hidle ys).trans (beats_settle _ x).course).trans (course_toNextStop _)).trans
        (ih h fun ys => (beats_haltIdle ys _).course)

theorem course_shutdown (h : a.shutdown t = some b) : Course x a b := by
  obtain ⟨c, hc, rfl⟩ := Option.map_eq_some_iff.1 h
  exact (((beats_setPhase a t.address .shuttingDown).course.trans (course_drainOnStop _ t)).trans
    (course_flush? hc)).trans (beats_halt c t.address).course

theorem course_shutdownAll (h : a.shutdownAll = some b) : Course x a b := by
  unfold shutdownAll at h
  have hstopping : Beats x a { a with isStopping := true, sweeps := [] } :=
    ReflTransGen.single (Beat.aside rfl rfl)
  have hphases : Beats x { a with isStopping := true, sweeps := [] }
      ((a.keepers.map (·.tier)).foldl (fun a t => a.setPhase t.address .shuttingDown)
        { a with isStopping := true, sweeps := [] }) :=
    chain_foldl (fun b (t : Tier) => beats_setPhase b t.address .shuttingDown) _ _
  exact ((hstopping.course.trans (hphases.course.trans (beats_haltIdle _ _).course)).trans
    (chain_foldl course_drainOnStop _ _)).trans (course_haltAll? h)

theorem beats_registerAll (rs : List FileRoute) (a : Archive) :
    Beats x a (a.registerAll rs).2 := by
  obtain ⟨t, ht⟩ := registerAll_eq rs a
  rw [ht]
  exact ReflTransGen.single (Beat.aside rfl rfl)

theorem beats_start (a : Archive) (t : Tier) : Beats x a (a.start t).2 := by
  have hstarting := beats_setPhase (x := x) a t.address .starting
  have hdisk : ∀ (b : Archive) (d : Disk), Beats x b (b.withDisk d) :=
    fun _ _ => ReflTransGen.single (Beat.aside rfl rfl)
  unfold start
  dsimp only
  split
  · exact hstarting.trans (hdisk _ _)
  · rename_i d _
    have hregistered := (hstarting.trans (hdisk _ d)).trans (beats_registerAll t.routes _)
    split
    · rename_i heq
      rw [heq] at hregistered
      exact hregistered
    · rename_i c heq
      rw [heq] at hregistered
      exact (hregistered.trans (beats_deliver c x)).trans (beats_update _ t.address fun _ => rfl)

theorem beats_startEach (ts : List Tier) (a : Archive) : Beats x a (a.startEach ts).2 := by
  induction ts generalizing a with
  | nil => exact ReflTransGen.refl
  | cons t ts ih =>
    have hstarted := beats_start (x := x) a t
    rw [startEach]
    split
    · rename_i heq
      rw [heq] at hstarted
      exact hstarted
    · rename_i b heq
      rw [heq] at hstarted
      have hrest := hstarted.trans (ih b)
      split <;> (rename_i heq; rw [heq] at hrest; exact hrest)

theorem beats_startAll (a : Archive) (x : Address) : Beats x a a.startAll.2 := by
  have heach := beats_startEach (x := x) (a.keepers.map (·.tier)) a
  unfold startAll
  split
  · rename_i heq
    rw [heq] at heach
    exact heach
  · rename_i heq
    rw [heq] at heach
    split
    · split
      · exact heach
      · exact heach.trans (ReflTransGen.single (Beat.aside rfl rfl))
    · exact heach

end Course

end Archive

end TieredFootage
