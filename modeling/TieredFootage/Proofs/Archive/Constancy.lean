import TieredFootage.Archive.Lifecycle
import TieredFootage.Proofs.Evaluation.Keeping

/-!
# What stays of the keepers

An evaluation, and all that is done for a created or a deleted file, writes down
nothing about a keeper but its phase, its tally and its throttle. A modified file
sets a timer of the keeper that is told of it. Messages come and go as the clock
moves, but whatever happens, the tiers and whether their keepers are linked stay
as they are.
-/

namespace TieredFootage

/-- A keeper without what an evaluation writes down. -/
def Keeper.standing (k : Keeper) : Keeper :=
  { k with phase := .starting, tally := {}, throttle := {} }

namespace Archive

variable {a b c : Archive} {t : Tier}

/-- Nothing was written down about a keeper but its phase, tally and throttle. -/
structure Steady (a b : Archive) : Prop where
  linked_eq : b.linked = a.linked
  keepers_eq : b.keepers.map Keeper.standing = a.keepers.map Keeper.standing

namespace Steady

theorem refl (a : Archive) : Steady a a := ⟨rfl, rfl⟩

theorem trans (h : Steady a b) (h' : Steady b c) : Steady a c :=
  ⟨h'.linked_eq.trans h.linked_eq, h'.keepers_eq.trans h.keepers_eq⟩

theorem foldl {α : Type} {f : Archive → α → Archive} (hf : ∀ a x, Steady a (f a x)) (xs : List α)
    (a : Archive) : Steady a (xs.foldl f a) := by
  induction xs generalizing a with
  | nil => exact refl a
  | cons x xs ih => exact (hf a x).trans (ih (f a x))

theorem update (a : Archive) (x : Address) {f : Keeper → Keeper}
    (hf : ∀ k, (f k).standing = k.standing) : Steady a (a.update x f) := by
  refine ⟨rfl, ?_⟩
  simp only [Archive.update, Keepers.update, List.map_map]
  refine List.map_congr_left fun k _ => ?_
  rw [Function.comp_apply]
  split
  · exact hf k
  · rfl

end Steady

section Evaluation

theorem Keeping.steady (h : Keeping Keeper.standing a b) : Steady a b :=
  ⟨h.linked_eq, h.keepers_eq⟩

theorem steady_evaluate (a : Archive) (t : Tier) : Steady a (a.evaluate t).2 :=
  (keeping_evaluate (fun _ _ => rfl) a t).steady

theorem standing_leaveEvaluation (before : Phase) (k : Keeper) :
    (k.leaveEvaluation before).standing = k.standing := by
  unfold Keeper.leaveEvaluation
  split <;> rfl

theorem steady_runPolicy (a : Archive) (t : Tier) : Steady a (a.runPolicy t).2 := by
  have hentered : Steady a (a.enterEvaluation t) :=
    Steady.trans (b := { a with counters := { a.counters with
      evaluations := a.counters.evaluations + 1 } }) ⟨rfl, rfl⟩
      (Steady.update _ t.address fun _ => rfl)
  exact (hentered.trans (steady_evaluate (a.enterEvaluation t) t)).trans
    (Steady.update _ t.address (standing_leaveEvaluation (a.phaseOf t.address)))

theorem steady_checkTier (a : Archive) (t : Tier) : Steady a (a.checkTier t) := by
  unfold checkTier
  split
  case h_1 | h_2 => exact Steady.refl a
  case h_3 | h_4 =>
    split
    · exact Steady.refl a
    · split
      · exact Steady.refl a
      · rename_i throttle _
        have hacquired := Steady.update a t.address
          (f := fun k => { k with throttle := throttle }) fun _ => rfl
        refine hacquired.trans ?_
        have hrun := steady_runPolicy
          (a.update t.address fun k => { k with throttle := throttle }) t
        unfold runPolicyQuietly
        split
        · rename_i heq
          rw [heq] at hrun
          exact hrun.trans ⟨rfl, rfl⟩
        · rename_i heq
          rw [heq] at hrun
          exact hrun

end Evaluation

section Handling

theorem steady_announce (a : Archive) (t : Tier) (p : Path) : Steady a (a.announce t p) :=
  (keeping_announce a t p).steady

theorem steady_catalogue (a : Archive) (t : Tier) (p : Path) : Steady a (a.catalogue t p).2 := by
  unfold catalogue
  split
  · exact Steady.refl a
  · exact Steady.refl a
  · exact Steady.refl a
  · split
    · exact ⟨rfl, rfl⟩
    · rename_i c _
      exact Steady.trans (b := a.withCatalog c) ⟨rfl, rfl⟩ (steady_checkTier (a.withCatalog c) t)

theorem standing_enterEvent (k : Keeper) : k.enterEvent.standing = k.standing := by
  unfold Keeper.enterEvent
  split <;> rfl

theorem standing_leaveEvent (before : Phase) (k : Keeper) :
    (k.leaveEvent before).standing = k.standing := by
  unfold Keeper.leaveEvent
  split <;> rfl

theorem steady_asEvent {α : Type} {f : Archive → α × Archive} (hf : ∀ b, Steady b (f b).2)
    (a : Archive) (t : Tier) : Steady a (a.asEvent t f).2 :=
  ((Steady.update a t.address standing_enterEvent).trans
    (hf (a.update t.address Keeper.enterEvent))).trans
    (Steady.update _ t.address (standing_leaveEvent (a.phaseOf t.address)))

theorem steady_onCreated (a : Archive) (t : Tier) (p : Path) : Steady a (a.onCreated t p).2 := by
  unfold onCreated
  split
  · exact Steady.refl a
  · exact steady_asEvent
      (fun b => (steady_announce b t p).trans (steady_catalogue (b.announce t p) t p)) a t

theorem steady_onDeleted (a : Archive) (t : Tier) (p : Path) : Steady a (a.onDeleted t p).2 := by
  unfold onDeleted
  split
  · exact Steady.refl a
  · refine steady_asEvent (fun b => ?_) a t
    unfold forget
    split <;> exact ⟨rfl, rfl⟩

theorem steady_refreshSizes (ps : List Path) (a : Archive) : Steady a (a.refreshSizes ps).2 :=
  (keeping_refreshSizes ps a).steady

theorem steady_lookAgain (a : Archive) (t : Tier) (ps : List Path) :
    Steady a (a.lookAgain t ps) :=
  (steady_refreshSizes ps a).trans (Steady.foldl (fun b _ => steady_checkTier b t) _ _)

end Handling

end Archive

/-- A message that sets a timer of the tier that takes it in. -/
def Message.Wakes (m : Message) (t : Tier) : Prop :=
  ∃ p, m = .event ⟨.modified, p⟩ ∧ t.skips p = false

/-- Being told of changes, a keeper may get messages and lose its watch. What depends on
neither stays. -/
theorem Keeper.foldl_tell {α : Type} (g : Keeper → α)
    (hg : ∀ (k : Keeper) i w, g { k with inbox := i, watch := w } = g k) (d : Disk)
    (ignored : IgnoredNames) (cs : List Change) (k : Keeper) :
    g (cs.foldl (fun k c => k.tell d ignored c) k) = g k := by
  induction cs generalizing k with
  | nil => rfl
  | cons c cs ih =>
    refine (ih _).trans ?_
    dsimp only [tell]
    split
    · rfl
    · exact hg k _ _

namespace Archive

variable {a b c : Archive} {t : Tier}

theorem steady_onNotification {n : Notification} (h : ¬ (Message.event n).Wakes t) (a : Archive) :
    Steady a (a.onNotification t n).2 := by
  obtain ⟨kind, p⟩ := n
  cases kind with
  | created => exact steady_onCreated a t p
  | deleted => exact steady_onDeleted a t p
  | modified =>
    have hskips : t.skips p = true := by
      cases hp : t.skips p with
      | true => rfl
      | false => exact absurd ⟨p, rfl, hp⟩ h
    simp only [onNotification, onModified, if_pos hskips]
    exact Steady.refl a

/-- Messages that set no timer leave all keepers as they are. -/
theorem steady_takeInto {ms : List Message} (h : ∀ m ∈ ms, ¬ m.Wakes t) (a : Archive) :
    Steady a (a.takeInto t ms) := by
  suffices hin : Steady a (takeIn (sink t) ms a).2 from hin.trans ⟨rfl, rfl⟩
  induction ms generalizing a with
  | nil => exact Steady.refl a
  | cons m ms ih =>
    have hms : ∀ m ∈ ms, ¬ m.Wakes t := fun m hm => h m (List.mem_cons_of_mem _ hm)
    cases m with
    | stop => exact Steady.refl a
    | evaluate => exact (steady_checkTier a t).trans (ih hms (a.checkTier t))
    | event n =>
      exact (steady_onNotification (h _ List.mem_cons_self) a).trans
        (ih hms (a.onNotification t n).2)

/-- Whatever happened, the tiers are the same, and they are linked as before. -/
structure Lasting (a b : Archive) : Prop where
  tiers_eq : b.tiers = a.tiers
  linked_eq : b.linked = a.linked

theorem Steady.lasting (h : Steady a b) : Lasting a b := by
  refine ⟨?_, h.linked_eq⟩
  have htiers := congrArg (List.map (·.tier)) h.keepers_eq
  rwa [List.map_map, List.map_map] at htiers

namespace Lasting

theorem refl (a : Archive) : Lasting a a := ⟨rfl, rfl⟩

theorem trans (h : Lasting a b) (h' : Lasting b c) : Lasting a c :=
  ⟨h'.tiers_eq.trans h.tiers_eq, h'.linked_eq.trans h.linked_eq⟩

theorem foldl {α : Type} {f : Archive → α → Archive} (hf : ∀ a x, Lasting a (f a x)) (xs : List α)
    (a : Archive) : Lasting a (xs.foldl f a) := by
  induction xs generalizing a with
  | nil => exact refl a
  | cons x xs ih => exact (hf a x).trans (ih (f a x))

theorem update (a : Archive) (x : Address) {f : Keeper → Keeper} (hf : ∀ k, (f k).tier = k.tier) :
    Lasting a (a.update x f) :=
  ⟨tiers_update a x hf, rfl⟩

end Lasting

theorem lasting_onNotification (a : Archive) (t : Tier) (n : Notification) :
    Lasting a (a.onNotification t n).2 := by
  obtain ⟨kind, p⟩ := n
  cases kind with
  | created => exact (steady_onCreated a t p).lasting
  | deleted => exact (steady_onDeleted a t p).lasting
  | modified =>
    simp only [onNotification, onModified]
    split
    · exact Lasting.refl a
    · exact Lasting.update a t.address fun _ => rfl

theorem lasting_takeInto (a : Archive) (t : Tier) (ms : List Message) :
    Lasting a (a.takeInto t ms) := by
  suffices hin : Lasting a (takeIn (sink t) ms a).2 from hin.trans ⟨rfl, rfl⟩
  induction ms generalizing a with
  | nil => exact Lasting.refl a
  | cons m ms ih =>
    cases m with
    | stop => exact Lasting.refl a
    | evaluate => exact (steady_checkTier a t).lasting.trans (ih (a.checkTier t))
    | event n => exact (lasting_onNotification a t n).trans (ih (a.onNotification t n).2)

section Clock

theorem lasting_deliver (a : Archive) : Lasting a a.deliver := by
  refine ⟨?_, rfl⟩
  simp only [tiers, deliver, List.map_map]
  exact List.map_congr_left fun k _ => k.foldl_tell (·.tier) (fun _ _ _ => rfl) _ a.ignored _

theorem lasting_takeInbox (a : Archive) (x : Address) : Lasting a (a.takeInbox x) := by
  unfold takeInbox
  split
  · exact Lasting.refl a
  · split
    · exact Lasting.refl a
    · exact Lasting.refl a
    · have hopened := Lasting.update a x (f := fun k => { k with inbox := some [] }) fun _ => rfl
      exact (hopened.trans (lasting_takeInto _ _ _)).trans (lasting_deliver _)

theorem lasting_rounds (n : Nat) (a : Archive) : Lasting a (rounds n a) := by
  induction n generalizing a with
  | zero => exact Lasting.refl a
  | succ n ih =>
    rw [rounds]
    split
    · exact (Lasting.foldl lasting_takeInbox _ a).trans (ih a.round)
    · exact Lasting.refl a

theorem lasting_settle (a : Archive) : Lasting a a.settle :=
  (lasting_deliver a).trans (lasting_rounds _ _)

theorem lasting_fireTimers (a : Archive) (x : Address) : Lasting a (a.fireTimers x) := by
  unfold fireTimers
  split
  · exact Lasting.refl a
  · dsimp only
    split
    · exact Lasting.refl a
    · have helapsed := Lasting.update a x
        (f := fun k => { k with debouncer := k.debouncer.elapse a.now }) fun _ => rfl
      exact helapsed.trans (steady_lookAgain _ _ _).lasting

theorem lasting_sweep (a : Archive) : Lasting a a.sweep := by
  refine ⟨?_, rfl⟩
  simp only [tiers, sweep, List.map_map]
  rfl

theorem lasting_fire (a : Archive) : Lasting a a.fire := by
  have hsweeps : ∀ b : Archive, Lasting b b.fireSweeps := fun b =>
    (Lasting.foldl (f := fun a _ => a.sweep) (fun a _ => lasting_sweep a)
      (b.sweeps.filter fun s => decide (s ≤ b.now)) b).trans ⟨rfl, rfl⟩
  exact ((Lasting.foldl lasting_fireTimers _ a).trans (hsweeps _)).trans (lasting_settle _)

theorem lasting_advanceWithin (fuel : Nat) (moment : Int) (a : Archive) :
    Lasting a (advanceWithin fuel moment a) := by
  induction fuel generalizing a with
  | zero => exact ⟨rfl, rfl⟩
  | succ fuel ih =>
    rw [advanceWithin]
    split
    · exact ⟨rfl, rfl⟩
    · split
      · rename_i stop _ _
        exact Lasting.trans (b := { a with now := max a.now stop }) ⟨rfl, rfl⟩
          ((lasting_fire _).trans (ih _))
      · exact ⟨rfl, rfl⟩

theorem lasting_advanceTo (a : Archive) (moment : Int) : Lasting a (a.advanceTo moment) :=
  (lasting_advanceWithin _ moment a).trans (lasting_settle _)

end Clock

section Lifecycle

theorem lasting_halt (a : Archive) (x : Address) : Lasting a (a.halt x) :=
  (lasting_takeInbox a x).trans (Lasting.update _ x fun _ => rfl)

theorem lasting_drainOnStop (a : Archive) (t : Tier) : Lasting a (a.drainOnStop t) := by
  unfold drainOnStop
  split
  · exact (keeping_drain (fun _ _ => rfl) a t).steady.lasting.trans (lasting_settle _)
  · exact Lasting.refl a

theorem lasting_flush? {fuel : Nat} {x : Address} (h : flush? fuel x a = some b) : Lasting a b := by
  induction fuel generalizing a with
  | zero =>
    rw [flush?] at h
    split at h
    · cases h
    · exact Option.some.inj h ▸ Lasting.refl a
  | succ fuel ih =>
    rw [flush?] at h
    split at h
    · have hstop : Lasting a.settle a.settle.toNextStop := by
        unfold toNextStop
        split
        · exact Lasting.refl _
        · exact lasting_advanceTo _ _
      exact ((lasting_settle a).trans hstop).trans (ih h)
    · exact Option.some.inj h ▸ Lasting.refl a

end Lifecycle

end Archive

end TieredFootage
