import TieredFootage.Proofs.Archive.Operations
import TieredFootage.Proofs.Archive.Quiet

/-!
# The phases between operations

An event and an evaluation put the keeper into a phase of their own and put it back
when they are left. Both do so by one pattern, a bracket: what happens inside leaves
all phases as it finds them, so what is left is what was entered. Brackets nest, and it
does not matter what fails inside. So between operations a keeper is only ever in the
phase that its last start or its last shutdown left it in. Only an operation in which
something cannot be represented breaks off, and nothing is said of what comes after it.

When all keepers are stopped together, some are passed over for as long as their quiet
periods last. One keeper that stops does not touch the quiet periods of another, so the
ones that were passed over are among those that are waited for.
-/

namespace TieredFootage

namespace Archive

variable {a b : Archive} {t : Tier} {x y : Address} {p q : Phase}

/-- The phase of the keeper at an address. -/
def phase? (a : Archive) (x : Address) : Option Phase := (a.keepers.get? x).map (·.phase)

section Update

theorem phase?_update_ne (a : Archive) (y : Address) {f : Keeper → Keeper}
    (hf : ∀ k, (f k).address = k.address) (h : x ≠ y) : (a.update y f).phase? x = a.phase? x := by
  unfold phase? Archive.update
  rw [Keepers.get?_update_ne a.keepers f hf h]

theorem phase?_update_self (a : Archive) (x : Address) {f : Keeper → Keeper}
    (hf : ∀ k, (f k).address = k.address) :
    (a.update x f).phase? x = (a.keepers.get? x).map fun k => (f k).phase := by
  unfold phase? Archive.update
  rw [Keepers.get?_update_self a.keepers x f hf, Option.map_map]
  rfl

/-- A keeper that is changed in other ways stays in its phase. -/
theorem phase?_update (a : Archive) (y : Address) {f : Keeper → Keeper}
    (hf : ∀ k, (f k).address = k.address) (hphase : ∀ k, (f k).phase = k.phase) :
    (a.update y f).phase? = a.phase? := by
  funext x
  by_cases h : x = y
  · subst h
    rw [phase?_update_self a x hf]
    simp only [hphase]
    rfl
  · exact phase?_update_ne a y hf h

/-- A keeper is put into a phase, and no other keeper is. -/
theorem phase?_put (hp : a.phase? x = some p) (y : Address) {f : Keeper → Keeper}
    (hf : ∀ k, (f k).address = k.address) (hphase : ∀ k, (f k).phase = q) :
    (a.update y f).phase? x = some (if x = y then q else p) := by
  split
  · rename_i h
    subst h
    obtain ⟨k, hk, -⟩ := Option.map_eq_some_iff.1 hp
    rw [phase?_update_self a x hf, hk, Option.map_some, hphase]
  · rename_i h
    rw [phase?_update_ne a y hf h, hp]

end Update

/-- Whatever keeps the phases, done between entering and leaving, is done without a trace
in them, if leaving undoes what entering does. -/
theorem phase?_bracket (enter leave : Keeper → Keeper)
    (henter : ∀ k, (enter k).address = k.address) (hleave : ∀ k, (leave k).address = k.address)
    (hback : ∀ k, a.keepers.get? x = some k →
      ∀ k' : Keeper, k'.phase = (enter k).phase → (leave k').phase = k.phase)
    (hinside : b.phase? = (a.update x enter).phase?) :
    (b.update x leave).phase? = a.phase? := by
  funext y
  by_cases hy : y = x
  · subst hy
    have hsame := congrFun hinside y
    rw [phase?_update_self a y henter] at hsame
    rw [phase?_update_self b y hleave]
    unfold phase? at hsame ⊢
    cases hk : a.keepers.get? y with
    | none =>
      rw [hk, Option.map_none, Option.map_eq_none_iff] at hsame
      rw [hsame]
      rfl
    | some k =>
      rw [hk, Option.map_some] at hsame
      obtain ⟨k', hk', hphase⟩ := Option.map_eq_some_iff.1 hsame
      rw [hk', Option.map_some, Option.map_some, hback k hk k' hphase]
  · rw [phase?_update_ne b x hleave hy, hinside, phase?_update_ne a x henter hy]

theorem phase?_foldl {α : Type} {f : Archive → α → Archive} (hf : ∀ a x, (f a x).phase? = a.phase?)
    (xs : List α) (a : Archive) : (xs.foldl f a).phase? = a.phase? := by
  induction xs generalizing a with
  | nil => rfl
  | cons x xs ih => exact (ih (f a x)).trans (hf a x)

section Evaluation

/-- What keeps the phase that stands at each address keeps all phases. -/
theorem Keeping.phase?_eq (h : Keeping (fun k => (k.address, k.phase)) a b) :
    b.phase? = a.phase? := by
  funext x
  have hview := congrArg (Option.map Prod.snd) (h.map_get? (f := Prod.fst) (fun _ => rfl) x)
  rwa [Option.map_map, Option.map_map] at hview

theorem phase?_evictFrom (a : Archive) (t : Tier) (p fileRoot : Path) :
    (a.evictFrom t p fileRoot).2.phase? = a.phase? :=
  (keeping_evictFrom (fun _ _ => rfl) a t p fileRoot).phase?_eq

theorem phase?_moveThumbnail (a : Archive) (t : Tier) (i : Int) :
    (a.moveThumbnail t i).phase? = a.phase? :=
  (keeping_moveThumbnail (fun _ _ => rfl) a t i).phase?_eq

theorem phase?_moveClip (a : Archive) (t : Tier) (i : Int) :
    (a.moveClip t i).phase? = a.phase? :=
  (keeping_moveClip (fun _ _ => rfl) a t i).phase?_eq

theorem phase?_evaluate (a : Archive) (t : Tier) : (a.evaluate t).2.phase? = a.phase? :=
  (keeping_evaluate (fun _ _ => rfl) a t).phase?_eq

/-- An evaluation that has been left has left no trace, however it ended. -/
theorem phase?_runPolicy (a : Archive) (t : Tier) : (a.runPolicy t).2.phase? = a.phase? := by
  refine phase?_bracket Keeper.enterEvaluation _ (fun _ => rfl) (fun k => ?_)
    (fun k hk k' hphase => ?_) (phase?_evaluate (a.enterEvaluation t) t)
  · exact congrArg Tier.address (tier_leaveEvaluation _ k)
  · have hbefore : a.phaseOf t.address = k.phase := by rw [phaseOf, hk]; rfl
    unfold Keeper.leaveEvaluation
    rw [if_pos (show k'.phase = .evaluating from hphase), hbefore]

theorem phase?_checkTier (a : Archive) (t : Tier) : (a.checkTier t).phase? = a.phase? := by
  unfold checkTier
  split
  case h_1 | h_2 => rfl
  case h_3 | h_4 =>
    split
    · rfl
    · split
      · rfl
      · rename_i throttle _
        have hacquired : (a.update t.address fun k => { k with throttle := throttle }).phase? =
            a.phase? := phase?_update a t.address (fun _ => rfl) fun _ => rfl
        have hrun :=
          (phase?_runPolicy (a.update t.address fun k => { k with throttle := throttle }) t).trans
            hacquired
        unfold runPolicyQuietly
        split <;> (rename_i heq; rw [heq] at hrun; exact hrun)

theorem phase?_drain (a : Archive) (t : Tier) : (a.drain t).2.phase? = a.phase? :=
  (keeping_drain (fun _ _ => rfl) a t).phase?_eq

end Evaluation

section Handling

theorem phase?_announce (a : Archive) (t : Tier) (p : Path) :
    (a.announce t p).phase? = a.phase? := (keeping_announce a t p).phase?_eq

theorem phase?_catalogue (a : Archive) (t : Tier) (p : Path) :
    (a.catalogue t p).2.phase? = a.phase? := by
  unfold catalogue
  split
  · rfl
  · rfl
  · rfl
  · split
    · rfl
    · exact phase?_checkTier _ t

/-- An event that has been left has left no trace: a keeper that watched does so again,
and any other was not put into another phase. -/
theorem phase?_asEvent {α : Type} {f : Archive → α × Archive}
    (hf : ∀ b, (f b).2.phase? = b.phase?) (a : Archive) (t : Tier) :
    (a.asEvent t f).2.phase? = a.phase? := by
  refine phase?_bracket Keeper.enterEvent _ (fun k => ?_) (fun k => ?_)
    (fun k hk k' hphase => ?_) (hf (a.update t.address Keeper.enterEvent))
  · exact congrArg (·.tier.address) (standing_enterEvent k)
  · exact congrArg (·.tier.address) (standing_leaveEvent _ k)
  · have hbefore : a.phaseOf t.address = k.phase := by rw [phaseOf, hk]; rfl
    rw [hbefore]
    unfold Keeper.enterEvent at hphase
    unfold Keeper.leaveEvent
    split
    · rfl
    · rename_i hnot
      split at hphase
      · exact absurd hphase hnot
      · exact hphase

theorem phase?_onNotification (a : Archive) (t : Tier) (n : Notification) :
    (a.onNotification t n).2.phase? = a.phase? := by
  unfold onNotification
  split
  · unfold onCreated
    split
    · rfl
    · exact phase?_asEvent
        (fun b => (phase?_catalogue _ t n.path).trans (phase?_announce b t n.path)) a t
  · unfold onModified
    split
    · rfl
    · exact phase?_update a t.address (fun _ => rfl) fun _ => rfl
  · unfold onDeleted
    split
    · rfl
    · refine phase?_asEvent (fun b => ?_) a t
      unfold forget
      split <;> rfl

theorem phase?_takeInto (a : Archive) (t : Tier) (ms : List Message) :
    (a.takeInto t ms).phase? = a.phase? := by
  suffices hin : (takeIn (sink t) ms a).2.phase? = a.phase? from hin
  induction ms generalizing a with
  | nil => rfl
  | cons m ms ih =>
    cases m with
    | stop => rfl
    | evaluate => exact (ih (a.checkTier t)).trans (phase?_checkTier a t)
    | event n => exact (ih (a.onNotification t n).2).trans (phase?_onNotification a t n)

theorem phase?_refreshSizes (ps : List Path) (a : Archive) :
    (a.refreshSizes ps).2.phase? = a.phase? := (keeping_refreshSizes ps a).phase?_eq

theorem phase?_lookAgain (a : Archive) (t : Tier) (ps : List Path) :
    (a.lookAgain t ps).phase? = a.phase? :=
  (phase?_foldl (fun a (_ : ℕ) => phase?_checkTier a t) _ _).trans (phase?_refreshSizes ps a)

end Handling

section Clock

/-- A change of all keepers in other ways leaves them in their phases. -/
theorem phase?_map {f : Keeper → Keeper} (haddress : ∀ k, (f k).address = k.address)
    (hphase : ∀ k, (f k).phase = k.phase) (hb : b.keepers = a.keepers.map f) :
    b.phase? = a.phase? := by
  funext x
  unfold phase? Keepers.get?
  rw [hb, List.find?_map, Option.map_map]
  simp only [Function.comp_def, haddress, hphase]

theorem phase?_deliver (a : Archive) : a.deliver.phase? = a.phase? :=
  phase?_map (fun k => k.foldl_tell Keeper.address (fun _ _ _ => rfl) _ a.ignored _)
    (fun k => k.foldl_tell (·.phase) (fun _ _ _ => rfl) _ a.ignored _) rfl

theorem phase?_takeInbox (a : Archive) (x : Address) : (a.takeInbox x).phase? = a.phase? := by
  unfold takeInbox
  split
  · rfl
  · split
    · rfl
    · rfl
    · refine (phase?_deliver _).trans ((phase?_takeInto _ _ _).trans ?_)
      exact phase?_update a x (fun _ => rfl) fun _ => rfl

theorem phase?_rounds (n : ℕ) (a : Archive) : (rounds n a).phase? = a.phase? := by
  induction n generalizing a with
  | zero => rfl
  | succ n ih =>
    rw [rounds]
    split
    · exact (ih a.round).trans (phase?_foldl phase?_takeInbox _ a)
    · rfl

theorem phase?_settle (a : Archive) : a.settle.phase? = a.phase? :=
  (phase?_rounds _ a.deliver).trans (phase?_deliver a)

theorem phase?_fireTimers (a : Archive) (x : Address) : (a.fireTimers x).phase? = a.phase? := by
  unfold fireTimers
  split
  · rfl
  · dsimp only
    split
    · rfl
    · refine (phase?_lookAgain _ _ _).trans ?_
      exact phase?_update a x (fun _ => rfl) fun _ => rfl

theorem phase?_fire (a : Archive) : a.fire.phase? = a.phase? := by
  have hsweep : ∀ b : Archive, b.sweep.phase? = b.phase? := fun b =>
    phase?_map (f := (·.send .evaluate)) (fun _ => rfl) (fun _ => rfl) rfl
  have hsweeps : ∀ b : Archive, b.fireSweeps.phase? = b.phase? := fun b =>
    phase?_foldl (f := fun b (_ : Int) => b.sweep) (fun b _ => hsweep b)
      (b.sweeps.filter fun s => decide (s ≤ b.now)) b
  exact (phase?_settle _).trans ((hsweeps _).trans (phase?_foldl phase?_fireTimers _ a))

theorem phase?_advanceWithin (fuel : ℕ) (moment : Int) (a : Archive) :
    (advanceWithin fuel moment a).phase? = a.phase? := by
  induction fuel generalizing a with
  | zero => rfl
  | succ fuel ih =>
    rw [advanceWithin]
    split
    · rfl
    · split
      · exact (ih _).trans (phase?_fire _)
      · rfl

theorem phase?_advanceTo (a : Archive) (moment : Int) : (a.advanceTo moment).phase? = a.phase? :=
  (phase?_settle _).trans (phase?_advanceWithin _ moment a)

theorem phase?_toNextStop (a : Archive) : a.toNextStop.phase? = a.phase? := by
  unfold toNextStop
  split
  · rfl
  · exact phase?_advanceTo a _

theorem phase?_drainOnStop (a : Archive) (t : Tier) : (a.drainOnStop t).phase? = a.phase? := by
  unfold drainOnStop
  split
  · exact (phase?_settle _).trans (phase?_drain a t)
  · rfl

theorem phase?_flush? {fuel : ℕ} (h : flush? fuel y a = some b) : b.phase? = a.phase? := by
  induction fuel generalizing a with
  | zero =>
    rw [flush?] at h
    split at h
    · cases h
    · exact Option.some.inj h ▸ rfl
  | succ fuel ih =>
    rw [flush?] at h
    split at h
    · exact (ih h).trans ((phase?_toNextStop _).trans (phase?_settle a))
    · exact Option.some.inj h ▸ rfl

end Clock

section Waiting

/-- Whether a keeper waits depends on its timers alone. -/
theorem isWaiting_of_timers (h : b.timers = a.timers) (x : Address) :
    b.isWaiting x = a.isWaiting x := by
  have hfind : ∀ c : Archive, c.isWaiting x =
      (c.timers.find? (·.1.address == x)).any fun d => decide (0 < d.2.pending) := by
    intro c
    rw [timers, List.find?_map, Option.any_map]
    rfl
  rw [hfind, hfind, h]

theorem isWaiting_update_ne (a : Archive) (y : Address) {f : Keeper → Keeper}
    (hf : ∀ k, (f k).address = k.address) (h : x ≠ y) :
    (a.update y f).isWaiting x = a.isWaiting x := by
  unfold isWaiting Archive.update
  rw [Keepers.get?_update_ne a.keepers f hf h]

/-- What a keeper takes in sets no timer of another. -/
theorem isWaiting_takeInto_ne (h : x ≠ t.address) (a : Archive) (ms : List Message) :
    (a.takeInto t ms).isWaiting x = a.isWaiting x := by
  suffices hin : (takeIn (sink t) ms a).2.isWaiting x = a.isWaiting x from hin
  induction ms generalizing a with
  | nil => rfl
  | cons m ms ih =>
    cases m with
    | stop => rfl
    | evaluate =>
      exact (ih (a.checkTier t)).trans (isWaiting_of_timers (steady_checkTier a t).timers_eq x)
    | event n =>
      refine (ih (a.onNotification t n).2).trans ?_
      obtain ⟨kind, p⟩ := n
      cases kind with
      | created => exact isWaiting_of_timers (steady_onCreated a t p).timers_eq x
      | deleted => exact isWaiting_of_timers (steady_onDeleted a t p).timers_eq x
      | modified =>
        simp only [onNotification, onModified]
        split
        · rfl
        · exact isWaiting_update_ne a t.address (fun _ => rfl) h

theorem isWaiting_halt_ne (h : x ≠ y) (a : Archive) : (a.halt y).isWaiting x = a.isWaiting x := by
  have htaken : (a.takeInbox y).isWaiting x = a.isWaiting x := by
    unfold takeInbox
    split
    · rfl
    · rename_i k hk
      obtain rfl : k.tier.address = y := (mem_of_get? hk).2
      split
      · rfl
      · rfl
      · refine (isWaiting_of_timers (timers_deliver _) x).trans ?_
        refine (isWaiting_takeInto_ne h _ _).trans ?_
        exact isWaiting_update_ne a k.tier.address (fun _ => rfl) h
  exact (isWaiting_update_ne _ y (fun k => by rfl) h).trans htaken

end Waiting

section Lifecycle

theorem phase?_registerAll (rs : List FileRoute) (a : Archive) :
    (a.registerAll rs).2.phase? = a.phase? := by
  obtain ⟨t, ht⟩ := registerAll_eq rs a
  rw [ht]
  rfl

/-- A keeper that was started watches. -/
theorem phase?_start (h : (a.start t).1.isOk = true) (hp : a.phase? x = some p) :
    (a.start t).2.phase? x = some (if x = t.address then .watching else p) := by
  have hstarting : (a.setPhase t.address .starting).phase? x =
      some (if x = t.address then .starting else p) :=
    phase?_put hp t.address (fun _ => rfl) fun _ => rfl
  unfold start at h ⊢
  dsimp only at h ⊢
  split at h
  · cases h
  · rename_i d _
    have hregistered := phase?_registerAll t.routes ((a.setPhase t.address .starting).withDisk d)
    split at h
    · cases h
    · rename_i c heq
      rw [heq] at hregistered
      have hdelivered : c.deliver.phase? x = some (if x = t.address then .starting else p) := by
        rw [phase?_deliver, hregistered]
        exact hstarting
      dsimp only
      have hwatching := phase?_put hdelivered t.address (q := .watching)
        (f := fun k => { k with inbox := some (k.inbox.getD []), watch := c.deliver.watchOf t,
                                phase := .watching }) (fun _ => rfl) fun _ => rfl
      refine hwatching.trans ?_
      split <;> rfl

theorem phase?_startEach {ts : List Tier} (h : (a.startEach ts).1.isOk = true)
    (hp : a.phase? x = some p) : (a.startEach ts).2.phase? x =
      some (if x ∈ ts.map Tier.address then .watching else p) := by
  induction ts generalizing a p with
  | nil => simpa [startEach] using hp
  | cons t ts ih =>
    rw [startEach] at h ⊢
    split at h
    · cases h
    · rename_i routes c heq
      have hstarted := phase?_start (a := a) (t := t) (by rw [heq]; rfl) hp
      rw [heq] at hstarted
      split at h
      · cases h
      · rename_i more d hrest
        have hwatching := ih (by rw [hrest]; rfl) hstarted
        rw [hrest] at hwatching
        rw [hwatching, List.map_cons]
        by_cases hx : x = t.address <;> simp [hx]

theorem mem_addresses (hp : a.phase? x = some p) :
    ∃ t ∈ a.keepers.map (·.tier), t.address = x := by
  obtain ⟨k, hk, -⟩ := Option.map_eq_some_iff.1 hp
  obtain ⟨hmem, haddress⟩ := mem_of_get? hk
  exact ⟨k.tier, List.mem_map_of_mem hmem, haddress⟩

theorem phase?_startAll (h : a.startAll.1.isOk = true) (hp : a.phase? x = some p) :
    a.startAll.2.phase? x = some .watching := by
  have hx : x ∈ (a.keepers.map (·.tier)).map Tier.address := List.mem_map.2 (mem_addresses hp)
  unfold startAll at h ⊢
  split at h
  · cases h
  · rename_i routes c heq
    have hok : (a.startEach (a.keepers.map (·.tier))).1.isOk = true := by rw [heq]; rfl
    have heach := phase?_startEach hok hp
    rw [heq, if_pos hx] at heach
    split
    · split <;> exact heach
    · exact heach

/-- A keeper that was halted is stopped. -/
theorem phase?_halt (hp : a.phase? x = some p) (y : Address) :
    (a.halt y).phase? x = some (if x = y then .stopped else p) :=
  phase?_put (by rw [phase?_takeInbox, hp]) y (fun _ => rfl) fun _ => rfl

theorem phase?_shutdown (h : a.shutdown t = some b) (hp : a.phase? x = some p) :
    b.phase? x = some (if x = t.address then .stopped else p) := by
  obtain ⟨c, hc, rfl⟩ := Option.map_eq_some_iff.1 h
  have hflushed : c.phase? x = some (if x = t.address then .shuttingDown else p) := by
    rw [phase?_flush? hc, phase?_drainOnStop]
    exact phase?_put hp t.address (fun _ => rfl) fun _ => rfl
  rw [phase?_halt hflushed t.address]
  split <;> rfl

/-- Of the keepers that are to be stopped, those that wait are passed over. -/
theorem phase?_haltIdle (xs : List Address) (hp : a.phase? x = some p) :
    (a.haltIdle xs).phase? x =
      some (if x ∈ xs ∧ a.isWaiting x = false then .stopped else p) := by
  induction xs generalizing a p with
  | nil => simpa [haltIdle] using hp
  | cons y ys ih =>
    change ((if a.isWaiting y then a else a.halt y).haltIdle ys).phase? x = _
    by_cases hy : a.isWaiting y = true
    · rw [if_pos hy, ih hp]
      by_cases hx : x = y
      · subst hx
        simp [hy]
      · simp [hx]
    · rw [if_neg hy, ih (phase?_halt hp y)]
      by_cases hx : x = y
      · subst hx
        simp [hy]
      · simp [hx, isWaiting_halt_ne hx]

theorem isWaiting_haltIdle (xs : List Address) (h : a.isWaiting x = true) :
    (a.haltIdle xs).isWaiting x = true := by
  induction xs generalizing a with
  | nil => exact h
  | cons y ys ih =>
    change ((if a.isWaiting y then a else a.halt y).haltIdle ys).isWaiting x = true
    split
    · exact ih h
    · rename_i hy
      have hx : x ≠ y := by
        rintro rfl
        exact hy h
      exact ih (by rw [isWaiting_halt_ne hx, h])

/-- If none is to be waited for, all are stopped. -/
theorem phase?_haltIdle_of_isEmpty {xs : List Address} (h : (xs.filter a.isWaiting).isEmpty = true)
    (hp : a.phase? x = some p) (hx : p = .stopped ∨ x ∈ xs) :
    (a.haltIdle xs).phase? x = some .stopped := by
  have hidle : ∀ x ∈ xs, a.isWaiting x = false := by simpa [List.isEmpty_iff] using h
  rw [phase?_haltIdle xs hp]
  rcases hx with rfl | hx
  · rw [ite_self]
  · rw [if_pos ⟨hx, hidle x hx⟩]

/-- Whoever is waited for is stopped in the end. -/
theorem phase?_haltAll? {fuel : ℕ} {xs : List Address} (h : haltAll? fuel xs a = some b)
    (hp : a.phase? x = some p) (hx : p = .stopped ∨ x ∈ xs) : b.phase? x = some .stopped := by
  induction fuel generalizing a xs p with
  | zero =>
    rw [haltAll?] at h
    split at h
    · exact Option.some.inj h ▸ phase?_haltIdle_of_isEmpty ‹_› hp hx
    · cases h
  | succ fuel ih =>
    rw [haltAll?] at h
    split at h
    · exact Option.some.inj h ▸ phase?_haltIdle_of_isEmpty ‹_› hp hx
    · have hpassed : (a.haltIdle xs).settle.toNextStop.phase? x =
          some (if x ∈ xs ∧ a.isWaiting x = false then .stopped else p) := by
        rw [phase?_toNextStop, phase?_settle, phase?_haltIdle xs hp]
      refine ih h hpassed ?_
      rcases hx with rfl | hx
      · exact .inl (ite_self _)
      · cases hw : a.isWaiting x <;> simp [hx, hw]

theorem exists_phase?_setPhases (ts : List Tier) (q : Phase) (hp : a.phase? x = some p) :
    ∃ p', (ts.foldl (fun a t => a.setPhase t.address q) a).phase? x = some p' := by
  induction ts generalizing a p with
  | nil => exact ⟨p, hp⟩
  | cons t ts ih => exact ih (phase?_put hp t.address (fun _ => rfl) fun _ => rfl)

theorem phase?_shutdownAll (h : a.shutdownAll = some b) (hp : a.phase? x = some p) :
    b.phase? x = some .stopped := by
  obtain ⟨t, ht, rfl⟩ := mem_addresses hp
  unfold shutdownAll at h
  dsimp only at h
  obtain ⟨p', hp'⟩ := exists_phase?_setPhases (a.keepers.map (·.tier)) .shuttingDown
    (a := { a with isStopping := true, sweeps := [] }) hp
  generalize (a.keepers.map (·.tier)).foldl (fun a t => a.setPhase t.address .shuttingDown)
    { a with isStopping := true, sweeps := [] } = c at h hp'
  have hidle := phase?_haltIdle
    (((a.keepers.map (·.tier)).filter fun t => !t.drainsOnStop).map Tier.address) hp'
  refine phase?_haltAll? h ((congrFun (phase?_foldl phase?_drainOnStop _ _) _).trans hidle) ?_
  -- Who is not stopped at once drains first, or was passed over and still waits.
  by_cases hdrains : t.drainsOnStop = true
  · exact .inr (List.mem_map_of_mem (List.mem_filter.2 ⟨ht, by simp [hdrains]⟩))
  · have hmem : t.address ∈
        ((a.keepers.map (·.tier)).filter fun t => !t.drainsOnStop).map Tier.address :=
      List.mem_map_of_mem (List.mem_filter.2 ⟨ht, by simpa using hdrains⟩)
    cases hw : c.isWaiting t.address with
    | false => exact .inl (if_pos ⟨hmem, rfl⟩)
    | true =>
      have hwaits := isWaiting_haltIdle
        (((a.keepers.map (·.tier)).filter fun t => !t.drainsOnStop).map Tier.address) hw
      exact .inr (List.mem_map_of_mem (List.mem_filter.2 ⟨ht, by simp [hwaits]⟩))

end Lifecycle

end Archive

namespace Operation

variable {x : Address} {p : Phase}

/-- Whether an operation starts the keeper at an address. -/
def starts (x : Address) : Operation → Bool
  | .start t => decide (x = t.address)
  | .startAll => true
  | _ => false

/-- Whether an operation stops the keeper at an address. -/
def stops (x : Address) : Operation → Bool
  | .shutdown t => decide (x = t.address)
  | .shutdownAll => true
  | _ => false

/-- The phase in which an operation leaves the keeper at an address that was in `p`. -/
def leaves (x : Address) (p : Phase) (o : Operation) : Phase :=
  if o.starts x then .watching else if o.stops x then .stopped else p

theorem leaves_of_starts {o : Operation} (h : o.starts x = true) : leaves x p o = .watching :=
  if_pos h

theorem leaves_of_stops {o : Operation} (h : o.stops x = true) : leaves x p o = .stopped := by
  cases o with
  | shutdown t => exact if_pos h
  | shutdownAll => rfl
  | _ => cases h

theorem leaves_of_not {o : Operation} (hstarts : o.starts x = true → p = .watching)
    (hstops : o.stops x = true → p = .stopped) : leaves x p o = p := by
  unfold leaves
  split_ifs with hstart hstop
  · exact (hstarts hstart).symm
  · exact (hstops hstop).symm
  · rfl

/-- A phase stays if no operation leaves it. -/
theorem foldl_leaves {os : List Operation} (h : ∀ o ∈ os, leaves x p o = p) :
    os.foldl (leaves x) p = p := by
  induction os with
  | nil => rfl
  | cons o os ih =>
    rw [List.foldl_cons, h o List.mem_cons_self]
    exact ih fun o' ho' => h o' (List.mem_cons_of_mem _ ho')

theorem foldl_leaves_cases (os : List Operation)
    (hp : p = .starting ∨ p = .watching ∨ p = .stopped) :
    os.foldl (leaves x) p = .starting ∨ os.foldl (leaves x) p = .watching ∨
      os.foldl (leaves x) p = .stopped := by
  induction os generalizing p with
  | nil => exact hp
  | cons o os ih =>
    refine ih ?_
    unfold leaves
    split_ifs
    · exact .inr (.inl rfl)
    · exact .inr (.inr rfl)
    · exact hp

end Operation

namespace Archive

variable {a : Archive} {x : Address} {p : Phase} {os : List Operation}

/-- Whether an operation comes to its end and, if it is to start something, succeeds. An
operation in which something cannot be represented breaks off, so it comes to no end. -/
def completes (a : Archive) (o : Operation) : Bool :=
  !(a.operate o).overflowed &&
    match o with
    | .runPolicy t =>
      match (a.runPolicy t).1 with
      | .error (.overflow _) => false
      | _ => true
    | .start t => (a.start t).1.isOk
    | .startAll => a.startAll.1.isOk
    | .shutdown t => (a.shutdown t).isSome
    | .shutdownAll => a.shutdownAll.isSome
    | _ => true

/-- Whether each of the operations, done one after the other, comes to its end. -/
def completesAll (a : Archive) : List Operation → Bool
  | [] => true
  | o :: os => a.completes o && (a.operate o).completesAll os

/-- Only what starts or stops a keeper leaves it in another phase. -/
theorem phase?_operate {o : Operation} (h : a.completes o = true) (hp : a.phase? x = some p) :
    (a.operate o).phase? x = some (o.leaves x p) := by
  have hkept : ∀ {b : Archive}, b.phase? = a.phase? → b.phase? x = some p := by
    intro b hb
    rw [hb, hp]
  obtain ⟨-, h⟩ := Bool.and_eq_true_iff.1 h
  cases o with
  | statement s => exact hp
  | move source target => exact hp
  | discard p => exact hp
  | evict p fileRoot root next => exact hp
  | evictFrom t p fileRoot => exact hkept (phase?_evictFrom a t p fileRoot)
  | moveThumbnail t i => exact hkept (phase?_moveThumbnail a t i)
  | moveClip t i => exact hkept (phase?_moveClip a t i)
  | runPolicy t => exact hkept (phase?_runPolicy a t)
  | checkTier t => exact hkept (phase?_checkTier a t)
  | drain t => exact hkept (phase?_drain a t)
  | notify t n => exact hkept (phase?_onNotification a t n)
  | takeInto t ms => exact hkept (phase?_takeInto a t ms)
  | lookAgain t ps => exact hkept (phase?_lookAgain a t ps)
  | requestEvaluation y => exact hkept (phase?_update a y (fun _ => rfl) fun _ => rfl)
  | settle => exact hkept (phase?_settle a)
  | advance ms => exact hkept (phase?_advanceTo a _)
  | start t =>
    refine (phase?_start h hp).trans ?_
    simp [Operation.leaves, Operation.starts, Operation.stops]
  | startAll => exact phase?_startAll h hp
  | shutdown t =>
    obtain ⟨b, hb⟩ := Option.isSome_iff_exists.1 h
    rw [operate, hb, Option.getD_some, phase?_shutdown hb hp]
    simp [Operation.leaves, Operation.starts, Operation.stops]
  | shutdownAll =>
    obtain ⟨b, hb⟩ := Option.isSome_iff_exists.1 h
    rw [operate, hb, Option.getD_some, phase?_shutdownAll hb hp]
    rfl
  | serve e => exact hp
  | disk d => exact hp

theorem phase?_operateAll (h : a.completesAll os = true) (hp : a.phase? x = some p) :
    (a.operateAll os).phase? x = some (os.foldl (Operation.leaves x) p) := by
  induction os generalizing a p with
  | nil => exact hp
  | cons o os ih =>
    obtain ⟨hfirst, hrest⟩ := Bool.and_eq_true_iff.1 h
    exact ih hrest (phase?_operate hfirst hp)

/-- Between operations, a keeper is starting as long as it was neither started nor
stopped, watching if it was started and not stopped later, and stopped if it was stopped
and not started later; it is in no other phase. -/
theorem phase_between_operations (h : a.completesAll os = true)
    (hp : a.phase? x = some .starting) :
    ((∀ o ∈ os, o.starts x = false ∧ o.stops x = false) →
      (a.operateAll os).phase? x = some .starting) ∧
    (∀ before o after, os = before ++ o :: after → o.starts x = true →
      (∀ o' ∈ after, o'.stops x = false) → (a.operateAll os).phase? x = some .watching) ∧
    (∀ before o after, os = before ++ o :: after → o.stops x = true →
      (∀ o' ∈ after, o'.starts x = false) → (a.operateAll os).phase? x = some .stopped) ∧
    ((a.operateAll os).phase? x = some .starting ∨ (a.operateAll os).phase? x = some .watching ∨
      (a.operateAll os).phase? x = some .stopped) := by
  rw [phase?_operateAll h hp]
  refine ⟨fun hnone => ?_, fun before o after hos hstarts hafter => ?_,
    fun before o after hos hstops hafter => ?_, ?_⟩
  · rw [Operation.foldl_leaves fun o ho => ?_]
    exact Operation.leaves_of_not (by simp [hnone o ho]) (by simp [hnone o ho])
  · rw [hos, List.foldl_append, List.foldl_cons, Operation.leaves_of_starts hstarts,
      Operation.foldl_leaves fun o' ho' => ?_]
    exact Operation.leaves_of_not (fun _ => rfl) (by simp [hafter o' ho'])
  · rw [hos, List.foldl_append, List.foldl_cons, Operation.leaves_of_stops hstops,
      Operation.foldl_leaves fun o' ho' => ?_]
    exact Operation.leaves_of_not (by simp [hafter o' ho']) (fun _ => rfl)
  · simpa using Operation.foldl_leaves_cases os (.inl rfl)

end Archive

/-- A tier of which nothing may be older than a second. -/
def briefTier : Tier := { stayingTier with role := .plain { maxAge := 1 } }

/-- Its keeper, which was not started, and a file in its directory. -/
def briefArchive : Archive where
  keepers := .ofTiers [briefTier]
  disk := { nodes := [(freshWatch.location ++ ["a".toList], .file "1"),
    (freshWatch.location, .directory), (["t".toList, "segments".toList], .directory),
    (["t".toList], .directory)] }

/-- A file is reported to a keeper of which every evaluation fails, before it is started
and after; it is stopped, told of the file, started again, and evaluated. -/
def briefLife : List Operation :=
  [.statement (.setFailing .selectFiles true), .notify briefTier ⟨.created, "/t/a".toList⟩,
    .start briefTier, .advance 60000, .notify briefTier ⟨.created, "/t/segments/cam/a".toList⟩,
    .shutdown briefTier, .notify briefTier ⟨.deleted, "/t/segments/cam/a".toList⟩] ++
  .start briefTier :: [.notify briefTier ⟨.created, "/t/segments/cam/a".toList⟩,
    .runPolicy briefTier]

theorem phase_between_operations_briefLife :
    briefArchive.completesAll briefLife = true ∧
      briefArchive.phase? briefTier.address = some .starting ∧
      (briefArchive.operateAll briefLife).phase? briefTier.address = some .watching ∧
      (briefArchive.operateAll briefLife).keepers.map (·.tally.evaluations) = [2] := by
  have hcompletes : briefArchive.completesAll briefLife = true := by decide +kernel
  have hstarting : briefArchive.phase? briefTier.address = some .starting := by decide
  obtain ⟨-, hwatching, -, -⟩ := Archive.phase_between_operations hcompletes hstarting
  exact ⟨hcompletes, hstarting, hwatching _ _ _ rfl (by decide) (by decide), by decide +kernel⟩

end TieredFootage
