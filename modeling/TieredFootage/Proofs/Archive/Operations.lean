import TieredFootage.Archive.Lifecycle
import TieredFootage.Proofs.Catalog.Statements
import TieredFootage.Proofs.Evaluation.Changes
import TieredFootage.Proofs.Eviction.Reach
import TieredFootage.Proofs.Serving.History

/-!
# What is done to the catalog

Evictions, evaluations, notifications, timers, starting and stopping: whatever is
done to an archive comes down, for its catalog, to a run of statements. So all
that statements keep is kept by everything that can happen.
-/

namespace TieredFootage

open Relation

namespace Holdings

theorem runs_discard (h : Holdings) (p : Path) : h.catalog.Runs (h.discard p).2.catalog := by
  rw [catalog_discard]
  exact h.catalog.runs_statement (.deleteFile p)

theorem runs_move (h : Holdings) (source target : Path) :
    h.catalog.Runs (h.move source target).2.catalog := by
  have hcopied := h.catalog.runs_statement (.copyNote source target)
  rcases catalog_move h source target with hmove | hmove <;> rw [hmove]
  · exact hcopied
  · exact hcopied.statement (.deleteFile source)

theorem runs_evict (h : Holdings) (p fileRoot root : Path) (next : Option Path) :
    h.catalog.Runs (h.evict p fileRoot root next).2.catalog :=
  catalog_evict (P := h.catalog.Runs) (fun _ hc => hc.statement (.deleteFile p))
    (fun _ target hc => hc.statement (.copyNote p target)) ReflTransGen.refl

end Holdings

namespace Archive

variable {a b : Archive}

/-- Doing one thing after the other is a run if each of them is. -/
theorem runs_foldl {α : Type} {f : Archive → α → Archive}
    (hf : ∀ (a : Archive) (x : α), a.catalog.Runs (f a x).catalog) (xs : List α) (a : Archive) :
    a.catalog.Runs (xs.foldl f a).catalog := by
  induction xs generalizing a with
  | nil => exact ReflTransGen.refl
  | cons x xs ih => exact (hf a x).trans (ih (f a x))

section Evaluation

theorem runs_evictFrom (a : Archive) (t : Tier) (p fileRoot : Path) :
    a.catalog.Runs (a.evictFrom t p fileRoot).2.catalog :=
  a.toHoldings.runs_evict p fileRoot t.root t.next

theorem runs_follow {pointer : Recording → Option Path} {i : Int}
    {repoint : Path → Archive → Archive}
    (hrepoint : ∀ (q : Path) (b : Archive), b.catalog.Runs (repoint q b).catalog)
    (a : Archive) (u : Tier) : a.catalog.Runs (a.follow u pointer i repoint).catalog := by
  refine follow_cases (P := fun b => a.catalog.Runs b.catalog) ?_ ?_ ?_
  · exact fun _ => ReflTransGen.refl
  · exact fun x p _ _ _ => runs_evictFrom a u p u.root
  · exact fun x p q _ _ _ => (runs_evictFrom a u p u.root).trans (hrepoint q _)

theorem runs_repointClip (a : Archive) (camera : String) (p : Path) :
    a.catalog.Runs (a.repointClip camera p).catalog := by
  unfold repointClip
  split
  · exact ReflTransGen.refl
  · rename_i suffix _
    exact a.catalog.runs_statement (.updateClip camera suffix p)

theorem runs_moveThumbnail (a : Archive) (t : Tier) (i : Int) :
    a.catalog.Runs (a.moveThumbnail t i).catalog := by
  rw [moveThumbnail_eq_follow]
  exact runs_follow (fun q b => b.catalog.runs_statement (.updateThumbnail i q)) a t

theorem runs_moveClip (a : Archive) (t : Tier) (i : Int) :
    a.catalog.Runs (a.moveClip t i).catalog := by
  rw [moveClip_eq_follow]
  exact runs_follow (fun q b => runs_repointClip b t.camera q) a t

theorem Changes.runs {rows : List FileRow} {ts : List Tier} {t : Tier} (h : Changes rows ts t a b) :
    a.catalog.Runs b.catalog := by
  induction h with
  | refl => exact ReflTransGen.refl
  | tail _ hchange ih =>
    refine ih.trans ?_
    cases hchange with
    | evictRow r hr => exact runs_evictFrom _ t r.path r.tierPath
    | moveThumbnail hu haddress i => exact runs_moveThumbnail _ _ i
    | moveClip hu haddress i => exact runs_moveClip _ _ i
    | deleteRecordings ids => exact Catalog.runs_statement _ (.deleteRecordings ids)
    | count c => exact ReflTransGen.refl
    | update x hf => exact ReflTransGen.refl
    | overflow => exact ReflTransGen.refl

theorem runs_checkTier (a : Archive) (t : Tier) : a.catalog.Runs (a.checkTier t).catalog :=
  (changes_checkTier a t).runs

end Evaluation

section Handling

theorem runs_announce (a : Archive) (t : Tier) (p : Path) :
    a.catalog.Runs (a.announce t p).catalog := by
  unfold announce
  split
  · unfold repointThumbnail
    split
    · exact ReflTransGen.refl
    · rename_i i _
      exact a.catalog.runs_statement (.updateThumbnail i p)
  · split
    · exact ReflTransGen.refl
    · exact runs_repointClip a t.camera p
  · exact ReflTransGen.refl
  · exact ReflTransGen.refl

/-- A file that is found is inserted, and then the tier may be evaluated. -/
theorem runs_catalogue_of_stat {t : Tier} {p : Path} {content : String}
    (h : a.disk.stat p = .ok (.file content)) :
    (a.catalog.insertFile (t.entry p content.utf8ByteSize a.now)).2.Runs
      (a.catalogue t p).2.catalog := by
  unfold catalogue
  rw [h]
  dsimp only
  split
  · rename_i heq
    rw [heq]
    exact ReflTransGen.refl
  · rename_i c heq
    rw [heq]
    exact runs_checkTier (a.withCatalog c) t

theorem runs_catalogue (a : Archive) (t : Tier) (p : Path) :
    a.catalog.Runs (a.catalogue t p).2.catalog := by
  cases h : a.disk.stat p with
  | error e =>
    unfold catalogue
    rw [h]
    cases e <;> exact ReflTransGen.refl
  | ok n =>
    cases n with
    | directory =>
      unfold catalogue
      rw [h]
    | file content =>
      exact (a.catalog.runs_statement (.insertFile _)).trans (runs_catalogue_of_stat h)

theorem runs_forget (a : Archive) (p : Path) : a.catalog.Runs (a.forget p).2.catalog := by
  have hdeleted := a.catalog.runs_statement (.deleteFile p)
  unfold forget
  split <;> (rename_i heq; rw [Statement.run, heq] at hdeleted; exact hdeleted)

theorem runs_onNotification (a : Archive) (t : Tier) (n : Notification) :
    a.catalog.Runs (a.onNotification t n).2.catalog := by
  unfold onNotification
  split
  · unfold onCreated
    split
    · exact ReflTransGen.refl
    · exact (runs_announce (a.update t.address Keeper.enterEvent) t n.path).trans
        (runs_catalogue _ t n.path)
  · unfold onModified
    split <;> exact ReflTransGen.refl
  · unfold onDeleted
    split
    · exact ReflTransGen.refl
    · exact runs_forget (a.update t.address Keeper.enterEvent) n.path

theorem runs_takeIn (t : Tier) (ms : List Message) (a : Archive) :
    a.catalog.Runs (takeIn (sink t) ms a).2.catalog := by
  induction ms generalizing a with
  | nil => exact ReflTransGen.refl
  | cons m ms ih =>
    cases m with
    | event n => exact (runs_onNotification a t n).trans (ih _)
    | evaluate => exact (runs_checkTier a t).trans (ih _)
    | stop => exact ReflTransGen.refl

theorem runs_takeInto (a : Archive) (t : Tier) (ms : List Message) :
    a.catalog.Runs (a.takeInto t ms).catalog := runs_takeIn t ms a

theorem runs_refreshSizes (ps : List Path) (a : Archive) :
    a.catalog.Runs (a.refreshSizes ps).2.catalog := by
  induction ps generalizing a with
  | nil => exact ReflTransGen.refl
  | cons p ps ih =>
    refine ReflTransGen.trans ?_ (ih (a.refreshSize p).2)
    unfold refreshSize
    split
    · exact ReflTransGen.refl
    · rename_i node _
      have hupdated := a.catalog.runs_statement (.updateFileSize p (sizeOf node))
      split <;> (rename_i heq; rw [Statement.run, heq] at hupdated; exact hupdated)

theorem runs_lookAgain (a : Archive) (t : Tier) (ps : List Path) :
    a.catalog.Runs (a.lookAgain t ps).catalog :=
  (runs_refreshSizes ps a).trans (runs_foldl (fun a _ => runs_checkTier a t) _ _)

end Handling

section Clock

theorem runs_takeInbox (a : Archive) (x : Address) : a.catalog.Runs (a.takeInbox x).catalog := by
  unfold takeInbox
  split
  · exact ReflTransGen.refl
  · rename_i k _
    split
    · exact ReflTransGen.refl
    · exact ReflTransGen.refl
    · rename_i ms _ _
      exact runs_takeInto (a.update x fun k => { k with inbox := some [] }) k.tier ms

theorem runs_rounds (n : Nat) (a : Archive) : a.catalog.Runs (rounds n a).catalog := by
  induction n generalizing a with
  | zero => exact ReflTransGen.refl
  | succ n ih =>
    rw [rounds]
    split
    · exact (runs_foldl runs_takeInbox _ a).trans (ih a.round)
    · exact ReflTransGen.refl

theorem runs_settle (a : Archive) : a.catalog.Runs a.settle.catalog :=
  runs_rounds (a.keepers.length + 1) a.deliver

theorem runs_fireTimers (a : Archive) (x : Address) : a.catalog.Runs (a.fireTimers x).catalog := by
  unfold fireTimers
  split
  · exact ReflTransGen.refl
  · rename_i k _
    dsimp only
    split
    · exact ReflTransGen.refl
    · exact runs_lookAgain (a.update x fun k => { k with debouncer := k.debouncer.elapse a.now })
        k.tier _

/-- Sweeps send messages and forget readers. -/
theorem runs_fireSweeps (a : Archive) : a.catalog.Runs a.fireSweeps.catalog :=
  runs_foldl (f := fun a (_ : Int) => a.sweep) (fun _ _ => ReflTransGen.refl)
    (a.sweeps.filter fun s => decide (s ≤ a.now)) a

theorem runs_fire (a : Archive) : a.catalog.Runs a.fire.catalog := by
  have htimers := runs_foldl runs_fireTimers (a.keepers.map Keeper.address) a
  exact (htimers.trans (runs_fireSweeps _)).trans (runs_settle _)

theorem runs_advanceWithin (fuel : Nat) (moment : Int) (a : Archive) :
    a.catalog.Runs (advanceWithin fuel moment a).catalog := by
  induction fuel generalizing a with
  | zero => exact ReflTransGen.refl
  | succ fuel ih =>
    rw [advanceWithin]
    split
    · exact ReflTransGen.refl
    · rename_i stop _
      split
      · exact (runs_fire { a with now := max a.now stop }).trans (ih _)
      · exact ReflTransGen.refl

theorem runs_advanceTo (a : Archive) (moment : Int) : a.catalog.Runs (a.advanceTo moment).catalog :=
  (runs_advanceWithin _ moment a).trans (runs_settle _)

end Clock

section Lifecycle

/-- Registering routes changes the routes, and nothing else. -/
theorem registerAll_eq (rs : List FileRoute) (a : Archive) :
    ∃ t, (a.registerAll rs).2 = { a with routes := t } := by
  induction rs generalizing a with
  | nil => exact ⟨a.routes, rfl⟩
  | cons r rs ih =>
    rw [registerAll]
    cases h : a.register? r with
    | none => exact ⟨a.routes, rfl⟩
    | some b =>
      unfold register? at h
      split at h
      · cases h
      · obtain ⟨t, -, rfl⟩ := Option.map_eq_some_iff.1 h
        obtain ⟨t', ht'⟩ := ih { a with routes := t }
        exact ⟨t', ht'⟩

theorem catalog_registerAll (rs : List FileRoute) (a : Archive) :
    (a.registerAll rs).2.catalog = a.catalog := by
  obtain ⟨t, ht⟩ := registerAll_eq rs a
  rw [ht]

theorem catalog_start (a : Archive) (t : Tier) : (a.start t).2.catalog = a.catalog := by
  unfold start
  dsimp only
  split
  · rfl
  · rename_i d _
    have hregistered := catalog_registerAll t.routes ((a.setPhase t.address .starting).withDisk d)
    split <;> (rename_i heq; rw [heq] at hregistered; exact hregistered)

theorem catalog_startEach (ts : List Tier) (a : Archive) :
    (a.startEach ts).2.catalog = a.catalog := by
  induction ts generalizing a with
  | nil => rfl
  | cons t ts ih =>
    have hstart := catalog_start a t
    rw [startEach]
    split
    · rename_i heq
      rw [heq] at hstart
      exact hstart
    · rename_i b heq
      rw [heq] at hstart
      have hrest := (ih b).trans hstart
      split <;> (rename_i heq; rw [heq] at hrest; exact hrest)

theorem catalog_startAll (a : Archive) : a.startAll.2.catalog = a.catalog := by
  have heach := catalog_startEach (a.keepers.map (·.tier)) a
  unfold startAll
  split
  · rename_i heq
    rw [heq] at heach
    exact heach
  · rename_i heq
    rw [heq] at heach
    split
    · split <;> exact heach
    · exact heach

theorem runs_drainOnStop (a : Archive) (t : Tier) :
    a.catalog.Runs (a.drainOnStop t).catalog := by
  unfold drainOnStop
  split
  · exact (changes_drain a t).runs.trans (runs_settle _)
  · exact ReflTransGen.refl

theorem runs_halt (a : Archive) (x : Address) : a.catalog.Runs (a.halt x).catalog :=
  runs_takeInbox a x

theorem runs_toNextStop (a : Archive) : a.catalog.Runs a.toNextStop.catalog := by
  unfold toNextStop
  split
  · exact ReflTransGen.refl
  · exact runs_advanceTo a _

theorem runs_flush? {fuel : Nat} {x : Address} (h : flush? fuel x a = some b) :
    a.catalog.Runs b.catalog := by
  induction fuel generalizing a with
  | zero =>
    rw [flush?] at h
    split at h
    · cases h
    · cases h
      exact ReflTransGen.refl
  | succ fuel ih =>
    rw [flush?] at h
    split at h
    · exact ((runs_settle a).trans (runs_toNextStop _)).trans (ih h)
    · cases h
      exact ReflTransGen.refl

theorem runs_shutdown {t : Tier} (h : a.shutdown t = some b) : a.catalog.Runs b.catalog := by
  obtain ⟨c, hc, rfl⟩ := Option.map_eq_some_iff.1 h
  exact ((runs_drainOnStop (a.setPhase t.address .shuttingDown) t).trans (runs_flush? hc)).trans
    (runs_halt c t.address)

theorem runs_haltIdle (a : Archive) (xs : List Address) :
    a.catalog.Runs (a.haltIdle xs).catalog := by
  refine runs_foldl (fun a x => ?_) xs a
  split
  · exact ReflTransGen.refl
  · exact runs_halt a x

theorem runs_haltAll? {fuel : Nat} {xs : List Address} (h : haltAll? fuel xs a = some b) :
    a.catalog.Runs b.catalog := by
  induction fuel generalizing a xs with
  | zero =>
    rw [haltAll?] at h
    split at h
    · cases h
      exact runs_haltIdle a xs
    · cases h
  | succ fuel ih =>
    rw [haltAll?] at h
    split at h
    · cases h
      exact runs_haltIdle a xs
    · exact (((runs_haltIdle a xs).trans (runs_settle _)).trans (runs_toNextStop _)).trans (ih h)

theorem runs_shutdownAll (h : a.shutdownAll = some b) : a.catalog.Runs b.catalog := by
  unfold shutdownAll at h
  have hphases := runs_foldl (f := fun a (t : Tier) => a.setPhase t.address .shuttingDown)
    (fun _ _ => ReflTransGen.refl) (a.keepers.map (·.tier))
    { a with isStopping := true, sweeps := [] }
  exact ((hphases.trans (runs_haltIdle _ _)).trans
    (runs_foldl runs_drainOnStop _ _)).trans (runs_haltAll? h)

end Lifecycle

end Archive

/-- What can be done to an archive: statements made directly, evictions, what a
tier is told or asked for, what its timers do, starting and stopping, and the time
and the readers passing by. The disk may change in any way. -/
inductive Operation
  | statement (s : Statement)
  | move (source target : Path)
  | discard (p : Path)
  | evict (p fileRoot root : Path) (next : Option Path)
  | evictFrom (t : Tier) (p fileRoot : Path)
  | moveThumbnail (t : Tier) (id : Int)
  | moveClip (t : Tier) (id : Int)
  | runPolicy (t : Tier)
  | checkTier (t : Tier)
  | drain (t : Tier)
  | notify (t : Tier) (n : Notification)
  | takeInto (t : Tier) (ms : List Message)
  | lookAgain (t : Tier) (ps : List Path)
  | requestEvaluation (x : Address)
  | settle
  | advance (ms : Nat)
  | start (t : Tier)
  | startAll
  | shutdown (t : Tier)
  | shutdownAll
  | serve (e : ServingEvent)
  | disk (d : Disk)

namespace Archive

variable {a : Archive}

/-- The archive after some holdings were worked on. -/
def withHoldings (a : Archive) (h : Holdings) : Archive := { a with toHoldings := h }

/-- The archive after an operation. A shutdown that has no answer is not made. -/
def operate (a : Archive) : Operation → Archive
  | .statement s => a.withCatalog (s.run a.catalog)
  | .move source target => a.withHoldings (a.toHoldings.move source target).2
  | .discard p => a.withHoldings (a.toHoldings.discard p).2
  | .evict p fileRoot root next => a.withHoldings (a.toHoldings.evict p fileRoot root next).2
  | .evictFrom t p fileRoot => (a.evictFrom t p fileRoot).2
  | .moveThumbnail t i => a.moveThumbnail t i
  | .moveClip t i => a.moveClip t i
  | .runPolicy t => (a.runPolicy t).2
  | .checkTier t => a.checkTier t
  | .drain t => (a.drain t).2
  | .notify t n => (a.onNotification t n).2
  | .takeInto t ms => a.takeInto t ms
  | .lookAgain t ps => a.lookAgain t ps
  | .requestEvaluation x => (a.requestEvaluation x).2
  | .settle => a.settle
  | .advance ms => a.advance ms
  | .start t => (a.start t).2
  | .startAll => a.startAll.2
  | .shutdown t => (a.shutdown t).getD a
  | .shutdownAll => a.shutdownAll.getD a
  | .serve e => { a with now := e.elapse a.now, served := e.apply a.now a.served }
  | .disk d => a.withDisk d

/-- The archive after operations, one after the other. -/
def operateAll (a : Archive) (os : List Operation) : Archive := os.foldl operate a

theorem runs_getD {b : Option Archive} (h : ∀ c, b = some c → a.catalog.Runs c.catalog) :
    a.catalog.Runs (b.getD a).catalog := by
  cases b with
  | none => exact ReflTransGen.refl
  | some c => exact h c rfl

/-- Whatever is done, the catalog sees a run of statements. -/
theorem runs_operate (a : Archive) (o : Operation) : a.catalog.Runs (a.operate o).catalog := by
  cases o with
  | statement s => exact a.catalog.runs_statement s
  | move source target => exact a.toHoldings.runs_move source target
  | discard p => exact a.toHoldings.runs_discard p
  | evict p fileRoot root next => exact a.toHoldings.runs_evict p fileRoot root next
  | evictFrom t p fileRoot => exact runs_evictFrom a t p fileRoot
  | moveThumbnail t i => exact runs_moveThumbnail a t i
  | moveClip t i => exact runs_moveClip a t i
  | runPolicy t => exact (changes_runPolicy a t).runs
  | checkTier t => exact runs_checkTier a t
  | drain t => exact (changes_drain a t).runs
  | notify t n => exact runs_onNotification a t n
  | takeInto t ms => exact runs_takeInto a t ms
  | lookAgain t ps => exact runs_lookAgain a t ps
  | requestEvaluation x => exact ReflTransGen.refl
  | settle => exact runs_settle a
  | advance ms => exact runs_advanceTo a _
  | start t =>
    rw [operate, catalog_start]
  | startAll =>
    rw [operate, catalog_startAll]
  | shutdown t => exact runs_getD fun _ h => runs_shutdown h
  | shutdownAll => exact runs_getD fun _ h => runs_shutdownAll h
  | serve e => exact ReflTransGen.refl
  | disk d => exact ReflTransGen.refl

theorem runs_operateAll (a : Archive) (os : List Operation) :
    a.catalog.Runs (a.operateAll os).catalog := runs_foldl runs_operate os a

end Archive

end TieredFootage
