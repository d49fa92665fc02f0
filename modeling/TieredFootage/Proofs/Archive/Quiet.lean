import TieredFootage.Proofs.Archive.Mirror
import TieredFootage.Proofs.Archive.Understudies
import TieredFootage.Proofs.Evaluation.Orphans

/-!
# Quiet after stopping

When a keeper has been stopped it has no inbox and no watch. It has no timer left
either, unless a modification was still waiting for it when its last quiet period
had ended: what waits then is taken in after the wait, and sets a timer again.

A keeper without a timer sleeps for good. It stays as it is while time advances,
and nothing else would be different with another sleeping keeper in its place. A
keeper of thumbnails or clips is asked by the segments beside it, stopped or not,
so for these the segments have to sleep as well.
-/

namespace TieredFootage

/-- Puts a keeper in the place of those at an address. -/
def Keeper.inPlaceOf (u : Keeper) (x : Address) (k : Keeper) : Keeper :=
  if k.address = x then u else k

namespace Archive

variable {S : Address → Prop} {a b c : Archive} {t : Tier} {x : Address} {k u : Keeper}

/-- The archive at the end of the quiet periods for which stopping a tier waits. -/
def flushed? (a : Archive) (t : Tier) : Option Archive :=
  let a := (a.setPhase t.address .shuttingDown).drainOnStop t
  flush? a.patience t.address a

theorem shutdown_eq (a : Archive) (t : Tier) :
    a.shutdown t = (a.flushed? t).map fun c => c.halt t.address := rfl

theorem lasting_flushed? (h : a.flushed? t = some c) : Lasting a c :=
  ((Lasting.update a t.address (f := fun k => { k with phase := .shuttingDown }) fun _ => rfl).trans
    (lasting_drainOnStop _ t)).trans (lasting_flush? h)

/-- No message that waits for the keeper of a tier will set a timer. -/
def HearsNothing (a : Archive) (t : Tier) : Prop :=
  ∀ k ∈ a.keepers, k.tier = t → ∀ m ∈ k.inbox.getD [], ¬ m.Wakes t

/-- One sleeping keeper is as good as another. -/
theorem Resting.advance_inPlaceOf (h : Resting S a) (hx : S x) (hu : u.Sleeps)
    (haddress : u.address = x) (ms : Nat) :
    (a.recast (u.inPlaceOf x)).advance ms = (a.advance ms).recast (u.inPlaceOf x) := by
  let r : Keeper → Keeper := fun k => if k.address = x then u else lull S k
  have hr : Understudies S r := by
    refine ⟨⟨fun k => ?_, fun k hk => ?_⟩, fun k hk => ?_⟩ <;> dsimp only [r] <;> split
    · rename_i heq
      rw [haddress, heq]
    · exact (understudies_lull S).address_eq k
    · rename_i heq
      exact absurd (heq ▸ hx) hk
    · exact (understudies_lull S).eq_self k hk
    · exact hu
    · exact (understudies_lull S).sleeps k hk
  have hsame : ∀ {b : Archive}, Resting S b → b.recast r = b.recast (u.inPlaceOf x) := by
    intro b hb
    simp only [recast]
    congr 1
    refine List.map_congr_left fun k hk => ?_
    dsimp only [r, Keeper.inPlaceOf]
    split
    · rfl
    · exact lull_eq_self (hb.sleeps k hk)
  have hadvance := undisturbed_advance ms h
  rw [← hsame h, ← hsame (h.step hadvance)]
  exact hadvance.recast_eq hr

theorem map_address_tiers (a : Archive) : a.tiers.map Tier.address = a.keepers.map Keeper.address :=
  List.map_map

theorem Lasting.nodup (h : Lasting a b) (hkeys : (a.keepers.map Keeper.address).Nodup) :
    (b.keepers.map Keeper.address).Nodup := by
  rw [← map_address_tiers] at hkeys ⊢
  rwa [h.tiers_eq]

theorem Lasting.exists_keeper (h : Lasting a b) (hk : k ∈ a.keepers) :
    ∃ k' ∈ b.keepers, k'.tier = k.tier := by
  have htier : k.tier ∈ b.tiers := h.tiers_eq ▸ List.mem_map_of_mem hk
  exact List.mem_map.1 htier

/-- A keeper that sleeps is the same at any later time. -/
theorem Resting.mem_advance (h : Resting S a) (hkeys : (a.keepers.map Keeper.address).Nodup)
    (hk : k ∈ a.keepers) (hS : S k.address) (ms : Nat) : k ∈ (a.advance ms).keepers := by
  have hself : a.recast (k.inPlaceOf k.address) = a := by
    refine recast_eq_self_iff.2 fun k' hk' => ?_
    unfold Keeper.inPlaceOf
    split
    · rename_i haddress
      exact (List.inj_on_of_nodup_map hkeys hk' hk haddress).symm
    · rfl
  have hadvance := h.advance_inPlaceOf hS (h.sleeps k hk hS) rfl ms
  rw [hself] at hadvance
  obtain ⟨k', hk', htier⟩ := (undisturbed_advance ms h).lasting.exists_keeper hk
  have hplace := recast_eq_self_iff.1 hadvance.symm k' hk'
  have haddress : k'.address = k.address := congrArg Tier.address htier
  rw [Keeper.inPlaceOf, if_pos haddress] at hplace
  exact hplace ▸ hk'

/-- Which timers each keeper has. -/
def timers (a : Archive) : List (Tier × Debouncer Path Unit) :=
  a.keepers.map fun k => (k.tier, k.debouncer)

theorem timers_update (a : Archive) (x : Address) {f : Keeper → Keeper}
    (hf : ∀ k, (f k).tier = k.tier ∧ (f k).debouncer = k.debouncer) :
    (a.update x f).timers = a.timers := by
  simp only [timers, Archive.update, Keepers.update, List.map_map]
  refine List.map_congr_left fun k _ => ?_
  rw [Function.comp_apply]
  split
  · rw [(hf k).1, (hf k).2]
  · rfl

theorem Steady.timers_eq (h : Steady a b) : b.timers = a.timers := by
  have htimers := congrArg (List.map fun k : Keeper => (k.tier, k.debouncer)) h.keepers_eq
  rwa [List.map_map, List.map_map] at htimers

theorem timers_deliver (a : Archive) : a.deliver.timers = a.timers := by
  simp only [timers, deliver, List.map_map]
  exact List.map_congr_left fun k _ =>
    k.foldl_tell (fun k => (k.tier, k.debouncer)) (fun _ _ _ => rfl) _ a.ignored _

/-- Taking in what waits sets no timer unless a modification waits. -/
theorem timers_takeInbox (h : ∀ k, a.keepers.get? x = some k →
    ∀ m ∈ k.inbox.getD [], ¬ m.Wakes k.tier) : (a.takeInbox x).timers = a.timers := by
  unfold takeInbox
  split
  · rfl
  · rename_i k hk
    split
    · rfl
    · rfl
    · rename_i ms _ hinbox
      have hquiet := h k hk
      rw [hinbox, Option.getD_some] at hquiet
      rw [timers_deliver, (steady_takeInto hquiet _).timers_eq]
      exact timers_update a x fun _ => ⟨rfl, rfl⟩

/-- What is known of a keeper that has just been stopped. -/
theorem of_mem_halt (hk : k ∈ (c.halt x).keepers) (hx : k.address = x) :
    k.phase = .stopped ∧ k.inbox = none ∧ k.watch = none ∧
      (k.tier, k.debouncer) ∈ (c.takeInbox x).timers := by
  obtain ⟨k', hk', rfl⟩ := Keepers.mem_update.1 hk
  split at hx
  · rename_i haddress
    rw [if_pos haddress]
    exact ⟨rfl, rfl, rfl, List.mem_map_of_mem (f := fun k => (k.tier, k.debouncer)) hk'⟩
  · exact absurd hx ‹_›

/-- Stopping a keeper leaves it no timer if nothing sets one after its quiet periods. -/
theorem pending_of_mem_halt (hkeys : (c.keepers.map Keeper.address).Nodup)
    (hwaiting : c.isWaiting t.address = false) (hquiet : c.HearsNothing t)
    (hk : k ∈ (c.halt t.address).keepers) (ht : k.tier = t) : k.debouncer.pending = 0 := by
  obtain ⟨j, hj, rfl⟩ : ∃ j ∈ c.keepers, j.tier = t := by
    have htier : k.tier ∈ (c.halt t.address).tiers := List.mem_map_of_mem hk
    rw [(lasting_halt c t.address).tiers_eq, ht] at htier
    exact List.mem_map.1 htier
  have hget : c.keepers.get? j.tier.address = some j := get?_of_mem hkeys hj
  obtain ⟨-, -, -, htimers⟩ := of_mem_halt hk (congrArg Tier.address ht)
  rw [timers_takeInbox fun j' hj' => ?_] at htimers
  · obtain ⟨i, hi, heq⟩ := List.mem_map.1 htimers
    obtain ⟨htier, hdebouncer⟩ := Prod.mk.inj heq
    obtain rfl : i = j :=
      List.inj_on_of_nodup_map hkeys hi hj (congrArg Tier.address (htier.trans ht))
    rw [isWaiting, hget, Option.any_some, hdebouncer] at hwaiting
    simpa using hwaiting
  · obtain rfl : j = j' := Option.some.inj (hget.symm.trans hj')
    exact hquiet j hj rfl

/-- Nobody awake asks the stopped keeper for anything. -/
theorem resting_of_leaders (hkeys : (a.keepers.map Keeper.address).Nodup) (hk : k ∈ a.keepers)
    (hsleeps : k.Sleeps)
    (hleaders : a.linked = true → ∀ l ∈ a.keepers, l.tier.Leads k.address → l.Sleeps) :
    Resting (fun y => y = k.address ∨
      a.linked = true ∧ ∃ l ∈ a.keepers, l.tier.Leads k.address ∧ l.address = y) a := by
  refine ⟨fun l hl hS => ?_, fun l hl hS => ⟨hS, fun hlinked y hy => ?_⟩⟩
  · rcases hS with haddress | ⟨hlinked, l', hl', hleads, haddress⟩
    · rw [List.inj_on_of_nodup_map hkeys hl hk haddress]
      exact hsleeps
    · rw [List.inj_on_of_nodup_map hkeys hl hl' haddress.symm]
      exact hleaders hlinked l' hl' hleads
  · rw [not_or] at hS
    have hnot : ¬ l.tier.Leads k.address := fun hleads => hS.2 ⟨hlinked, l, hl, hleads, rfl⟩
    rintro (rfl | ⟨-, l', -, hleads, rfl⟩)
    · exact hnot hy
    · -- Who leads one that leads has its camera and its place, so it leads the same keeper.
      refine hnot ⟨hy.1, ?_⟩
      obtain ⟨hcamera, hindex⟩ : l'.tier.camera = l.tier.camera ∧ l'.tier.index = l.tier.index := by
        rcases hy.2 with heq | heq <;>
          exact ⟨congrArg Address.camera heq, congrArg Address.index heq⟩
      rw [← hcamera, ← hindex]
      exact hleads.2

/-- A stopped keeper has no inbox and no watch. If no modification was waiting for it
at the end of its quiet periods, it has no timer either, and then, unless the segments
beside it that it follows are awake, it stays as it is while time advances, and all
else goes on as it would with any other sleeping keeper in its place. -/
theorem quiet_after_shutdown (hkeys : (a.keepers.map Keeper.address).Nodup) (hk : k ∈ a.keepers)
    (hb : a.shutdown k.tier = some b) :
    ∃ c k', a.flushed? k.tier = some c ∧ k' ∈ b.keepers ∧ k'.tier = k.tier ∧
      k'.phase = .stopped ∧ k'.inbox = none ∧ k'.watch = none ∧
      (c.HearsNothing k.tier → k'.debouncer.pending = 0 ∧
        ((b.linked = true → ∀ l ∈ b.keepers, l.tier.Leads k.address → l.Sleeps) →
          ∀ ms, k' ∈ (b.advance ms).keepers ∧
            ∀ u : Keeper, u.address = k.address → u.Sleeps →
              (b.recast (u.inPlaceOf k.address)).advance ms =
                (b.advance ms).recast (u.inPlaceOf k.address))) := by
  rw [shutdown_eq] at hb
  obtain ⟨c, hc, rfl⟩ := Option.map_eq_some_iff.1 hb
  have hlasting := lasting_flushed? hc
  have hhalted := hlasting.trans (lasting_halt c k.tier.address)
  obtain ⟨k', hk', htier⟩ := hhalted.exists_keeper hk
  have haddress : k'.address = k.address := congrArg Tier.address htier
  obtain ⟨hphase, hinbox, hwatch, htimers⟩ := of_mem_halt hk' haddress
  refine ⟨c, k', hc, hk', htier, hphase, hinbox, hwatch, fun hquiet => ?_⟩
  have hpending : k'.debouncer.pending = 0 :=
    pending_of_mem_halt (hlasting.nodup hkeys) (isWaiting_of_flush? hc) hquiet hk' htier
  have hsleeps : k'.Sleeps := ⟨hinbox, hwatch, List.length_eq_zero_iff.1 hpending⟩
  refine ⟨hpending, fun hleaders ms => ?_⟩
  rw [← haddress] at hleaders ⊢
  have hresting := resting_of_leaders (hhalted.nodup hkeys) hk' hsleeps hleaders
  exact ⟨hresting.mem_advance (hhalted.nodup hkeys) hk' (Or.inl rfl) ms,
    fun u hu husleeps => hresting.advance_inPlaceOf (Or.inl rfl) husleeps hu ms⟩

end Archive

/-- The keeper of a directory with one file was started, and the file has just been
emptied: the keeper has still to take that in. -/
def lateChange : Archive :=
  let a := (({
    keepers := .ofTiers [stayingTier]
    disk := { nodes := [(freshWatch.location ++ ["a".toList], .file "1"),
      (freshWatch.location, .directory), (["t".toList, "segments".toList], .directory),
      (["t".toList], .directory)] } } : Archive).start stayingTier).2
  (a.withDisk (a.disk.truncate "/t/segments/cam/a".toList).2).deliver

/-- Stopped while the change is known and its quiet period lasts, the keeper waits for
it, and stays quiet for a minute. -/
theorem quiet_after_shutdown_timerPending :
    (lateChange.settle.keepers.map Keeper.address).Nodup ∧
      ∃ k ∈ lateChange.settle.keepers, k.debouncer.pending = 1 ∧
        ∃ b, lateChange.settle.shutdown k.tier = some b ∧ ∃ k' ∈ b.keepers, k'.phase = .stopped ∧
          k'.debouncer.pending = 0 ∧ k' ∈ (b.advance 60000).keepers := by
  have hkeys : (lateChange.settle.keepers.map Keeper.address).Nodup := by decide
  obtain ⟨k, hk, hpending, htier⟩ : ∃ k ∈ lateChange.settle.keepers,
      k.debouncer.pending = 1 ∧ k.tier = stayingTier := by decide
  obtain ⟨b, hb⟩ : ∃ b, lateChange.settle.shutdown stayingTier = some b :=
    Option.isSome_iff_exists.1 (by decide)
  rw [← htier] at hb
  obtain ⟨c, k', hc, hk', -, hphase, -, -, hquiet⟩ := Archive.quiet_after_shutdown hkeys hk hb
  have hempty : ∀ c ∈ lateChange.settle.flushed? stayingTier,
      ∀ k ∈ c.keepers, k.inbox.getD [] = [] := by decide
  have hsilent : c.HearsNothing k.tier := by
    intro j hj _ m hm
    rw [hempty c (htier ▸ hc) j hj] at hm
    cases hm
  obtain ⟨hnone, hlater⟩ := hquiet hsilent
  have hleaders : ∀ b' ∈ lateChange.settle.shutdown stayingTier, ∀ l ∈ b'.keepers,
      l.tier.role = .plain {} := by decide
  have hplain : b.linked = true → ∀ l ∈ b.keepers, l.tier.Leads k.address → l.Sleeps := by
    rintro - l hl ⟨⟨continuous, events, hrole⟩, -⟩
    rw [hleaders b (htier ▸ hb) l hl] at hrole
    cases hrole
  exact ⟨hkeys, k, hk, hpending, b, hb, k', hk', hphase, hnone, (hlater hplain 60000).1⟩

/-- Stopped while the change still waits to be taken in, the keeper takes it in after it has
waited for its quiet periods: that sets a timer, and an evaluation follows. -/
theorem evaluates_after_late_change :
    ∃ b, lateChange.shutdown stayingTier = some b ∧
      (∀ k ∈ b.keepers, k.phase = .stopped ∧ k.debouncer.pending = 1 ∧ k.tally.evaluations = 0) ∧
      ∀ k ∈ (b.advance 1000).keepers, k.tally.evaluations = 1 := by
  have hlate : ∃ b ∈ lateChange.shutdown stayingTier,
      (∀ k ∈ b.keepers, k.phase = .stopped ∧ k.debouncer.pending = 1 ∧ k.tally.evaluations = 0) ∧
        ∀ k ∈ (b.advance 1000).keepers, k.tally.evaluations = 1 := by decide
  exact hlate

/-- The archive whose only recording is to leave, with all keepers started and a sweep
every minute. -/
def sweptArchive : Archive :=
  ({ servedThumbnail with served := {}, sweepInterval := some (60 * second) } : Archive).startAll.2

/-- A keeper of thumbnails that was stopped, with no timer, deletes one all the same, for
the segments beside it that are evaluated later. -/
theorem not_forall_quiet_after_shutdown :
    ∃ b, sweptArchive.shutdown (lastSibling thumbnailsName .thumbnails) = some b ∧
      (∃ k ∈ b.keepers, k.tier.role = .thumbnails ∧ k.phase = .stopped ∧
        k.debouncer.pending = 0 ∧ k.tally.deleted = 0) ∧
      b.disk.isFile "/t/1.jpg".toList = true ∧
      (b.advance 60000).disk.isFile "/t/1.jpg".toList = false ∧
      ∃ k ∈ (b.advance 60000).keepers, k.tier.role = .thumbnails ∧ k.tally.deleted = 1 := by
  have hswept : ∃ b ∈ sweptArchive.shutdown (lastSibling thumbnailsName .thumbnails),
      (∃ k ∈ b.keepers, k.tier.role = .thumbnails ∧ k.phase = .stopped ∧
        k.debouncer.pending = 0 ∧ k.tally.deleted = 0) ∧
      b.disk.isFile "/t/1.jpg".toList = true ∧
      (b.advance 60000).disk.isFile "/t/1.jpg".toList = false ∧
      ∃ k ∈ (b.advance 60000).keepers, k.tier.role = .thumbnails ∧ k.tally.deleted = 1 := by decide
  exact hswept

end TieredFootage
