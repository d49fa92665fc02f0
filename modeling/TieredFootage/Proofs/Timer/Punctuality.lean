import TieredFootage.Proofs.Timer.Replacement
import Mathlib.Data.List.Dedup

/-!
# Punctuality

A task is done exactly if its key is not armed again before the quiet period is
over, and then once, at the moment the quiet period ends. So what a debouncer does
for a key depends on the armings of that key and on the time only, and what it has
pending are the keys whose latest arming is still to be done.
-/

namespace TieredFootage

variable {κ α : Type} [DecidableEq κ] {delay : Nat} {h : TimerHistory κ α}
  {v : Vigil κ α} {before later : List (Arming κ α)} {r : Arming κ α} {key : κ}

namespace TimerHistory

/-- The keys that were armed. -/
def keys (h : TimerHistory κ α) : List κ := (h.armings.map (·.key)).dedup

/-- The latest arming of a key. -/
def latest? (h : TimerHistory κ α) (key : κ) : Option (Arming κ α) :=
  h.armings.reverse.find? (·.key == key)

/-- When a key was armed, and what was to be done. -/
def armedFor (h : TimerHistory κ α) (key : κ) : List (Int × α) :=
  (h.armings.filter (·.key == key)).map fun r => (r.moment, r.task)

theorem latest?_eq_some_iff :
    h.latest? key = some r ↔
      r.key = key ∧
        ∃ before later, h.armings = before ++ r :: later ∧ ∀ s ∈ later, s.key ≠ key := by
  unfold latest?
  rw [List.find?_eq_some_iff_append, beq_iff_eq]
  refine and_congr_right fun _ => ⟨?_, ?_⟩
  · rintro ⟨later, before, hsplit, hlater⟩
    refine ⟨before.reverse, later.reverse, ?_, fun s hs => ?_⟩
    · rw [← h.armings.reverse_reverse, hsplit]
      simp
    · simpa using hlater s (List.mem_reverse.1 hs)
  · rintro ⟨before, later, hsplit, hlater⟩
    refine ⟨later.reverse, before.reverse, by simp [hsplit], fun s hs => ?_⟩
    simpa using hlater s (List.mem_reverse.1 hs)

theorem nodup_keys (h : TimerHistory κ α) : h.keys.Nodup := List.nodup_dedup _

theorem mem_keys_iff : key ∈ h.keys ↔ ∃ r, h.latest? key = some r := by
  rw [keys, List.mem_dedup, List.mem_map, ← Option.isSome_iff_exists, latest?, List.find?_isSome]
  simp

/-- An arming lasts if its key is not armed again before it is due. -/
theorem Ordered.mem_lasting_iff (hh : h.Ordered) (hsplit : h.armings = before ++ r :: later) :
    r ∈ lasting delay h.armings ↔ ∀ s ∈ later, s.key = r.key → r.moment + delay ≤ s.moment := by
  have hnumbers := hh.nodup_numbers
  rw [hsplit] at hnumbers ⊢
  have hfound : r ∈ lasting delay (before ++ r :: later) ↔
      r ∈ (lasting delay (before ++ r :: later)).filter (·.number == r.number) := by
    simp [List.mem_filter]
  rw [hfound, lasting_filter_number hnumbers]
  split
  · rename_i hlasts
    exact iff_of_true (List.mem_singleton_self r) hlasts
  · rename_i hlasts
    exact iff_of_false List.not_mem_nil hlasts

/-- Those that are waiting are the latest of their keys. -/
theorem Ordered.mem_waiting_iff (hh : h.Ordered) :
    r ∈ h.waiting delay ↔ h.latest? r.key = some r ∧ h.now < r.moment + delay := by
  rw [latest?_eq_some_iff]
  constructor
  · intro hr
    obtain ⟨hlasts, hnow⟩ := List.mem_filter.1 hr
    have hnow := of_decide_eq_true hnow
    obtain ⟨before, later, hsplit⟩ := List.append_of_mem (waiting_subset delay h hr)
    refine ⟨⟨rfl, before, later, hsplit, fun s hs hkey => ?_⟩, hnow⟩
    have hdue := (hh.mem_lasting_iff hsplit).1 hlasts s hs hkey
    have hpast := hh.past s (by simp [hsplit, hs])
    omega
  · rintro ⟨⟨-, before, later, hsplit, hlater⟩, hnow⟩
    refine List.mem_filter.2
      ⟨(hh.mem_lasting_iff hsplit).2 fun s hs hkey => ?_, decide_eq_true hnow⟩
    exact absurd hkey (hlater s hs)

/-- The latest arming of a key has ended once it is due. -/
theorem Ordered.mem_ended_iff_of_latest? (hh : h.Ordered) (hr : h.latest? key = some r) :
    r ∈ h.ended delay ↔ r.moment + delay ≤ h.now := by
  obtain ⟨rfl, before, later, hsplit, hlater⟩ := latest?_eq_some_iff.1 hr
  have hlasts : r ∈ lasting delay h.armings :=
    (hh.mem_lasting_iff hsplit).2 fun s hs hkey => absurd hkey (hlater s hs)
  simp [ended, List.mem_filter, hlasts]

/-- The armings of a key, without their numbers. -/
def unnumbered (key : κ) (armed : List (Int × α)) : List (Arming κ α) :=
  armed.map fun x => ⟨0, key, x.1, x.2⟩

/-- What has become of the armings of a key depends on when it was armed only. -/
theorem map_filter_lasting {β : Type} {g : Arming κ α → β}
    (hg : ∀ r : Arming κ α, g { r with number := 0 } = g r) {p : Arming κ α → Bool}
    (hp : ∀ r : Arming κ α, p { r with number := 0 } = p r) (h : TimerHistory κ α) (key : κ) :
    (((lasting delay h.armings).filter p).filter (·.key == key)).map g =
      ((lasting delay (unnumbered key (h.armedFor key))).filter p).map g := by
  let f : Arming κ α → Arming κ α := fun r => { r with number := 0 }
  have hf : (h.armings.filter (·.key == key)).map f = unnumbered key (h.armedFor key) := by
    rw [unnumbered, armedFor, List.map_map]
    refine List.map_congr_left fun r hr => ?_
    obtain rfl : r.key = key := by simpa using (List.mem_filter.1 hr).2
    rfl
  have hlasting : lasting delay (unnumbered key (h.armedFor key)) =
      ((lasting delay h.armings).filter (·.key == key)).map f := by
    rw [← hf, lasting_map (f := f) (fun _ => rfl) (fun _ => rfl), lasting_filter_key]
  rw [hlasting, List.filter_map, List.map_map, List.filter_comm]
  have hpf : p ∘ f = p := funext hp
  have hgf : g ∘ f = g := funext hg
  rw [hpf, hgf]

end TimerHistory

namespace Vigil

/-- Whether the task of an arming has been done. -/
def hasRun (v : Vigil κ α) (r : Arming κ α) : Bool := v.done.any (·.2.number == r.number)

/-- Whether an arming is entered under a key. -/
def isPending (v : Vigil κ α) (key : κ) : Bool := v.alarms.entries.any (·.1 == key)

/-- What was done for a key, and when. -/
def doneFor (v : Vigil κ α) (key : κ) : List (Int × α) :=
  (v.done.filter (·.2.key == key)).map fun f => (f.1, f.2.task)

theorem Follows.hasRun_iff (hv : v.Follows delay h) (hh : h.Ordered) (hr : r ∈ h.armings) :
    v.hasRun r = true ↔ r ∈ h.ended delay := by
  rw [hasRun, hv.done_eq, List.any_map, List.any_eq_true]
  constructor
  · rintro ⟨s, hs, hnumber⟩
    have hmade := (lasting_sublist delay h.armings).subset (List.mem_filter.1 hs).1
    rwa [hh.eq_of_number hr hmade (beq_iff_eq.1 hnumber).symm]
  · exact fun hover => ⟨r, hover, by simp [Arming.punctual]⟩

/-- The task of an arming is done once or not at all. -/
theorem Follows.done_filter_number (hv : v.Follows delay h) (hh : h.Ordered)
    (hsplit : h.armings = before ++ r :: later) :
    v.done.filter (·.2.number == r.number) =
      if (∀ s ∈ later, s.key = r.key → r.moment + delay ≤ s.moment) ∧ r.moment + delay ≤ v.now
      then [(r.moment + delay, r)] else [] := by
  have hnumbers := hh.nodup_numbers
  rw [hsplit] at hnumbers
  have hover : (h.ended delay).filter (·.number == r.number) =
      if (∀ s ∈ later, s.key = r.key → r.moment + delay ≤ s.moment) ∧ r.moment + delay ≤ v.now
      then [r] else [] := by
    rw [TimerHistory.ended, List.filter_comm, hsplit, lasting_filter_number hnumbers, hv.now_eq]
    by_cases hlasts : ∀ s ∈ later, s.key = r.key → r.moment + delay ≤ s.moment
    · rw [if_pos hlasts]
      by_cases hdue : r.moment + delay ≤ h.now
      · rw [if_pos ⟨hlasts, hdue⟩, List.filter_cons_of_pos (by simpa using hdue)]
        rfl
      · rw [if_neg fun hboth => hdue hboth.2, List.filter_cons_of_neg (by simpa using hdue)]
        rfl
    · rw [if_neg hlasts, if_neg fun hboth => hlasts hboth.1]
      rfl
  rw [hv.done_eq, List.filter_map]
  refine (congrArg (List.map (Arming.punctual delay)) hover).trans ?_
  split <;> rfl

theorem Follows.pending_eq (hv : v.Follows delay h) (hh : h.Ordered) :
    v.alarms.pending =
      h.keys.countP fun key => (h.latest? key).any fun r => !v.hasRun r := by
  have hpending : v.alarms.pending = ((h.waiting delay).map (·.key)).length := by
    rw [Alarms.pending, hv.keeps.entries_eq, List.length_map, List.length_map]
  rw [hpending, List.countP_eq_length_filter]
  refine List.Perm.length_eq ?_
  refine (List.perm_ext_iff_of_nodup hv.keeps.keys_nodup (h.nodup_keys.filter _)).2 fun key => ?_
  rw [List.mem_map, List.mem_filter, TimerHistory.mem_keys_iff]
  constructor
  · rintro ⟨r, hr, rfl⟩
    obtain ⟨hlatest, hnow⟩ := hh.mem_waiting_iff.1 hr
    have hrun : ¬ v.hasRun r = true := by
      rw [hv.hasRun_iff hh (TimerHistory.waiting_subset delay h hr),
        hh.mem_ended_iff_of_latest? hlatest]
      omega
    exact ⟨⟨r, hlatest⟩, by simpa [hlatest] using hrun⟩
  · rintro ⟨⟨r, hlatest⟩, hrun⟩
    rw [hlatest, Option.any_some, Bool.not_eq_true'] at hrun
    obtain ⟨rfl, before, later, hsplit, -⟩ := TimerHistory.latest?_eq_some_iff.1 hlatest
    refine ⟨r, hh.mem_waiting_iff.2 ⟨hlatest, ?_⟩, rfl⟩
    have hmade : r ∈ h.armings := by simp [hsplit]
    have hnot : ¬ r ∈ h.ended delay := by
      rw [← hv.hasRun_iff hh hmade, hrun]
      exact Bool.false_ne_true
    rw [hh.mem_ended_iff_of_latest? hlatest] at hnot
    omega

theorem Follows.doneFor_eq (hv : v.Follows delay h) (key : κ) :
    v.doneFor key =
      ((lasting delay (TimerHistory.unnumbered key (h.armedFor key))).filter
        fun r => decide (r.moment + delay ≤ h.now)).map
          fun r => ((r.moment + delay : Int), r.task) := by
  rw [doneFor, hv.done_eq, List.filter_map, List.map_map]
  exact TimerHistory.map_filter_lasting (fun _ => rfl) (fun _ => rfl) h key

theorem Follows.isPending_eq (hv : v.Follows delay h) (key : κ) :
    v.isPending key =
      !((lasting delay (TimerHistory.unnumbered key (h.armedFor key))).filter
        fun r => decide (h.now < r.moment + delay)).isEmpty := by
  have hentered : v.isPending key = !((h.waiting delay).filter (·.key == key)).isEmpty := by
    rw [isPending, hv.keeps.entries_eq, List.any_map, Bool.eq_iff_iff]
    simp [Arming.entry, List.filter_eq_nil_iff]
  have hsame : (((lasting delay h.armings).filter fun r => decide (h.now < r.moment + delay)).filter
      (·.key == key)).map (fun _ => ()) =
        ((lasting delay (TimerHistory.unnumbered key (h.armedFor key))).filter
          fun r => decide (h.now < r.moment + delay)).map fun _ => () :=
    TimerHistory.map_filter_lasting (fun _ => rfl) (fun _ => rfl) h key
  rw [hentered, ← List.isEmpty_map (f := fun _ => ()), TimerHistory.waiting, hsame,
    List.isEmpty_map]

/-- After a flush nobody is asleep, and nothing is waiting. -/
theorem Follows.flush (hv : v.Follows delay h) (hh : h.Ordered) :
    (v.step .flush).alarms.asleep = [] ∧ (v.step .flush).alarms.pending = 0 := by
  have halarms := (hv.keeps.rouse hh (p := fun _ => true) fun _ _ _ _ => rfl).1
  constructor
  · refine (congrArg Alarms.asleep halarms).trans ?_
    simp
  · refine (congrArg (fun a => a.entries.length) halarms).trans ?_
    simp

theorem Follows.hasRun_flush (hv : v.Follows delay h) (hh : h.Ordered)
    (hr : h.latest? key = some r) : (v.step .flush).hasRun r = true := by
  have hflushed := hv.step hh .flush
  have hlatest : (h.step delay .flush).latest? key = some r := hr
  have hh' := hh.step delay (.flush : TimerStep κ α)
  obtain ⟨-, before, later, hsplit, -⟩ := TimerHistory.latest?_eq_some_iff.1 hr
  have hmade : r ∈ h.armings := by simp [hsplit]
  rw [hflushed.hasRun_iff hh' hmade, hh'.mem_ended_iff_of_latest? hlatest]
  exact (hh.flushEnd_le_iff.1 (Int.le_refl _)).2 r hmade

/-- A task is done exactly if its key is not armed again before the quiet period is
over and the time has come, and then once and at that moment. At every moment at
most one arming is pending for a key, and what is pending are the keys whose latest
arming is still to be done; a flush leaves nothing pending and every latest arming
done, and is a step like the others. What is done and what is pending for a key
depends on when that key was armed only, and `Debouncer` does and keeps the same. -/
theorem on_schedule (delay : Nat) (start : Int) (steps : List (TimerStep κ α)) :
    let h := TimerHistory.after delay start steps
    let v := after delay start steps
    let w := Debouncer.InUse.after delay start steps
    v.now = h.now ∧ h.armings.map (·.number) = List.range h.armings.length ∧
    (∀ (before later : List (Arming κ α)) (r : Arming κ α), h.armings = before ++ r :: later →
      v.done.filter (·.2.number == r.number) =
        if (∀ s ∈ later, s.key = r.key → r.moment + delay ≤ s.moment) ∧ r.moment + delay ≤ v.now
        then [(r.moment + delay, r)] else []) ∧
    (∀ x ∈ v.done, x.2 ∈ h.armings) ∧
    (v.alarms.entries.map (·.1)).Nodup ∧
    (v.alarms.pending = h.keys.countP fun key => (h.latest? key).any fun r => !v.hasRun r) ∧
    ((v.step .flush).alarms.asleep = [] ∧ (v.step .flush).alarms.pending = 0 ∧
      ∀ key r, h.latest? key = some r → (v.step .flush).hasRun r = true) ∧
    (∀ start' steps' key,
      (TimerHistory.after delay start' steps').armedFor key = h.armedFor key →
      (after delay start' steps').now = v.now →
        (after delay start' steps').doneFor key = v.doneFor key ∧
          (after delay start' steps').isPending key = v.isPending key) ∧
    (w.now = v.now ∧ w.debouncer.pending = v.alarms.pending ∧
      w.ended = v.done.map fun x => ⟨x.2.key, x.1, x.2.task⟩) := by
  intro h v w
  have hv : v.Follows delay h := follows_after delay start steps
  have hw : w.Follows delay h := Debouncer.InUse.follows_after delay start steps
  have hh : h.Ordered := TimerHistory.ordered_after delay start steps
  refine ⟨hv.now_eq, hh.numbers,
    fun before later r hsplit => hv.done_filter_number hh hsplit, ?_, ?_, hv.pending_eq hh,
    ⟨(hv.flush hh).1, (hv.flush hh).2, fun key r => hv.hasRun_flush hh⟩, ?_, ?_⟩
  · intro x hx
    rw [hv.done_eq] at hx
    obtain ⟨r, hr, rfl⟩ := List.mem_map.1 hx
    exact (lasting_sublist delay h.armings).subset (List.mem_filter.1 hr).1
  · rw [hv.keeps.entries_eq, List.map_map]
    exact hv.keeps.keys_nodup
  · intro start' steps' key harmed hnow
    have hv' := follows_after delay start' steps'
    have htime := hv'.now_eq.symm.trans (hnow.trans hv.now_eq)
    rw [hv'.doneFor_eq, hv.doneFor_eq, hv'.isPending_eq, hv.isPending_eq, harmed, htime]
    exact ⟨rfl, rfl⟩
  · refine ⟨hw.now_eq.trans hv.now_eq.symm, ?_, ?_⟩
    · rw [Debouncer.pending, hw.timers_eq, Alarms.pending, hv.keeps.entries_eq, List.length_map,
        List.length_map]
    · rw [hw.ended_eq, hv.done_eq, List.map_map]
      rfl

end Vigil

/-- A key is armed again before its first arming is due, which does not hear that it
is called off. -/
def rearmed : List (TimerStep Nat Nat) :=
  [.arm 0 100 true, .wait 4, .arm 0 101 false, .arm 1 200 true, .wait 20, .arm 0 102 true, .flush]

/-- The first arming never does its task, the second one does so at the end of its own
quiet period. -/
theorem on_schedule_rearmed :
    (TimerHistory.after 10 0 rearmed).armings =
        [⟨0, 0, 0, 100⟩] ++ ⟨1, 0, 4, 101⟩ :: [⟨2, 1, 4, 200⟩, ⟨3, 0, 24, 102⟩] ∧
      (Vigil.after 10 0 rearmed).done.filter (·.2.number == 1) = [(14, ⟨1, 0, 4, 101⟩)] ∧
      (Vigil.after 10 0 rearmed).alarms.pending = 0 :=
  ⟨by decide,
    ((Vigil.on_schedule 10 0 rearmed).2.2.1 [⟨0, 0, 0, 100⟩] [⟨2, 1, 4, 200⟩, ⟨3, 0, 24, 102⟩]
      ⟨1, 0, 4, 101⟩ (by decide)).trans (by decide),
    by decide⟩

end TieredFootage
