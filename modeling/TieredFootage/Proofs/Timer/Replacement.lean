import TieredFootage.Proofs.Timer.Schedule

/-!
# Replaced alarms

An arming that is called off too late still wakes, and finds another number entered
under its key. What keeps this sound is that the entries are exactly the armings
that are waiting, that these are asleep in the order they were made, and that the
others who are asleep have other numbers (`Vigil.Keeps`). Whoever wakes then goes on
exactly if it was waiting.
-/

namespace TieredFootage

variable {κ α : Type} [DecidableEq κ] {delay : Nat} {h h' : TimerHistory κ α}
  {v : Vigil κ α} {pool rest l : List (Arming κ α)} {r s : Arming κ α} {moment : Int}

/-- What is entered for an arming. -/
def Arming.entry (r : Arming κ α) : κ × Nat := (r.key, r.number)

/-- The task of an arming, done when it is due. -/
def Arming.punctual (delay : Nat) (r : Arming κ α) : Int × Arming κ α := (r.moment + delay, r)

omit [DecidableEq κ] in
/-- A number belongs to one arming. -/
theorem TimerHistory.Ordered.eq_of_number (hh : h.Ordered) (hr : r ∈ h.armings)
    (hs : s ∈ h.armings) (hnumber : r.number = s.number) : r = s :=
  List.inj_on_of_nodup_map hh.nodup_numbers hr hs hnumber

omit [DecidableEq κ] in
theorem TimerHistory.Ordered.pairwise_number (hh : h.Ordered) :
    h.armings.Pairwise (·.number < ·.number) := by
  rw [← List.pairwise_map, hh.numbers]
  exact List.pairwise_lt_range

theorem Alarms.callOff_sublist (a : Alarms κ α) (key : κ) : (a.callOff key).Sublist a.asleep := by
  unfold callOff
  split
  · exact .refl _
  · exact List.filter_sublist

namespace Vigil

section Waking

/-- An arming that is entered first goes on, and its entry is struck out. -/
theorem wake_entered (hentries : v.alarms.entries = (r :: rest).map Arming.entry)
    (hkeys : ((r :: rest).map (·.key)).Nodup) (hnow : v.now ≤ v.alarms.due r) :
    v.wake r =
      { alarms := { v.alarms with entries := rest.map Arming.entry }
        now := v.alarms.due r
        done := v.done ++ [(v.alarms.due r, r)] } := by
  have hlookup : v.alarms.entries.lookup r.key = some r.number := by
    simp [hentries, Arming.entry]
  have hstruck : v.alarms.strike r.key =
      { v.alarms with entries := rest.map Arming.entry } := by
    have hothers : ∀ s ∈ rest, s.key ≠ r.key := fun s hs hk =>
      (List.nodup_cons.1 hkeys).1 (List.mem_map.2 ⟨s, hs, hk⟩)
    have hkept : rest.filter (fun s => s.key != r.key) = rest :=
      List.filter_eq_self.2 fun s hs => by simpa using hothers s hs
    rw [Alarms.strike, hentries, List.filter_map]
    simp only [Function.comp_def, Arming.entry, List.filter_cons, bne_self_eq_false, hkept]
    rfl
  simp only [wake, hlookup, if_true, hstruck, Int.max_eq_right hnow]

/-- An arming that is not entered does nothing. -/
theorem wake_replaced (hentries : v.alarms.entries = rest.map Arming.entry)
    (hr : ∀ s ∈ rest, s.number ≠ r.number) (hnow : v.now ≤ v.alarms.due r) :
    v.wake r = { v with now := v.alarms.due r } := by
  have hlookup : v.alarms.entries.lookup r.key ≠ some r.number := by
    intro hfound
    obtain ⟨before, later, hsplit, -⟩ := List.lookup_eq_some_iff.1 hfound
    have hmem : (r.key, r.number) ∈ rest.map Arming.entry := by
      rw [← hentries, hsplit]
      exact List.mem_append_right _ List.mem_cons_self
    obtain ⟨s, hs, hentry⟩ := List.mem_map.1 hmem
    exact hr s hs (congrArg Prod.snd hentry)
  simp only [wake, hlookup, if_false, Int.max_eq_right hnow]

@[simp] theorem delay_wake (v : Vigil κ α) (r : Arming κ α) :
    (v.wake r).alarms.delay = v.alarms.delay := by
  unfold wake
  dsimp only
  split <;> rfl

theorem now_wake (v : Vigil κ α) (r : Arming κ α) :
    (v.wake r).now = max v.now (v.alarms.due r) := by
  unfold wake
  dsimp only
  split <;> rfl

/-- Waking takes until all are due. -/
theorem now_foldl_wake_le_iff :
    (l.foldl wake v).now ≤ moment ↔
      v.now ≤ moment ∧ ∀ r ∈ l, v.alarms.due r ≤ moment := by
  induction l generalizing v with
  | nil => simp
  | cons r l ih =>
    rw [List.foldl_cons, ih, now_wake, Int.max_le, List.forall_mem_cons, and_assoc]
    simp only [Alarms.due, delay_wake]

/-- Of those who wake exactly the ones entered go on. The induction is on how they
lie among the others: one who was replaced wakes and does nothing, one who is
entered comes first among the entries. -/
theorem foldl_wake (hsub : pool.Sublist l)
    (hentries : v.alarms.entries = (pool ++ rest).map Arming.entry)
    (hkeys : ((pool ++ rest).map (·.key)).Nodup)
    (hnumbers : (l ++ rest).Pairwise (·.number < ·.number))
    (hmoments : l.Pairwise (·.moment ≤ ·.moment)) (hnow : ∀ r ∈ l, v.now ≤ v.alarms.due r) :
    (l.foldl wake v).alarms = { v.alarms with entries := rest.map Arming.entry } ∧
      (l.foldl wake v).done = v.done ++ pool.map (fun r => (v.alarms.due r, r)) := by
  induction hsub generalizing v with
  | slnil =>
    simp only [List.nil_append] at hentries
    simp [← hentries]
  | @cons pool l r hsub ih =>
    obtain ⟨hr, hrest⟩ := List.pairwise_cons.1 hnumbers
    obtain ⟨hlater, hmoments⟩ := List.pairwise_cons.1 hmoments
    have hnumber : ∀ s ∈ pool ++ rest, s.number ≠ r.number := fun s hs =>
      Nat.ne_of_gt (hr s ((hsub.append (.refl rest)).subset hs))
    have hnext : ∀ s ∈ l, v.alarms.due r ≤ v.alarms.due s := fun s hs =>
      Int.add_le_add_right (hlater s hs) _
    rw [List.foldl_cons, wake_replaced hentries hnumber (hnow r List.mem_cons_self)]
    exact ih (v := { v with now := v.alarms.due r }) hentries hkeys hrest hmoments hnext
  | @cons_cons pool l r hsub ih =>
    obtain ⟨-, hrest⟩ := List.pairwise_cons.1 hnumbers
    obtain ⟨hlater, hmoments⟩ := List.pairwise_cons.1 hmoments
    have hnext : ∀ s ∈ l, v.alarms.due r ≤ v.alarms.due s := fun s hs =>
      Int.add_le_add_right (hlater s hs) _
    obtain ⟨halarms, hdone⟩ := ih
      (v := { alarms := { v.alarms with entries := (pool ++ rest).map Arming.entry }
              now := v.alarms.due r
              done := v.done ++ [(v.alarms.due r, r)] })
      rfl (List.nodup_cons.1 hkeys).2 hrest hmoments hnext
    have hwake : v.wake r =
        { alarms := { v.alarms with entries := (pool ++ rest).map Arming.entry }
          now := v.alarms.due r
          done := v.done ++ [(v.alarms.due r, r)] } :=
      wake_entered hentries hkeys (hnow r List.mem_cons_self)
    rw [List.foldl_cons, hwake]
    refine ⟨halarms, hdone.trans ?_⟩
    rw [List.append_assoc]
    rfl

end Waking

/-- The entries are those of a pool of armings, who are asleep among all that were
made and are still asleep. -/
structure Keeps (h : TimerHistory κ α) (pool : List (Arming κ α)) (v : Vigil κ α) : Prop where
  number_eq : v.alarms.nextNumber = h.armings.length
  entries_eq : v.alarms.entries = pool.map Arming.entry
  keys_nodup : (pool.map (·.key)).Nodup
  pool_sublist : pool.Sublist v.alarms.asleep
  asleep_sublist : v.alarms.asleep.Sublist h.armings
  not_due : ∀ r ∈ v.alarms.asleep, v.now ≤ v.alarms.due r

/-- Of those who are roused exactly the ones in the pool go on. -/
theorem Keeps.rouse (hv : v.Keeps h pool) (hh : h.Ordered) {p : Arming κ α → Bool}
    (hp : ∀ r s : Arming κ α, r.moment ≤ s.moment → p s = true → p r = true) :
    (v.rouse p).alarms =
        { v.alarms with
          entries := (pool.filter fun r => !p r).map Arming.entry
          asleep := v.alarms.asleep.filter fun r => !p r } ∧
      (v.rouse p).done = v.done ++ (pool.filter p).map (fun r => (v.alarms.due r, r)) := by
  have hmoments := hh.moments.sublist hv.asleep_sublist
  have hasleep := filter_append_filter_not (hmoments.imp fun hle => hp _ _ hle)
  have hpool := filter_append_filter_not
    ((hmoments.sublist hv.pool_sublist).imp fun hle => hp _ _ hle)
  have hnumbers := hh.pairwise_number.sublist hv.asleep_sublist
  rw [← hasleep] at hnumbers
  refine foldl_wake
    (v := { v with
      alarms := { v.alarms with asleep := v.alarms.asleep.filter fun r => !p r } })
    (hv.pool_sublist.filter p) ?_ ?_
    (hnumbers.sublist ((List.Sublist.refl _).append (hv.pool_sublist.filter _)))
    (hmoments.filter p) fun r hr => hv.not_due r (List.mem_filter.1 hr).1
  · rw [hpool]
    exact hv.entries_eq
  · rw [hpool]
    exact hv.keys_nodup

/-- Whoever is called off was entered under the key, so the armings that wait for
other keys sleep on. -/
theorem Keeps.waiting_sublist_callOff (hv : v.Keeps h pool) (hh : h.Ordered) (key : κ) :
    (pool.filter (·.key != key)).Sublist (v.alarms.callOff key) := by
  unfold Alarms.callOff
  split
  · exact (List.filter_sublist.trans hv.pool_sublist)
  · rename_i n hfound
    have hentered : (key, n) ∈ pool.map Arming.entry := by
      obtain ⟨before, later, hsplit, -⟩ := List.lookup_eq_some_iff.1 hfound
      rw [← hv.entries_eq, hsplit]
      exact List.mem_append_right _ List.mem_cons_self
    obtain ⟨s, hs, hentry⟩ := List.mem_map.1 hentered
    have hmade := hv.pool_sublist.trans hv.asleep_sublist
    have hothers : ∀ r ∈ pool.filter (·.key != key), (r.number != n) = true := by
      intro r hr
      obtain ⟨hr, hkey⟩ := List.mem_filter.1 hr
      refine bne_iff_ne.2 fun hnumber => bne_iff_ne.1 hkey ?_
      have hsame := hh.eq_of_number (hmade.subset hr) (hmade.subset hs)
        (hnumber.trans (congrArg Prod.snd hentry).symm)
      exact (congrArg Arming.key hsame).trans (congrArg Prod.fst hentry)
    rw [← List.filter_eq_self.2 hothers]
    exact (List.filter_sublist.trans hv.pool_sublist).filter _

/-- A vigil keeps the armings that are waiting and has done the tasks of those that
are ended, each when it was due. -/
structure Follows (delay : Nat) (h : TimerHistory κ α) (v : Vigil κ α) : Prop where
  keeps : v.Keeps h (h.waiting delay)
  delay_eq : v.alarms.delay = delay
  now_eq : v.now = h.now
  done_eq : v.done = (h.ended delay).map (Arming.punctual delay)

/-- Arming a key leaves the pool entered, whether or not the one that is replaced
hears of it. -/
theorem Follows.keeps_arm (hv : v.Follows delay h) (hh : h.Ordered) (key : κ) (task : α)
    (heard : Bool) :
    ({ v with alarms := v.alarms.arm v.now key task heard } : Vigil κ α).Keeps
      (h.push key task) (h.pool delay key task) where
  number_eq := by simp [Alarms.arm, TimerHistory.push, hv.keeps.number_eq]
  entries_eq := by
    rw [Alarms.arm, TimerHistory.pool, hv.keeps.entries_eq, hv.keeps.number_eq, List.map_append,
      List.filter_map]
    rfl
  keys_nodup := by
    rw [TimerHistory.pool, List.map_append, List.nodup_append]
    refine ⟨hv.keeps.keys_nodup.sublist (List.filter_sublist.map _), List.nodup_singleton _, ?_⟩
    intro x hx y hy
    obtain ⟨r, hr, rfl⟩ := List.mem_map.1 hx
    obtain rfl := List.mem_singleton.1 hy
    exact bne_iff_ne.1 (List.mem_filter.1 hr).2
  pool_sublist := by
    rw [TimerHistory.pool, Alarms.arm, hv.keeps.number_eq, hv.now_eq]
    refine List.Sublist.append ?_ (.refl _)
    split
    · exact hv.keeps.waiting_sublist_callOff hh key
    · exact List.filter_sublist.trans hv.keeps.pool_sublist
  asleep_sublist := by
    rw [TimerHistory.push, Alarms.arm, hv.keeps.number_eq, hv.now_eq]
    refine List.Sublist.append ?_ (.refl _)
    split
    · exact (v.alarms.callOff_sublist key).trans hv.keeps.asleep_sublist
    · exact hv.keeps.asleep_sublist
  not_due := by
    intro r hr
    obtain hr | hr := List.mem_append.1 hr
    · refine hv.keeps.not_due r ?_
      split at hr
      · exact (v.alarms.callOff_sublist key).subset hr
      · exact hr
    · obtain rfl := List.mem_singleton.1 hr
      simp only [Alarms.due, Alarms.arm]
      omega

/-- Waking everyone who is due takes the vigil along a step of the history. -/
theorem follows_rouseBy (hv : v.Keeps h' pool) (hh : h'.Ordered) (hdelay : v.alarms.delay = delay)
    (hdone : v.done = (h.ended delay).map (Arming.punctual delay))
    (he : h.Elapses delay h' pool moment) {w : Vigil κ α}
    (halarms : w.alarms = (v.rouseBy moment).alarms) (hdone' : w.done = (v.rouseBy moment).done)
    (hnow : w.now = moment) : w.Follows delay h' := by
  have hinOrder : ∀ r s : Arming κ α, r.moment ≤ s.moment →
      decide (v.alarms.due s ≤ moment) = true → decide (v.alarms.due r ≤ moment) = true := by
    intro r s hle hs
    exact decide_eq_true (Int.le_trans (Int.add_le_add_right hle _) (of_decide_eq_true hs))
  obtain ⟨hrousedAlarms, hrousedDone⟩ := hv.rouse hh hinOrder
  have hdue : ∀ r : Arming κ α, v.alarms.due r = r.moment + delay := fun r => by
    rw [Alarms.due, hdelay]
  have hlater : ∀ r : Arming κ α,
      (!decide (v.alarms.due r ≤ moment)) = decide (moment < r.moment + delay) := by
    intro r
    by_cases hr : moment < r.moment + delay
    · simp [hdue, hr]
    · simp [hdue, hr, Int.not_lt.1 hr]
  have hw := halarms.trans hrousedAlarms
  simp only [hlater, ← he.waiting_eq, hdelay] at hw
  refine ⟨⟨?_, ?_, ?_, ?_, ?_, ?_⟩, ?_, hnow.trans he.now_eq.symm, ?_⟩
  · simpa only [hw] using hv.number_eq
  · simp only [hw]
  · rw [he.waiting_eq]
    exact hv.keys_nodup.sublist (List.filter_sublist.map _)
  · rw [he.waiting_eq, hw]
    exact hv.pool_sublist.filter _
  · rw [hw]
    exact List.filter_sublist.trans hv.asleep_sublist
  · intro r hr
    rw [hw] at hr
    have hnot := of_decide_eq_true (List.mem_filter.1 hr).2
    simp only [hw, hnow, Alarms.due]
    omega
  · rw [hw]
  · rw [he.ended_eq, List.map_append, ← hdone]
    refine (hdone'.trans hrousedDone).trans ?_
    simp only [hdue]
    rfl

omit [DecidableEq κ] in
theorem Keeps.moveTo (hv : v.Keeps h pool) (moment : Int) : v.Keeps (h.moveTo moment) pool :=
  ⟨hv.number_eq, hv.entries_eq, hv.keys_nodup, hv.pool_sublist, hv.asleep_sublist, hv.not_due⟩

/-- Waking everyone by a moment that nobody who wakes is due after ends then. -/
theorem rouse_eq_rouseBy (v : Vigil κ α) (hall : ∀ r ∈ v.alarms.asleep, v.alarms.due r ≤ moment) :
    (v.rouse fun _ => true) = v.rouseBy moment := by
  have hroused : v.alarms.asleep.filter (fun r => decide (v.alarms.due r ≤ moment)) =
      v.alarms.asleep.filter fun _ => true :=
    List.filter_congr fun r hr => by simp [hall r hr]
  have hleft : v.alarms.asleep.filter (fun r => !decide (v.alarms.due r ≤ moment)) =
      v.alarms.asleep.filter fun _ => !true :=
    List.filter_congr fun r hr => by simp [hall r hr]
  rw [rouseBy, rouse, rouse, hroused, hleft]

theorem Follows.step (hv : v.Follows delay h) (hh : h.Ordered) (e : TimerStep κ α) :
    (v.step e).Follows delay (h.step delay e) := by
  cases e with
  | arm key task heard =>
    have he := TimerHistory.elapses_push delay h key task
    rw [← hv.now_eq] at he
    refine follows_rouseBy (hv.keeps_arm hh key task heard) (hh.push key task) hv.delay_eq
      hv.done_eq he rfl rfl (Int.le_antisymm ?_ ?_)
    · refine now_foldl_wake_le_iff.2 ⟨Int.le_refl _, fun r hr => ?_⟩
      exact of_decide_eq_true (List.mem_filter.1 hr).2
    · exact (now_foldl_wake_le_iff.1 (Int.le_refl _)).1
  | wait span =>
    have hm : h.now ≤ h.now + span := by omega
    have he := hh.elapses_moveTo delay hm
    refine follows_rouseBy (hv.keeps.moveTo _) (hh.moveTo hm) hv.delay_eq hv.done_eq he ?_ ?_ ?_
    all_goals rw [Vigil.step, hv.now_eq]
  | flush =>
    have hm := TimerHistory.le_flushEnd delay h
    have hall : ∀ r ∈ v.alarms.asleep, v.alarms.due r ≤ h.flushEnd delay := by
      intro r hr
      rw [Alarms.due, hv.delay_eq]
      exact (hh.flushEnd_le_iff.1 (Int.le_refl _)).2 r (hv.keeps.asleep_sublist.subset hr)
    have hroused := rouse_eq_rouseBy v hall
    refine follows_rouseBy (hv.keeps.moveTo _) (hh.moveTo hm) hv.delay_eq hv.done_eq
      (hh.elapses_moveTo delay hm) (congrArg Vigil.alarms hroused) (congrArg Vigil.done hroused) ?_
    refine hh.eq_flushEnd hv.keeps.pool_sublist.subset hv.keeps.asleep_sublist.subset fun m => ?_
    rw [Vigil.step, rouse, now_foldl_wake_le_iff, hv.now_eq, List.filter_true]
    simp only [Alarms.due, hv.delay_eq]

/-- What is entered, who is asleep and what is done can be read off the history. -/
theorem follows_after (delay : Nat) (start : Int) (steps : List (TimerStep κ α)) :
    (after delay start steps).Follows delay (TimerHistory.after delay start steps) := by
  have hrun := List.foldl_rel (l := steps) (f := Vigil.step) (g := TimerHistory.step delay)
    (r := fun v h => v.Follows delay h ∧ h.Ordered)
    (a := { alarms := { delay }, now := start }) (b := { now := start })
    ⟨⟨⟨rfl, rfl, .nil, .slnil, .slnil, by simp⟩, rfl, rfl, rfl⟩, rfl, .nil, by simp⟩
    fun e _ v h hv => ⟨hv.1.step hv.2 e, hv.2.step delay e⟩
  exact hrun.1

end Vigil

end TieredFootage
