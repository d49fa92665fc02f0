import TieredFootage.Proofs.Selection.Rule

/-!
# Where a population is cut

Whether a file leaves depends on its age, on the bytes passed on the way to it, on
a floor and on a grace period, each by itself. On a walk from the newest to the
oldest, neither age nor bytes ever fall, so once a file leaves all that come after
it leave as well: the selection cuts the sorted population in two.

The cut lies where it has to. A part that stays and is over the byte limit ends
with a file that may not leave yet, or that the floor still needs. And what leaves
for its size alone would not have fitted behind the part that stays.
-/

namespace TieredFootage

/-- Of two ranks the one at least as new is no earlier. -/
theorem Rank.moment_le_of_atLeast {a b : Rank} (h : a.atLeast b = true) : b.moment ≤ a.moment := by
  simp only [atLeast, Bool.or_eq_true, Bool.and_eq_true, decide_eq_true_eq] at h
  omega

theorem Rank.not_newer_of_atLeast {a b : Rank} (h : a.atLeast b = true) : ¬ b.Newer a := by
  simp only [atLeast, Bool.or_eq_true, Bool.and_eq_true, decide_eq_true_eq] at h
  unfold Newer
  omega

namespace Retention

variable {α : Type} {r : Retention} {grace : Nat} {now : Int} {bytes : α → Nat} {since : α → Int}

/-- Once an item leaves, so does every item that is at least as old and comes after
it. The bytes passed before it have to be held at the cap: those passed afterwards
are, and would else be fewer. -/
theorem evicts_of_older {age age' newer newer' size size' : Nat} (hage : age ≤ age')
    (hcap : newer ≤ maxAmount) (hnewer : capped (newer + size) ≤ newer')
    (h : r.evicts grace age newer size = true) : r.evicts grace age' newer' size' = true := by
  have hgrown : newer ≤ newer' := calc
    newer = capped newer := (capped_of_le hcap).symm
    _ ≤ capped (newer + size) := capped_mono (Nat.le_add_right _ _)
    _ ≤ newer' := hnewer
  have hpassed : capped (newer + size) ≤ capped (newer' + size') := by
    rw [← capped_capped]
    exact capped_mono (Nat.le_add_right_of_le hnewer)
  simp only [evicts, isTooOld, isTooMuch, Bool.and_eq_true, Bool.or_eq_true,
    decide_eq_true_eq] at h ⊢
  obtain ⟨hgrace, ⟨hset, hold⟩ | ⟨⟨hset, hmuch⟩, hfloor⟩⟩ := h
  · exact ⟨Nat.le_trans hgrace hage, Or.inl ⟨hset, Nat.lt_of_lt_of_le hold hage⟩⟩
  · exact ⟨Nat.le_trans hgrace hage,
      Or.inr ⟨⟨hset, Nat.lt_of_lt_of_le hmuch hpassed⟩, Nat.le_trans hfloor hgrown⟩⟩

/-- After an item that leaves, a walk that grows older has no item that stays. -/
theorem judge_of_evicts {age' newer newer' size : Nat} {xs : List α}
    (hages : ∀ x ∈ xs, age' ≤ age now (since x)) (hcap : newer ≤ maxAmount)
    (hnewer : capped (newer + size) ≤ newer') (hcap' : newer' ≤ maxAmount)
    (h : r.evicts grace age' newer size = true) :
    r.judge grace now bytes since newer' xs = xs.map fun x => (x, true) := by
  induction xs generalizing newer' with
  | nil => rfl
  | cons x xs ih =>
    have hleaves : r.evicts grace (age now (since x)) newer' (bytes x) = true :=
      evicts_of_older (hages x List.mem_cons_self) hcap hnewer h
    have hnext : capped (newer + size) ≤ capped (newer' + bytes x) := by
      rw [← capped_capped]
      exact capped_mono (Nat.le_add_right_of_le hnewer)
    rw [judge_cons, List.map_cons, hleaves,
      ih (fun y hy => hages y (List.mem_cons_of_mem _ hy)) hnext (capped_le _)]

/-- A walk that grows older is cut once: what is in front of the cut stays, and what
is behind it leaves. -/
theorem exists_cut (r : Retention) (grace : Nat) (bytes : α → Nat) {newer : Nat}
    (hcap : newer ≤ maxAmount) {xs : List α}
    (hages : xs.Pairwise fun x y => age now (since x) ≤ age now (since y)) :
    ∃ stays leaves, xs = stays ++ leaves ∧
      r.judge grace now bytes since newer xs =
        stays.map (fun x => (x, false)) ++ leaves.map fun x => (x, true) := by
  induction xs generalizing newer with
  | nil => exact ⟨[], [], rfl, rfl⟩
  | cons x xs ih =>
    obtain ⟨hx, hxs⟩ := List.pairwise_cons.1 hages
    cases hleaves : r.evicts grace (age now (since x)) newer (bytes x) with
    | true =>
      refine ⟨[], x :: xs, rfl, ?_⟩
      rw [judge_cons, hleaves, judge_of_evicts hx hcap (Nat.le_refl _) (capped_le _) hleaves]
      rfl
    | false =>
      obtain ⟨stays, leaves, rfl, hjudge⟩ := ih (capped_le _) hxs
      refine ⟨x :: stays, leaves, rfl, ?_⟩
      rw [judge_cons, hleaves, hjudge]
      rfl

end Retention

/-- The bytes of files together, held at the cap. -/
def bytesOf (files : List TierFile) : Nat := capped (total (files.map TierFile.bytes))

/-- The bytes that a walk has passed after some files. -/
theorem foldl_passed (files : List TierFile) (newer : Nat) (hcap : newer ≤ maxAmount) :
    files.foldl (fun n f => capped (n + f.bytes)) newer =
      capped (newer + total (files.map TierFile.bytes)) := by
  induction files generalizing newer with
  | nil => simp [capped_of_le hcap]
  | cons f files ih =>
    rw [List.foldl_cons, ih _ (capped_le _), capped_capped_add, List.map_cons, total_cons,
      Nat.add_assoc]

section Population

variable {files stays : List TierFile} {r : Retention} {now : Int}

/-- The verdicts on a population, read off the cut. -/
theorem exists_stays (files : List TierFile) (r : Retention) (now : Int) :
    ∃ stays, newestFirst TierFile.rank files = stays ++ filesToMove files r now ∧
      r.judge r.grace now TierFile.bytes TierFile.effective 0 (newestFirst TierFile.rank files) =
        stays.map (fun f => (f, false)) ++ (filesToMove files r now).map fun f => (f, true) := by
  have hages : (newestFirst TierFile.rank files).Pairwise fun f g =>
      age now f.effective ≤ age now g.effective :=
    (newestFirst_pairwise TierFile.rank files).imp fun h =>
      age_anti (Rank.moment_le_of_atLeast h)
  obtain ⟨stays, leaves, hsplit, hjudge⟩ :=
    r.exists_cut r.grace TierFile.bytes (Nat.zero_le _) hages
  have hleaves : filesToMove files r now = leaves := by
    rw [filesToMove, Retention.leaving, hjudge]
    simp [List.filter_append, List.filter_map, Function.comp_def]
  exact ⟨stays, hleaves ▸ hsplit, hleaves ▸ hjudge⟩

/-- The verdict on a file is the one after the bytes of the files in front of it. It is
told by its place, since a file may occur twice. -/
theorem evicts_eq_of_judge {front back : List TierFile} {f : TierFile} {b : Bool}
    {verdicts rest : List (TierFile × Bool)} (hlength : verdicts.length = front.length)
    (h : r.judge r.grace now TierFile.bytes TierFile.effective 0 (front ++ f :: back) =
      verdicts ++ (f, b) :: rest) :
    r.evicts r.grace (age now f.effective) (bytesOf front) f.bytes = b := by
  rw [Retention.judge_append, Retention.judge_cons, foldl_passed front 0 (Nat.zero_le _),
    Nat.zero_add] at h
  have hfront : ((r.judge r.grace now TierFile.bytes TierFile.effective 0 front).map
      (·.1)).length = front.length := congrArg List.length (Retention.map_fst_judge ..)
  rw [List.length_map, ← hlength] at hfront
  obtain ⟨-, htail⟩ := List.append_inj h hfront
  exact (Prod.mk.inj (List.cons.inj htail).1).2

/-- A file that stays last and fills the limit may not leave yet, or is needed for the
floor. -/
theorem spared_of_evicts_eq_false {f : TierFile} {newer : Nat} (hset : 0 < r.maxBytes)
    (hmuch : r.maxBytes < capped (newer + f.bytes))
    (h : r.evicts r.grace (age now f.effective) newer f.bytes = false) :
    age now f.effective < r.grace * 1000000000 ∨ newer < r.minBytes := by
  by_contra hnone
  push Not at hnone
  obtain ⟨hgrace, hfloor⟩ := hnone
  have hleaves : r.evicts r.grace (age now f.effective) newer f.bytes = true := by
    simp [Retention.evicts, Retention.isTooMuch, hgrace, hset, hmuch, hfloor]
  rw [h] at hleaves
  cases hleaves

/-- A file that leaves without being too old is too much. -/
theorem tooMuch_of_evicts {f : TierFile} {newer : Nat}
    (hage : r.maxAge = 0 ∨ age now f.effective ≤ r.maxAge * 1000000000)
    (h : r.evicts r.grace (age now f.effective) newer f.bytes = true) :
    0 < r.maxBytes ∧ r.minBytes ≤ newer ∧ r.maxBytes < newer + f.bytes := by
  simp only [Retention.evicts, Retention.isTooOld, Retention.isTooMuch, Bool.and_eq_true,
    Bool.or_eq_true, decide_eq_true_eq] at h
  obtain ⟨-, ⟨hset, hold⟩ | ⟨⟨hset, hmuch⟩, hfloor⟩⟩ := h
  · omega
  · exact ⟨hset, hfloor, Nat.lt_of_lt_of_le hmuch (capped_le_self _)⟩

/-- The selection is the older part of its population. What stays is over the byte limit
only if the oldest file in it may not leave yet or the newer ones are too few without it.
What leaves first leaves for its age, or the newer files are enough and do not fit with
it. -/
theorem filesToMove_cuts (files : List TierFile) (r : Retention) (now : Int) :
    ∃ stays, newestFirst TierFile.rank files = stays ++ filesToMove files r now ∧
      (∀ f ∈ filesToMove files r now, ∀ g ∈ files, f.rank.Newer g.rank →
        g ∈ filesToMove files r now) ∧
      (0 < r.maxBytes → r.maxBytes < bytesOf stays →
        ∃ newer f, stays = newer ++ [f] ∧
          (age now f.effective < r.grace * 1000000000 ∨ bytesOf newer < r.minBytes)) ∧
      ∀ f older, filesToMove files r now = f :: older →
        (r.maxAge = 0 ∨ age now f.effective ≤ r.maxAge * 1000000000) →
          0 < r.maxBytes ∧ r.minBytes ≤ bytesOf stays ∧ r.maxBytes < bytesOf stays + f.bytes := by
  obtain ⟨stays, hsplit, hjudge⟩ := exists_stays files r now
  refine ⟨stays, hsplit, fun f hf g hg hnewer => ?_, fun hset hmuch => ?_,
    fun f older hleaves hage => ?_⟩
  · have hsorted := newestFirst_pairwise TierFile.rank files
    rw [hsplit] at hsorted
    rw [← mem_newestFirst TierFile.rank, hsplit] at hg
    rcases List.mem_append.1 hg with hg | hg
    · have hatLeast := (List.pairwise_append.1 hsorted).2.2 g hg f hf
      exact absurd hnewer (Rank.not_newer_of_atLeast hatLeast)
    · exact hg
  · rcases List.eq_nil_or_concat' stays with rfl | ⟨newer, f, rfl⟩
    · simp [bytesOf] at hmuch
    · refine ⟨newer, f, rfl, spared_of_evicts_eq_false hset ?_ ?_⟩
      · rwa [bytesOf, List.map_append, total_append, ← capped_capped_add, List.map_singleton,
          total_cons, total_nil, Nat.add_zero] at hmuch
      · rw [hsplit, List.append_assoc, List.singleton_append, List.map_append, List.append_assoc]
          at hjudge
        exact evicts_eq_of_judge (List.length_map _) hjudge
  · rw [hsplit, hleaves, List.map_cons] at hjudge
    exact tooMuch_of_evicts hage (evicts_eq_of_judge (List.length_map _) hjudge)

end Population

end TieredFootage
