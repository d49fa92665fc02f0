import TieredFootage.Proofs.Selection.Walks
import TieredFootage.Selection.Files

/-!
# The rule behind the walk

The walk that selects files goes through a population in order and carries a
total along. What it selects can be said without either: a file leaves by its own
age and by the bytes of those that are newer. The total in front of an item is
the cut sum over the newer items, however many of its steps were cut, because
the items in front of it on a sorted walk are the newer ones and no others.

So only the members of a population count and not their order, and of the ids
only how they order files of one moment.
-/

namespace TieredFootage

/-- The first rank is newer than the second: later, or at the same moment with a
larger id. -/
def Rank.Newer (a b : Rank) : Prop := b.moment < a.moment ∨ a.moment = b.moment ∧ b.id < a.id

instance (a b : Rank) : Decidable (a.Newer b) := inferInstanceAs (Decidable (_ ∨ _))

theorem Rank.Newer.not_newer {a b : Rank} (h : a.Newer b) : ¬ b.Newer a := by
  unfold Rank.Newer at *
  omega

/-- Of two ranks with different ids one is the newer. -/
theorem Rank.newer_of_atLeast {a b : Rank} (h : a.atLeast b = true) (hid : a.id ≠ b.id) :
    a.Newer b := by
  simp only [Rank.atLeast, Bool.or_eq_true, Bool.and_eq_true, decide_eq_true_eq] at h
  unfold Rank.Newer
  omega

section Walk

variable {α : Type} {rank : α → Rank} {bytes : α → Nat} {since : α → Int}

/-- The bytes of all items newer than a given one, cut. -/
def newerBytes (rank : α → Rank) (bytes : α → Nat) (xs : List α) (x : α) : Nat :=
  capped (total ((xs.filter fun y => decide ((rank y).Newer (rank x))).map bytes))

theorem newerBytes_perm {xs ys : List α} (h : xs.Perm ys) (x : α) :
    newerBytes rank bytes xs x = newerBytes rank bytes ys x := by
  unfold newerBytes
  rw [total_perm ((h.filter _).map bytes)]

/-- On a strictly sorted walk the items newer than a given one are those in front
of it. -/
theorem filter_newer_append_cons {xs ys : List α} {x : α}
    (h : (xs ++ x :: ys).Pairwise fun x y => (rank x).Newer (rank y)) :
    (xs ++ x :: ys).filter (fun y => decide ((rank y).Newer (rank x))) = xs := by
  obtain ⟨-, hrest, hfront⟩ := List.pairwise_append.1 h
  have hself : ¬ (rank x).Newer (rank x) := fun hx => hx.not_newer hx
  have hfront' : xs.filter (fun y => decide ((rank y).Newer (rank x))) = xs :=
    List.filter_eq_self.2 fun y hy => decide_eq_true (hfront y hy x List.mem_cons_self)
  have hback : ys.filter (fun y => decide ((rank y).Newer (rank x))) = [] := by
    refine List.filter_eq_nil_iff.2 fun y hy => ?_
    simpa using (List.rel_of_pairwise_cons hrest hy).not_newer
  rw [List.filter_append, hfront', List.filter_cons_of_neg (by simpa using hself), hback,
    List.append_nil]

/-- A walk that is strictly sorted judges every item by its age and by the bytes
of the newer items. -/
theorem judge_eq_map (r : Retention) (grace : Nat) (now : Int) {zs : List α}
    (hzs : zs.Pairwise fun x y => (rank x).Newer (rank y)) :
    r.judge grace now bytes since 0 zs =
      zs.map fun x =>
        (x, r.evicts grace (age now (since x)) (newerBytes rank bytes zs x) (bytes x)) := by
  -- The walk over what is left starts with the cut bytes of what was passed.
  suffices h : ∀ xs ys, xs ++ ys = zs →
      r.judge grace now bytes since (capped (total (xs.map bytes))) ys =
        ys.map fun x =>
          (x, r.evicts grace (age now (since x)) (newerBytes rank bytes zs x) (bytes x)) by
    simpa using h [] zs rfl
  intro xs ys
  induction ys generalizing xs with
  | nil => exact fun _ => rfl
  | cons y ys ih =>
    intro heq
    have hpassed : newerBytes rank bytes zs y = capped (total (xs.map bytes)) := by
      unfold newerBytes
      rw [← heq, filter_newer_append_cons (heq ▸ hzs)]
    have hnext : capped (capped (total (xs.map bytes)) + bytes y) =
        capped (total ((xs ++ [y]).map bytes)) := by
      rw [capped_capped_add, List.map_append, total_append]
      simp
    rw [Retention.judge_cons, List.map_cons, hnext, ih (xs ++ [y]) (by simpa using heq), hpassed]

end Walk

/-- Items with different ids, sorted, are strictly sorted. -/
theorem pairwise_newer_newestFirst {α : Type} (rank : α → Rank) {xs : List α}
    (h : (xs.map fun x => (rank x).id).Nodup) :
    (newestFirst rank xs).Pairwise fun x y => (rank x).Newer (rank y) := by
  have hids : (newestFirst rank xs).Pairwise fun x y => (rank x).id ≠ (rank y).id :=
    List.pairwise_map.1 (((newestFirst_perm rank xs).map _).nodup_iff.2 h)
  exact ((newestFirst_pairwise rank xs).and hids).imp fun hxy =>
    Rank.newer_of_atLeast hxy.1 hxy.2

namespace Retention

/-- The rule by which a file leaves its population: it has reached the least age,
and it is older than the largest age, or it does not fit into the byte limit
together with the newer files and those alone are as many as have to stay. -/
def Drops (r : Retention) (now : Int) (files : List TierFile) (f : TierFile) : Prop :=
  r.grace * 1000000000 ≤ age now f.effective ∧
    (r.maxAge ≠ 0 ∧ r.maxAge * 1000000000 < age now f.effective ∨
      r.maxBytes ≠ 0 ∧
        r.maxBytes < capped (newerBytes TierFile.rank TierFile.bytes files f + f.bytes) ∧
        r.minBytes ≤ newerBytes TierFile.rank TierFile.bytes files f)

instance (r : Retention) (now : Int) (files : List TierFile) (f : TierFile) :
    Decidable (r.Drops now files f) := inferInstanceAs (Decidable (_ ∧ _))

/-- The verdict on an item, as a condition on its age and on the bytes newer than it. -/
theorem evicts_iff {r : Retention} {grace age newer size : Nat} :
    r.evicts grace age newer size = true ↔
      grace * 1000000000 ≤ age ∧
        (r.maxAge ≠ 0 ∧ r.maxAge * 1000000000 < age ∨
          r.maxBytes ≠ 0 ∧ r.maxBytes < capped (newer + size) ∧ r.minBytes ≤ newer) := by
  simp only [evicts, isTooOld, isTooMuch, Bool.and_eq_true, Bool.or_eq_true,
    decide_eq_true_eq, Nat.pos_iff_ne_zero, and_assoc]

end Retention

variable {files : List TierFile}

/-- A file with another id. -/
def TierFile.withId (f : TierFile) (i : Int) : TierFile := { f with id := i }

end TieredFootage
