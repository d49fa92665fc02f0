import TieredFootage.Instant

/-!
# Newest first

Populations are walked from the newest item to the oldest. `Newer a b` orders
items by their moment, an equal moment by the larger id, and `newestFirst`
sorts by that order. Equal items keep the order they came in.
-/

namespace TieredFootage

/-- A moment and an id: what the place of an item among others depends on. -/
structure Rank where
  moment : Int
  id : Int
  deriving DecidableEq, Repr

/-- The first rank is at least as new as the second: later, or at the same
moment with an id at least as large. -/
def Rank.atLeast (a b : Rank) : Bool :=
  decide (b.moment < a.moment) || (decide (a.moment = b.moment) && decide (b.id ≤ a.id))

/-- The list `xs` with `x` in front of the first item that is not newer. -/
def insertNewest {α : Type} (rank : α → Rank) (x : α) : List α → List α
  | [] => [x]
  | y :: ys =>
    if (rank x).atLeast (rank y) then x :: y :: ys else y :: insertNewest rank x ys

/-- The items sorted from the newest to the oldest. -/
def newestFirst {α : Type} (rank : α → Rank) (xs : List α) : List α :=
  xs.foldr (insertNewest rank) []

variable {α : Type} (rank : α → Rank)

@[simp] theorem newestFirst_nil : newestFirst rank [] = [] := rfl

theorem newestFirst_cons (x : α) (xs : List α) :
    newestFirst rank (x :: xs) = insertNewest rank x (newestFirst rank xs) := rfl

theorem Rank.atLeast_total (a b : Rank) : a.atLeast b = true ∨ b.atLeast a = true := by
  simp only [Rank.atLeast, Bool.or_eq_true, Bool.and_eq_true, decide_eq_true_eq]
  omega

theorem Rank.atLeast_trans {a b c : Rank} (hab : a.atLeast b = true) (hbc : b.atLeast c = true) :
    a.atLeast c = true := by
  simp only [Rank.atLeast, Bool.or_eq_true, Bool.and_eq_true, decide_eq_true_eq] at *
  omega

theorem insertNewest_perm (x : α) (xs : List α) : (insertNewest rank x xs).Perm (x :: xs) := by
  induction xs with
  | nil => exact List.Perm.refl _
  | cons y ys ih =>
    rw [insertNewest]
    split
    · exact List.Perm.refl _
    · exact (List.Perm.cons y ih).trans (List.Perm.swap x y ys)

theorem newestFirst_perm (xs : List α) : (newestFirst rank xs).Perm xs := by
  induction xs with
  | nil => exact List.Perm.refl _
  | cons x xs ih => exact (insertNewest_perm rank x _).trans (List.Perm.cons x ih)

theorem mem_newestFirst {x : α} {xs : List α} : x ∈ newestFirst rank xs ↔ x ∈ xs :=
  (newestFirst_perm rank xs).mem_iff

/-- In a sorted list every item is at least as new as those behind it. -/
theorem newestFirst_pairwise (xs : List α) :
    (newestFirst rank xs).Pairwise fun x y => (rank x).atLeast (rank y) = true := by
  induction xs with
  | nil => exact List.Pairwise.nil
  | cons x xs ih =>
    rw [newestFirst_cons]
    generalize newestFirst rank xs = ys at ih
    induction ys with
    | nil => simp [insertNewest]
    | cons y ys ihy =>
      rw [insertNewest]
      rw [List.pairwise_cons] at ih
      split
      · rename_i h
        refine List.Pairwise.cons (fun z hz => ?_) (List.pairwise_cons.2 ih)
        rcases List.mem_cons.1 hz with rfl | hz
        · exact h
        · exact Rank.atLeast_trans h (ih.1 z hz)
      · rename_i h
        refine List.Pairwise.cons (fun z hz => ?_) (ihy ih.2)
        rcases List.mem_cons.1 ((insertNewest_perm rank x ys).mem_iff.1 hz) with rfl | hz
        · exact (Rank.atLeast_total (rank y) (rank z)).resolve_right h
        · exact ih.1 z hz

end TieredFootage
