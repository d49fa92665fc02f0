import Mathlib.Data.List.Sort
import TieredFootage.Newest
import TieredFootage.Retention

/-!
# Walks over fewer items

A walk judges every item by the bytes in front of it (`passing`), which depend on
neither the retention nor the moment. With fewer items on the way, or fewer bytes
to an item, an item has no more in front of it than before, so it leaves only if it
left before. Sorting does not get in the way: fewer items, sorted, are some of all
items, sorted, in the same order.
-/

namespace TieredFootage

section Sorted

variable {α : Type} (rank : α → Rank)

/-- Sorting from the newest to the oldest is insertion sort. -/
theorem newestFirst_eq_insertionSort (xs : List α) :
    newestFirst rank xs = xs.insertionSort fun x y => (rank x).atLeast (rank y) = true := by
  have hinsert : ∀ (x : α) (ys : List α), insertNewest rank x ys =
      ys.orderedInsert (fun x y => (rank x).atLeast (rank y) = true) x := by
    intro x ys
    induction ys with
    | nil => rfl
    | cons y ys ih => rw [insertNewest, List.orderedInsert_cons, ih]
  induction xs with
  | nil => rfl
  | cons x xs ih => rw [newestFirst_cons, List.insertionSort_cons, hinsert, ih]

/-- Items of a part come in the order in which they come in the whole. -/
theorem newestFirst_sublist {xs ys : List α} (h : xs.Sublist ys) :
    (newestFirst rank xs).Sublist (newestFirst rank ys) := by
  have htrans : IsTrans α fun x y => (rank x).atLeast (rank y) = true :=
    ⟨fun _ _ _ => Rank.atLeast_trans⟩
  simp only [newestFirst_eq_insertionSort]
  induction h with
  | slnil => exact List.Sublist.refl _
  | cons y _ ih =>
    rw [List.insertionSort_cons]
    exact ih.trans (List.sublist_orderedInsert y _)
  | @cons_cons xs ys y _ ih =>
    have hsorted := newestFirst_pairwise rank ys
    rw [newestFirst_eq_insertionSort] at hsorted
    rw [List.insertionSort_cons, List.insertionSort_cons]
    exact List.Sublist.orderedInsert_sublist y ih hsorted

end Sorted

namespace Retention

variable {α : Type} {r : Retention} {grace : Nat} {now : Int} {since : α → Int}

/-- More in front of an item, and more bytes to it, never make it stay. -/
theorem evicts_mono {age newer newer' size size' : Nat} (hnewer : newer ≤ newer')
    (hsize : size ≤ size') (h : r.evicts grace age newer size = true) :
    r.evicts grace age newer' size' = true := by
  have hsum : capped (newer + size) ≤ capped (newer' + size') :=
    capped_mono (Nat.add_le_add hnewer hsize)
  simp only [evicts, isTooMuch, Bool.and_eq_true, Bool.or_eq_true, decide_eq_true_eq] at h ⊢
  obtain ⟨hgrace, hold | ⟨⟨hlimit, hmuch⟩, hfloor⟩⟩ := h
  · exact ⟨hgrace, Or.inl hold⟩
  · exact ⟨hgrace, Or.inr ⟨⟨hlimit, Nat.lt_of_lt_of_le hmuch hsum⟩, Nat.le_trans hfloor hnewer⟩⟩

theorem mem_leaving {bytes : α → Nat} {x : α} {xs : List α} :
    x ∈ r.leaving grace now bytes since xs ↔ (x, true) ∈ r.judge grace now bytes since 0 xs := by
  simp [leaving]

section Passing

variable {bytes bytes' : α → Nat}

/-- The items of a walk, each with the bytes passed in front of it. -/
def passing (bytes : α → Nat) : Nat → List α → List (α × Nat)
  | _, [] => []
  | newer, x :: xs => (x, newer) :: passing bytes (capped (newer + bytes x)) xs

theorem judge_eq_map_passing (r : Retention) (grace : Nat) (now : Int) (newer : Nat)
    (xs : List α) : r.judge grace now bytes since newer xs =
      (passing bytes newer xs).map fun y =>
        (y.1, r.evicts grace (age now (since y.1)) y.2 (bytes y.1)) := by
  induction xs generalizing newer with
  | nil => rfl
  | cons x xs ih => rw [judge_cons, ih, passing, List.map_cons]

theorem leaving_eq_filter_passing (r : Retention) (grace : Nat) (now : Int) (xs : List α) :
    r.leaving grace now bytes since xs =
      ((passing bytes 0 xs).filter fun y =>
        r.evicts grace (age now (since y.1)) y.2 (bytes y.1)).map (·.1) := by
  rw [leaving, judge_eq_map_passing, List.filter_map, List.map_map]
  rfl

/-- Only the bytes of the items on the walk count. -/
theorem judge_congr {newer : Nat} {xs : List α} (h : ∀ x ∈ xs, bytes x = bytes' x) :
    r.judge grace now bytes since newer xs = r.judge grace now bytes' since newer xs := by
  induction xs generalizing newer with
  | nil => rfl
  | cons x xs ih =>
    rw [judge_cons, judge_cons, h x List.mem_cons_self,
      ih fun y hy => h y (List.mem_cons_of_mem x hy)]

/-- The verdict on an item is that on its age and bytes after some bytes. -/
theorem exists_newer_of_mem_judge {x : α} {b : Bool} {xs : List α} {newer : Nat}
    (h : (x, b) ∈ r.judge grace now bytes since newer xs) :
    ∃ passed, b = r.evicts grace (age now (since x)) passed (bytes x) := by
  rw [judge_eq_map_passing] at h
  obtain ⟨⟨y, passed⟩, -, heq⟩ := List.mem_map.1 h
  obtain ⟨rfl, rfl⟩ := Prod.mk.inj heq
  exact ⟨passed, rfl⟩

end Passing

variable {bytes bytes' : α → Nat} (hbytes : ∀ x, bytes x ≤ bytes' x)

include hbytes

/-- What leaves on a walk over a part leaves on the walk over the whole. The bytes
passed on the part are held at the cap, as they are on every walk, so an item
more on the whole does not push the bytes passed there below them. -/
theorem mem_judge_of_sublist {xs ys : List α} (h : xs.Sublist ys) {newer newer' : Nat}
    (hcap : newer ≤ maxAmount) (hnewer : newer ≤ newer') {x : α}
    (hx : (x, true) ∈ r.judge grace now bytes since newer xs) :
    (x, true) ∈ r.judge grace now bytes' since newer' ys := by
  -- The bytes passed on the whole are never fewer than those passed on the part.
  induction h generalizing newer newer' with
  | slnil => simp at hx
  | @cons xs ys y _ ih =>
    have hpassed : newer ≤ capped (newer' + bytes' y) := by
      rw [← capped_of_le hcap]
      exact capped_mono (Nat.le_add_right_of_le hnewer)
    exact List.mem_cons_of_mem _ (ih hcap hpassed hx)
  | @cons_cons xs ys y _ ih =>
    rw [judge_cons] at hx ⊢
    have hpassed : capped (newer + bytes y) ≤ capped (newer' + bytes' y) :=
      capped_mono (Nat.add_le_add hnewer (hbytes y))
    rcases List.mem_cons.1 hx with heq | hx
    · obtain ⟨rfl, hleaves⟩ := Prod.mk.inj heq
      rw [evicts_mono hnewer (hbytes x) hleaves.symm]
      exact List.mem_cons_self
    · exact List.mem_cons_of_mem _ (ih (capped_le _) hpassed hx)

/-- What stays on a walk stays if there are fewer bytes. -/
theorem mem_judge_false_of_le {xs : List α} {newer newer' : Nat} (hnewer : newer ≤ newer') {x : α}
    (hx : (x, false) ∈ r.judge grace now bytes' since newer' xs) :
    (x, false) ∈ r.judge grace now bytes since newer xs := by
  induction xs generalizing newer newer' with
  | nil => simp at hx
  | cons y xs ih =>
    rw [judge_cons] at hx ⊢
    have hpassed : capped (newer + bytes y) ≤ capped (newer' + bytes' y) :=
      capped_mono (Nat.add_le_add hnewer (hbytes y))
    rcases List.mem_cons.1 hx with heq | hx
    · obtain ⟨rfl, hstays⟩ := Prod.mk.inj heq
      have hstays' : r.evicts grace (age now (since x)) newer (bytes x) = false := by
        by_contra hleaves
        have hleaves' := evicts_mono hnewer (hbytes x) (Bool.not_eq_false _ ▸ hleaves)
        rw [hleaves'] at hstays
        exact Bool.noConfusion hstays
      rw [hstays']
      exact List.mem_cons_self
    · exact List.mem_cons_of_mem _ (ih hpassed hx)

end Retention

end TieredFootage
