/-!
# Capped amounts

Thresholds and byte totals are natural numbers with a ceiling: a sum or a
product that would pass `maxAmount` stays there instead of starting again from
zero. `capped` is the cut. Cutting an operand first changes nothing once the
result is cut, which is why a long calculation may cut as often as it likes.
`total` is the sum without a cut.
-/

namespace TieredFootage

/-- The largest threshold and the largest byte total. -/
def maxAmount : Nat := 18446744073709551615

/-- The amount `n`, held at `maxAmount` when it is larger. -/
def capped (n : Nat) : Nat := min n maxAmount

def total : List Nat → Nat
  | [] => 0
  | n :: ns => n + total ns

@[simp] theorem total_nil : total [] = 0 := rfl

@[simp] theorem total_cons (n : Nat) (ns : List Nat) : total (n :: ns) = n + total ns := rfl

@[simp] theorem total_append (ms ns : List Nat) : total (ms ++ ns) = total ms + total ns := by
  induction ms with
  | nil => simp
  | cons m ms ih => rw [List.cons_append, total_cons, total_cons, ih, Nat.add_assoc]

theorem total_perm {ms ns : List Nat} (h : ms.Perm ns) : total ms = total ns := by
  induction h with
  | nil => rfl
  | cons n _ ih => rw [total_cons, total_cons, ih]
  | swap m n _ => simp only [total_cons]; omega
  | trans _ _ ih₁ ih₂ => rw [ih₁, ih₂]

theorem total_sublist {ms ns : List Nat} (h : ms.Sublist ns) : total ms ≤ total ns := by
  induction h with
  | slnil => exact Nat.le_refl _
  | cons n _ ih => rw [total_cons]; omega
  | cons_cons n _ ih => rw [total_cons, total_cons]; omega

theorem capped_le (n : Nat) : capped n ≤ maxAmount := Nat.min_le_right n maxAmount

theorem capped_le_self (n : Nat) : capped n ≤ n := Nat.min_le_left n maxAmount

theorem capped_of_le {n : Nat} (h : n ≤ maxAmount) : capped n = n := Nat.min_eq_left h

@[simp] theorem capped_zero : capped 0 = 0 := rfl

@[simp] theorem capped_capped (n : Nat) : capped (capped n) = capped n :=
  capped_of_le (capped_le n)

theorem capped_mono {m n : Nat} (h : m ≤ n) : capped m ≤ capped n := by
  unfold capped; omega

/-- A cut operand of a sum does not show in the cut sum. -/
theorem capped_add_capped (m n : Nat) : capped (m + capped n) = capped (m + n) := by
  unfold capped; omega

theorem capped_capped_add (m n : Nat) : capped (capped m + n) = capped (m + n) := by
  unfold capped; omega

/-- A cut factor does not show in the cut product. -/
theorem capped_capped_mul (m k : Nat) : capped (capped m * k) = capped (m * k) := by
  rcases Nat.eq_zero_or_pos k with rfl | hk
  · rfl
  · rcases Nat.le_total m maxAmount with h | h
    · rw [capped_of_le h]
    · have hm : capped m = maxAmount := Nat.min_eq_right h
      have h1 : maxAmount ≤ maxAmount * k := Nat.le_mul_of_pos_right _ hk
      have h2 : maxAmount ≤ m * k := Nat.le_trans h (Nat.le_mul_of_pos_right _ hk)
      rw [hm]
      unfold capped
      omega

theorem capped_eq_zero_iff (n : Nat) : capped n = 0 ↔ n = 0 := by
  unfold capped maxAmount; omega

end TieredFootage
