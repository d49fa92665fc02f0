/-!
# First occurrences

`distinctBy key xs` keeps of all entries of `xs` with one key the first, in the
order of the list. The recursion carries the keys already met; the laws below
are stated for it, and for `distinctBy` by starting from no key.
-/

namespace TieredFootage

variable {α β : Type}

/-- The entries of a list whose key is neither in `met` nor that of an earlier
entry. -/
def distinctFrom [DecidableEq β] (key : α → β) : List β → List α → List α
  | _, [] => []
  | met, x :: xs =>
    if key x ∈ met then distinctFrom key met xs
    else x :: distinctFrom key (key x :: met) xs

/-- The first entry of each key. -/
def distinctBy [DecidableEq β] (key : α → β) (xs : List α) : List α :=
  distinctFrom key [] xs

variable [DecidableEq β] (key : α → β)

@[simp] theorem distinctFrom_nil (met : List β) : distinctFrom key met [] = [] := rfl

theorem distinctFrom_cons (met : List β) (x : α) (xs : List α) :
    distinctFrom key met (x :: xs) =
      if key x ∈ met then distinctFrom key met xs
      else x :: distinctFrom key (key x :: met) xs := rfl

theorem mem_of_mem_distinctFrom {met : List β} {x : α} {xs : List α}
    (h : x ∈ distinctFrom key met xs) : x ∈ xs ∧ key x ∉ met := by
  induction xs generalizing met with
  | nil => simp at h
  | cons y ys ih =>
    rw [distinctFrom_cons] at h
    split at h
    · exact ⟨List.mem_cons_of_mem _ (ih h).1, (ih h).2⟩
    · rcases List.mem_cons.1 h with rfl | h
      · exact ⟨List.mem_cons_self .., by assumption⟩
      · have := ih h
        exact ⟨List.mem_cons_of_mem _ this.1, fun hm => this.2 (List.mem_cons_of_mem _ hm)⟩

/-- Every key that is not met beforehand is kept once. -/
theorem exists_mem_distinctFrom {met : List β} {x : α} {xs : List α} (hx : x ∈ xs)
    (hmet : key x ∉ met) : ∃ y ∈ distinctFrom key met xs, key y = key x := by
  induction xs generalizing met with
  | nil => simp at hx
  | cons y ys ih =>
    rw [distinctFrom_cons]
    by_cases hy : key y ∈ met
    · rw [if_pos hy]
      rcases List.mem_cons.1 hx with rfl | hx
      · exact absurd hy hmet
      · exact ih hx hmet
    · rw [if_neg hy]
      by_cases hk : key y = key x
      · exact ⟨y, List.mem_cons_self .., hk⟩
      · rcases List.mem_cons.1 hx with rfl | hx
        · exact absurd rfl hk
        · have hmet' : key x ∉ key y :: met := by
            rw [List.mem_cons]
            rintro (h | h)
            · exact hk h.symm
            · exact hmet h
          obtain ⟨z, hz, hzk⟩ := ih hx hmet'
          exact ⟨z, List.mem_cons_of_mem _ hz, hzk⟩

theorem pairwise_distinctFrom (met : List β) (xs : List α) :
    (distinctFrom key met xs).Pairwise fun x y => key x ≠ key y := by
  induction xs generalizing met with
  | nil => exact List.Pairwise.nil
  | cons x xs ih =>
    rw [distinctFrom_cons]
    split
    · exact ih met
    · refine List.Pairwise.cons (fun y hy => ?_) (ih _)
      have := (mem_of_mem_distinctFrom key hy).2
      exact fun h => this (h ▸ List.mem_cons_self ..)

end TieredFootage
