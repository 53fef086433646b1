import Mathlib.Data.List.Basic
import Mathlib.Data.List.Range
import Mathlib.Order.Basic

/-!
# Pools of numbers

What is left of the numbers below a bound, in increasing order.  An allocator that is first fit
searches its bitmap from the start each time; over a whole run it hands out the elements of this
list one after the other.  The list is what such an allocator is for, and says nothing about
bitmaps.

* `free N p` — the numbers below `N` that `p` says are free.
* **`free_cons`** — taking the least free number takes the head of the list, and leaves the rest.
* `free_sorted`, `free_nodup` — the list is in order, and no number comes twice.
-/

namespace Pool

variable {N k : ℕ} {p q : ℕ → Bool}

/-- The free numbers below a bound, in increasing order. -/
def free (N : ℕ) (p : ℕ → Bool) : List ℕ := (List.range N).filter p

lemma mem_free : k ∈ free N p ↔ k < N ∧ p k = true := by
  rw [free, List.mem_filter, List.mem_range]

lemma free_sorted : (free N p).Pairwise (· < ·) := List.Pairwise.filter p List.pairwise_lt_range

lemma free_nodup : (free N p).Nodup := List.nodup_range.filter p

lemma free_succ : free (N + 1) p = free N p ++ if p N then [N] else [] := by
  rw [free, free, List.range_succ, List.filter_append]
  cases h : p N <;> simp [h]

lemma free_eq_nil : free N p = [] ↔ ∀ j < N, p j = false := by
  rw [free, List.filter_eq_nil_iff]
  simp only [List.mem_range, Bool.not_eq_true]

lemma free_congr (h : ∀ j < N, p j = q j) : free N p = free N q :=
  List.filter_congr fun j hj => h j (List.mem_range.mp hj)

/-- **Taking the least free number** takes the head of the list.  This is the step of every run:
`q` is what is free afterwards. -/
lemma free_cons (hk : k < N) (hfree : p k = true) (hleast : ∀ j < k, p j = false)
    (hq : ∀ j, q j = if j = k then false else p j) : free N p = k :: free N q := by
  induction N with
  | zero => exact absurd hk (Nat.not_lt_zero k)
  | succ N ih =>
      rw [free_succ, free_succ, hq N]
      by_cases hlast : N = k
      · subst hlast
        have hnone : ∀ j < N, q j = false := by
          intro j hj
          rw [hq j, if_neg (Nat.ne_of_lt hj), hleast j hj]
        rw [free_eq_nil.mpr hleast, free_eq_nil.mpr hnone, hfree]
        simp
      · rw [if_neg hlast, ih (by omega), List.cons_append]

end Pool
