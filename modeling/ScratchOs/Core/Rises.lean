import Mathlib.Data.List.Basic
import Mathlib.Tactic.Common

/-!
# Rises

The items of a list are low or high, and a rise is a high item right behind a low one.  What a
program has to pass to get on, it cannot find more often than there are rises.  A driver that waits
first for one kind of byte and then for the other can report no more events than there are rises in
the bytes that its device sends.

* `rises low was l` — the rises of `l`, behind an item that was low or was not.
* **`rises_append`** — the rises of two lists, one behind the other.
* `rises_concat_high` — behind a low item, a list that ends high has a rise.
* `rises_replicate` — the same item several times is like the item once, which is why reading a port
  again and again adds nothing.
-/

namespace Rises

variable {α : Type*} (low : α → Bool)

/-- The rises of a list, behind an item that `was` low. -/
def rises : Bool → List α → ℕ
  | _, [] => 0
  | was, x :: xs => (if was && !low x then 1 else 0) + rises (low x) xs

/-- The last item of a list is low; for the empty list, the item before it. -/
def after : Bool → List α → Bool
  | was, [] => was
  | _, x :: xs => after (low x) xs

variable {low} {was : Bool}

@[simp] lemma rises_nil : rises low was [] = 0 := rfl

lemma rises_cons (x : α) (xs : List α) :
    rises low was (x :: xs) = (if was && !low x then 1 else 0) + rises low (low x) xs := rfl

@[simp] lemma after_concat (xs : List α) (x : α) : after low was (xs ++ [x]) = low x := by
  induction xs generalizing was with
  | nil => rfl
  | cons y ys ih => exact ih

/-- **The rises of two lists**, one behind the other: the second list starts behind the last item
of the first. -/
theorem rises_append (xs ys : List α) :
    rises low was (xs ++ ys) = rises low was xs + rises low (after low was xs) ys := by
  induction xs generalizing was with
  | nil => simp [after]
  | cons x xs ih => rw [List.cons_append, rises_cons, rises_cons, ih, after, Nat.add_assoc]

/-- The rises up to an item, and those behind it. -/
lemma rises_split (xs : List α) (x : α) (ys : List α) :
    rises low was (xs ++ x :: ys) = rises low was (xs ++ [x]) + rises low (low x) ys := by
  rw [List.append_cons, rises_append, after_concat]

lemma rises_of_after {xs : List α} (h : after low true xs = false) : 1 ≤ rises low true xs := by
  induction xs with
  | nil => cases h
  | cons x xs ih =>
      rw [rises_cons]
      cases hx : low x with
      | false => simp
      | true =>
          rw [after, hx] at h
          have hrest := ih h
          simpa using hrest

/-- Behind a low item, a list that ends high has a rise somewhere. -/
lemma rises_concat_high (xs : List α) {x : α} (h : low x = false) :
    1 ≤ rises low true (xs ++ [x]) := by
  refine rises_of_after ?_
  rw [after_concat, h]

/-- The same item several times has the rises that it has once. -/
lemma rises_replicate (n : ℕ) (x : α) (xs : List α) :
    rises low was (List.replicate (n + 1) x ++ xs)
      = (if was && !low x then 1 else 0) + rises low (low x) xs := by
  induction n generalizing was with
  | zero => rfl
  | succ n ih =>
      rw [List.replicate_succ, List.cons_append, rises_cons, ih]
      cases low x <;> simp

end Rises
