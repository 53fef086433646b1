import Mathlib.Data.List.Induction
import Mathlib.Data.Nat.Digits.Lemmas

/-!
# Numerals

Numbers written in a base, the most significant digit first, as one prints and reads them.  A
printer produces digits by division, a parser consumes them by multiplication, and each is specified
by one half of this file; that the two undo each other is a fact about numerals and not about either
program.

* `numeral b n` — the digits of a number; 0 has one digit.
* `value b l` — the number that a reader makes of digits, one after the other.
* **`value_numeral`**, **`numeral_value`** — the two undo each other, on digits that do not start
  with a superfluous 0.
* `length_numeral_le` — how many digits a number has.

Mathlib has the digits of a number with the least significant one first (`Nat.digits`).  What is
proved here is what comes from reading them the other way.
-/

namespace Numerals

/-- The digits of a number, the most significant one first.  The number 0 has the digit 0, unlike
in `Nat.digits`. -/
def numeral (b n : ℕ) : List ℕ := if n = 0 then [0] else (Nat.digits b n).reverse

/-- The number that digits stand for, as a reader computes it from left to right. -/
def value (b : ℕ) (l : List ℕ) : ℕ := l.foldl (fun v d => v * b + d) 0

variable {b n : ℕ}

lemma value_nil : value b [] = 0 := rfl

lemma value_concat (l : List ℕ) (d : ℕ) : value b (l ++ [d]) = value b l * b + d := by
  rw [value, List.foldl_append]
  rfl

/-- Reading on does not make the number smaller. -/
lemma le_foldl (hb : 0 < b) (l : List ℕ) (v : ℕ) : v ≤ l.foldl (fun v d => v * b + d) v := by
  induction l generalizing v with
  | nil => exact Nat.le_refl v
  | cons d l ih =>
      have hmul : v ≤ v * b := Nat.le_mul_of_pos_right v hb
      exact Nat.le_trans (Nat.le_add_right_of_le hmul) (ih (v * b + d))

/-! ## Numbers with one digit, and with more

The two cases of the recursion, as equations that rewrite a numeral.
-/

lemma numeral_of_lt (hn : n < b) : numeral b n = [n] := by
  by_cases h : n = 0
  · rw [numeral, if_pos h, h]
  · rw [numeral, if_neg h, Nat.digits_of_lt b n h hn, List.reverse_singleton]

/-- A number with more digits than one ends in its remainder, and the digits before are those of
its quotient. -/
lemma numeral_of_le (hb : 2 ≤ b) (hn : b ≤ n) : numeral b n = numeral b (n / b) ++ [n % b] := by
  have hpos : 0 < n := by omega
  have hdiv : n / b ≠ 0 := (Nat.div_pos hn (by omega)).ne'
  rw [numeral, numeral, if_neg hpos.ne', if_neg hdiv, Nat.digits_def' hb hpos, List.reverse_cons]

/-- **Induction on the digits** of a number, which is the recursion of a printer. -/
@[elab_as_elim] theorem numeral_induction {P : ℕ → Prop} (hb : 2 ≤ b)
    (digit : ∀ n < b, P n) (more : ∀ n, b ≤ n → P (n / b) → P n) (n : ℕ) : P n := by
  induction n using Nat.strongRecOn with
  | ind n ih =>
      rcases Nat.lt_or_ge n b with h | h
      · exact digit n h
      · exact more n h (ih (n / b) (Nat.div_lt_self (by omega) hb))

lemma numeral_ne_nil (hb : 2 ≤ b) (n : ℕ) : numeral b n ≠ [] := by
  rcases Nat.lt_or_ge n b with h | h
  · rw [numeral_of_lt h]
    simp
  · rw [numeral_of_le hb h]
    simp

/-- Every digit is below the base. -/
lemma lt_of_mem_numeral (hb : 2 ≤ b) (n : ℕ) : ∀ d ∈ numeral b n, d < b := by
  refine numeral_induction hb (fun n h => ?_) (fun n h ih => ?_) n
  · rw [numeral_of_lt h]
    simpa using h
  · intro d hd
    rw [numeral_of_le hb h] at hd
    rcases List.mem_append.mp hd with hd | hd
    · exact ih d hd
    · rw [List.mem_singleton.mp hd]
      exact Nat.mod_lt _ (by omega)

/-- **A number is read back** from its digits. -/
theorem value_numeral (hb : 2 ≤ b) (n : ℕ) : value b (numeral b n) = n := by
  refine numeral_induction hb (fun n h => ?_) (fun n h ih => ?_) n
  · rw [numeral_of_lt h]
    simp [value]
  · rw [numeral_of_le hb h, value_concat, ih, Nat.mul_comm]
    exact Nat.div_add_mod n b

/-- The first digit is not 0, unless the number is. -/
lemma head_numeral (hb : 2 ≤ b) (n : ℕ) (hn : n ≠ 0) : ∀ d ∈ (numeral b n).head?, d ≠ 0 := by
  revert hn
  refine numeral_induction hb (fun n h hn => ?_) (fun n h ih _ => ?_) n
  · rw [numeral_of_lt h]
    simpa using hn
  · rw [numeral_of_le hb h, List.head?_append,
      List.head?_eq_some_head (numeral_ne_nil hb _), Option.some_or,
      ← List.head?_eq_some_head (numeral_ne_nil hb _)]
    exact ih (Nat.div_pos h (by omega)).ne'

/-- **Digits are found again** from the number they stand for, when the first of them is not 0. -/
theorem numeral_value (hb : 2 ≤ b) {l : List ℕ} (hne : l ≠ []) (hlt : ∀ d ∈ l, d < b)
    (hhead : ∀ d ∈ l.head?, d ≠ 0) : numeral b (value b l) = l := by
  induction l using List.reverseRecOn with
  | nil => exact absurd rfl hne
  | append_singleton l d ih =>
      have hd : d < b := hlt d (by simp)
      rw [value_concat]
      by_cases hl : l = []
      · rw [hl, value_nil, Nat.zero_mul, Nat.zero_add, numeral_of_lt hd, List.nil_append]
      · have hbefore := ih hl (fun e he => hlt e (by simp [he])) fun e he => hhead e (by
          rw [List.head?_append, he]
          rfl)
        have hpos : value b l ≠ 0 := fun hzero => by
          rw [hzero, numeral_of_lt (by omega : 0 < b)] at hbefore
          exact hhead 0 (by simp [← hbefore]) rfl
        have hle : b ≤ value b l * b + d :=
          Nat.le_add_right_of_le (Nat.le_mul_of_pos_left b (Nat.pos_of_ne_zero hpos))
        have hdiv : (value b l * b + d) / b = value b l := by
          rw [Nat.mul_comm, Nat.mul_add_div (by omega), Nat.div_eq_of_lt hd, Nat.add_zero]
        have hmod : (value b l * b + d) % b = d := by
          rw [Nat.mul_comm, Nat.mul_add_mod, Nat.mod_eq_of_lt hd]
        rw [numeral_of_le hb hle, hdiv, hmod, hbefore]

/-- A number below `b ^ k` has at most `k` digits. -/
lemma length_numeral_le (hb : 2 ≤ b) {k : ℕ} (hk : k ≠ 0) (hn : n < b ^ k) :
    (numeral b n).length ≤ k := by
  by_cases h : n = 0
  · rw [numeral, if_pos h, List.length_singleton]
    omega
  · rw [numeral, if_neg h, List.length_reverse]
    exact (Nat.digits_length_le_iff hb n).mpr hn

end Numerals
