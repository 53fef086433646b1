import Mathlib.Data.List.TakeWhile
import ScratchOs.Core.CStrings
import ScratchOs.Lib.Directives

/-!
# Reading a number

`strtol` of `lib/string.c`.  The two loops get as many rounds as there are addresses, and a value
that is not a `long` is undefined.

* `Literal` — blanks, a sign, a prefix for the base, digits, and what is left of the string.
* **`exists_literal`** — every string is one, in every base.
* **`strtol_reads`** — `strtol` returns its value with its sign, and the pointer is behind its
  digits; it is undefined exactly if the value is too large.
* `strtol_number`, `strtol_negative`, `strtol_blank` — the literals that numerals are.

**Why a literal.**  What `strtol` takes from a string is decided from the left, each part as long as
it can be.  A `Literal` is a string cut into these parts, and `Literal.Of` says that the cuts are
where the code makes them.  So there is one result for all strings and all bases, and what is read
of a particular string is a matter of cutting it.

**The bases** are those that the code allows for: 0 leaves the choice to the prefix, and for the
others nothing is assumed.  A base below 1 has no digits at all, and one above 36 has no more than
36 of them.
-/

namespace ScratchOs.Lib

open Memory Numerals

/-- Gobble initial whitespace, which is blanks and tabs. -/
def skipSpaces (mem : Mem) : ℕ → UInt32 → Option UInt32
  | 0, _ => none
  | fuel + 1, s =>
      if mem s = ' '.toUInt8 ∨ mem s = '\t'.toUInt8 then skipSpaces mem fuel (s + 1) else some s

/-- The digit that a character is, in whatever base. -/
def digitOf (c : UInt8) : Option ℤ :=
  if '0'.toUInt8 ≤ c ∧ c ≤ '9'.toUInt8 then some (c.toNat - '0'.toUInt8.toNat)
  else if 'a'.toUInt8 ≤ c ∧ c ≤ 'z'.toUInt8 then some (c.toNat - 'a'.toUInt8.toNat + 10)
  else if 'A'.toUInt8 ≤ c ∧ c ≤ 'Z'.toUInt8 then some (c.toNat - 'A'.toUInt8.toNat + 10)
  else none

/-- The loop over the digits, which ends at the first character that is not one in the base. -/
def strtolDigits (mem : Mem) (base : ℤ) : ℕ → UInt32 → ℤ → Option (UInt32 × ℤ)
  | 0, _, _ => none
  | fuel + 1, s, val =>
      match digitOf (mem s) with
      | none => some (s, val)
      | some dig =>
          if base ≤ dig then some (s, val)
          else do
            let val ← int (val * base)
            let val ← int (val + dig)
            strtolDigits mem base fuel (s + 1) val

/-- The sign, which is a plus, a minus or none. -/
def strtolSign (mem : Mem) (s : UInt32) : UInt32 × Bool :=
  if mem s = '+'.toUInt8 then (s + 1, false)
  else if mem s = '-'.toUInt8 then (s + 1, true)
  else (s, false)

/-- Hex or octal base prefix, by the base that is asked for. -/
def strtolPrefix (mem : Mem) (s : UInt32) (base : ℤ) : UInt32 × ℤ :=
  if (base = 0 ∨ base = 16) ∧ mem s = '0'.toUInt8 ∧ mem (s + 1) = 'x'.toUInt8 then (s + 2, 16)
  else if base = 0 ∧ mem s = '0'.toUInt8 then (s + 1, 8)
  else if base = 0 then (s, 10)
  else (s, base)

/-- `strtol`: what is stored to `endptr`, and what is returned. -/
def strtol (mem : Mem) (s : UInt32) (base : ℤ) : Option (UInt32 × ℤ) := do
  let s ← skipSpaces mem 4294967296 s
  let (s, neg) := strtolSign mem s
  let (s, base) := strtolPrefix mem s base
  let (s, val) ← strtolDigits mem base 4294967296 s 0
  let val ← if neg then int (-val) else some val
  some (s, val)

variable {mem : Mem} {a : UInt32} {s t : List UInt8} {base : ℤ}

/-! ## What a string is taken for

A string taken apart, with no word about memory or loops.
-/

/-- What is gobbled: blanks and tabs. -/
def IsBlank (c : UInt8) : Prop := c = ' '.toUInt8 ∨ c = '\t'.toUInt8

instance (c : UInt8) : Decidable (IsBlank c) := inferInstanceAs (Decidable (_ ∨ _))

/-- The character is a digit in the base. -/
def DigitIn (base : ℤ) (c : UInt8) : Prop := ∃ d ∈ digitOf c, d < base

instance (base : ℤ) (c : UInt8) : Decidable (DigitIn base c) :=
  decidable_of_iff ((digitOf c).any (· < base) = true) (by
    rw [DigitIn]
    cases digitOf c <;> simp)

/-- The prefix in front of a text, and the base that the digits are read in. -/
inductive BasePrefix (base : ℤ) (t : List UInt8) : List UInt8 → ℤ → Prop
  | hex : base = 0 ∨ base = 16 → BasePrefix base t ['0'.toUInt8, 'x'.toUInt8] 16
  | octal : base = 0 → t.head? ≠ some 'x'.toUInt8 → BasePrefix base t ['0'.toUInt8] 8
  | decimal : base = 0 → t.head? ≠ some '0'.toUInt8 → BasePrefix base t [] 10
  | given : base ≠ 0 → (base = 16 → ¬ ['0'.toUInt8, 'x'.toUInt8] <+: t) → BasePrefix base t [] base

/-- The parts of a string that starts with a number. -/
structure Literal where
  blanks : List UInt8
  sign : List UInt8
  pre : List UInt8
  base : ℤ
  digits : List UInt8
  rest : List UInt8

namespace Literal

/-- The number that the digits are, without its sign. -/
def value (l : Literal) : ℤ := l.digits.foldl (fun v c => v * l.base + (digitOf c).getD 0) 0

/-- The length of all but the rest. -/
def length (l : Literal) : ℕ :=
  l.blanks.length + (l.sign.length + (l.pre.length + l.digits.length))

/-- The string is the literal, and no part but the rest can be longer: each of them ends where
the code ends it. -/
structure Of (base : ℤ) (s : List UInt8) (l : Literal) : Prop where
  text : s = l.blanks ++ (l.sign ++ (l.pre ++ (l.digits ++ l.rest)))
  blanks : ∀ c ∈ l.blanks, IsBlank c
  unblank : ∀ c ∈ (l.sign ++ (l.pre ++ (l.digits ++ l.rest))).head?, ¬ IsBlank c
  sign : l.sign = ['+'.toUInt8] ∨ l.sign = ['-'.toUInt8] ∨ l.sign = []
    ∧ ∀ c ∈ (l.pre ++ (l.digits ++ l.rest)).head?, ¬ (c = '+'.toUInt8 ∨ c = '-'.toUInt8)
  pre : BasePrefix base (l.digits ++ l.rest) l.pre l.base
  digits : ∀ c ∈ l.digits, DigitIn l.base c
  stop : ∀ c ∈ l.rest.head?, ¬ DigitIn l.base c

end Literal

/-! ## Its parts

Any string can be cut.  Each part takes what it can get, so that the next one starts with a
character that does not belong to it.
-/

/-- As much of a list as has a property, and the rest. -/
lemma exists_span (P : UInt8 → Prop) [DecidablePred P] (s : List UInt8) :
    ∃ xs ys, s = xs ++ ys ∧ (∀ c ∈ xs, P c) ∧ ∀ c ∈ ys.head?, ¬ P c := by
  refine ⟨s.takeWhile (P ·), s.dropWhile (P ·), List.takeWhile_append_dropWhile.symm,
    fun c hc => by simpa using List.mem_takeWhile_imp hc, fun c hc => ?_⟩
  have hnot := List.head?_dropWhile_not (P ·) s
  rw [hc] at hnot
  exact of_decide_eq_false hnot

lemma exists_sign (s : List UInt8) : ∃ sign t, s = sign ++ t ∧
    (sign = ['+'.toUInt8] ∨ sign = ['-'.toUInt8] ∨ sign = []
      ∧ ∀ c ∈ t.head?, ¬ (c = '+'.toUInt8 ∨ c = '-'.toUInt8)) := by
  cases s with
  | nil => exact ⟨[], [], rfl, Or.inr (Or.inr ⟨rfl, fun c hc => by cases hc⟩)⟩
  | cons c s =>
      by_cases hplus : c = '+'.toUInt8
      · exact ⟨[c], s, rfl, Or.inl (by rw [hplus])⟩
      by_cases hminus : c = '-'.toUInt8
      · exact ⟨[c], s, rfl, Or.inr (Or.inl (by rw [hminus]))⟩
      refine ⟨[], c :: s, rfl, Or.inr (Or.inr ⟨rfl, fun c' hc => ?_⟩)⟩
      cases hc
      exact not_or.mpr ⟨hplus, hminus⟩

lemma exists_prefix (base : ℤ) (s : List UInt8) :
    ∃ pre base' t, s = pre ++ t ∧ BasePrefix base t pre base' := by
  by_cases hhex : (base = 0 ∨ base = 16) ∧ ['0'.toUInt8, 'x'.toUInt8] <+: s
  · obtain ⟨hbase, t, rfl⟩ := hhex
    exact ⟨_, 16, t, rfl, .hex hbase⟩
  by_cases hbase : base = 0
  · have hnot : ¬ ['0'.toUInt8, 'x'.toUInt8] <+: s := fun h => hhex ⟨Or.inl hbase, h⟩
    cases s with
    | nil => exact ⟨[], 10, [], rfl, .decimal hbase (by simp)⟩
    | cons c s =>
        by_cases hzero : c = '0'.toUInt8
        · subst hzero
          refine ⟨[_], 8, s, rfl, .octal hbase fun hx => hnot ?_⟩
          obtain ⟨t, rfl⟩ := List.head?_eq_some_iff.mp hx
          exact ⟨t, rfl⟩
        · exact ⟨[], 10, c :: s, rfl, .decimal hbase (by simpa using hzero)⟩
  · exact ⟨[], base, s, rfl, .given hbase fun h16 h => hhex ⟨Or.inr h16, h⟩⟩

/-- **Every string** can be taken apart. -/
theorem exists_literal (base : ℤ) (s : List UInt8) : ∃ l : Literal, l.Of base s := by
  obtain ⟨blanks, t, rfl, hblanks, hunblank⟩ := exists_span IsBlank s
  obtain ⟨sign, u, rfl, hsign⟩ := exists_sign t
  obtain ⟨pre, base', v, rfl, hpre⟩ := exists_prefix base u
  obtain ⟨digits, rest, rfl, hdigits, hstop⟩ := exists_span (DigitIn base') v
  exact ⟨⟨blanks, sign, pre, base', digits, rest⟩, rfl, hblanks, hunblank, hsign, hpre, hdigits,
    hstop⟩

/-! ## Reading it

The loops go through the parts.  That a value once too large stays too large is why it can be
decided at the end whether the call is defined.
-/

lemma skipSpaces_eq (h : StrAt mem a (s ++ t)) (hs : ∀ c ∈ s, IsBlank c)
    (ht : ∀ c ∈ t.head?, ¬ IsBlank c) {fuel : ℕ} (hfuel : s.length < fuel) :
    skipSpaces mem fuel a = some (a + UInt32.ofNat s.length) := by
  induction s generalizing a fuel with
  | nil =>
      obtain ⟨fuel, rfl⟩ := Nat.exists_eq_succ_of_ne_zero (Nat.pos_iff_ne_zero.mp hfuel)
      have hnot : ¬ IsBlank (mem a) := StrAt.head (P := (¬ IsBlank ·)) h (by decide) ht
      rw [skipSpaces, List.length_nil, add_ofNat_zero]
      exact if_neg hnot
  | cons c s ih =>
      obtain ⟨fuel, rfl⟩ := Nat.exists_eq_succ_of_ne_zero (by omega : fuel ≠ 0)
      have hblank : IsBlank (mem a) := by
        rw [h.1]
        exact hs c List.mem_cons_self
      have hnext := ih h.2.2 (fun d hd => hs d (List.mem_cons_of_mem _ hd))
        (Nat.lt_of_succ_lt_succ hfuel)
      rw [skipSpaces, List.length_cons, add_ofNat_succ, ← hnext]
      exact if_pos hblank

lemma strtolSign_eq (h : StrAt mem a (s ++ t))
    (hs : s = ['+'.toUInt8] ∨ s = ['-'.toUInt8] ∨ s = []
      ∧ ∀ c ∈ t.head?, ¬ (c = '+'.toUInt8 ∨ c = '-'.toUInt8)) :
    strtolSign mem a = (a + UInt32.ofNat s.length, decide (s = ['-'.toUInt8])) := by
  rcases hs with rfl | rfl | ⟨rfl, hnone⟩
  · rw [strtolSign, if_pos h.1]
    rfl
  · have hminus : mem a = '-'.toUInt8 := h.1
    have hplus : mem a ≠ '+'.toUInt8 := by
      rw [hminus]
      decide
    rw [strtolSign, if_neg hplus, if_pos hminus]
    rfl
  · have hnot : ¬ (mem a = '+'.toUInt8 ∨ mem a = '-'.toUInt8) :=
      StrAt.head (P := fun c => ¬ (c = '+'.toUInt8 ∨ c = '-'.toUInt8)) h (by decide) hnone
    rw [strtolSign, if_neg fun h => hnot (Or.inl h), if_neg fun h => hnot (Or.inr h),
      List.length_nil, add_ofNat_zero]
    rfl

lemma strtolPrefix_eq {base' : ℤ} (h : StrAt mem a (s ++ t)) (hs : BasePrefix base t s base') :
    strtolPrefix mem a base = (a + UInt32.ofNat s.length, base') := by
  cases hs with
  | hex hbase =>
      rw [strtolPrefix, if_pos ⟨hbase, h.1, h.2.2.1⟩]
      rfl
  | octal hbase hx =>
      have ht : StrAt mem (a + 1) t := h.2.2
      have hnot : mem (a + 1) ≠ 'x'.toUInt8 :=
        StrAt.head (P := (· ≠ 'x'.toUInt8)) ht (by decide) fun c hc heq => hx (by rw [hc, heq])
      rw [strtolPrefix, if_neg fun h => hnot h.2.2, if_pos ⟨hbase, h.1⟩]
      rfl
  | decimal hbase hzero =>
      have ht : StrAt mem a t := h
      have hnot : mem a ≠ '0'.toUInt8 :=
        StrAt.head (P := (· ≠ '0'.toUInt8)) ht (by decide) fun c hc heq => hzero (by rw [hc, heq])
      rw [strtolPrefix, if_neg fun h => hnot h.2.1, if_neg fun h => hnot h.2, if_pos hbase,
        List.length_nil, add_ofNat_zero]
  | given hbase hhex =>
      have hnot : ¬ ((base = 0 ∨ base = 16) ∧ mem a = '0'.toUInt8 ∧ mem (a + 1) = 'x'.toUInt8) := by
        rintro ⟨hzero | h16, h0, hx⟩
        · exact hbase hzero
        · obtain ⟨hhead, htail⟩ := h.head?_eq (by rw [h0]; decide)
          obtain ⟨hhead', -⟩ := htail.head?_eq (by rw [hx]; decide)
          obtain ⟨u, hu⟩ := List.head?_eq_some_iff.mp hhead
          rw [hu, List.tail_cons] at hhead'
          obtain ⟨u', rfl⟩ := List.head?_eq_some_iff.mp hhead'
          refine hhex h16 ⟨u', ?_⟩
          rw [List.nil_append] at hu
          rw [hu, h0, hx]
          rfl
      rw [strtolPrefix, if_neg hnot, if_neg fun h => hbase h.1, if_neg hbase, List.length_nil,
        add_ofNat_zero]

/-- No character is a negative digit. -/
lemma digitOf_nonneg {c : UInt8} {d : ℤ} (h : digitOf c = some d) : 0 ≤ d := by
  rw [digitOf] at h
  split at h
  · next hc =>
      have hle := UInt8.le_iff_toNat_le.mp hc.1
      cases h
      omega
  · split at h
    · next hc =>
        have hle := UInt8.le_iff_toNat_le.mp hc.1
        cases h
        omega
    · split at h
      · next hc =>
          have hle := UInt8.le_iff_toNat_le.mp hc.1
          cases h
          omega
      · cases h

/-- Reading more digits does not make a number smaller. -/
lemma le_foldl_digits {ds : List UInt8} (hds : ∀ c ∈ ds, DigitIn base c) {v : ℤ} (hv : 0 ≤ v) :
    v ≤ ds.foldl (fun v c => v * base + (digitOf c).getD 0) v := by
  induction ds generalizing v with
  | nil => exact Int.le_refl v
  | cons c ds ih =>
      obtain ⟨d, hd, hlt⟩ := hds c List.mem_cons_self
      have hnonneg := digitOf_nonneg hd
      have hmul : v ≤ v * base := le_mul_of_one_le_right hv (by omega)
      have hnext := ih (fun c hc => hds c (List.mem_cons_of_mem _ hc))
        (v := v * base + (digitOf c).getD 0) (by rw [hd, Option.getD_some]; omega)
      rw [hd, Option.getD_some] at hnext
      rw [List.foldl_cons, hd, Option.getD_some]
      omega

/-- **Digits are read** as their value, as far as that is a `long`. -/
lemma strtolDigits_eq (h : StrAt mem a (s ++ t)) (hs : ∀ c ∈ s, DigitIn base c)
    (ht : ∀ c ∈ t.head?, ¬ DigitIn base c) {fuel : ℕ} (hfuel : s.length < fuel) {v : ℤ}
    (hnonneg : 0 ≤ v) (hv : v ≤ 2147483647) :
    strtolDigits mem base fuel a v
      = (int (s.foldl (fun v c => v * base + (digitOf c).getD 0) v)).map fun val =>
          (a + UInt32.ofNat s.length, val) := by
  induction s generalizing a fuel v with
  | nil =>
      obtain ⟨fuel, rfl⟩ := Nat.exists_eq_succ_of_ne_zero (Nat.pos_iff_ne_zero.mp hfuel)
      have hint : int v = some v := int_of_le (by omega) hv
      have hend : ¬ DigitIn base (mem a) :=
        StrAt.head (P := (¬ DigitIn base ·)) h (by rintro ⟨d, hd, -⟩; cases hd) ht
      rw [List.foldl_nil, hint, Option.map_some, List.length_nil, add_ofNat_zero, strtolDigits]
      cases hdigit : digitOf (mem a) with
      | none => rfl
      | some d => exact if_pos (Int.not_lt.mp fun hlt => hend ⟨d, hdigit, hlt⟩)
  | cons c s ih =>
      obtain ⟨fuel, rfl⟩ := Nat.exists_eq_succ_of_ne_zero (by omega : fuel ≠ 0)
      have hs' : ∀ c ∈ s, DigitIn base c := fun c hc => hs c (List.mem_cons_of_mem _ hc)
      obtain ⟨d, hd, hlt⟩ := hs c List.mem_cons_self
      have hd' : digitOf c = some d := hd
      have hpos := digitOf_nonneg hd
      have hmul : v ≤ v * base := le_mul_of_one_le_right hnonneg (by omega)
      rw [strtolDigits, h.1, hd']
      simp only [if_neg (Int.not_le.mpr hlt), List.foldl_cons, hd', Option.getD_some]
      by_cases hfits : v * base + d ≤ 2147483647
      · have hint : int (v * base) = some (v * base) := int_of_le (by omega) (by omega)
        have hint' : int (v * base + d) = some (v * base + d) := int_of_le (by omega) hfits
        rw [hint, Option.bind_eq_bind, Option.bind_some, hint', Option.bind_some,
          ih h.2.2 hs' (Nat.lt_of_succ_lt_succ hfuel) (by omega) hfits, List.length_cons,
          add_ofNat_succ]
      · -- the product, or the sum, is too large, and so is the number
        have hle := le_foldl_digits hs' (v := v * base + d) (by omega)
        have hnone : int (v * base + d) = none := int_of_gt (by omega)
        have hvalue : int (s.foldl (fun v c => v * base + (digitOf c).getD 0) (v * base + d))
            = none := int_of_gt (by omega)
        rw [hvalue]
        cases hproduct : int (v * base) with
        | none => rfl
        | some product =>
            rw [int_eq_some hproduct, Option.bind_eq_bind, Option.bind_some, hnone]
            rfl

lemma Literal.Of.value_nonneg {l : Literal} (h : l.Of base s) : 0 ≤ l.value :=
  le_foldl_digits h.digits (Int.le_refl 0)

/-- **What `strtol` reads** of a literal: the parts are passed one after the other, and the
digits are summed up. -/
lemma Literal.Of.reads {l : Literal} (hl : l.Of base s) (h : StrAt mem a s) :
    strtol mem a base = (int l.value).map fun val =>
      (a + UInt32.ofNat l.length, if l.sign = ['-'.toUInt8] then -val else val) := by
  have hlen := h.length_lt
  have hnonneg := hl.value_nonneg
  rw [hl.text] at h hlen
  simp only [List.length_append] at hlen
  have hsign := StrAt.drop h
  have hpre := StrAt.drop hsign
  have hdigits := StrAt.drop hpre
  have hfuel : l.digits.length < 4294967296 := by omega
  have hread := strtolDigits_eq hdigits hl.digits hl.stop hfuel (Int.le_refl 0) (by decide)
  have hptr : a + UInt32.ofNat l.blanks.length + UInt32.ofNat l.sign.length
      + UInt32.ofNat l.pre.length + UInt32.ofNat l.digits.length = a + UInt32.ofNat l.length := by
    simp only [Literal.length, UInt32.ofNat_add, UInt32.add_assoc]
  rw [hptr] at hread
  rw [strtol, skipSpaces_eq h hl.blanks hl.unblank (by omega), Option.bind_eq_bind,
    Option.bind_some]
  simp only [strtolSign_eq hsign hl.sign, strtolPrefix_eq hpre hl.pre, hread]
  change ((int l.value).map _).bind _ = _
  cases hint : int l.value with
  | none => rfl
  | some val =>
      obtain rfl : val = l.value := int_eq_some hint
      have hle : l.value ≤ 2147483647 := by
        by_contra hbig
        rw [int_of_gt (by omega)] at hint
        cases hint
      have hneg : int (-l.value) = some (-l.value) := int_of_le (by omega) (by omega)
      by_cases hminus : l.sign = ['-'.toUInt8]
      · simp [hminus, hneg]
      · simp [hminus]

/-- **The whole of `strtol`**, on any string and for any base: the string can be taken apart, and as
it is taken apart it is read, unless the value is not a `long`. -/
theorem strtol_reads (h : StrAt mem a s) (base : ℤ) :
    (∃ l : Literal, l.Of base s) ∧ ∀ l : Literal, l.Of base s →
      strtol mem a base = (int l.value).map fun val =>
        (a + UInt32.ofNat l.length, if l.sign = ['-'.toUInt8] then -val else val) :=
  ⟨exists_literal base s, fun _ hl => hl.reads h⟩

/-- A number that says itself that it is hexadecimal. -/
theorem strtol_reads_hex :
    (∃ l : Literal, l.Of 0 (ascii "\t-0x1Fz")) ∧ ∀ l : Literal, l.Of 0 (ascii "\t-0x1Fz") →
      strtol (put (fun _ => 255) 0x1000 (ascii "\t-0x1Fz" ++ [0])) 0x1000 0
        = (int l.value).map fun val =>
          (0x1000 + UInt32.ofNat l.length, if l.sign = ['-'.toUInt8] then -val else val) :=
  strtol_reads (StrAt.put (fun _ => 255) 0x1000 (by decide +kernel) (by decide +kernel)) 0

/-! ## Numerals

The literals that come out of `printnum`, for reading back what was printed.
-/

section Numerals

variable {b n : ℕ}

/-- A digit below 16 is read. -/
lemma digitOf_digitByte {d : ℕ} (hd : d < 16) : digitOf (digitByte d) = some (d : ℤ) := by
  have hall : ∀ d : Fin 16, digitOf (digitByte d) = some (d.val : ℤ) := by decide
  exact hall ⟨d, hd⟩

/-- The value is that of the digits. -/
lemma foldl_digitByte {ds : List ℕ} (hds : ∀ d ∈ ds, d < 16) (v : ℕ) :
    (ds.map digitByte).foldl (fun v c => v * (b : ℤ) + (digitOf c).getD 0) (v : ℤ)
      = ((ds.foldl (fun v d => v * b + d) v : ℕ) : ℤ) := by
  induction ds generalizing v with
  | nil => rfl
  | cons d ds ih =>
      have hnext := ih (fun x hx => hds x (List.mem_cons_of_mem _ hx)) (v * b + d)
      rw [List.map_cons, List.foldl_cons, List.foldl_cons, ← hnext,
        digitOf_digitByte (hds d List.mem_cons_self), Option.getD_some]
      norm_cast

variable (hb : 2 ≤ b)
include hb

/-- A byte of a numeral is one of its digits. -/
lemma mem_numeralBytes {c : UInt8} (hc : c ∈ numeralBytes b n) : ∃ d < b, c = digitByte d := by
  obtain ⟨d, hd, rfl⟩ := List.mem_map.mp hc
  exact ⟨d, lt_of_mem_numeral hb n d hd, rfl⟩

variable (hb' : b ≤ 16)
include hb'

/-- It is none of the characters that are looked for in front of digits. -/
lemma numeralBytes_plain {c : UInt8} (hc : c ∈ numeralBytes b n) :
    ¬ IsBlank c ∧ ¬ (c = '+'.toUInt8 ∨ c = '-'.toUInt8) ∧ c ≠ 'x'.toUInt8 := by
  obtain ⟨d, hd, rfl⟩ := mem_numeralBytes hb hc
  have hall : ∀ d : Fin 16, ¬ IsBlank (digitByte d)
      ∧ ¬ (digitByte d = '+'.toUInt8 ∨ digitByte d = '-'.toUInt8) ∧ digitByte d ≠ 'x'.toUInt8 := by
    decide
  exact hall ⟨d, by omega⟩

/-- Blanks, perhaps a minus, and a numeral are a literal. -/
lemma numeral_literal (k : ℕ) {sign : List UInt8} (hsign : sign = [] ∨ sign = ['-'.toUInt8]) :
    Literal.Of b (List.replicate k ' '.toUInt8 ++ (sign ++ numeralBytes b n))
      ⟨List.replicate k ' '.toUInt8, sign, [], b, numeralBytes b n, []⟩ where
  text := by simp
  blanks c hc := Or.inl (List.mem_replicate.mp hc).2
  unblank c hc := by
    rcases hsign with rfl | rfl
    · have hmem : c ∈ numeralBytes b n := by simpa using List.mem_of_mem_head? hc
      exact (numeralBytes_plain hb hb' hmem).1
    · cases hc
      decide
  sign := by
    rcases hsign with rfl | rfl
    · refine Or.inr (Or.inr ⟨rfl, fun c hc => ?_⟩)
      have hmem : c ∈ numeralBytes b n := by simpa using List.mem_of_mem_head? hc
      exact (numeralBytes_plain hb hb' hmem).2.1
    · exact Or.inr (Or.inl rfl)
  pre := by
    refine .given (by omega) fun _ hpre => ?_
    have hmem : 'x'.toUInt8 ∈ numeralBytes b n := by simpa using hpre.subset (by simp)
    exact (numeralBytes_plain hb hb' hmem).2.2 rfl
  digits c hc := by
    obtain ⟨d, hd, rfl⟩ := mem_numeralBytes hb hc
    exact ⟨d, digitOf_digitByte (by omega), by simpa using hd⟩
  stop c hc := by cases hc

lemma numeral_literal_value (blanks sign : List UInt8) :
    Literal.value ⟨blanks, sign, [], b, numeralBytes b n, []⟩ = n := by
  have hds : ∀ d ∈ numeral b n, d < 16 := fun d hd =>
    Nat.lt_of_lt_of_le (lt_of_mem_numeral hb n d hd) hb'
  have hvalue : (numeral b n).foldl (fun v d => v * b + d) 0 = n := value_numeral hb n
  have hcast := foldl_digitByte hds 0 (b := b)
  rw [hvalue] at hcast
  exact hcast

/-- **A number is read**, behind blanks and up to its end. -/
theorem strtol_number {k : ℕ}
    (h : StrAt mem a (List.replicate k ' '.toUInt8 ++ numeralBytes b n)) :
    strtol mem a b = (int n).map fun val =>
      (a + UInt32.ofNat k + UInt32.ofNat (numeralBytes b n).length, val) := by
  have hread := (numeral_literal hb hb' k (Or.inl rfl)).reads h
  rw [numeral_literal_value hb hb'] at hread
  rw [hread]
  simp [Literal.length, UInt32.ofNat_add, UInt32.add_assoc]

/-- **A negative number is read**, if it is not the least `long`, whose digits are too large. -/
theorem strtol_negative (h : StrAt mem a ('-'.toUInt8 :: numeralBytes b n)) :
    strtol mem a b = (int n).map fun val =>
      (a + UInt32.ofNat (numeralBytes b n).length + 1, -val) := by
  have hread := (numeral_literal hb hb' 0 (Or.inr rfl)).reads h
  have hlen : UInt32.ofNat (1 + (numeralBytes b n).length)
      = UInt32.ofNat (numeralBytes b n).length + 1 := by
    rw [UInt32.ofNat_add, UInt32.add_comm]
    rfl
  rw [numeral_literal_value hb hb'] at hread
  rw [hread]
  simp [Literal.length, hlen, UInt32.add_assoc]

end Numerals

/-- **A blank behind the sign** ends the number. -/
theorem strtol_blank {b : ℕ} (hb : b ≠ 0)
    (h : StrAt mem a ('-'.toUInt8 :: ' '.toUInt8 :: s)) : strtol mem a b = some (a + 1, 0) := by
  have hl : Literal.Of b ('-'.toUInt8 :: ' '.toUInt8 :: s)
      ⟨[], ['-'.toUInt8], [], b, [], ' '.toUInt8 :: s⟩ :=
    { text := rfl
      blanks := fun c hc => by cases hc
      unblank := fun c hc => by cases hc; decide
      sign := Or.inr (Or.inl rfl)
      pre := .given (by omega) fun _ hpre => by
        obtain ⟨u, hu⟩ := hpre
        exact absurd (List.cons.inj hu).1 (by decide)
      digits := fun c hc => by cases hc
      stop := fun c hc => by
        cases hc
        rintro ⟨d, hd, -⟩
        cases hd }
  exact hl.reads h

end ScratchOs.Lib
