import Mathlib.Data.Int.Notation
import Mathlib.Data.List.Basic
import ScratchOs.Core.Memory

/-!
# C strings in memory

A C string is what the memory holds from an address on up to the first 0.  The functions of the
standard library take addresses; what they do is stated about the strings at these addresses, and
about the bytes they leave.

* `StrAt mem a s` — the bytes of `s`, none of them 0, then a 0.  A string ends before the addresses
  come around (`StrAt.length_lt`), and there is one string at an address (`StrAt.unique`).
* `put mem dst l` — the bytes of a list written from an address on; **`StrAt.put`** — a string that
  has been written is there.
* `Apart` — two ranges without a common address, which is what most of the functions ask of their
  arguments.
* `Compares r l l'` — the sign of `r` says how two byte strings are ordered lexicographically.

That a memory has a string at an address is an assumption about the caller.  The loops have no bound
of their own and run around the address space where there is no 0.
-/

namespace Memory

open Bytes

variable {mem mem' : Mem} {a b : UInt32} {s t : List UInt8}

/-- The string at an address: its bytes, none of them 0, and the 0 behind them. -/
def StrAt (mem : Mem) : UInt32 → List UInt8 → Prop
  | a, [] => mem a = 0
  | a, c :: s => mem a = c ∧ c ≠ 0 ∧ StrAt mem (a + 1) s

lemma strAt_nil : StrAt mem a [] ↔ mem a = 0 := Iff.rfl

lemma strAt_cons {c : UInt8} :
    StrAt mem a (c :: s) ↔ mem a = c ∧ c ≠ 0 ∧ StrAt mem (a + 1) s := Iff.rfl

/-- A string that goes on does not start with the 0 that would end it. -/
lemma StrAt.head_ne_zero {c : UInt8} (h : StrAt mem a (c :: s)) : mem a ≠ 0 := by
  rw [h.1]
  exact h.2.1

/-- The first byte of a range is at its address. -/
@[simp] lemma add_ofNat_zero (a : UInt32) : a + UInt32.ofNat 0 = a := UInt32.add_zero a

/-- The bytes behind the first one are those of the range from the next address on. -/
lemma add_ofNat_succ (a : UInt32) (i : ℕ) : a + UInt32.ofNat (i + 1) = a + 1 + UInt32.ofNat i := by
  rw [UInt32.ofNat_add]
  grind

/-- Behind the string is the 0 that ends it. -/
lemma StrAt.at_end (h : StrAt mem a s) : mem (a + UInt32.ofNat s.length) = 0 := by
  induction s generalizing a with
  | nil =>
      rw [List.length_nil, add_ofNat_zero]
      exact h
  | cons c s ih =>
      rw [List.length_cons, add_ofNat_succ]
      exact ih h.2.2

/-- Inside of the string are its bytes, and they are not 0. -/
lemma StrAt.at_lt (h : StrAt mem a s) {i : ℕ} (hi : i < s.length) :
    mem (a + UInt32.ofNat i) = s[i] ∧ s[i] ≠ 0 := by
  induction s generalizing a i with
  | nil => exact absurd hi (Nat.not_lt_zero i)
  | cons c s ih =>
      cases i with
      | zero =>
          rw [add_ofNat_zero]
          exact ⟨h.1, h.2.1⟩
      | succ i =>
          rw [add_ofNat_succ]
          exact ih h.2.2 (Nat.lt_of_succ_lt_succ hi)

/-- Behind the beginning of a string is the rest of it, as a string. -/
lemma StrAt.drop (h : StrAt mem a (s ++ t)) : StrAt mem (a + UInt32.ofNat s.length) t := by
  induction s generalizing a with
  | nil => rwa [List.length_nil, add_ofNat_zero]
  | cons c s ih =>
      rw [List.length_cons, add_ofNat_succ]
      exact ih h.2.2

/-- What holds of 0 and of the first byte of a string holds of the byte at its address.  A parser
uses this to look one byte ahead. -/
lemma StrAt.head {P : UInt8 → Prop} (h : StrAt mem a s) (hzero : P 0) (hs : ∀ c ∈ s.head?, P c) :
    P (mem a) := by
  cases s with
  | nil =>
      rw [strAt_nil.mp h]
      exact hzero
  | cons c s =>
      rw [h.1]
      exact hs c rfl

/-- A byte at the address that is not 0 is the first of the string, and the rest of the string is
behind it. -/
lemma StrAt.head?_eq (h : StrAt mem a s) (hne : mem a ≠ 0) :
    s.head? = some (mem a) ∧ StrAt mem (a + 1) s.tail := by
  cases s with
  | nil => exact absurd (strAt_nil.mp h) hne
  | cons c s =>
      rw [h.1]
      exact ⟨rfl, h.2.2⟩

/-- No byte of a string is 0. -/
lemma StrAt.ne_zero (h : StrAt mem a s) : ∀ c ∈ s, c ≠ 0 := by
  intro c hc
  rcases List.getElem_of_mem hc with ⟨i, hi, rfl⟩
  exact (h.at_lt hi).2

/-- **A string ends** before the addresses come around, because otherwise its 0 would be one of
its bytes. -/
theorem StrAt.length_lt (h : StrAt mem a s) : s.length < 4294967296 := by
  by_contra hlong
  have hi : s.length - 4294967296 < s.length := by omega
  have haround : UInt32.ofNat s.length = UInt32.ofNat (s.length - 4294967296) := by
    rw [← UInt32.toNat_inj, UInt32.toNat_ofNat', UInt32.toNat_ofNat']
    omega
  have hend := h.at_end
  rw [haround, (h.at_lt hi).1] at hend
  exact (h.at_lt hi).2 hend

/-- **There is one string** at an address. -/
theorem StrAt.unique (hs : StrAt mem a s) (ht : StrAt mem a t) : s = t := by
  induction s generalizing a t with
  | nil =>
      cases t with
      | nil => rfl
      | cons d t => exact absurd (ht.1.symm.trans hs) ht.2.1
  | cons c s ih =>
      cases t with
      | nil => exact absurd (hs.1.symm.trans ht) hs.2.1
      | cons d t => rw [← hs.1, ← ht.1, ih hs.2.2 ht.2.2]

/-- A string depends on its bytes and the 0 behind them only. -/
lemma StrAt.congr (h : StrAt mem a s)
    (heq : ∀ i < s.length + 1, mem' (a + UInt32.ofNat i) = mem (a + UInt32.ofNat i)) :
    StrAt mem' a s := by
  induction s generalizing a with
  | nil =>
      have hfirst := heq 0 (Nat.succ_pos _)
      rw [add_ofNat_zero] at hfirst
      exact hfirst.trans h
  | cons c s ih =>
      have hfirst := heq 0 (Nat.succ_pos _)
      rw [add_ofNat_zero] at hfirst
      refine ⟨hfirst.trans h.1, h.2.1, ih h.2.2 fun i hi => ?_⟩
      rw [← add_ofNat_succ]
      exact heq (i + 1) (Nat.succ_lt_succ hi)

/-! ## Ranges

Ranges may go around the end of the address space, so that being apart is stated about the addresses
and not about their bounds.
-/

/-- No address is in both ranges. -/
def Apart (a : UInt32) (n : ℕ) (b : UInt32) (m : ℕ) : Prop :=
  ∀ i < n, ∀ j < m, a + UInt32.ofNat i ≠ b + UInt32.ofNat j

/-- Two ranges are apart without their first addresses. -/
lemma Apart.tail {n m : ℕ} (h : Apart a (n + 1) b (m + 1)) : Apart (a + 1) n (b + 1) m := by
  intro i hi j hj
  rw [← add_ofNat_succ, ← add_ofNat_succ]
  exact h (i + 1) (Nat.succ_lt_succ hi) (j + 1) (Nat.succ_lt_succ hj)

lemma Apart.mono {n m n' m' : ℕ} (h : Apart a n b m) (hn : n' ≤ n) (hm : m' ≤ m) :
    Apart a n' b m' :=
  fun i hi j hj => h i (Nat.lt_of_lt_of_le hi hn) j (Nat.lt_of_lt_of_le hj hm)

/-- A string stays when a byte outside of it is written. -/
lemma StrAt.update (h : StrAt mem a s) (c : UInt8) (hapart : Apart b 1 a (s.length + 1)) :
    StrAt (Function.update mem b c) a s := by
  refine h.congr fun i hi => Function.update_of_ne ?_ _ _
  have hne := hapart 0 Nat.one_pos i hi
  rw [add_ofNat_zero] at hne
  exact hne.symm

/-! ## Writing a list -/

/-- The memory with the bytes of a list from an address on. -/
def put (mem : Mem) (dst : UInt32) (l : List UInt8) : Mem :=
  copy mem dst (n := l.length) fun i => l[i]

lemma put_apply (mem : Mem) (dst : UInt32) (l : List UInt8) (a : UInt32) :
    put mem dst l a = (l[(a - dst).toNat]?).getD (mem a) := by
  by_cases h : (a - dst).toNat < l.length
  · rw [put, copy_of_within _ _ h, byteAt_of_lt _ h, List.getElem?_eq_getElem h]
    rfl
  · rw [put, copy_of_not_within _ _ h, List.getElem?_eq_none (Nat.le_of_not_lt h)]
    rfl

lemma put_nil (mem : Mem) (dst : UInt32) : put mem dst [] = mem := by
  funext a
  rw [put_apply, List.getElem?_nil]
  rfl

/-- Writing a list is writing its first byte, and then the others behind it.  This is the order
of the loops that go upwards. -/
lemma put_cons (mem : Mem) (dst : UInt32) (c : UInt8) (l : List UInt8)
    (hlen : l.length < 4294967296) :
    put mem dst (c :: l) = put (Function.update mem dst c) (dst + 1) l := by
  funext a
  have hlt := (a - dst).toNat_lt
  have hnext : a - (dst + 1) = a - dst - 1 := by grind
  have hdist : (a - (dst + 1)).toNat = ((a - dst).toNat + 4294967295) % 4294967296 := by
    rw [hnext, UInt32.toNat_sub]
    show (4294967296 - 1 + (a - dst).toNat) % 4294967296 = _
    omega
  rw [put_apply, put_apply, hdist]
  rcases Nat.eq_zero_or_pos (a - dst).toNat with hzero | hpos
  · -- the first byte, which the others do not reach
    have ha : a = dst := by
      have hsub : a - dst = 0 := by
        rw [← UInt32.toNat_inj, hzero]
        rfl
      have hback : a = a - dst + dst := by grind
      rw [hback, hsub, UInt32.zero_add]
    have hover : l.length ≤ ((a - dst).toNat + 4294967295) % 4294967296 := by omega
    rw [List.getElem?_eq_none hover, hzero, ha, Option.getD_none, Function.update_self]
    rfl
  · obtain ⟨k, hk⟩ := Nat.exists_eq_succ_of_ne_zero (Nat.pos_iff_ne_zero.mp hpos)
    have hk' : ((a - dst).toNat + 4294967295) % 4294967296 = k := by omega
    have hne : a ≠ dst := by
      rintro rfl
      rw [UInt32.sub_self] at hpos
      exact absurd hpos (Nat.lt_irrefl 0)
    rw [hk', hk, List.getElem?_cons_succ, Function.update_of_ne hne]

/-- Writing a list is also writing its last byte behind the others, as when the 0 is stored at
the end. -/
lemma put_concat (mem : Mem) (dst : UInt32) (l : List UInt8) (c : UInt8)
    (hlen : l.length < 4294967296) :
    put mem dst (l ++ [c]) = Function.update (put mem dst l) (dst + UInt32.ofNat l.length) c := by
  induction l generalizing mem dst with
  | nil => rw [List.nil_append, put_cons _ _ _ _ hlen, put_nil, put_nil, List.length_nil,
      add_ofNat_zero]
  | cons d l ih =>
      have hlen' : (l ++ [c]).length < 4294967296 := by
        rw [List.length_append]
        exact hlen
      rw [List.cons_append, put_cons _ _ _ _ hlen', ih _ _ (Nat.lt_of_succ_lt hlen),
        put_cons _ _ _ _ (Nat.lt_of_succ_lt hlen), List.length_cons, add_ofNat_succ]

/-- Outside of the range nothing changes. -/
lemma put_of_not_within (mem : Mem) {dst a : UInt32} {l : List UInt8}
    (h : ¬ Within dst l.length a) : put mem dst l a = mem a :=
  copy_of_not_within _ _ h

/-- Every byte of the range is the one of the list. -/
lemma put_at (mem : Mem) (dst : UInt32) {l : List UInt8} {i : ℕ} (hi : i < l.length)
    (hlen : l.length ≤ 4294967296) : put mem dst l (dst + UInt32.ofNat i) = l[i] := by
  rw [put_apply, toNat_add_sub dst (by omega), List.getElem?_eq_getElem hi]
  rfl

/-- **A string that has been written** with its 0 is there. -/
theorem StrAt.put (mem : Mem) (dst : UInt32) (hs : ∀ c ∈ s, c ≠ 0)
    (hlen : s.length < 4294967296) : StrAt (put mem dst (s ++ [0])) dst s := by
  induction s generalizing mem dst with
  | nil =>
      have h := put_at mem dst (l := [0]) (i := 0) Nat.one_pos (by decide)
      rw [add_ofNat_zero] at h
      exact h
  | cons c s ih =>
      have hlen' : (s ++ [0]).length < 4294967296 := by
        rw [List.length_append]
        exact hlen
      have hfirst := put_at mem dst (l := c :: (s ++ [0])) (i := 0) (Nat.succ_pos _) hlen'
      rw [add_ofNat_zero] at hfirst
      refine ⟨hfirst, hs c List.mem_cons_self, ?_⟩
      rw [List.cons_append, put_cons _ _ _ _ hlen']
      exact ih _ _ (fun d hd => hs d (List.mem_cons_of_mem _ hd)) (Nat.lt_of_succ_lt hlen)

/-- Bytes in front of a string make a longer string. -/
lemma strAt_append (hs : ∀ i (hi : i < s.length), mem (a + UInt32.ofNat i) = s[i] ∧ s[i] ≠ 0)
    (ht : StrAt mem (a + UInt32.ofNat s.length) t) : StrAt mem a (s ++ t) := by
  induction s generalizing a with
  | nil => simpa using ht
  | cons c s ih =>
      have hfirst := hs 0 (Nat.succ_pos _)
      rw [add_ofNat_zero] at hfirst
      rw [List.length_cons, add_ofNat_succ] at ht
      refine ⟨hfirst.1, hfirst.2, ih (fun i hi => ?_) ht⟩
      have h := hs (i + 1) (Nat.succ_lt_succ hi)
      rwa [add_ofNat_succ] at h

/-! ## Order

The order is the lexicographic one of Mathlib on lists of bytes.
-/

/-- The bytes of a range as a list. -/
def bytesAt (mem : Mem) : UInt32 → ℕ → List UInt8
  | _, 0 => []
  | a, n + 1 => mem a :: bytesAt mem (a + 1) n

/-- The sign of a number says how two byte strings are ordered.  C promises no more about the
result of a comparison than its sign. -/
structure Compares (r : ℤ) (l l' : List UInt8) : Prop where
  neg_iff : r < 0 ↔ l < l'
  zero_iff : r = 0 ↔ l = l'
  pos_iff : 0 < r ↔ l' < l

section Compares

variable {l l' : List UInt8} {c d : UInt8} {r : ℤ}

lemma compares_nil : Compares 0 [] [] :=
  ⟨by simp, by simp, by simp⟩

/-- A common byte in front does not change the order. -/
lemma Compares.cons (h : Compares r l l') (c : UInt8) : Compares r (c :: l) (c :: l') := by
  have hirrefl : ¬ c < c := UInt8.lt_irrefl c
  refine ⟨?_, ?_, ?_⟩
  · rw [h.neg_iff, List.cons_lt_cons_iff]
    simp [hirrefl]
  · rw [h.zero_iff]
    simp
  · rw [h.pos_iff, List.cons_lt_cons_iff]
    simp [hirrefl]

/-- **The first bytes that differ** decide, as unsigned numbers. -/
lemma compares_of_ne (h : c ≠ d) (l l' : List UInt8) :
    Compares (c.toNat - d.toNat) (c :: l) (d :: l') := by
  have hne : c.toNat ≠ d.toNat := fun heq => h (UInt8.toNat_inj.mp heq)
  refine ⟨?_, ?_, ?_⟩
  · rw [List.cons_lt_cons_iff, UInt8.lt_iff_toNat_lt]
    simp only [h, false_and, or_false]
    omega
  · simp only [List.cons.injEq, h, false_and, iff_false]
    omega
  · rw [List.cons_lt_cons_iff, UInt8.lt_iff_toNat_lt]
    simp only [h.symm, false_and, or_false]
    omega

/-- A string that ends comes before one that goes on. -/
lemma compares_nil_cons (h : d ≠ 0) (l : List UInt8) : Compares (0 - d.toNat) [] (d :: l) := by
  have hne : d.toNat ≠ 0 := fun heq => h (UInt8.toNat_inj.mp heq)
  refine ⟨?_, ?_, ?_⟩
  · simp only [List.nil_lt_cons, iff_true]
    omega
  · simp only [reduceCtorEq, iff_false]
    omega
  · simp only [List.not_lt_nil, iff_false]
    omega

lemma compares_cons_nil (h : c ≠ 0) (l : List UInt8) : Compares (c.toNat - 0) (c :: l) [] := by
  have hne : c.toNat ≠ 0 := fun heq => h (UInt8.toNat_inj.mp heq)
  refine ⟨?_, ?_, ?_⟩
  · simp only [List.not_lt_nil, iff_false]
    omega
  · simp only [reduceCtorEq, iff_false]
    omega
  · simp only [List.nil_lt_cons, iff_true]
    omega

end Compares

end Memory
