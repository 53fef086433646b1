import Mathlib.Data.List.TakeDrop
import ScratchOs.Core.CStrings

/-!
# Strings

The functions of `lib/string.c` on C strings.  A loop that only a 0 byte ends is given as many
rounds as there are addresses: after them it has seen every byte, and runs on forever, which is
`none`.

* **`strcat_appends`** — the second string behind the first, and nothing else changes; with it
  `strlen_eq` and `strcpy_eq_put`.
* **`strlcpy_eq`**, **`strncpy_eq_put`** — the bounded copies: one cuts and terminates, one fills
  the range with 0 and may not terminate.
* **`strcmp_compares`**, **`strncmp_compares`** — the lexicographic order, of the whole strings and
  of their beginnings.
* **`strfind_eq`**, **`strchr_eq`** — the first occurrence.

**Strings in memory.**  `StrAt mem a s` says that the bytes of `s` are at `a`, with a 0 behind them
and none among them.  This is all that is assumed where a function only reads.  Where one writes,
what it writes must not touch the string it still reads (`Apart`); C leaves such calls undefined,
and the loops here might not end.

**Whole memories.**  The copies are described by the memory they leave, as `put` of a list of
bytes.  That nothing else changes is part of this and needs no lemma of its own.
-/

namespace ScratchOs.Lib

open Memory

/-! ## The functions

Each function is its loop.  A loop that ends by a count has that count as its argument, and one that
ends at a 0 byte has the fuel that is spoken of above.
-/

/-- The loop of `strlen`. -/
def strlenFrom (mem : Mem) : ℕ → UInt32 → UInt32 → Option UInt32
  | 0, _, _ => none
  | fuel + 1, n, s => if mem s ≠ 0 then strlenFrom mem fuel (n + 1) (s + 1) else some n

/-- `strlen`, whose count comes around with the addresses. -/
def strlen (mem : Mem) (s : UInt32) : Option UInt32 := strlenFrom mem 4294967296 0 s

/-- The loop of `strnlen`, with `size` left. -/
def strnlenFrom (mem : Mem) : ℕ → UInt32 → UInt32 → UInt32
  | 0, n, _ => n
  | size + 1, n, s => if mem s ≠ 0 then strnlenFrom mem size (n + 1) (s + 1) else n

/-- `strnlen`, which looks at no byte behind the first `size`. -/
def strnlen (mem : Mem) (s size : UInt32) : UInt32 := strnlenFrom mem size.toNat 0 s

/-- The loop of `strcpy`, which copies the 0 as well. -/
def strcpyFrom : ℕ → Mem → UInt32 → UInt32 → Option Mem
  | 0, _, _, _ => none
  | fuel + 1, mem, dst, src =>
      let c := mem src
      let mem := Function.update mem dst c
      if c ≠ 0 then strcpyFrom fuel mem (dst + 1) (src + 1) else some mem

/-- `strcpy`, which returns `dst`. -/
def strcpy (mem : Mem) (dst src : UInt32) : Option Mem := strcpyFrom 4294967296 mem dst src

/-- `strcat`, which returns `dst`: `strcpy` to the end of the first string. -/
def strcat (mem : Mem) (dst src : UInt32) : Option Mem := do
  let len ← strlen mem dst
  strcpy mem (dst + len) src

/-- The loop of `strncpy`, with `size - i` rounds left. -/
def strncpyFrom : ℕ → Mem → UInt32 → UInt32 → Mem
  | 0, mem, _, _ => mem
  | n + 1, mem, dst, src =>
      let mem := Function.update mem dst (mem src)
      strncpyFrom n mem (dst + 1) (if mem src ≠ 0 then src + 1 else src)

/-- `strncpy`, which returns `dst`. -/
def strncpy (mem : Mem) (dst src size : UInt32) : Mem := strncpyFrom size.toNat mem dst src

/-- The loop of `strlcpy`: the memory and `dst` after it, when `size` has just been counted down to
the first argument. -/
def strlcpyFrom : ℕ → Mem → UInt32 → UInt32 → Mem × UInt32
  | 0, mem, dst, _ => (mem, dst)
  | size + 1, mem, dst, src =>
      if mem src ≠ 0 then strlcpyFrom size (Function.update mem dst (mem src)) (dst + 1) (src + 1)
      else (mem, dst)

/-- `strlcpy`, with the number of bytes that it returns.  For a size of 0 nothing is written. -/
def strlcpy (mem : Mem) (dst src size : UInt32) : Mem × UInt32 :=
  let dst_in := dst
  if 0 < size then
    let (mem, dst) := strlcpyFrom (size - 1).toNat mem dst src
    (Function.update mem dst 0, dst - dst_in)
  else (mem, dst - dst_in)

/-- The loop of `strcmp`, which goes on while the bytes are the same and not 0. -/
def strcmpFrom (mem : Mem) : ℕ → UInt32 → UInt32 → Option ℤ
  | 0, _, _ => none
  | fuel + 1, p, q =>
      if mem p ≠ 0 ∧ mem p = mem q then strcmpFrom mem fuel (p + 1) (q + 1)
      else some ((mem p).toNat - (mem q).toNat)

/-- `strcmp`, which compares the bytes as unsigned numbers. -/
def strcmp (mem : Mem) (p q : UInt32) : Option ℤ := strcmpFrom mem 4294967296 p q

/-- The loop of `strncmp`, and what follows it. -/
def strncmpFrom (mem : Mem) : ℕ → UInt32 → UInt32 → ℤ
  | 0, _, _ => 0
  | n + 1, p, q =>
      if mem p ≠ 0 ∧ mem p = mem q then strncmpFrom mem n (p + 1) (q + 1)
      else (mem p).toNat - (mem q).toNat

/-- `strncmp`, which stops after `n` bytes at the latest. -/
def strncmp (mem : Mem) (p q n : UInt32) : ℤ := strncmpFrom mem n.toNat p q

/-- The loop of `strchr`. -/
def strchrFrom (mem : Mem) (c : UInt8) : ℕ → UInt32 → Option UInt32
  | 0, _ => none
  | fuel + 1, s =>
      if mem s ≠ 0 then
        if mem s = c then some s else strchrFrom mem c fuel (s + 1)
      else some 0

/-- `strchr`, which does not find the 0 at the end. -/
def strchr (mem : Mem) (s : UInt32) (c : UInt8) : Option UInt32 := strchrFrom mem c 4294967296 s

/-- The loop of `strfind`. -/
def strfindFrom (mem : Mem) (c : UInt8) : ℕ → UInt32 → Option UInt32
  | 0, _ => none
  | fuel + 1, s =>
      if mem s ≠ 0 then
        if mem s = c then some s else strfindFrom mem c fuel (s + 1)
      else some s

/-- `strfind`, which returns the end of the string instead of a null pointer. -/
def strfind (mem : Mem) (s : UInt32) (c : UInt8) : Option UInt32 := strfindFrom mem c 4294967296 s

variable {mem : Mem} {s t : List UInt8} {a b : UInt32}

/-! ## Lengths

The induction is on the string, and the fuel is what is left of the addresses; a string is shorter
than the address space, so that it is never used up.
-/

lemma strlenFrom_eq (h : StrAt mem a s) {fuel : ℕ} (hfuel : s.length < fuel) (n : UInt32) :
    strlenFrom mem fuel n a = some (n + UInt32.ofNat s.length) := by
  induction s generalizing a fuel n with
  | nil =>
      obtain ⟨fuel, rfl⟩ := Nat.exists_eq_succ_of_ne_zero (Nat.pos_iff_ne_zero.mp hfuel)
      rw [strlenFrom, if_neg (not_not_intro (strAt_nil.mp h)), List.length_nil, add_ofNat_zero]
  | cons c s ih =>
      obtain ⟨fuel, rfl⟩ := Nat.exists_eq_succ_of_ne_zero (by omega : fuel ≠ 0)
      rw [strlenFrom, if_pos h.head_ne_zero, ih h.2.2 (Nat.lt_of_succ_lt_succ hfuel),
        List.length_cons, add_ofNat_succ]

/-- `strlen` returns the length of the string. -/
theorem strlen_eq (h : StrAt mem a s) : strlen mem a = some (UInt32.ofNat s.length) := by
  rw [strlen, strlenFrom_eq h h.length_lt, UInt32.zero_add]

lemma strnlenFrom_eq (h : StrAt mem a s) (size : ℕ) (n : UInt32) :
    strnlenFrom mem size n a = n + UInt32.ofNat (min s.length size) := by
  induction size generalizing a s n with
  | zero => rw [strnlenFrom, Nat.min_zero, add_ofNat_zero]
  | succ size ih =>
      cases s with
      | nil => rw [strnlenFrom, if_neg (not_not_intro (strAt_nil.mp h)), List.length_nil, Nat.zero_min,
          add_ofNat_zero]
      | cons c s =>
          rw [strnlenFrom, if_pos h.head_ne_zero, ih h.2.2, List.length_cons,
            Nat.add_min_add_right, add_ofNat_succ]

/-- `strnlen` returns the length of the string, as far as `size` goes. -/
theorem strnlen_eq (h : StrAt mem a s) (size : UInt32) :
    strnlen mem a size = UInt32.ofNat (min s.length size.toNat) := by
  rw [strnlen, strnlenFrom_eq h, UInt32.zero_add]

/-! ## Copies

The loops write upwards and read a byte before they write one.  As the ranges are apart, the string
that is read stays in its place.
-/

lemma strcpyFrom_eq (h : StrAt mem b s) (hapart : Apart a (s.length + 1) b (s.length + 1))
    {fuel : ℕ} (hfuel : s.length < fuel) (hlen : s.length < 4294967296) :
    strcpyFrom fuel mem a b = some (put mem a (s ++ [0])) := by
  induction s generalizing mem a b fuel with
  | nil =>
      obtain ⟨fuel, rfl⟩ := Nat.exists_eq_succ_of_ne_zero (Nat.pos_iff_ne_zero.mp hfuel)
      have hzero : mem b = 0 := strAt_nil.mp h
      simp [strcpyFrom, hzero, put_cons, put_nil]
  | cons c s ih =>
      obtain ⟨fuel, rfl⟩ := Nat.exists_eq_succ_of_ne_zero (by omega : fuel ≠ 0)
      have hlen' : (s ++ [0]).length < 4294967296 := by
        rw [List.length_append]
        exact hlen
      have hrest : StrAt (Function.update mem a (mem b)) (b + 1) s := by
        refine h.2.2.update _ fun i hi j hj => ?_
        have hne := hapart i (by omega) (j + 1) (Nat.succ_lt_succ hj)
        rwa [add_ofNat_succ b] at hne
      rw [strcpyFrom, if_pos h.head_ne_zero, ih hrest hapart.tail (Nat.lt_of_succ_lt_succ hfuel)
        (Nat.lt_of_succ_lt hlen), List.cons_append, put_cons _ _ _ _ hlen', h.1]

/-- `strcpy` writes the string and its 0, and nothing else. -/
theorem strcpy_eq_put (h : StrAt mem b s) (hapart : Apart a (s.length + 1) b (s.length + 1)) :
    strcpy mem a b = some (put mem a (s ++ [0])) :=
  strcpyFrom_eq h hapart h.length_lt h.length_lt

/-- **`strcat` appends**, and changes nothing outside of what it writes. -/
theorem strcat_appends (hs : StrAt mem a s) (ht : StrAt mem b t)
    (hapart : Apart (a + UInt32.ofNat s.length) (t.length + 1) b (t.length + 1))
    (hlen : s.length + t.length < 4294967296) :
    ∃ mem', strcat mem a b = some mem' ∧ StrAt mem' a (s ++ t) ∧ StrAt mem' b t
      ∧ ∀ p, ¬ Within (a + UInt32.ofNat s.length) (t.length + 1) p → mem' p = mem p := by
  refine ⟨put mem (a + UInt32.ofNat s.length) (t ++ [0]), ?_, ?_, ?_, ?_⟩
  · rw [strcat, strlen_eq hs, Option.bind_eq_bind, Option.bind_some, strcpy_eq_put ht hapart]
  · refine strAt_append (fun i hi => ?_) (StrAt.put mem _ ht.ne_zero ht.length_lt)
    -- the first string is in front of the range
    have hdist : (a + UInt32.ofNat i - (a + UInt32.ofNat s.length)).toNat
        = i + 4294967296 - s.length := by
      have hsub : a + UInt32.ofNat i - (a + UInt32.ofNat s.length)
          = UInt32.ofNat i - UInt32.ofNat s.length := by grind
      have hlt := hs.length_lt
      rw [hsub, UInt32.toNat_sub, UInt32.toNat_ofNat', UInt32.toNat_ofNat']
      omega
    rw [put_of_not_within]
    · exact hs.at_lt hi
    · rw [Within, hdist, List.length_append]
      exact Nat.not_lt.mpr (by rw [List.length_singleton]; omega)
  · refine ht.congr fun j hj => put_of_not_within _ fun hin => ?_
    have hne := hapart _ (by rwa [Within, List.length_append] at hin) j hj
    rw [UInt32.ofNat_toNat] at hne
    exact hne (by grind)
  · intro p hp
    refine put_of_not_within _ ?_
    rwa [List.length_append]

/-- `"abc"` at one address and `"abd"` at another. -/
def twoWords : Mem := fun p =>
  if p = 0x1000 ∨ p = 0x2000 then 97
  else if p = 0x1001 ∨ p = 0x2001 then 98
  else if p = 0x1002 then 99
  else if p = 0x2002 then 100
  else 0

lemma strAt_abc : StrAt twoWords 0x1000 [97, 98, 99] := by
  rw [strAt_cons, strAt_cons, strAt_cons, strAt_nil]
  decide

lemma strAt_abd : StrAt twoWords 0x2000 [97, 98, 100] := by
  rw [strAt_cons, strAt_cons, strAt_cons, strAt_nil]
  decide

theorem strcat_appends_words :
    ∃ mem', strcat twoWords 0x1000 0x2000 = some mem'
      ∧ StrAt mem' 0x1000 [97, 98, 99, 97, 98, 100] ∧ StrAt mem' 0x2000 [97, 98, 100]
      ∧ ∀ p, ¬ Within (0x1000 + UInt32.ofNat 3) 4 p → mem' p = twoWords p :=
  strcat_appends strAt_abc strAt_abd (by unfold Apart; decide) (by decide)

lemma strncpyFrom_eq (h : StrAt mem b s) (n : ℕ) (hn : n ≤ 4294967296)
    (hapart : Apart a n b (s.length + 1)) :
    strncpyFrom n mem a b = put mem a (s.takeD n 0) := by
  induction n generalizing mem a b s with
  | zero => rw [strncpyFrom, List.takeD_zero, put_nil]
  | succ n ih =>
      have hlen : ∀ l : List UInt8, (l.takeD n 0).length < 4294967296 := fun l => by
        rw [List.takeD_length]
        omega
      have hbyte : Apart a 1 b (s.length + 1) := hapart.mono (by omega) (Nat.le_refl _)
      have hstay := h.update (mem b) hbyte
      cases s with
      | nil =>
          have hzero : Function.update mem a (mem b) b = 0 := strAt_nil.mp hstay
          have hrest : Apart (a + 1) n b 1 := fun i hi j hj => by
            rw [← add_ofNat_succ]
            exact hapart (i + 1) (Nat.succ_lt_succ hi) j hj
          simp only [strncpyFrom, hzero, ne_eq, not_true_eq_false, if_false]
          rw [ih hstay (by omega) hrest, List.takeD_succ, put_cons _ _ _ _ (hlen _),
            strAt_nil.mp h]
          rfl
      | cons c s =>
          have hnext : Function.update mem a (mem b) b ≠ 0 := hstay.head_ne_zero
          simp only [strncpyFrom]
          rw [if_pos hnext, ih hstay.2.2 (by omega) hapart.tail, List.takeD_succ,
            put_cons _ _ _ _ (hlen _), h.1]
          rfl

/-- **The range is filled**: the string, cut to `size`, and 0 in what is left. -/
theorem strncpy_eq_put (h : StrAt mem b s) (size : UInt32)
    (hapart : Apart a size.toNat b (s.length + 1)) :
    strncpy mem a b size = put mem a (s.takeD size.toNat 0) :=
  strncpyFrom_eq h _ (Nat.le_of_lt size.toNat_lt) hapart

/-- Cut to two bytes, with no 0 behind them, and filled up to five. -/
theorem strncpy_eq_put_word :
    strncpy twoWords 0x3000 0x1000 2 = put twoWords 0x3000 [97, 98]
      ∧ strncpy twoWords 0x3000 0x1000 5 = put twoWords 0x3000 [97, 98, 99, 0, 0] :=
  ⟨strncpy_eq_put strAt_abc 2 (by unfold Apart; decide),
    strncpy_eq_put strAt_abc 5 (by unfold Apart; decide)⟩

lemma strlcpyFrom_eq (h : StrAt mem b s) (n : ℕ) (hn : n < 4294967296)
    (hapart : Apart a n b (s.length + 1)) :
    strlcpyFrom n mem a b
      = (put mem a (s.take n), a + UInt32.ofNat (min s.length n)) := by
  induction n generalizing mem a b s with
  | zero => simp [strlcpyFrom, put_nil]
  | succ n ih =>
      cases s with
      | nil => simp [strlcpyFrom, strAt_nil.mp h, put_nil]
      | cons c s =>
          have hlen : (s.take n).length < 4294967296 := by
            rw [List.length_take]
            omega
          have hstay := h.update (mem b) (hapart.mono (by omega) (Nat.le_refl _))
          rw [strlcpyFrom, if_pos h.head_ne_zero, ih hstay.2.2 (by omega) hapart.tail,
            List.take_succ_cons, put_cons _ _ _ _ hlen, h.1, List.length_cons,
            Nat.add_min_add_right, add_ofNat_succ]

/-- **The string, cut to what fits in front of a 0**, which is always written; the result is how
much of it was copied. -/
theorem strlcpy_eq (h : StrAt mem b s) {size : UInt32} (hsize : 0 < size)
    (hapart : Apart a size.toNat b (s.length + 1)) :
    strlcpy mem a b size = (put mem a (s.take (size.toNat - 1) ++ [0]),
      UInt32.ofNat (min s.length (size.toNat - 1))) := by
  have hpos : 0 < size.toNat := UInt32.lt_iff_toNat_lt.mp hsize
  have hlt := size.toNat_lt
  have hone : (1 : UInt32).toNat = 1 := rfl
  have hcount : (size - 1).toNat = size.toNat - 1 := by
    rw [UInt32.toNat_sub, hone]
    omega
  have hlen : (s.take (size.toNat - 1)).length = min s.length (size.toNat - 1) := by
    rw [List.length_take, Nat.min_comm]
  have hloop := strlcpyFrom_eq h (size.toNat - 1) (by omega)
    (hapart.mono (Nat.sub_le _ _) (Nat.le_refl _))
  simp only [strlcpy, if_pos hsize, hcount, hloop]
  rw [put_concat _ _ _ _ (by omega), hlen]
  congr 1
  grind

/-- Cut to two bytes and their 0. -/
theorem strlcpy_eq_word :
    strlcpy twoWords 0x3000 0x1000 3 = (put twoWords 0x3000 [97, 98, 0], 2) :=
  strlcpy_eq strAt_abc (by decide) (by unfold Apart; decide)

/-! ## Order

A comparison is about the first place at which the two strings differ, and the 0 at the end makes a
string differ from its own continuations.
-/

lemma strcmpFrom_compares (hs : StrAt mem a s) (ht : StrAt mem b t) {fuel : ℕ}
    (hfuel : s.length < fuel) :
    ∃ r, strcmpFrom mem fuel a b = some r ∧ Compares r s t := by
  induction s generalizing a b t fuel with
  | nil =>
      obtain ⟨fuel, rfl⟩ := Nat.exists_eq_succ_of_ne_zero (Nat.pos_iff_ne_zero.mp hfuel)
      have hzero := strAt_nil.mp hs
      refine ⟨_, by rw [strcmpFrom, if_neg fun h => h.1 hzero], ?_⟩
      rw [hzero]
      cases t with
      | nil =>
          rw [strAt_nil.mp ht]
          exact compares_nil
      | cons d t =>
          rw [ht.1]
          exact compares_nil_cons ht.2.1 t
  | cons c s ih =>
      obtain ⟨fuel, rfl⟩ := Nat.exists_eq_succ_of_ne_zero (by omega : fuel ≠ 0)
      cases t with
      | nil =>
          have hzero := strAt_nil.mp ht
          have hne : mem a ≠ mem b := by
            rw [hzero]
            exact hs.head_ne_zero
          refine ⟨_, by rw [strcmpFrom, if_neg fun h => hne h.2], ?_⟩
          rw [hs.1, hzero]
          exact compares_cons_nil hs.2.1 s
      | cons d t =>
          by_cases hcd : c = d
          · obtain ⟨r, hr, hcmp⟩ := ih hs.2.2 ht.2.2 (Nat.lt_of_succ_lt_succ hfuel)
            have heq : mem a = mem b := by rw [hs.1, ht.1, hcd]
            refine ⟨r, by rw [strcmpFrom, if_pos ⟨hs.head_ne_zero, heq⟩, hr], ?_⟩
            rw [← hcd]
            exact hcmp.cons c
          · have hne : mem a ≠ mem b := by rwa [hs.1, ht.1]
            refine ⟨_, by rw [strcmpFrom, if_neg fun h => hne h.2], ?_⟩
            rw [hs.1, ht.1]
            exact compares_of_ne hcd s t

/-- **The order of the strings** is what the sign of `strcmp` tells, and the call ends. -/
theorem strcmp_compares (hs : StrAt mem a s) (ht : StrAt mem b t) :
    ∃ r, strcmp mem a b = some r ∧ Compares r s t :=
  strcmpFrom_compares hs ht hs.length_lt

/-- The words differ at their third letter. -/
theorem strcmp_compares_words : ∃ r, strcmp twoWords 0x1000 0x2000 = some r ∧ r < 0 := by
  obtain ⟨r, hr, hcompares⟩ := strcmp_compares strAt_abc strAt_abd
  exact ⟨r, hr, hcompares.neg_iff.mpr (by decide)⟩

lemma strncmpFrom_compares (hs : StrAt mem a s) (ht : StrAt mem b t) (n : ℕ) :
    Compares (strncmpFrom mem n a b) (s.take n) (t.take n) := by
  induction n generalizing a b s t with
  | zero => exact compares_nil
  | succ n ih =>
      cases s with
      | nil =>
          have hzero := strAt_nil.mp hs
          rw [strncmpFrom, if_neg fun h => h.1 hzero, hzero]
          cases t with
          | nil =>
              rw [strAt_nil.mp ht]
              exact compares_nil
          | cons d t =>
              rw [ht.1]
              exact compares_nil_cons ht.2.1 _
      | cons c s =>
          cases t with
          | nil =>
              have hzero := strAt_nil.mp ht
              have hne : mem a ≠ mem b := by
                rw [hzero]
                exact hs.head_ne_zero
              rw [strncmpFrom, if_neg fun h => hne h.2, hs.1, hzero]
              exact compares_cons_nil hs.2.1 _
          | cons d t =>
              by_cases hcd : c = d
              · have heq : mem a = mem b := by rw [hs.1, ht.1, hcd]
                rw [strncmpFrom, if_pos ⟨hs.head_ne_zero, heq⟩, ← hcd]
                exact (ih hs.2.2 ht.2.2).cons c
              · have hne : mem a ≠ mem b := by rwa [hs.1, ht.1]
                rw [strncmpFrom, if_neg fun h => hne h.2, hs.1, ht.1]
                exact compares_of_ne hcd _ _

/-- **The order of the beginnings** is what the sign of `strncmp` tells. -/
theorem strncmp_compares (hs : StrAt mem a s) (ht : StrAt mem b t) (n : UInt32) :
    Compares (strncmp mem a b n) (s.take n.toNat) (t.take n.toNat) :=
  strncmpFrom_compares hs ht n.toNat

/-- Two letters of the words are the same, and three are not. -/
theorem strncmp_compares_words :
    strncmp twoWords 0x1000 0x2000 2 = 0 ∧ strncmp twoWords 0x1000 0x2000 3 < 0 :=
  ⟨(strncmp_compares strAt_abc strAt_abd 2).zero_iff.mpr rfl,
    (strncmp_compares strAt_abc strAt_abd 3).neg_iff.mpr (by decide)⟩

/-! ## Looking for a character

The two functions differ in what they return when the character is not there.
-/

lemma strfindFrom_eq (h : StrAt mem a s) (c : UInt8) {fuel : ℕ} (hfuel : s.length < fuel) :
    strfindFrom mem c fuel a = some (a + UInt32.ofNat (s.idxOf c)) := by
  induction s generalizing a fuel with
  | nil =>
      obtain ⟨fuel, rfl⟩ := Nat.exists_eq_succ_of_ne_zero (Nat.pos_iff_ne_zero.mp hfuel)
      simp [strfindFrom, strAt_nil.mp h]
  | cons d s ih =>
      obtain ⟨fuel, rfl⟩ := Nat.exists_eq_succ_of_ne_zero (by omega : fuel ≠ 0)
      rw [strfindFrom, if_pos h.head_ne_zero, h.1, List.idxOf_cons]
      by_cases hd : d = c
      · simp [hd]
      · rw [if_neg hd, ih h.2.2 (Nat.lt_of_succ_lt_succ hfuel), beq_false_of_ne hd, cond_false,
          add_ofNat_succ]

/-- `strfind` finds the first occurrence, or else the end of the string. -/
theorem strfind_eq (h : StrAt mem a s) (c : UInt8) :
    strfind mem a c = some (a + UInt32.ofNat (s.idxOf c)) :=
  strfindFrom_eq h c h.length_lt

lemma strchrFrom_eq (h : StrAt mem a s) (c : UInt8) {fuel : ℕ} (hfuel : s.length < fuel) :
    strchrFrom mem c fuel a = if c ∈ s then some (a + UInt32.ofNat (s.idxOf c)) else some 0 := by
  induction s generalizing a fuel with
  | nil =>
      obtain ⟨fuel, rfl⟩ := Nat.exists_eq_succ_of_ne_zero (Nat.pos_iff_ne_zero.mp hfuel)
      simp [strchrFrom, strAt_nil.mp h]
  | cons d s ih =>
      obtain ⟨fuel, rfl⟩ := Nat.exists_eq_succ_of_ne_zero (by omega : fuel ≠ 0)
      rw [strchrFrom, if_pos h.head_ne_zero, h.1, List.idxOf_cons]
      by_cases hd : d = c
      · simp [hd]
      · have hmem : c ∈ d :: s ↔ c ∈ s := by simp [Ne.symm hd]
        rw [if_neg hd, ih h.2.2 (Nat.lt_of_succ_lt_succ hfuel), beq_false_of_ne hd, cond_false,
          add_ofNat_succ]
        simp only [hmem]

/-- `strchr` finds the first occurrence, or else it returns the null pointer. -/
theorem strchr_eq (h : StrAt mem a s) (c : UInt8) :
    strchr mem a c = if c ∈ s then some (a + UInt32.ofNat (s.idxOf c)) else some 0 :=
  strchrFrom_eq h c h.length_lt

end ScratchOs.Lib
