import ScratchOs.Core.StringOps
import ScratchOs.Core.CStrings

/-!
# Blocks of memory

`memset`, `memmove`, `memcpy`, `memcmp` and `memfind` of `lib/string.c`, with the assembly that
`ASM` stands for and without it.  Pointers are compared, and moved, as 32-bit numbers.  The first
three return the pointer they get, which is left out.

* **`memmove_moves`** — whatever the overlap and the alignment, the destination gets the bytes that
  the source had; `memmove_eq_span` and `memcpy_eq_span` say it of the whole memory.
* **`memset_eq_copy`** — the whole words and the single bytes fill the same range.
* **`memmovePlain_eq`** — without the assembly `memmove` is the same function;
  **`memsetPlain_agrees`** — `memset` is, up to the largest `int`.
* **`memcmp_compares`** — `memcmp` is the lexicographic order of the two ranges.
* **`memfind_eq`** — the first occurrence, or the end of the range.

**Why it is not evident.**  `memmove` decides by comparing the pointers in which direction it moves,
and by their alignment whether it moves bytes or words.  A word of the source is read as a whole
before it is written, which is harmless only as long as the ranges are not closer than a word.  The
string instructions themselves are in `Core/X86`, with what they do to memory.

**What is assumed** is that the ranges end inside of the address space, where a result is about the
bytes of a range; the comparison of the two versions does without.
-/

namespace ScratchOs.Lib

open Memory Bytes

/-! ## The functions

The functions as they are compiled with `ASM`.  A loop that must end for any arguments counts down,
and one that runs up to a pointer has as many rounds as there are addresses.
-/

/-- `memset`; the two branches are `rep stosl` and `rep stosb`, by whether the range is made of
whole words. -/
def memset (mem : Mem) (v c n : UInt32) : Mem :=
  if n = 0 then mem
  else if v % 4 = 0 ∧ n % 4 = 0 then
    let c := c &&& 0xff
    let c := (c <<< 24) ||| (c <<< 16) ||| (c <<< 8) ||| c
    stosUp (write (fill 4 0) 0 (le32 c)) (n / 4).toNat mem v
  else stosUp (fill 1 c.toUInt8) n.toNat mem v

/-- `memmove`; the four branches are `rep movsl` and `rep movsb`, upwards and downwards. -/
def memmove (mem : Mem) (dst src n : UInt32) : Mem :=
  let s := src
  let d := dst
  if s < d ∧ d < s + n then
    let s := s + n
    let d := d + n
    if s % 4 = 0 ∧ d % 4 = 0 ∧ n % 4 = 0 then movsDown 4 (n / 4).toNat mem (d - 4) (s - 4)
    else movsDown 1 n.toNat mem (d - 1) (s - 1)
  else
    if s % 4 = 0 ∧ d % 4 = 0 ∧ n % 4 = 0 then movsUp 4 (n / 4).toNat mem d s
    else movsUp 1 n.toNat mem d s

/-- The loop of `memcmp`, with `n` rounds left. -/
def memcmpFrom (mem : Mem) : ℕ → UInt32 → UInt32 → ℤ
  | 0, _, _ => 0
  | n + 1, s1, s2 =>
      if mem s1 ≠ mem s2 then (mem s1).toNat - (mem s2).toNat
      else memcmpFrom mem n (s1 + 1) (s2 + 1)

/-- `memcmp`, whose result is the difference of the first bytes that differ. -/
def memcmp (mem : Mem) (v1 v2 n : UInt32) : ℤ := memcmpFrom mem n.toNat v1 v2

/-- The loop of `memfind`.  The pointer meets `ends` at the latest after as many rounds as there
are addresses, which is what `fuel` counts. -/
def memfindFrom (mem : Mem) (c : UInt8) (ends : UInt32) : ℕ → UInt32 → UInt32
  | 0, s => s
  | fuel + 1, s =>
      if s < ends then
        if mem s = c then s else memfindFrom mem c ends fuel (s + 1)
      else s

/-- `memfind`, which returns the end of the range if the byte is not there. -/
def memfind (mem : Mem) (s c n : UInt32) : UInt32 :=
  memfindFrom mem c.toUInt8 (s + n) 4294967296 s

/-! ## Filling

A range of whole words is filled with words that have the byte four times.  The two ways give the
same range, wherever it begins.
-/

/-- A count of words is a quarter of the count of bytes. -/
lemma toNat_quarter {n : UInt32} (h : n % 4 = 0) : (n / 4).toNat * 4 = n.toNat := by
  have hmod := congrArg UInt32.toNat h
  rw [UInt32.toNat_mod] at hmod
  rw [UInt32.toNat_div]
  change n.toNat % 4 = 0 at hmod
  show n.toNat / 4 * 4 = n.toNat
  omega

/-- The byte four times over, as `memset` makes it. -/
lemma le32_splat (c : UInt8) :
    le32 ((c.toUInt32 <<< 24) ||| (c.toUInt32 <<< 16) ||| (c.toUInt32 <<< 8) ||| c.toUInt32)
      = [c, c, c, c] := by
  have hall : ∀ k : Fin 256, le32 (((UInt8.ofNat k).toUInt32 <<< 24)
      ||| ((UInt8.ofNat k).toUInt32 <<< 16) ||| ((UInt8.ofNat k).toUInt32 <<< 8)
      ||| (UInt8.ofNat k).toUInt32)
        = [UInt8.ofNat k, UInt8.ofNat k, UInt8.ofNat k, UInt8.ofNat k] := by
    decide +kernel
  have hc : UInt8.ofNat c.toNat = c := UInt8.ofNat_toNat
  have h := hall ⟨c.toNat, c.toNat_lt⟩
  rwa [hc] at h

/-- The low byte of an `int`, as a word. -/
lemma and_ff (c : UInt32) : c &&& 0xff = c.toUInt8.toUInt32 := by
  rw [← UInt32.toNat_inj, UInt32.toNat_and, UInt8.toNat_toUInt32, UInt32.toNat_toUInt8]
  exact Nat.and_two_pow_sub_one_eq_mod c.toNat 8

/-- **The range is filled** with the low byte of `c`, whichever way is taken. -/
theorem memset_eq_copy (mem : Mem) (v c n : UInt32) :
    memset mem v c n = copy mem v (fill n.toNat c.toUInt8) := by
  rw [memset]
  by_cases hn : n = 0
  · rw [if_pos hn, hn]
    funext a
    exact (copy_of_not_within _ _ (Nat.not_lt_zero _)).symm
  · have hlt := n.toNat_lt
    rw [if_neg hn]
    by_cases hwords : v % 4 = 0 ∧ n % 4 = 0
    · have hcount := toNat_quarter hwords.2
      have hword : write (fill 4 0) 0 [c.toUInt8, c.toUInt8, c.toUInt8, c.toUInt8]
          = fill 4 c.toUInt8 := by
        funext i
        match i with
        | 0 => rfl
        | 1 => rfl
        | 2 => rfl
        | 3 => rfl
      rw [if_pos hwords]
      simp only [and_ff, le32_splat, hword]
      rw [stos_fill _ (by omega) (by omega), hcount]
    · rw [if_neg hwords, stos_fill _ (by omega) (by omega), Nat.mul_one]

/-! ## Moving

The two directions of `rep movs` are described in `Core/X86`: an upward move is right when the
destination is not inside of the source, and a downward one when the source is not inside of the
destination.  One of the two is always the case.
-/

/-- **Every byte of the source arrives**, as it was before, when both ranges end inside of the
address space. -/
theorem memmove_eq_span (mem : Mem) {dst src n : UInt32}
    (hsrc : src.toNat + n.toNat ≤ 4294967296) (hdst : dst.toNat + n.toNat ≤ 4294967296) :
    memmove mem dst src n = span mem dst src n.toNat := by
  have hn := n.toNat_lt
  have hs := src.toNat_lt
  have hd := dst.toNat_lt
  have hofNat : UInt32.ofNat n.toNat = n := UInt32.ofNat_toNat
  rw [memmove]
  by_cases hinside : src < dst ∧ dst < src + n
  · -- backwards: the source does not begin inside of the destination
    rw [if_pos hinside]
    have hlt : src.toNat < dst.toNat := UInt32.lt_iff_toNat_lt.mp hinside.1
    have hapart : (src - dst).toNat = 0 ∨ n.toNat ≤ (src - dst).toNat := by
      rw [UInt32.toNat_sub]
      omega
    have hdown : ∀ k m : ℕ, k < 4294967296 → m * k = n.toNat →
        movsDown k m mem (dst + n - UInt32.ofNat k) (src + n - UInt32.ofNat k)
          = span mem dst src n.toNat := by
      intro k m hk hm
      have h := movs_down (n := m) hk (by omega) mem dst src (by rwa [hm])
      rwa [hm, hofNat] at h
    by_cases hwords : (src + n) % 4 = 0 ∧ (dst + n) % 4 = 0 ∧ n % 4 = 0
    · rw [if_pos hwords]
      exact hdown 4 _ (by omega) (toNat_quarter hwords.2.2)
    · rw [if_neg hwords]
      exact hdown 1 _ (by omega) (Nat.mul_one _)
  · -- forwards: the destination does not begin inside of the source
    rw [if_neg hinside]
    have hapart : (dst - src).toNat = 0 ∨ n.toNat ≤ (dst - src).toNat := by
      rw [UInt32.lt_iff_toNat_lt, UInt32.lt_iff_toNat_lt, UInt32.toNat_add] at hinside
      rw [UInt32.toNat_sub]
      omega
    have hup : ∀ k m : ℕ, k < 4294967296 → m * k = n.toNat →
        movsUp k m mem dst src = span mem dst src n.toNat := by
      intro k m hk hm
      have h := movs_up (n := m) hk (by omega) mem dst src (by rwa [hm])
      rwa [hm] at h
    by_cases hwords : src % 4 = 0 ∧ dst % 4 = 0 ∧ n % 4 = 0
    · rw [if_pos hwords]
      exact hup 4 _ (by omega) (toNat_quarter hwords.2.2)
    · rw [if_neg hwords]
      exact hup 1 _ (by omega) (Nat.mul_one _)

/-- **Byte by byte**: in the destination are the bytes that were in the source before the call, and
no other byte changes, whatever the overlap and the alignment. -/
theorem memmove_moves (mem : Mem) {dst src n : UInt32}
    (hsrc : src.toNat + n.toNat ≤ 4294967296) (hdst : dst.toNat + n.toNat ≤ 4294967296)
    (a : UInt32) :
    memmove mem dst src n a = if Within dst n.toNat a then mem (src + (a - dst)) else mem a := by
  rw [memmove_eq_span mem hsrc hdst, span_apply]
  rfl

/-- Words that are moved up by one of them, from the last to the first. -/
theorem memmove_moves_overlap :
    memmove (fun a => a.toUInt8) 0x1004 0x1000 8 0x1007
      = if Within 0x1004 8 0x1007 then (0x1000 + (0x1007 - 0x1004) : UInt32).toUInt8
        else (0x1007 : UInt32).toUInt8 :=
  memmove_moves (fun a => a.toUInt8) (by decide) (by decide) 0x1007

/-- The loop `while (n-- > 0) *d++ = *s++`. -/
def moveUp : ℕ → Mem → UInt32 → UInt32 → Mem
  | 0, mem, _, _ => mem
  | n + 1, mem, d, s => moveUp n (Function.update mem d (mem s)) (d + 1) (s + 1)

/-- The loop `while (n-- > 0) *--d = *--s`. -/
def moveDown : ℕ → Mem → UInt32 → UInt32 → Mem
  | 0, mem, _, _ => mem
  | n + 1, mem, d, s => moveDown n (Function.update mem (d - 1) (mem (s - 1))) (d - 1) (s - 1)

/-- `memmove` without `ASM`. -/
def memmovePlain (mem : Mem) (dst src n : UInt32) : Mem :=
  let s := src
  let d := dst
  if s < d ∧ d < s + n then
    let s := s + n
    let d := d + n
    moveDown n.toNat mem d s
  else moveUp n.toNat mem d s

/-- The loop `while (--m >= 0) *p++ = c`; `--m` is undefined for the least `int`. -/
def memsetFrom (c : UInt8) (m : ℤ) (mem : Mem) (p : UInt32) : Option Mem :=
  if m - 1 < -2147483648 then none
  else if 0 ≤ m - 1 then memsetFrom c (m - 1) (Function.update mem p c) (p + 1)
  else some mem
termination_by m.toNat

/-- `memset` without `ASM`, which counts with an `int`. -/
def memsetPlain (mem : Mem) (v c n : UInt32) : Option Mem :=
  memsetFrom c.toUInt8 n.toBitVec.toInt mem v

/-- A single byte, as a copy of a buffer of one. -/
lemma copy_one (mem : Mem) (p : UInt32) (b : Buffer 1) :
    copy mem p b = Function.update mem p (b 0) := by
  funext a
  by_cases ha : a = p
  · subst ha
    have hin : Within a 1 a := by
      rw [Within, UInt32.sub_self]
      exact Nat.one_pos
    have hfirst : byteAt b 0 = b 0 := byteAt_of_lt b Nat.one_pos
    rw [copy_of_within _ _ hin, UInt32.sub_self, Function.update_self]
    exact hfirst
  · have hout : ¬ Within p 1 a := by
      intro hlt
      have hzero : a - p = 0 := by
        rw [← UInt32.toNat_inj]
        exact Nat.lt_one_iff.mp hlt
      exact ha (by grind)
    rw [copy_of_not_within _ _ hout, Function.update_of_ne ha]

lemma span_one (mem : Mem) (d s : UInt32) : span mem d s 1 = Function.update mem d (mem s) := by
  have hfirst : window mem s 1 0 = mem s := congrArg mem (UInt32.add_zero s)
  rw [span, copy_one, hfirst]

lemma moveUp_eq (n : ℕ) (mem : Mem) (d s : UInt32) : moveUp n mem d s = movsUp 1 n mem d s := by
  induction n generalizing mem d s with
  | zero => rfl
  | succ n ih => rw [moveUp, ih, movsUp, span_one]; rfl

lemma moveDown_eq (n : ℕ) (mem : Mem) (d s : UInt32) :
    moveDown n mem d s = movsDown 1 n mem (d - 1) (s - 1) := by
  induction n generalizing mem d s with
  | zero => rfl
  | succ n ih => rw [moveDown, ih, movsDown, span_one]; rfl

/-- Two aligned addresses are not closer than a word, unless they are the same. -/
lemma far_of_aligned {d s : UInt32} (hd : d % 4 = 0) (hs : s % 4 = 0) :
    (d - s).toNat = 0 ∨ 4 ≤ (d - s).toNat := by
  have hd' := congrArg UInt32.toNat hd
  have hs' := congrArg UInt32.toNat hs
  rw [UInt32.toNat_mod] at hd' hs'
  change d.toNat % 4 = 0 at hd'
  change s.toNat % 4 = 0 at hs'
  have hlt := s.toNat_lt
  rw [UInt32.toNat_sub]
  omega

/-- **With and without assembly** `memmove` does the same, also where a range goes around the end of
the address space. -/
theorem memmovePlain_eq (mem : Mem) (dst src n : UInt32) :
    memmovePlain mem dst src n = memmove mem dst src n := by
  rw [memmovePlain, memmove]
  simp only [moveUp_eq, moveDown_eq]
  by_cases hinside : src < dst ∧ dst < src + n
  · rw [if_pos hinside, if_pos hinside]
    by_cases hwords : (src + n) % 4 = 0 ∧ (dst + n) % 4 = 0 ∧ n % 4 = 0
    · have hdist : src + n - 4 - (dst + n - 4) = src + n - (dst + n) := by grind
      have hback : ∀ p : UInt32, p - 4 + UInt32.ofNat 4 - 1 = p - 1 := by
        intro p
        show p - 4 + 4 - 1 = p - 1
        grind
      have hbytes := movsDown_bytes mem (dst + n - 4) (src + n - 4) (by decide : 4 < 4294967296)
        (n / 4).toNat (by rw [hdist]; exact far_of_aligned hwords.1 hwords.2.1)
      rw [if_pos hwords, ← hbytes, toNat_quarter hwords.2.2, hback, hback]
    · rw [if_neg hwords]
  · rw [if_neg hinside, if_neg hinside]
    by_cases hwords : src % 4 = 0 ∧ dst % 4 = 0 ∧ n % 4 = 0
    · have hbytes := movsUp_bytes mem dst src (by decide : 4 < 4294967296) (n / 4).toNat
        (far_of_aligned hwords.2.1 hwords.1)
      rw [if_pos hwords, ← hbytes, toNat_quarter hwords.2.2]
    · rw [if_neg hwords]

/-- The loop with a count that is not negative fills the range and ends. -/
lemma memsetFrom_eq (c : UInt8) {m : ℕ} (hm : m < 2147483648) (mem : Mem) (p : UInt32) :
    memsetFrom c m mem p = some (copy mem p (fill m c)) := by
  have hbytes := stos_fill c (k := 1) (n := m) (by decide) (by omega) mem p
  rw [Nat.mul_one] at hbytes
  rw [← hbytes]
  clear hbytes
  induction m generalizing mem p with
  | zero => rw [memsetFrom, if_neg (by decide), if_neg (by decide), stosUp]
  | succ m ih =>
      have hless : ((m + 1 : ℕ) : ℤ) - 1 = m := by omega
      rw [memsetFrom, if_neg (by omega), if_pos (by omega), hless, ih (by omega), stosUp, copy_one]
      rfl

/-- **`memset` without assembly** agrees with the other one exactly if its count is an `int`. -/
theorem memsetPlain_agrees (v c n : UInt32) :
    (∀ mem, memsetPlain mem v c n = some (memset mem v c n)) ↔ n.toNat < 2147483648 := by
  have hlt := n.toNat_lt
  have hcount : n.toBitVec.toInt
      = if n.toNat < 2147483648 then (n.toNat : ℤ) else n.toNat - 4294967296 := by
    rw [BitVec.toInt_eq_toNat_cond, UInt32.toNat_toBitVec]
    split <;> split <;> omega
  constructor
  · intro hall
    by_contra hlarge
    have hneg : n.toBitVec.toInt = (n.toNat : ℤ) - 4294967296 := by rw [hcount, if_neg hlarge]
    -- nothing is stored, if the first `--m` is defined
    have hkeep := hall fun _ => c.toUInt8 + 1
    rw [memsetPlain, hneg, memsetFrom, memset_eq_copy] at hkeep
    split at hkeep
    · cases hkeep
    · rw [if_neg (by omega)] at hkeep
      have hin : Within v n.toNat v := by
        rw [Within, UInt32.sub_self]
        show 0 < n.toNat
        omega
      have hbyte := congrFun (Option.some.inj hkeep) v
      rw [copy_of_within _ _ hin, byteAt_fill _ hin] at hbyte
      exact absurd hbyte (by grind)
  · intro hsmall mem
    rw [memsetPlain, hcount, if_pos hsmall, memsetFrom_eq _ hsmall, memset_eq_copy]

/-! ## Looking

The two functions that only read, as functions of the lists of bytes in their ranges.
-/

lemma memcmpFrom_compares (mem : Mem) (n : ℕ) (s1 s2 : UInt32) :
    Compares (memcmpFrom mem n s1 s2) (bytesAt mem s1 n) (bytesAt mem s2 n) := by
  induction n generalizing s1 s2 with
  | zero => exact compares_nil
  | succ n ih =>
      simp only [memcmpFrom, bytesAt]
      by_cases hne : mem s1 = mem s2
      · rw [if_neg (not_not_intro hne), hne]
        exact (ih (s1 + 1) (s2 + 1)).cons _
      · rw [if_pos hne]
        exact compares_of_ne hne _ _

/-- **The order of the bytes**, lexicographically and as unsigned numbers. -/
theorem memcmp_compares (mem : Mem) (v1 v2 n : UInt32) :
    Compares (memcmp mem v1 v2 n) (bytesAt mem v1 n.toNat) (bytesAt mem v2 n.toNat) :=
  memcmpFrom_compares mem n.toNat v1 v2

/-- The rounds of `memfind`, when as many bytes are left. -/
lemma memfindFrom_eq (mem : Mem) (c : UInt8) {n fuel : ℕ} (hfuel : n < fuel) {s : UInt32}
    (hend : s.toNat + n < 4294967296) :
    memfindFrom mem c (s + UInt32.ofNat n) fuel s
      = s + UInt32.ofNat ((bytesAt mem s n).idxOf c) := by
  induction n generalizing s fuel with
  | zero =>
      obtain ⟨fuel, rfl⟩ := Nat.exists_eq_succ_of_ne_zero (Nat.pos_iff_ne_zero.mp hfuel)
      simp [memfindFrom, bytesAt]
  | succ n ih =>
      obtain ⟨fuel, rfl⟩ := Nat.exists_eq_succ_of_ne_zero (by omega : fuel ≠ 0)
      have hval : (s + UInt32.ofNat (n + 1)).toNat = s.toNat + (n + 1) := by
        rw [UInt32.toNat_add, UInt32.toNat_ofNat']
        omega
      have hlt : s < s + UInt32.ofNat (n + 1) := by
        rw [UInt32.lt_iff_toNat_lt, hval]
        omega
      have hnext : (s + 1).toNat = s.toNat + 1 := by
        rw [UInt32.toNat_add]
        show (s.toNat + 1) % 4294967296 = _
        omega
      rw [memfindFrom, if_pos hlt, bytesAt, List.idxOf_cons]
      by_cases hc : mem s = c
      · simp [hc]
      · have hbeq : (mem s == c) = false := beq_false_of_ne hc
        rw [if_neg hc, hbeq, add_ofNat_succ, ih (by omega) (by omega), cond_false,
          ← add_ofNat_succ]

/-- **The first occurrence**, or the end of the range. -/
theorem memfind_eq (mem : Mem) (c : UInt32) {s n : UInt32}
    (hend : s.toNat + n.toNat < 4294967296) :
    memfind mem s c n = s + UInt32.ofNat ((bytesAt mem s n.toNat).idxOf c.toUInt8) := by
  have h := memfindFrom_eq mem c.toUInt8 n.toNat_lt hend
  rwa [UInt32.ofNat_toNat] at h

end ScratchOs.Lib
