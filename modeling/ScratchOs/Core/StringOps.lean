import ScratchOs.Core.Memory

/-!
# The string instructions of the x86

`rep movs` and `rep stos` on memory, element by element, in the direction of the flag DF. Every
element is loaded before it is stored, and the next one is loaded after that: what a move does when
its ranges overlap is decided by this order, and it is the reason why `memmove` has to choose a
direction.

* `span` — what a move is for: every byte of the destination is the byte that was at the same place
  of the source before.
* **`movs_up`**, **`movs_down`** — when the elements together are a `span`: the destination must not
  begin behind the beginning of the source and inside of it, or end before its end and inside.
* **`movsUp_bytes`**, **`movsDown_bytes`** — moving elements is moving their bytes, one by one,
  unless the ranges are so close that an element overlaps with the one it is moved to.
* **`stos_fill`** — storing the same byte over and over.
* `load` — the bytes of a device in memory; `load_load` — one stretch of them after the other.

All of this holds around the end of the address space too, because distances between addresses are
taken modulo `2 ^ 32`.
-/

namespace Memory

open Bytes

/-- The memory after the bytes of a range have been moved to another, all at once. -/
def span (mem : Mem) (dst src : UInt32) (n : ℕ) : Mem := copy mem dst (window mem src n)

lemma span_apply (mem : Mem) (dst src : UInt32) (n : ℕ) (a : UInt32) :
    span mem dst src n a = if (a - dst).toNat < n then mem (src + (a - dst)) else mem a := by
  by_cases h : (a - dst).toNat < n
  · rw [if_pos h, span, copy_of_within _ _ h, byteAt_of_lt _ h, window, UInt32.ofNat_toNat]
  · rw [if_neg h, span, copy_of_not_within _ _ h]

/-- `cld; rep movs` with elements of `k` bytes: both pointers go up. -/
def movsUp (k : ℕ) : ℕ → Mem → UInt32 → UInt32 → Mem
  | 0, mem, _, _ => mem
  | n + 1, mem, edi, esi =>
      movsUp k n (span mem edi esi k) (edi + UInt32.ofNat k) (esi + UInt32.ofNat k)

/-- `std; rep movs`: both pointers go down. -/
def movsDown (k : ℕ) : ℕ → Mem → UInt32 → UInt32 → Mem
  | 0, mem, _, _ => mem
  | n + 1, mem, edi, esi =>
      movsDown k n (span mem edi esi k) (edi - UInt32.ofNat k) (esi - UInt32.ofNat k)

/-- `cld; rep stos` with an element of `k` bytes. -/
def stosUp {k : ℕ} (element : Buffer k) : ℕ → Mem → UInt32 → Mem
  | 0, mem, _ => mem
  | n + 1, mem, edi => stosUp element n (copy mem edi element) (edi + UInt32.ofNat k)

section Distance

variable {a b : UInt32} {k : ℕ}

/-- How far an address is from a pointer that has gone up by `k`. -/
lemma toNat_sub_up (hk : k < 4294967296) : (a - (b + UInt32.ofNat k)).toNat
    = if k ≤ (a - b).toNat then (a - b).toNat - k else (a - b).toNat + 4294967296 - k := by
  have hval : (UInt32.ofNat k).toNat = k := by rw [UInt32.toNat_ofNat', Nat.mod_eq_of_lt hk]
  have hlt := (a - b).toNat_lt
  have hsub : a - (b + UInt32.ofNat k) = a - b - UInt32.ofNat k := by grind
  rw [hsub, UInt32.toNat_sub, hval]
  split <;> omega

/-- How far an address of the source is from the destination, in terms of the two distances. -/
lemma toNat_sub_sub (d s : UInt32) : (s + (a - d) - d).toNat
    = ((a - d).toNat + 4294967296 - (d - s).toNat) % 4294967296 := by
  have hlt := (d - s).toNat_lt
  have hsub : s + (a - d) - d = a - d - (d - s) := by grind
  rw [hsub, UInt32.toNat_sub]
  omega

end Distance

/-! ## Moving

In both theorems the condition is on the distance from one pointer to the other, in the direction in
which the pointers go.
-/

/-- **Upwards**, the whole range is moved if the destination does not begin inside of the source. -/
theorem movs_up {k n : ℕ} (hk : k < 4294967296) (hn : n * k ≤ 4294967296) (mem : Mem)
    (dst src : UInt32) (hapart : (dst - src).toNat = 0 ∨ n * k ≤ (dst - src).toNat) :
    movsUp k n mem dst src = span mem dst src (n * k) := by
  induction n generalizing mem dst src with
  | zero =>
      funext a
      rw [movsUp, span_apply, if_neg (by omega)]
  | succ n ih =>
      rw [Nat.succ_mul] at hn hapart ⊢
      have hdist : dst + UInt32.ofNat k - (src + UInt32.ofNat k) = dst - src := by grind
      rw [movsUp, ih (by omega) _ _ _ (by rw [hdist]; omega)]
      funext a
      have hnext : src + UInt32.ofNat k + (a - (dst + UInt32.ofNat k)) = src + (a - dst) := by grind
      have hlt := (dst - src).toNat_lt
      simp only [span_apply, hnext, toNat_sub_up hk, toNat_sub_sub]
      -- a byte of the first element, of a later one, or outside
      by_cases hfirst : (a - dst).toNat < k
      · rw [if_neg (by split <;> omega), if_pos hfirst, if_pos (by omega)]
      · rw [if_pos (Nat.le_of_not_lt hfirst)]
        by_cases hlater : (a - dst).toNat - k < n * k
        · rw [if_pos hlater, if_neg (by omega), if_pos (by omega)]
        · rw [if_neg hlater, if_neg hfirst, if_neg (by omega)]

/-- **Downwards**, the whole range is moved if the source does not begin inside of the
destination.  The pointers start at the last element. -/
theorem movs_down {k n : ℕ} (hk : k < 4294967296) (hn : n * k ≤ 4294967296) (mem : Mem)
    (dst src : UInt32) (hapart : (src - dst).toNat = 0 ∨ n * k ≤ (src - dst).toNat) :
    movsDown k n mem (dst + UInt32.ofNat (n * k) - UInt32.ofNat k)
        (src + UInt32.ofNat (n * k) - UInt32.ofNat k) = span mem dst src (n * k) := by
  induction n generalizing mem with
  | zero =>
      funext a
      rw [movsDown, span_apply, if_neg (by omega)]
  | succ n ih =>
      rw [Nat.succ_mul] at hn hapart ⊢
      have hlast : ∀ p : UInt32, p + UInt32.ofNat (n * k + k) - UInt32.ofNat k
          = p + UInt32.ofNat (n * k) := fun p => by rw [UInt32.ofNat_add]; grind
      rw [movsDown, hlast, hlast, ih (by omega) _ (by omega)]
      funext a
      have hlt := (src - dst).toNat_lt
      have hsize : n * k < 4294967296 := by
        rcases Nat.eq_zero_or_pos k with rfl | hpos
        · rw [Nat.mul_zero]
          omega
        · omega
      have hfrom : src + UInt32.ofNat (n * k) + (a - (dst + UInt32.ofNat (n * k)))
          = src + (a - dst) := by grind
      have hback : (src + (a - dst) - (dst + UInt32.ofNat (n * k))).toNat
          = ((a - dst).toNat + (src - dst).toNat + (4294967296 - n * k)) % 4294967296 := by
        have hval : (UInt32.ofNat (n * k)).toNat = n * k := by
          rw [UInt32.toNat_ofNat', Nat.mod_eq_of_lt hsize]
        have hsub : src + (a - dst) - (dst + UInt32.ofNat (n * k))
            = a - dst + (src - dst) - UInt32.ofNat (n * k) := by grind
        rw [hsub, UInt32.toNat_sub, UInt32.toNat_add, hval]
        omega
      simp only [span_apply, hfrom, hback, toNat_sub_up hsize]
      have hlt' := (a - dst).toNat_lt
      -- a byte of an element before the last, of the last, or outside
      by_cases hbefore : (a - dst).toNat < n * k
      · rw [if_pos hbefore, if_neg (by omega), if_pos (by omega)]
      · rw [if_neg hbefore, if_pos (Nat.le_of_not_lt hbefore)]
        by_cases hlast : (a - dst).toNat - n * k < k
        · rw [if_pos hlast, if_pos (by omega)]
        · rw [if_neg hlast, if_neg (by omega)]

/-! ## Element by element

`memmove` moves words where it can and bytes where it cannot.  That the two agree is not obvious
where the ranges overlap, since a word that is loaded early may be stored over.
-/

section Bytes

variable (mem : Mem) (edi esi : UInt32)

lemma movsUp_add (k m n : ℕ) : movsUp k (m + n) mem edi esi
    = movsUp k n (movsUp k m mem edi esi) (edi + UInt32.ofNat (m * k))
        (esi + UInt32.ofNat (m * k)) := by
  induction m generalizing mem edi esi with
  | zero =>
      have hzero : UInt32.ofNat (0 * k) = 0 := by rw [Nat.zero_mul]; rfl
      rw [Nat.zero_add, hzero, UInt32.add_zero, UInt32.add_zero]
      rfl
  | succ m ih =>
      have hnext : ∀ p : UInt32, p + UInt32.ofNat k + UInt32.ofNat (m * k)
          = p + UInt32.ofNat ((m + 1) * k) := by
        intro p
        rw [Nat.succ_mul, UInt32.ofNat_add]
        grind
      rw [Nat.succ_add, movsUp, ih, hnext, hnext]
      rfl

lemma movsDown_add (k m n : ℕ) : movsDown k (m + n) mem edi esi
    = movsDown k n (movsDown k m mem edi esi) (edi - UInt32.ofNat (m * k))
        (esi - UInt32.ofNat (m * k)) := by
  induction m generalizing mem edi esi with
  | zero =>
      have hzero : UInt32.ofNat (0 * k) = 0 := by rw [Nat.zero_mul]; rfl
      rw [Nat.zero_add, hzero, UInt32.sub_zero, UInt32.sub_zero]
      rfl
  | succ m ih =>
      have hnext : ∀ p : UInt32, p - UInt32.ofNat k - UInt32.ofNat (m * k)
          = p - UInt32.ofNat ((m + 1) * k) := by
        intro p
        rw [Nat.succ_mul, UInt32.ofNat_add]
        grind
      rw [Nat.succ_add, movsDown, ih, hnext, hnext]
      rfl

variable {k : ℕ} (hk : k < 4294967296)
include hk

/-- **Upwards, elements are moved as their bytes are**, if they are not closer than an element is
long. -/
theorem movsUp_bytes (n : ℕ) (hfar : (edi - esi).toNat = 0 ∨ k ≤ (edi - esi).toNat) :
    movsUp 1 (n * k) mem edi esi = movsUp k n mem edi esi := by
  induction n generalizing mem edi esi with
  | zero =>
      rw [Nat.zero_mul]
      rfl
  | succ n ih =>
      have helement : movsUp 1 k mem edi esi = span mem edi esi k := by
        have h := movs_up (n := k) (by decide : 1 < 4294967296) (by omega) mem edi esi (by omega)
        rwa [Nat.mul_one] at h
      have hdist : edi + UInt32.ofNat k - (esi + UInt32.ofNat k) = edi - esi := by grind
      rw [Nat.succ_mul, Nat.add_comm, movsUp_add, helement, Nat.mul_one,
        ih _ _ _ (by rwa [hdist]), movsUp]

/-- **Downwards** as well, from the last byte on. -/
theorem movsDown_bytes (n : ℕ) (hfar : (esi - edi).toNat = 0 ∨ k ≤ (esi - edi).toNat) :
    movsDown 1 (n * k) mem (edi + UInt32.ofNat k - 1) (esi + UInt32.ofNat k - 1)
      = movsDown k n mem edi esi := by
  induction n generalizing mem edi esi with
  | zero =>
      rw [Nat.zero_mul]
      rfl
  | succ n ih =>
      have helement : movsDown 1 k mem (edi + UInt32.ofNat k - 1) (esi + UInt32.ofNat k - 1)
          = span mem edi esi k := by
        have h := movs_down (n := k) (by decide : 1 < 4294967296) (by omega) mem edi esi (by omega)
        rwa [Nat.mul_one] at h
      have hdist : esi - UInt32.ofNat k - (edi - UInt32.ofNat k) = esi - edi := by grind
      have hnext : ∀ p : UInt32, p + UInt32.ofNat k - 1 - UInt32.ofNat k
          = p - UInt32.ofNat k + UInt32.ofNat k - 1 := by
        intro p
        grind
      rw [Nat.succ_mul, Nat.add_comm, movsDown_add, helement, Nat.mul_one, hnext, hnext,
        ih _ _ _ (by rwa [hdist]), movsDown]

end Bytes

/-! ## Storing -/

/-- **The same byte, over and over**, fills the range. -/
theorem stos_fill (x : UInt8) {k n : ℕ} (hk : k < 4294967296) (hn : n * k ≤ 4294967296) (mem : Mem)
    (dst : UInt32) : stosUp (fill k x) n mem dst = copy mem dst (fill (n * k) x) := by
  have happly : ∀ (m : ℕ) (mem : Mem) (p a : UInt32), copy mem p (fill m x) a
      = if (a - p).toNat < m then x else mem a := by
    intro m mem p a
    by_cases h : (a - p).toNat < m
    · rw [if_pos h, copy_of_within _ _ h, byteAt_fill x h]
    · rw [if_neg h, copy_of_not_within _ _ h]
  induction n generalizing mem dst with
  | zero =>
      funext a
      rw [stosUp, happly, if_neg (by omega)]
  | succ n ih =>
      rw [Nat.succ_mul] at hn ⊢
      rw [stosUp, ih (by omega)]
      funext a
      simp only [happly, toNat_sub_up hk]
      have hlt := (a - dst).toNat_lt
      by_cases hfirst : (a - dst).toNat < k
      · rw [if_neg (by split <;> omega), if_pos hfirst, if_pos (by omega)]
      · rw [if_pos (Nat.le_of_not_lt hfirst)]
        by_cases hlater : (a - dst).toNat - k < n * k
        · rw [if_pos hlater, if_pos (by omega)]
        · rw [if_neg hlater, if_neg hfirst, if_neg (by omega)]

/-! ## From a device

`insl` is a `movs` whose source is a port: it stores the next bytes the device has.
-/

/-- The memory with the bytes of a device from a position on. -/
def load (mem : Mem) (dst : UInt32) (dev : ℕ → UInt8) (pos n : ℕ) : Mem :=
  copy mem dst (n := n) fun i => dev (pos + i)

lemma load_apply (mem : Mem) (dst : UInt32) (dev : ℕ → UInt8) (pos n : ℕ) (a : UInt32) :
    load mem dst dev pos n a
      = if (a - dst).toNat < n then dev (pos + (a - dst).toNat) else mem a := by
  by_cases h : (a - dst).toNat < n
  · rw [if_pos h, load, copy_of_within _ _ h, byteAt_of_lt _ h]
  · rw [if_neg h, load, copy_of_not_within _ _ h]

lemma load_zero (mem : Mem) (dst : UInt32) (dev : ℕ → UInt8) (pos : ℕ) :
    load mem dst dev pos 0 = mem := by
  funext a
  rw [load_apply, if_neg (Nat.not_lt_zero _)]

/-- **One stretch after the other** is one longer stretch. -/
lemma load_load (mem : Mem) (dst : UInt32) (dev : ℕ → UInt8) (pos : ℕ) {n m : ℕ}
    (hn : n < 4294967296) (hnm : n + m ≤ 4294967296) :
    load (load mem dst dev pos n) (dst + UInt32.ofNat n) dev (pos + n) m
      = load mem dst dev pos (n + m) := by
  funext a
  have hlt := (a - dst).toNat_lt
  simp only [load_apply, toNat_sub_up hn]
  by_cases hfirst : (a - dst).toNat < n
  · rw [if_neg (by split <;> omega), if_pos hfirst, if_pos (by omega)]
  · rw [if_pos (Nat.le_of_not_lt hfirst)]
    by_cases hsecond : (a - dst).toNat - n < m
    · rw [if_pos hsecond, if_pos (by omega)]
      congr 1
      omega
    · rw [if_neg hsecond, if_neg hfirst, if_neg (by omega)]

end Memory
