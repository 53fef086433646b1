import ScratchOs.Core.Bytes
import ScratchOs.Core.Words

/-!
# The block bitmap

`fs_set_bit` and `fs_alloc_blk` of `lib/fs.c`.  A set bit is a block in use.  The bitmap is the only
record of which blocks are free: a block that the search returned twice would end up in two files.

* `bit_fsSetBit` — one bit changes.
* **`fsAllocBlk_spec`** — the search is first fit: the block it returns is the first that is free,
  and only the bit of that block changes.  A full bitmap gives `0xffffffff` and stays.

**The search** goes over the bytes, and in a byte with a free bit it isolates the lowest one with
`mask & -mask` and counts up to it.  `lowest_bit` and `countMask_two_pow` are about these two steps;
after them the search is one over bits.  The proof of it goes from the end of the bitmap backwards,
as the recursion does, and carries that everything before the byte is full.

`0xffffffff` is an error value that is not the number of a block, since there are 2²⁰ of them.  All
the rest of the file system relies on that.
-/

namespace ScratchOs

open Bytes Words

/-- `struct bitmap`, as its 131072 bytes. -/
abbrev Bitmap := Buffer 131072

/-- `fs_set_bit`, of whose value the lowest bit counts.  An offset past the bitmap is undefined. -/
def fsSetBit (bm : Bitmap) (offset val : UInt32) : Option Bitmap :=
  if h : (offset >>> 3).toNat < 131072 then
    let map := ((val &&& 1) <<< (offset &&& 7)).toUInt8
    let mask := (~~~((1 : UInt32) <<< (offset &&& 7))).toUInt8
    let old := bm ⟨_, h⟩
    some (Function.update bm ⟨_, h⟩ ((old &&& mask) ||| map))
  else none

/-- The loop of `fs_alloc_blk` that counts the bits of `mask`, which has only one. -/
def countMask (mask : UInt8) (idx : UInt32) : UInt32 :=
  if h : mask ≠ 0 then countMask (mask >>> 1) (idx + 1) else idx
  termination_by mask.toNat
  decreasing_by
    have hpos : mask.toNat ≠ 0 := fun e => h (UInt8.toNat_inj.mp e)
    rw [UInt8.toNat_shiftRight]
    show mask.toNat >>> 1 < mask.toNat
    rw [Nat.shiftRight_eq_div_pow]
    omega

/-- The loop of `fs_alloc_blk` over the bytes, from byte `i` on. -/
def allocFrom (bm : Bitmap) (i : ℕ) : Option (UInt32 × Bitmap) :=
  if h : i < 131072 then
    let mask := ~~~bm ⟨i, h⟩
    if mask ≠ 0 then
      -- the lowest set bit of `mask`, which is the lowest clear bit of the byte
      let idx := countMask (mask &&& -mask) 0xffffffff
      let idx := (UInt32.ofNat i <<< 3) ||| idx
      (fsSetBit bm idx 1).map fun bm => (idx, bm)
    else
      allocFrom bm (i + 1)
  else
    some (0xffffffff, bm)
  termination_by 131072 - i

/-- `fs_alloc_blk`. -/
def fsAllocBlk (bm : Bitmap) : Option (UInt32 × Bitmap) := allocFrom bm 0

/-! ## One bit

The arithmetic on a byte, bit by bit.
-/

lemma toNat_and_seven (offset : UInt32) : (offset.toNat &&& 7) % 32 = offset.toNat % 8 := by
  rw [show 7 = 2 ^ 3 - 1 from rfl, Nat.and_two_pow_sub_one_eq_mod]
  omega

/-- The byte `fs_set_bit` computes, bit by bit. -/
lemma testBit_setBit (old : UInt8) (val offset : UInt32) {t : ℕ} (ht : t < 8) :
    ((old &&& (~~~((1 : UInt32) <<< (offset &&& 7))).toUInt8)
        ||| ((val &&& 1) <<< (offset &&& 7)).toUInt8).toNat.testBit t
      = if t = offset.toNat % 8 then val.toNat.testBit 0 else old.toNat.testBit t := by
  have hs : offset.toNat % 8 < 8 := Nat.mod_lt _ (by decide)
  show BitVec.getLsbD _ t
    = if _ then BitVec.getLsbD val.toBitVec 0 else BitVec.getLsbD old.toBitVec t
  simp only [UInt32.toUInt8_not, UInt8.toBitVec_or, UInt8.toBitVec_and, UInt8.toBitVec_not,
    UInt32.toBitVec_toUInt8, UInt32.toBitVec_shiftLeft, UInt32.toBitVec_ofNat, UInt32.toBitVec_and,
    BitVec.ofNat_eq_ofNat, BitVec.shiftLeft_eq', BitVec.toNat_umod, BitVec.toNat_and,
    UInt32.toNat_toBitVec, BitVec.toNat_ofNat, Nat.reducePow, Nat.reduceMod, toNat_and_seven,
    Nat.reduceLeDiff, BitVec.setWidth_shiftLeft_of_le, BitVec.setWidth_ofNat_of_le,
    BitVec.setWidth_and, BitVec.getLsbD_or, BitVec.getLsbD_and, BitVec.getLsbD_not, ht, decide_true,
    BitVec.getLsbD_shiftLeft, Bool.true_and, BitVec.getLsbD_one, Nat.zero_lt_succ, Bool.not_and,
    Bool.not_not, BitVec.getLsbD_setWidth]
  generalize offset.toNat % 8 = s at hs ⊢
  rcases Nat.lt_trichotomy t s with h | h | h
  · have hne : t ≠ s := by omega
    simp [h, hne]
  · subst h
    simp
  · have hne : t ≠ s := by omega
    have hlt : ¬ t < s := by omega
    have hsub : t - s ≠ 0 := by omega
    simp [hlt, hne, hsub]

/-- **`fs_set_bit`** changes one bit, and leaves the seven others of the byte. -/
lemma bit_fsSetBit (bm : Bitmap) (offset val : UInt32) (h : offset.toNat < 1048576) :
    ∃ bm', fsSetBit bm offset val = some bm' ∧
      ∀ k, bit bm' k = if k = offset.toNat then val.toNat.testBit 0 else bit bm k := by
  have hbyte : (offset >>> 3).toNat = offset.toNat / 8 := toNat_shr offset 3 (by decide)
  have hlt : (offset >>> 3).toNat < 131072 := by omega
  refine ⟨_, by rw [fsSetBit, dif_pos hlt], fun k => ?_⟩
  have hmod : k % 8 < 8 := Nat.mod_lt _ (by decide)
  rw [bit_update, testBit_setBit _ _ _ hmod]
  by_cases hk : k / 8 = (offset >>> 3).toNat
  · have hold : byteAt bm (k / 8) = bm ⟨_, hlt⟩ := by
      rw [byteAt_of_lt _ (by omega)]
      exact congrArg bm (Fin.ext hk)
    have hbit : k % 8 = offset.toNat % 8 ↔ k = offset.toNat := by omega
    rw [if_pos hk, bit, hold]
    simp only [hbit]
  · have hne : k ≠ offset.toNat := fun e => hk (by rw [hbyte, e])
    rw [if_neg hk, if_neg hne]

/-! ## The search

From bytes to bits, and from one byte to the whole bitmap.
-/

/-- The loop counts the bits up to the only one that is set. -/
lemma countMask_two_pow (t : ℕ) (mask : UInt8) (idx : UInt32) (h : mask.toNat = 2 ^ t) :
    countMask mask idx = idx + UInt32.ofNat (t + 1) := by
  induction t generalizing mask idx with
  | zero =>
      obtain rfl : mask = 1 := UInt8.toNat_inj.mp h
      rw [countMask, dif_pos (by decide), countMask, dif_neg (by decide)]
      rfl
  | succ t ih =>
      have hne : mask ≠ 0 := by
        rintro rfl
        have hpos := Nat.two_pow_pos (t + 1)
        have hzero : (0 : UInt8).toNat = 0 := rfl
        omega
      have hshift : (mask >>> 1).toNat = 2 ^ t := by
        rw [UInt8.toNat_shiftRight, h]
        show 2 ^ (t + 1) >>> 1 = _
        rw [Nat.shiftRight_eq_div_pow, Nat.pow_succ]
        omega
      rw [countMask, dif_pos hne, ih _ _ hshift, UInt32.ofNat_add (t + 1) 1, UInt32.add_assoc,
        UInt32.add_comm 1]
      rfl

/-- The lowest set bit of a mask, as `mask & -mask` isolates it. -/
lemma lowest_bit (mask : UInt8) (h : mask ≠ 0) :
    ∃ t < 8, (mask &&& -mask).toNat = 2 ^ t ∧ mask.toNat.testBit t = true ∧
      ∀ s < t, mask.toNat.testBit s = false := by
  have hall : ∀ m : Fin 256, m.val ≠ 0 → ∃ t : Fin 8, m.val &&& ((256 - m.val) % 256) = 2 ^ t.val ∧
      m.val.testBit t.val = true ∧ ∀ s : Fin 8, s < t → m.val.testBit s.val = false := by
    decide +kernel
  have hlt : mask.toNat < 256 := UInt8.toNat_lt mask
  obtain ⟨t, hand, hbit, hlow⟩ := hall ⟨mask.toNat, hlt⟩ fun e => h (UInt8.toNat_inj.mp e)
  refine ⟨t.val, t.isLt, ?_, hbit, fun s hs => hlow ⟨s, by omega⟩ hs⟩
  rw [UInt8.toNat_and, UInt8.toNat_neg]
  exact hand

/-- The complement of a byte, on the bits a byte has. -/
lemma testBit_compl (x : UInt8) {t : ℕ} (ht : t < 8) :
    (~~~x).toNat.testBit t = !x.toNat.testBit t := by
  show BitVec.getLsbD (~~~x).toBitVec t = !BitVec.getLsbD x.toBitVec t
  rw [UInt8.toBitVec_not, BitVec.getLsbD_not]
  simp [ht]

/-- The second bitmap is the first with block `k` taken, the first free block there was. -/
structure FirstFit (bm : Bitmap) (k : ℕ) (bm' : Bitmap) : Prop where
  lt : k < 1048576
  free : bit bm k = false
  least : ∀ j < k, bit bm j = true
  taken : ∀ j, bit bm' j = if j = k then true else bit bm j

/-- The search from a byte on, when the bytes before are full. -/
lemma allocFrom_spec (bm : Bitmap) (i : ℕ) (hfull : ∀ k < 8 * i, bit bm k = true) :
    (∃ k bm', allocFrom bm i = some (UInt32.ofNat k, bm') ∧ FirstFit bm k bm') ∨
      (∀ k < 1048576, bit bm k = true) ∧ allocFrom bm i = some (0xffffffff, bm) := by
  induction i using allocFrom.induct bm with
  | case1 i h mask hmask =>
      left
      let idx := countMask (mask &&& -mask) 0xffffffff
      let idx' := (UInt32.ofNat i <<< 3) ||| idx
      obtain ⟨t, ht, hand, hbit, hlow⟩ := lowest_bit mask hmask
      have hidx : idx = UInt32.ofNat t := by
        show countMask (mask &&& -mask) 0xffffffff = _
        rw [countMask_two_pow t _ _ hand, UInt32.ofNat_add, UInt32.add_comm (UInt32.ofNat t),
          ← UInt32.add_assoc]
        exact UInt32.zero_add _
      have hpos : idx'.toNat = 8 * i + t := by
        show ((UInt32.ofNat i <<< 3) ||| idx).toNat = _
        have h3 : (3 : UInt32).toNat = 3 := rfl
        have hlt : (UInt32.ofNat t).toNat = t := toNat_ofNat (by omega)
        rw [hidx, toNat_shl_or _ _ _ (by decide) (by rw [hlt, h3]; omega), hlt, UInt32.toNat_ofNat',
          h3]
        omega
      have hbyte : ∀ s < 8, bit bm (8 * i + s) = (bm ⟨i, h⟩).toNat.testBit s := by
        intro s hs
        rw [bit, show (8 * i + s) / 8 = i by omega, show (8 * i + s) % 8 = s by omega,
          byteAt_of_lt _ h]
      have hcompl : ∀ s < 8, mask.toNat.testBit s = !bit bm (8 * i + s) := by
        intro s hs
        rw [hbyte s hs]
        exact testBit_compl _ hs
      obtain ⟨bm', hset, hbits⟩ := bit_fsSetBit bm idx' 1 (by omega)
      refine ⟨8 * i + t, bm', ?_, by omega, ?_, fun j hj => ?_, fun j => ?_⟩
      · rw [allocFrom, dif_pos h]
        dsimp only
        rw [if_pos hmask, show fsSetBit bm _ 1 = _ from hset, ← hpos, UInt32.ofNat_toNat]
        rfl
      · have hfree := hcompl t ht
        rw [hbit] at hfree
        simpa using hfree.symm
      · by_cases hlt : j < 8 * i
        · exact hfull j hlt
        · obtain ⟨s, rfl⟩ := Nat.exists_eq_add_of_le (Nat.le_of_not_lt hlt)
          have hused := hcompl s (by omega)
          rw [hlow s (by omega)] at hused
          simpa using hused.symm
      · rw [hbits j, hpos]
        rfl
  | case2 i h mask hmask ih =>
      have hmask0 : mask = 0 := not_not.mp hmask
      have hnext : ∀ k < 8 * (i + 1), bit bm k = true := by
        intro k hk
        by_cases hlt : k < 8 * i
        · exact hfull k hlt
        · have hzero : (~~~bm ⟨i, h⟩).toNat.testBit (k % 8) = false := by
            rw [show ~~~bm ⟨i, h⟩ = 0 from hmask0]
            exact Nat.zero_testBit _
          rw [testBit_compl _ (by omega)] at hzero
          rw [bit, show k / 8 = i by omega, byteAt_of_lt _ h]
          simpa using hzero
      have hskip : allocFrom bm i = allocFrom bm (i + 1) := by
        rw [allocFrom, dif_pos h]
        dsimp only
        rw [if_neg hmask]
      rw [hskip]
      exact ih hnext
  | case3 i h =>
      right
      refine ⟨fun k hk => hfull k (by omega), ?_⟩
      rw [allocFrom, dif_neg h]

/-- **`fs_alloc_blk`** takes the first free block, or finds the bitmap full. -/
theorem fsAllocBlk_spec (bm : Bitmap) :
    (∃ k bm', fsAllocBlk bm = some (UInt32.ofNat k, bm') ∧ FirstFit bm k bm') ∨
      (∀ k < 1048576, bit bm k = true) ∧ fsAllocBlk bm = some (0xffffffff, bm) :=
  allocFrom_spec bm 0 fun k hk => absurd hk (Nat.not_lt_zero k)

/-- `fs_alloc_blk` always returns. -/
lemma fsAllocBlk_total (bm : Bitmap) : ∃ off bm', fsAllocBlk bm = some (off, bm') := by
  rcases fsAllocBlk_spec bm with ⟨k, bm', hok, -⟩ | ⟨-, hok⟩
  · exact ⟨_, bm', hok⟩
  · exact ⟨_, bm, hok⟩

end ScratchOs
