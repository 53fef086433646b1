import ScratchOs.Core.Pool
import ScratchOs.Fs.Bitmap

/-!
# Taking blocks one after the other

`fs_get_bit` of `lib/fs.c`, and what successive calls of `fs_alloc_blk` return.  One call is
described in `Fs/Bitmap`.  Over a run the free blocks are a list in increasing order, and the calls
walk down that list.

* `clearOffsets` — the offsets whose bit `fs_get_bit` finds clear, in increasing order.
* `allocBlks_eq` — the calls take this list from its head, and return `0xffffffff` when it is at its
  end.
* **`alloc_first_fit`** — the same with what becomes of every bit.

**Nothing is assumed** about the bitmap or the number of calls, which may be larger than the number
of blocks.  The list is a device of the proof: no code builds it, and nothing here computes it.
What is used about such lists comes from `Core/Pool`.
-/

namespace ScratchOs

open Bytes Words

/-! ## The program

The function that reads a bit, and a name for a run of calls.
-/

/-- `fs_get_bit`, which shifts the bit to the lowest place.  An offset past the bitmap is
undefined. -/
def fsGetBit (bm : Bitmap) (offset : UInt32) : Option UInt32 :=
  if h : (offset >>> 3).toNat < 131072 then
    some (((bm ⟨_, h⟩).toUInt32 >>> (offset &&& 7)) &&& 1)
  else none

/-- `n` successive calls of `fs_alloc_blk`: what they return, and the bitmap they leave. -/
def allocBlks : ℕ → Bitmap → Option (List UInt32 × Bitmap)
  | 0, bm => some ([], bm)
  | n + 1, bm => do
      let (off, bm) ← fsAllocBlk bm
      let (offs, bm) ← allocBlks n bm
      some (off :: offs, bm)

/-- The offsets below `8 * sizeof(struct bitmap)` whose bit is clear, in increasing order. -/
def clearOffsets (bm : Bitmap) : List ℕ :=
  Pool.free (8 * 131072) fun k => fsGetBit bm (UInt32.ofNat k) = some 0

/-! ## Reading a bit

What `fs_get_bit` returns is the bit that `Fs/Bitmap` speaks of.
-/

/-- **`fs_get_bit`** reads one bit. -/
lemma fsGetBit_eq (bm : Bitmap) {offset : UInt32} (h : offset.toNat < 1048576) :
    fsGetBit bm offset = some (if bit bm offset.toNat then 1 else 0) := by
  have hbyte : (offset >>> 3).toNat = offset.toNat / 8 := toNat_shr offset 3 (by decide)
  have hlt : (offset >>> 3).toNat < 131072 := by omega
  have hold : bm ⟨_, hlt⟩ = byteAt bm (offset.toNat / 8) := by
    rw [byteAt_of_lt _ (by omega)]
    exact congrArg bm (Fin.ext hbyte)
  rw [fsGetBit, dif_pos hlt, hold, bit]
  generalize byteAt bm (offset.toNat / 8) = x
  have hmask : (offset &&& 7).toNat = offset.toNat % 8 := toNat_mask offset 7 3 rfl
  have hval : ((x.toUInt32 >>> (offset &&& 7)) &&& 1).toNat
      = x.toNat / 2 ^ (offset.toNat % 8) % 2 := by
    rw [toNat_mask _ 1 1 rfl, toNat_shr _ _ (by omega), hmask, UInt8.toNat_toUInt32, Nat.pow_one]
  congr 1
  rw [← UInt32.toNat_inj, hval, Nat.testBit_eq_decide_div_mod_eq]
  by_cases hone : x.toNat / 2 ^ (offset.toNat % 8) % 2 = 1
  · simp [hone]
  · have hzero : x.toNat / 2 ^ (offset.toNat % 8) % 2 = 0 := by omega
    simp [hzero]

lemma fsGetBit_ofNat (bm : Bitmap) {k : ℕ} (hk : k < 1048576) :
    fsGetBit bm (UInt32.ofNat k) = some (if bit bm k then 1 else 0) := by
  have hval : (UInt32.ofNat k).toNat = k := toNat_ofNat (by omega)
  rw [fsGetBit_eq bm (by rw [hval]; exact hk), hval]

/-- The clear offsets are the free blocks. -/
lemma clearOffsets_eq (bm : Bitmap) : clearOffsets bm = Pool.free 1048576 fun k => !bit bm k := by
  refine Pool.free_congr fun k hk => ?_
  rw [fsGetBit_ofNat bm hk]
  cases bit bm k <;> simp

lemma mem_clearOffsets {bm : Bitmap} {k : ℕ} :
    k ∈ clearOffsets bm ↔ k < 1048576 ∧ bit bm k = false := by
  rw [clearOffsets_eq, Pool.mem_free, Bool.not_eq_true']

/-! ## Runs

The induction is on the number of calls.  A call that finds the list empty leaves it empty, which
takes care of all the calls after it.
-/

/-- One call takes the head of the list. -/
lemma clearOffsets_cons {bm bm' : Bitmap} {k : ℕ} (h : FirstFit bm k bm') :
    clearOffsets bm = k :: clearOffsets bm' := by
  rw [clearOffsets_eq, clearOffsets_eq]
  refine Pool.free_cons h.lt (by simp [h.free]) (fun j hj => by simp [h.least j hj]) fun j => ?_
  rw [h.taken j]
  by_cases hj : j = k <;> simp [hj]

/-- **One call of `fs_alloc_blk`**, on the list of clear offsets. -/
lemma fsAllocBlk_cases (bm : Bitmap) :
    (∃ k bm', fsAllocBlk bm = some (UInt32.ofNat k, bm') ∧
      clearOffsets bm = k :: clearOffsets bm' ∧
        ∀ j, bit bm' j = if j = k then true else bit bm j) ∨
      clearOffsets bm = [] ∧ fsAllocBlk bm = some (0xffffffff, bm) := by
  rcases fsAllocBlk_spec bm with ⟨k, bm', hok, hfit⟩ | ⟨hfull, hok⟩
  · exact Or.inl ⟨k, bm', hok, clearOffsets_cons hfit, hfit.taken⟩
  · refine Or.inr ⟨?_, hok⟩
    rw [clearOffsets_eq, Pool.free_eq_nil]
    intro j hj
    simp [hfull j hj]

lemma allocBlks_succ {n : ℕ} {bm bm₁ bm' : Bitmap} {off : UInt32} {offs : List UInt32}
    (halloc : fsAllocBlk bm = some (off, bm₁)) (hrest : allocBlks n bm₁ = some (offs, bm')) :
    allocBlks (n + 1) bm = some (off :: offs, bm') := by
  rw [allocBlks, halloc]
  simp only [Option.bind_eq_bind, Option.bind_some, hrest]

/-- What `n` calls return when `free` is the list: its first items, and then the error value. -/
def returned (n : ℕ) (free : List ℕ) : List UInt32 :=
  (free.take n).map UInt32.ofNat ++ List.replicate (n - free.length) 0xffffffff

lemma returned_cons (n k : ℕ) (free : List ℕ) :
    returned (n + 1) (k :: free) = UInt32.ofNat k :: returned n free := by
  rw [returned, returned, List.take_succ_cons, List.map_cons, List.length_cons,
    Nat.add_sub_add_right, List.cons_append]

lemma returned_nil (n : ℕ) : returned n [] = List.replicate n 0xffffffff := by
  rw [returned, List.take_nil, List.map_nil, List.nil_append, List.length_nil, Nat.sub_zero]

/-- **Successive calls** take the clear offsets from the smallest on. -/
theorem allocBlks_eq (n : ℕ) (bm : Bitmap) :
    ∃ bm', allocBlks n bm = some (returned n (clearOffsets bm), bm') ∧
      clearOffsets bm' = (clearOffsets bm).drop n ∧
        ∀ j, bit bm' j = (bit bm j || decide (j ∈ (clearOffsets bm).take n)) := by
  induction n generalizing bm with
  | zero => exact ⟨bm, by simp [allocBlks, returned], by simp, by simp⟩
  | succ n ih =>
      rcases fsAllocBlk_cases bm with ⟨k, bm₁, halloc, hclear, hbits⟩ | ⟨hnone, halloc⟩
      · obtain ⟨bm', hrest, hleft, htaken⟩ := ih bm₁
        refine ⟨bm', ?_, ?_, fun j => ?_⟩
        · rw [hclear, returned_cons]
          exact allocBlks_succ halloc hrest
        · rw [hclear, List.drop_succ_cons, hleft]
        · rw [htaken j, hbits j, hclear, List.take_succ_cons]
          by_cases hj : j = k <;> simp [hj]
      · obtain ⟨bm', hrest, hleft, htaken⟩ := ih bm
        rw [hnone, returned_nil] at hrest
        rw [hnone] at hleft htaken ⊢
        refine ⟨bm', ?_, by simpa using hleft, by simpa using htaken⟩
        rw [returned_nil, List.replicate_succ]
        exact allocBlks_succ halloc hrest

/-- A bitmap that is full stays as it is, however often it is asked for a block. -/
lemma allocBlks_full {bm : Bitmap} (h : clearOffsets bm = []) (n : ℕ) :
    allocBlks n bm = some (List.replicate n 0xffffffff, bm) := by
  induction n with
  | zero => rfl
  | succ n ih =>
      rcases fsAllocBlk_cases bm with ⟨k, bm₁, -, hclear, -⟩ | ⟨-, halloc⟩
      · rw [h] at hclear
        cases hclear
      · exact allocBlks_succ halloc ih

/-- **First fit, over whole runs.**  `n` calls return the `n` smallest clear offsets in increasing
order, and set exactly those bits; when none is left every further call returns `0xffffffff` and
changes nothing. -/
theorem alloc_first_fit (bm : Bitmap) (n : ℕ) :
    ∃ bm', allocBlks n bm = some (((clearOffsets bm).take n).map UInt32.ofNat
        ++ List.replicate (n - (clearOffsets bm).length) 0xffffffff, bm') ∧
      (∀ k < 8 * 131072, fsGetBit bm' (UInt32.ofNat k)
        = if k ∈ (clearOffsets bm).take n then some 1 else fsGetBit bm (UInt32.ofNat k)) ∧
      (clearOffsets bm).Pairwise (· < ·) ∧ clearOffsets bm' = (clearOffsets bm).drop n ∧
      (clearOffsets bm' = [] →
        ∀ m, allocBlks m bm' = some (List.replicate m 0xffffffff, bm')) := by
  obtain ⟨bm', hok, hleft, hbits⟩ := allocBlks_eq n bm
  refine ⟨bm', hok, fun k hk => ?_, Pool.free_sorted, hleft, allocBlks_full⟩
  rw [fsGetBit_ofNat _ hk, fsGetBit_ofNat _ hk, hbits k]
  by_cases hmem : k ∈ (clearOffsets bm).take n <;> simp [hmem]

end ScratchOs
