import ScratchOs.Core.Words

/-!
# Page arithmetic on 32-bit addresses

`roundup` and `rounddown` of `kernel/page.c` and the `LinearAddr` union of `kernel/page.h`, on
`UInt32` as the code computes them.  Every definition comes with its meaning on `ℕ`
(`toNat_roundup`, `LinearAddr.toNat_withFrame`, …), and the rest of the development only uses that
meaning.  A change of the bit fiddling stays in this file.

**Two corners** matter later.  `roundup` wraps: it sends everything above `0xfffff000` to `0`, so
that a kernel image that ends there counts as no image at all.  And an initialiser of the union that
names `dir_idx` and then `frame` keeps only `frame`, since the second field covers the first
(`LinearAddr.toNat_pgAddr`); the inner loop of `mm_continous_map` counts from 0 in every slot
because of it.
-/

namespace ScratchOs

open Words

/-- `PG_SIZE`. -/
abbrev pgSize : UInt32 := 0x1000

/-- `PG_SIZE_LOG2`. -/
abbrev pgSizeLog2 : UInt32 := 12

/-- `roundup`: up to the next page boundary, in 32-bit arithmetic. -/
def roundup (addr : UInt32) : UInt32 :=
  (((addr - 1) >>> pgSizeLog2) + 1) <<< pgSizeLog2

/-- `rounddown`: down to the previous page boundary. -/
def rounddown (addr : UInt32) : UInt32 :=
  addr &&& ~~~(pgSize - 1)

/-! ## Rounding

Both functions are remainders by the page size on `ℕ`.  Whole pages are kept by either of them.
-/

lemma toNat_roundup (a : UInt32) :
    (roundup a).toNat = (a.toNat + 4095) / 4096 * 4096 % 4294967296 := by
  have ha := toNat_lt a
  have hsub : (a - 1).toNat = (a.toNat + 4294967295) % 4294967296 := by
    rw [UInt32.toNat_sub]
    have hone : (1 : UInt32).toNat = 1 := rfl
    omega
  have hlog : pgSizeLog2.toNat = 12 := rfl
  have hone : (1 : UInt32).toNat = 1 := rfl
  rw [roundup, toNat_shl _ _ (by decide), UInt32.toNat_add, toNat_shr _ _ (by decide), hsub, hlog,
    hone]
  omega

lemma toNat_rounddown (a : UInt32) : (rounddown a).toNat = a.toNat / 4096 * 4096 := by
  have hmask : (a &&& (pgSize - 1)).toNat = a.toNat % 2 ^ 12 := toNat_mask a _ 12 rfl
  have hle : a &&& (pgSize - 1) ≤ a := by
    rw [UInt32.le_iff_toNat_le, hmask]
    exact Nat.mod_le _ _
  rw [rounddown, and_not_eq_sub, UInt32.toNat_sub_of_le _ _ hle, hmask]
  omega

/-! ## The `LinearAddr` union

An assignment to a bit field changes the bits of the field and keeps the others, also those of a
field that overlaps with it.
-/

/-- `LinearAddr`: the union is its 32-bit `val`, the bit fields are views of it. -/
structure LinearAddr where
  val : UInt32
  deriving DecidableEq, Repr

namespace LinearAddr

/-- The offset in the page: bits 0 to 11. -/
def offset (a : LinearAddr) : UInt32 := a.val &&& 0xfff

/-- The index in the table: bits 12 to 21. -/
def tabIdx (a : LinearAddr) : UInt32 := (a.val >>> 12) &&& 0x3ff

/-- The index in the directory: bits 22 to 31. -/
def dirIdx (a : LinearAddr) : UInt32 := a.val >>> 22

/-- The number of the page: bits 12 to 31, which are both indices together. -/
def frame (a : LinearAddr) : UInt32 := a.val >>> 12

/-- Assigning to `dir_idx` truncates to 10 bits and keeps the other bits. -/
def withDirIdx (a : LinearAddr) (d : UInt32) : LinearAddr :=
  ⟨(d <<< 22) ||| (a.val &&& 0x3fffff)⟩

/-- Assigning to `tab_idx` truncates to 10 bits and keeps the other bits. -/
def withTabIdx (a : LinearAddr) (t : UInt32) : LinearAddr :=
  ⟨(a.dirIdx <<< 22) ||| ((((t &&& 0x3ff) <<< 12) ||| a.offset) &&& 0x3fffff)⟩

/-- Assigning to `frame` truncates to 20 bits and keeps the offset. -/
def withFrame (a : LinearAddr) (f : UInt32) : LinearAddr :=
  ⟨(f <<< 12) ||| a.offset⟩

/-- The initialiser `{ .dir_idx = dir_idx, .tab_idx = 0, .frame = 0 }`, whose fields are assigned
in this order. -/
def pgAddr (dirIdx : UInt32) : LinearAddr :=
  (((⟨0⟩ : LinearAddr).withDirIdx dirIdx).withTabIdx 0).withFrame 0

lemma toNat_offset (a : LinearAddr) : a.offset.toNat = a.val.toNat % 4096 :=
  toNat_mask a.val 0xfff 12 rfl

lemma toNat_frame (a : LinearAddr) : a.frame.toNat = a.val.toNat / 4096 :=
  toNat_shr a.val 12 (by decide)

lemma toNat_dirIdx (a : LinearAddr) : a.dirIdx.toNat = a.val.toNat / 4194304 :=
  toNat_shr a.val 22 (by decide)

lemma toNat_tabIdx (a : LinearAddr) : a.tabIdx.toNat = a.val.toNat / 4096 % 1024 := by
  rw [tabIdx, toNat_mask _ 0x3ff 10 rfl, toNat_shr _ _ (by decide)]
  rfl

lemma offset_lt (a : LinearAddr) : a.offset.toNat < 2 ^ (12 : UInt32).toNat := by
  rw [toNat_offset]
  exact Nat.mod_lt _ (by decide)

lemma toNat_withFrame (a : LinearAddr) (f : UInt32) :
    (a.withFrame f).val.toNat = f.toNat % 1048576 * 4096 + a.val.toNat % 4096 := by
  have h12 : (12 : UInt32).toNat = 12 := rfl
  rw [withFrame, toNat_shl_or _ _ _ (by decide) a.offset_lt, toNat_offset, h12]
  omega

lemma toNat_frame_withFrame (a : LinearAddr) (f : UInt32) :
    (a.withFrame f).frame.toNat = f.toNat % 1048576 := by
  rw [toNat_frame, toNat_withFrame]
  omega

lemma toNat_offset_withDirIdx (a : LinearAddr) (d : UInt32) :
    (a.withDirIdx d).offset.toNat = a.offset.toNat := by
  have hlow : (a.val &&& 0x3fffff).toNat = a.val.toNat % 4194304 := toNat_mask _ _ 22 rfl
  have h22 : (22 : UInt32).toNat = 22 := rfl
  rw [toNat_offset, toNat_offset, withDirIdx,
    toNat_shl_or _ _ _ (by decide) (by rw [hlow]; exact Nat.mod_lt _ (by decide)), hlow, h22]
  omega

lemma toNat_offset_withTabIdx (a : LinearAddr) (t : UInt32) :
    (a.withTabIdx t).offset.toNat = a.offset.toNat := by
  have hlow : ((((t &&& 0x3ff) <<< 12) ||| a.offset) &&& 0x3fffff).toNat
      = (((t &&& 0x3ff) <<< 12) ||| a.offset).toNat % 4194304 := toNat_mask _ _ 22 rfl
  have hoff := a.offset_lt
  have h22 : (22 : UInt32).toNat = 22 := rfl
  have h12 : (12 : UInt32).toNat = 12 := rfl
  rw [toNat_offset, withTabIdx,
    toNat_shl_or _ _ _ (by decide) (by rw [hlow]; exact Nat.mod_lt _ (by decide)), hlow,
    toNat_shl_or _ _ _ (by decide) hoff, h22, h12]
  rw [h12] at hoff
  omega

/-- **The cursor always starts at address 0**, whatever slot it is made for: assigning `frame`
clears `dir_idx` again. -/
lemma toNat_pgAddr (d : UInt32) : (pgAddr d).val.toNat = 0 := by
  rw [pgAddr, toNat_withFrame, ← toNat_offset, toNat_offset_withTabIdx, toNat_offset_withDirIdx]
  rfl

end LinearAddr

end ScratchOs
