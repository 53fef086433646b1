import ScratchOs.Fs.Writes

/-!
# The size of a file in whole blocks

`fs_get_blk_sz` of `lib/fs.c` next to the blocks a file is really given: one in each round of the
loop of `fs_write_file`.  Two places of the source round a size up to whole blocks, and they do not
agree with each other.

* `loopBlocks_eq` — the rounds are calls of `fs_alloc_blk`, one for each block of the source.
* `logBlocks_blocks` — a loop that stays inside of its inode takes the blocks of these rounds.
* `toNat_roundSize` — `main` of `format.c` rounds up to what they are together.
* **`fsGetBlkSz_short`** — `fs_get_blk_sz` is one block short of it, for every size.

**The sizes** are those from 1 to where the rounding of `main` would wrap in 32 bits.  The width of
`size_t` is a parameter, since `format` is a program of the machine that builds the disk.
-/

namespace ScratchOs

open Bytes Files Words

/-! ## The program

The two ways to round, and the loop with nothing but its blocks left in it.
-/

/-- `fs_get_blk_sz`, in whose formula a `+ 1` is missing. -/
def fsGetBlkSz (sz : UInt32) : UInt32 := ((sz - 1) / 512) * 512

/-- `size = (((size - 1) / 512) + 1) * 512` of `main`, with a `size_t` of `w` bits. -/
def roundSize {w : ℕ} (size : BitVec w) : BitVec w := (((size - 1) / 512) + 1) * 512

/-- The loop of `fs_write_file` with the block of each round, and without the stores: it goes on
where the array of the inode is at its end. -/
def loopBlocks (fp : Handle) (bm : Bitmap) : Option (List UInt32 × Bitmap) :=
  let r := fp.read (fill 512 0)
  if _h : r.count ≠ 0 then do
    let (off, bm) ← fsAllocBlk bm
    let (offs, bm) ← loopBlocks r.file bm
    some (off :: offs, bm)
  else
    some ([], bm)
  termination_by fp.bytes.length - fp.pos
  decreasing_by exact Handle.read_shrinks fp (fill 512 0) _h

/-! ## The rounds

How many blocks a file is given, from the loop itself.
-/

section Steps

variable {fp : Handle} {bm bm₁ bm' : Bitmap} {off : UInt32} {offs : List UInt32}

lemma loopBlocks_step (hcount : (fp.read (fill 512 0)).count ≠ 0)
    (halloc : fsAllocBlk bm = some (off, bm₁))
    (hrest : loopBlocks (fp.read (fill 512 0)).file bm₁ = some (offs, bm')) :
    loopBlocks fp bm = some (off :: offs, bm') := by
  rw [loopBlocks]
  dsimp only
  rw [dif_pos hcount, halloc]
  simp only [Option.bind_eq_bind, Option.bind_some, hrest]

lemma loopBlocks_stop (hcount : ¬ (fp.read (fill 512 0)).count ≠ 0) :
    loopBlocks fp bm = some ([], bm) := by
  rw [loopBlocks]
  dsimp only
  rw [dif_neg hcount]

end Steps

section Loop

variable {content : List UInt8}

/-- **The rounds** that are left after `idx` of them are calls of `fs_alloc_blk`. -/
lemma loopBlocks_eq (d idx : ℕ) (bm : Bitmap) (hd : idx + d = blocksOf content) :
    ∃ offs bm', loopBlocks (sourceAt content idx) bm = some (offs, bm') ∧
      allocBlks d bm = some (offs, bm') ∧ offs.length = d := by
  induction d generalizing idx bm with
  | zero =>
      have hstop := @count_sourceAt_end content idx (Nat.le_of_eq hd.symm)
      exact ⟨[], bm, loopBlocks_stop hstop, rfl, rfl⟩
  | succ d ih =>
      have hidx : idx < blocksOf content := by omega
      obtain ⟨off, bm₁, halloc⟩ := fsAllocBlk_total bm
      obtain ⟨offs, bm', hloop, hrest, hlen⟩ := ih (idx + 1) bm₁ (by omega)
      rw [← file_sourceAt hidx] at hloop
      refine ⟨off :: offs, bm', ?_, allocBlks_succ halloc hrest, ?_⟩
      · exact loopBlocks_step (count_sourceAt.mpr hidx) halloc hloop
      · rw [List.length_cons, hlen]

/-- The whole loop makes a round for every block of the source, whatever is in the bitmap. -/
lemma loopBlocks_length (content : List UInt8) (bm : Bitmap) :
    ∃ offs bm', loopBlocks ⟨content, 0⟩ bm = some (offs, bm') ∧ offs.length = blocksOf content := by
  obtain ⟨offs, bm', hloop, -, hlen⟩ :=
    loopBlocks_eq (blocksOf content) 0 bm (Nat.zero_add _)
  rw [sourceAt_zero] at hloop
  exact ⟨offs, bm', hloop, hlen⟩

end Loop

/-- **A loop that stays inside of its inode** takes the blocks of the rounds and writes them. -/
theorem logBlocks_blocks {fp : Handle} {bm bm' : Bitmap} {file file' : FileBlock} {idx : ℕ}
    {log : List BlockWrite} (h : logBlocks fp bm file idx = some (bm', file', log)) :
    loopBlocks fp bm = some (log.map BlockWrite.block, bm') := by
  induction fp, bm, file, idx using logBlocks.induct generalizing bm' file' log with
  | @case1 fp bm file idx r hcount ih =>
      obtain ⟨off, bm₁, halloc⟩ := fsAllocBlk_total bm
      by_cases hidx : idx < 128
      · rw [logBlocks_step hcount halloc (storeOff_inside hidx), Option.map_eq_some_iff] at h
        obtain ⟨⟨bm₂, file₂, log₂⟩, hrest, hres⟩ := h
        cases hres
        exact loopBlocks_step hcount halloc (ih bm₁ _ hrest)
      · have hge : 128 ≤ idx := Nat.le_of_not_lt hidx
        rw [logBlocks_overrun hcount fun off => storeOff_outside hge] at h
        cases h
  | @case2 fp bm file idx r hcount =>
      rw [logBlocks_stop hcount] at h
      cases h
      exact loopBlocks_stop hcount

/-! ## The two ways to round

What the two formulas give, and the comparison of both with the rounds.
-/

/-- A source that is not empty takes one block more than it fills before its last byte. -/
lemma blocksOf_eq {content : List UInt8} (h : 1 ≤ content.length) :
    blocksOf content = (content.length - 1) / 512 + 1 := by
  rw [blocksOf]
  omega

/-- **`main`'s rounding**, at any width of `size_t` that holds the result. -/
lemma toNat_roundSize {w : ℕ} (hw : 32 ≤ w) {size : ℕ} (hpos : 1 ≤ size)
    (hlt : size < 2 ^ 32 - 511) :
    (roundSize (BitVec.ofNat w size)).toNat = ((size - 1) / 512 + 1) * 512 := by
  have hwide : 2 ^ 32 ≤ 2 ^ w := Nat.pow_le_pow_right (by decide) hw
  have hblk : (512 : BitVec w).toNat = 512 := Nat.mod_eq_of_lt (show 512 < 2 ^ w by omega)
  have hsize : (BitVec.ofNat w size).toNat = size := Nat.mod_eq_of_lt (by omega)
  have hround := @toNat_round_up w (BitVec.ofNat w size) 512
  rw [hblk, hsize] at hround
  exact hround hpos (by decide) (by omega)

/-- **`fs_get_blk_sz`** counts the blocks that are full before the last byte. -/
lemma toNat_fsGetBlkSz {sz : UInt32} (hpos : 1 ≤ sz.toNat) :
    (fsGetBlkSz sz).toNat = (sz.toNat - 1) / 512 * 512 := by
  have hsz := toNat_lt sz
  have hsub : (sz - 1).toNat = sz.toNat - 1 := UInt32.toNat_sub_of_le sz 1 hpos
  rw [fsGetBlkSz, UInt32.toNat_mul, UInt32.toNat_div, hsub]
  show (sz.toNat - 1) / 512 * 512 % 4294967296 = _
  omega

/-- **`fs_get_blk_sz` is one block short**, for every size.  The rounding of `main` gives what the
rounds of the loop take. -/
theorem fsGetBlkSz_short {w : ℕ} (hw : 32 ≤ w) (sz : UInt32) (content : List UInt8) (bm : Bitmap)
    (hcontent : content.length = sz.toNat) (hpos : 1 ≤ sz.toNat)
    (hlt : sz.toNat < 2 ^ 32 - 511) :
    ∃ offs bm', loopBlocks ⟨content, 0⟩ bm = some (offs, bm') ∧
      (roundSize (BitVec.ofNat w sz.toNat)).toNat = 512 * offs.length ∧
      (fsGetBlkSz sz).toNat ≠ 512 * offs.length ∧
        (fsGetBlkSz sz).toNat + 512 = 512 * offs.length := by
  obtain ⟨offs, bm', hloop, hlen⟩ := loopBlocks_length content bm
  rw [blocksOf_eq (by omega), hcontent] at hlen
  have hround := toNat_roundSize hw hpos hlt
  have hget := toNat_fsGetBlkSz hpos
  exact ⟨offs, bm', hloop, by omega, by omega, by omega⟩

/-- Two whole blocks, and a `size_t` of 64 bits. -/
theorem fsGetBlkSz_short_two : ∃ offs bm',
    loopBlocks ⟨List.replicate 1024 7, 0⟩ (fill 131072 0) = some (offs, bm') ∧
      (roundSize (BitVec.ofNat 64 1024)).toNat = 512 * offs.length ∧
      (fsGetBlkSz 1024).toNat ≠ 512 * offs.length ∧
        (fsGetBlkSz 1024).toNat + 512 = 512 * offs.length :=
  fsGetBlkSz_short (by decide) 1024 _ _ List.length_replicate (by decide) (by decide)

/-- A file of one byte is given a block, and its size in whole blocks is said to be 0. -/
theorem fsGetBlkSz_fails : fsGetBlkSz 1 = 0 ∧ ∃ offs bm',
    loopBlocks ⟨[7], 0⟩ (fill 131072 0) = some (offs, bm') ∧ offs.length = 1 ∧
      (fsGetBlkSz 1).toNat ≠ 512 * offs.length := by
  obtain ⟨offs, bm', hloop, hlen⟩ := loopBlocks_length [7] (fill 131072 0)
  rw [show blocksOf [7] = 1 from rfl] at hlen
  refine ⟨by decide, offs, bm', hloop, hlen, ?_⟩
  rw [hlen]
  decide

end ScratchOs
