import ScratchOs.Fs.FirstFit
import ScratchOs.Fs.Format

/-!
# What `fs_write_file` writes where

The writes of `fs_write_file` as a log, and the two things that bound them: how many blocks are
free, and how many an inode can list.  `Fs/Format` follows one run on a fresh disk, where there is
room for everything.  Here the bitmap and the directory may be any, which is where the errors are
that the code does not check for.

* `fsWriteFile_log` — the disk a call leaves is the log, performed on the disk it found.
* `logBlocks_spec` — the loop takes its blocks from the bitmap one after the other.
* **`writes_own_blocks_iff`** — a call writes only to blocks it has taken, if and only if there are
  a slot and enough blocks for it.
* **`inode_bounded_iff`** — it stays inside of the array of its inode if and only if the file has at
  most 120 blocks.

**Why a log.**  The disk after the call does not tell which blocks were written, only what is in
them.  The log keeps the number the code had for each block, `0xffffffff` included, which is what
both results are about.
-/

namespace ScratchOs

open Bytes Files Words

/-! ## The log

The function once more with the log as its result, and the proof that this is the same function.
-/

/-- A block that is written: the number the code has for it, and its bytes. -/
structure BlockWrite where
  block : UInt32
  data : Buffer 512

/-- `fseek` to the block and `fwrite` of its bytes. -/
def BlockWrite.perform (disk : Handle) (w : BlockWrite) : Handle :=
  (disk.seek (w.block * 512).toNat).writeBuffer w.data

lemma BlockWrite.perform_mk (disk : Handle) (block : UInt32) (data : Buffer 512) :
    perform disk ⟨block, data⟩ = (disk.seek (block * 512).toNat).writeBuffer data := rfl

/-- The loop of `fs_write_file`, with a log in place of the disk.  It is the same loop otherwise. -/
def logBlocks (fp : Handle) (bm : Bitmap) (file : FileBlock) (idx : ℕ) :
    Option (Bitmap × FileBlock × List BlockWrite) :=
  let r := fp.read (fill 512 0)
  if _h : r.count ≠ 0 then do
    let (off, bm) ← fsAllocBlk bm
    let file ← storeOff file idx off
    let (bm, file, log) ← logBlocks r.file bm file (idx + 1)
    some (bm, file, ⟨off, r.buffer⟩ :: log)
  else
    some (bm, file, [])
  termination_by fp.bytes.length - fp.pos
  decreasing_by exact Handle.read_shrinks fp (fill 512 0) _h

/-- `fs_write_file`, with a log in place of the disk. -/
def logFile (bm : Bitmap) (dir : FileBlock) (filename : CString) (content : List UInt8) :
    Option (Bitmap × FileBlock × List BlockWrite) := do
  let a ← fsAllocFileInDir bm dir filename (UInt32.ofNat content.length)
  let (bm, file, log) ← logBlocks ⟨content, 0⟩ a.bm (fill 512 0xcc) 0
  some (bm, a.dir, log ++ [⟨a.ret, file⟩])

/-- The indices `idx` the loop stores at. -/
def storeIndices (fp : Handle) (idx : ℕ) : List ℕ :=
  let r := fp.read (fill 512 0)
  if _h : r.count ≠ 0 then idx :: storeIndices r.file (idx + 1) else []
  termination_by fp.bytes.length - fp.pos
  decreasing_by exact Handle.read_shrinks fp (fill 512 0) _h

section Steps

variable {fp : Handle} {bm bm' : Bitmap} {file file' : FileBlock} {idx : ℕ} {off : UInt32}

lemma logBlocks_step (hcount : (fp.read (fill 512 0)).count ≠ 0)
    (halloc : fsAllocBlk bm = some (off, bm')) (hstore : storeOff file idx off = some file') :
    logBlocks fp bm file idx
      = (logBlocks (fp.read (fill 512 0)).file bm' file' (idx + 1)).map fun (bm, file, log) =>
        (bm, file, ⟨off, (fp.read (fill 512 0)).buffer⟩ :: log) := by
  rw [logBlocks]
  dsimp only
  rw [dif_pos hcount, halloc]
  simp only [Option.bind_eq_bind, Option.bind_some]
  rw [hstore, Option.bind_some]
  cases logBlocks (fp.read (fill 512 0)).file bm' file' (idx + 1) with
  | none => rfl
  | some res => rfl

lemma logBlocks_overrun (hcount : (fp.read (fill 512 0)).count ≠ 0)
    (hstore : ∀ off, storeOff file idx off = none) : logBlocks fp bm file idx = none := by
  obtain ⟨off, bm', halloc⟩ := fsAllocBlk_total bm
  rw [logBlocks]
  dsimp only
  rw [dif_pos hcount, halloc]
  simp only [Option.bind_eq_bind, Option.bind_some]
  rw [hstore, Option.bind_none]

lemma logBlocks_stop (hcount : ¬ (fp.read (fill 512 0)).count ≠ 0) :
    logBlocks fp bm file idx = some (bm, file, []) := by
  rw [logBlocks]
  dsimp only
  rw [dif_neg hcount]

end Steps

/-- **The loop** leaves on the disk what the log says. -/
lemma writeBlocks_log (fp : Handle) (bm : Bitmap) (file : FileBlock) (idx : ℕ) (disk : Handle) :
    writeBlocks fp bm file idx disk = (logBlocks fp bm file idx).map fun (bm, file, log) =>
      (bm, file, log.foldl BlockWrite.perform disk) := by
  induction fp, bm, file, idx using logBlocks.induct generalizing disk with
  | case1 fp bm file idx r hcount ih =>
      by_cases hidx : idx < 128
      · obtain ⟨off, bm', halloc⟩ := fsAllocBlk_total bm
        have hrest := ih bm' (write file (4 * idx) (le32 off))
          (BlockWrite.perform disk ⟨off, (fp.read (fill 512 0)).buffer⟩)
        rw [BlockWrite.perform_mk] at hrest
        rw [writeBlocks_step hcount halloc (storeOff_inside hidx),
          logBlocks_step hcount halloc (storeOff_inside hidx), hrest, Option.map_map]
        refine Option.map_congr fun ⟨_, _, log⟩ _ => ?_
        simp only [Function.comp_apply, List.foldl_cons, BlockWrite.perform_mk]
      · have hge : 128 ≤ idx := Nat.le_of_not_lt hidx
        rw [writeBlocks_overrun hcount hge,
          logBlocks_overrun hcount fun off => storeOff_outside hge]
        rfl
  | case2 fp bm file idx r hcount =>
      rw [writeBlocks_stop hcount, logBlocks_stop hcount]
      rfl

/-- **`fs_write_file`** leaves on the disk what the log says. -/
theorem fsWriteFile_log (bm : Bitmap) (dir : FileBlock) (path : CString) (content : List UInt8)
    (disk : Handle) :
    fsWriteFile bm dir path content disk = (logFile bm dir path content).map fun (bm, dir, log) =>
      (bm, dir, log.foldl BlockWrite.perform disk) := by
  rw [fsWriteFile, logFile]
  cases fsAllocFileInDir bm dir path (UInt32.ofNat content.length) with
  | none => rfl
  | some a =>
      simp only [Option.bind_eq_bind, Option.bind_some]
      rw [writeBlocks_log]
      cases logBlocks ⟨content, 0⟩ a.bm (fill 512 0xcc) 0 with
      | none => rfl
      | some res =>
          simp only [Option.map_some, Option.bind_some, List.foldl_append, List.foldl_cons,
            List.foldl_nil, BlockWrite.perform_mk]

/-! ## The blocks

The loop asks for a block in every round, and the inode takes one before.  So the blocks of a call
are what so many calls of `fs_alloc_blk` return, and `Fs/FirstFit` says what these are.
-/

section Loop

variable {content : List UInt8}

/-- **The loop takes its blocks one after the other**, and lists them in the inode. -/
lemma logBlocks_spec (hfit : blocksOf content ≤ 128) (d idx : ℕ) (bm : Bitmap) (file : FileBlock)
    (hd : idx + d = blocksOf content) :
    ∃ bm' file' log offs, logBlocks (sourceAt content idx) bm file idx = some (bm', file', log) ∧
      allocBlks d bm = some (offs, bm') ∧ log.map BlockWrite.block = offs ∧
        ∀ p, 4 * (idx + d) ≤ p → byteAt file' p = byteAt file p := by
  induction d generalizing idx bm file with
  | zero =>
      have hstop := @count_sourceAt_end content idx (Nat.le_of_eq hd.symm)
      exact ⟨bm, file, [], [], logBlocks_stop hstop, rfl, rfl, fun p _ => rfl⟩
  | succ d ih =>
      have hidx : idx < blocksOf content := by omega
      obtain ⟨off, bm₁, halloc⟩ := fsAllocBlk_total bm
      obtain ⟨bm', file', log, offs, hlog, hrest, hblocks, hkept⟩ :=
        ih (idx + 1) bm₁ (write file (4 * idx) (le32 off)) (by omega)
      refine ⟨bm', file', ⟨off, ((sourceAt content idx).read (fill 512 0)).buffer⟩ :: log,
        off :: offs, ?_, allocBlks_succ halloc hrest, ?_, fun p hp => ?_⟩
      · rw [logBlocks_step (count_sourceAt.mpr hidx) halloc (storeOff_inside (by omega)),
          file_sourceAt hidx, hlog]
        rfl
      · rw [List.map_cons, hblocks]
      · rw [hkept p (by omega), byteAt_write_of_disjoint _ _ _ (by rw [length_le32]; omega)]

/-- The directory that a call leaves is the one that `fs_alloc_file_in_dir` left. -/
lemma fsWriteFile_dir {bm : Bitmap} {dir : FileBlock} {path : CString} {a : AllocResult}
    (hcall : fsAllocFileInDir bm dir path (UInt32.ofNat content.length) = some a)
    (hfit : blocksOf content ≤ 128) (disk : Handle) :
    ∃ bm' disk', fsWriteFile bm dir path content disk = some (bm', a.dir, disk') := by
  obtain ⟨bm', file, log, offs, hlog, -⟩ :=
    logBlocks_spec hfit (blocksOf content) 0 a.bm (fill 512 0xcc) (Nat.zero_add _)
  rw [sourceAt_zero] at hlog
  refine ⟨bm', (log ++ [(⟨a.ret, file⟩ : BlockWrite)]).foldl BlockWrite.perform disk, ?_⟩
  rw [fsWriteFile_log, logFile, hcall]
  simp only [Option.bind_eq_bind, Option.bind_some, hlog, Option.map_some]

end Loop

/-- The blocks are blocks of the disk that were free and have been taken, each once. -/
structure OwnsBlocks (bm bm' : Bitmap) (blocks : List UInt32) : Prop where
  below : ∀ b ∈ blocks, b.toNat < 2 ^ 20
  clear : ∀ b ∈ blocks, fsGetBit bm b = some 0
  taken : ∀ b ∈ blocks, fsGetBit bm' b = some 1
  distinct : blocks.Nodup

lemma OwnsBlocks.perm {bm bm' : Bitmap} {l₁ l₂ : List UInt32} (h : OwnsBlocks bm bm' l₁)
    (hperm : l₁.Perm l₂) : OwnsBlocks bm bm' l₂ where
  below b hb := h.below b (hperm.mem_iff.mpr hb)
  clear b hb := h.clear b (hperm.mem_iff.mpr hb)
  taken b hb := h.taken b (hperm.mem_iff.mpr hb)
  distinct := hperm.nodup_iff.mp h.distinct

/-- **The blocks that `n` calls return are owned** if and only if there were `n` blocks. -/
lemma ownsBlocks_iff {n : ℕ} {bm bm' : Bitmap} {offs : List UInt32}
    (halloc : allocBlks n bm = some (offs, bm')) :
    OwnsBlocks bm bm' offs ↔ n ≤ (clearOffsets bm).length := by
  obtain ⟨bm'', hok, -, hbits⟩ := allocBlks_eq n bm
  rw [halloc] at hok
  obtain ⟨rfl, rfl⟩ := Prod.mk.inj (Option.some.inj hok)
  constructor
  · intro howns
    by_contra hfew
    have herror : (0xffffffff : UInt32) ∈ returned n (clearOffsets bm) := by
      refine List.mem_append_right _ (List.mem_replicate.mpr ⟨?_, rfl⟩)
      exact Nat.sub_ne_zero_of_lt (Nat.lt_of_not_le hfew)
    exact absurd (howns.below _ herror) (by decide)
  · intro hle
    have heq : returned n (clearOffsets bm) = ((clearOffsets bm).take n).map UInt32.ofNat := by
      rw [returned, Nat.sub_eq_zero_of_le hle, List.replicate_zero, List.append_nil]
    have hfree : ∀ k ∈ (clearOffsets bm).take n, k < 1048576 ∧ bit bm k = false :=
      fun k hk => mem_clearOffsets.mp (List.mem_of_mem_take hk)
    have hval : ∀ k ∈ (clearOffsets bm).take n, (UInt32.ofNat k).toNat = k := by
      intro k hk
      have hlt := (hfree k hk).1
      exact toNat_ofNat (by omega)
    rw [heq]
    refine ⟨fun b hb => ?_, fun b hb => ?_, fun b hb => ?_, ?_⟩
    · obtain ⟨k, hk, rfl⟩ := List.mem_map.mp hb
      rw [hval k hk]
      exact (hfree k hk).1
    · obtain ⟨k, hk, rfl⟩ := List.mem_map.mp hb
      rw [fsGetBit_ofNat _ (hfree k hk).1, (hfree k hk).2]
      rfl
    · obtain ⟨k, hk, rfl⟩ := List.mem_map.mp hb
      rw [fsGetBit_ofNat _ (hfree k hk).1, hbits k, decide_eq_true hk, Bool.or_true]
      rfl
    · refine List.Nodup.map_on (fun i hi j hj hij => ?_)
        (Pool.free_nodup.sublist (List.take_sublist _ _))
      rw [← hval i hi, hij, hval j hj]

/-- **The log of `fs_write_file`.**  The inode is written last, and its block has been taken first,
unless the directory had no slot. -/
lemma logFile_spec (bm : Bitmap) (dir : FileBlock) (path : CString) (content : List UInt8)
    (hpath : path.length < 24) (hfit : blocksOf content ≤ 128) :
    ∃ bm' dir' log, logFile bm dir path content = some (bm', dir', log) ∧
      ((∃ i, FirstSlot dir i) ∧ (∃ offs, allocBlks (blocksOf content + 1) bm = some (offs, bm') ∧
          offs.Perm (log.map BlockWrite.block)) ∨
        NoSlot dir ∧ 0xffffffff ∈ log.map BlockWrite.block) := by
  rcases fsAllocFileInDir_spec bm dir (UInt32.ofNat content.length) hpath with
    ⟨i, off, bm₁, hslot, halloc, hcall⟩ | ⟨hnone, hcall⟩
  · obtain ⟨bm', file, log, offs, hlog, hrest, hblocks, -⟩ :=
      logBlocks_spec hfit (blocksOf content) 0 bm₁ (fill 512 0xcc) (Nat.zero_add _)
    rw [sourceAt_zero] at hlog
    refine ⟨bm', fillSlot dir i path (UInt32.ofNat content.length) off, log ++ [⟨off, file⟩], ?_,
      Or.inl ⟨⟨i, hslot⟩, off :: offs, allocBlks_succ halloc hrest, ?_⟩⟩
    · rw [logFile, hcall]
      simp only [Option.bind_eq_bind, Option.bind_some, hlog]
    · rw [List.map_append, hblocks]
      exact (List.perm_append_singleton off offs).symm
  · obtain ⟨bm', file, log, offs, hlog, -⟩ :=
      logBlocks_spec hfit (blocksOf content) 0 bm (fill 512 0xcc) (Nat.zero_add _)
    rw [sourceAt_zero] at hlog
    refine ⟨bm', dir, log ++ [⟨0xffffffff, file⟩], ?_, Or.inr ⟨hnone, by simp⟩⟩
    rw [logFile, hcall]
    simp only [Option.bind_eq_bind, Option.bind_some, hlog]

/-- **`fs_write_file` writes only to its own blocks, exactly if it finds a slot and enough blocks.**
Otherwise `0xffffffff` is taken for a block, and written to. -/
theorem writes_own_blocks_iff (bm : Bitmap) (dir : FileBlock) (path : CString)
    (content : List UInt8) (hpath : path.length < 24) (hfit : blocksOf content ≤ 120) :
    ∃ bm' dir' log, logFile bm dir path content = some (bm', dir', log) ∧
      (∀ disk, fsWriteFile bm dir path content disk
        = some (bm', dir', log.foldl BlockWrite.perform disk)) ∧
      (OwnsBlocks bm bm' (log.map BlockWrite.block) ↔
        (∃ i < 15, word dir (inodeOff i) ≠ 0xffffffff) ∧
          blocksOf content + 1 ≤ (clearOffsets bm).length) := by
  obtain ⟨bm', dir', log, hlog, hblocks⟩ := logFile_spec bm dir path content hpath (by omega)
  refine ⟨bm', dir', log, hlog, fun disk => by rw [fsWriteFile_log, hlog]; rfl, ?_⟩
  rcases hblocks with ⟨⟨i, hslot⟩, offs, halloc, hperm⟩ | ⟨hnone, herror⟩
  · have hfree : ∃ i < 15, word dir (inodeOff i) ≠ 0xffffffff := ⟨i, hslot.lt, hslot.free⟩
    rw [and_iff_right hfree, ← ownsBlocks_iff halloc]
    exact ⟨fun howns => howns.perm hperm.symm, fun howns => howns.perm hperm⟩
  · refine iff_of_false (fun howns => absurd (howns.below _ herror) (by decide)) ?_
    rintro ⟨⟨i, hi, hslot⟩, -⟩
    exact hslot (hnone i hi)

/-- One byte, on a disk as `main` of `format.c` prepares it: both of its writes go to blocks of
its own. -/
theorem writes_own_blocks_one : ∃ bm bm' dir' log, (∀ k < 257, bit bm k = true) ∧
    logFile bm (fill 512 0) ⟨[97], by simp⟩ [1] = some (bm', dir', log) ∧
      OwnsBlocks bm bm' (log.map BlockWrite.block) := by
  obtain ⟨bm₁, -, hused₁⟩ := reserve_spec 256 0 _ usedBelow_fill (by omega)
  obtain ⟨bm, -, hused⟩ := hused₁.alloc (by omega)
  obtain ⟨bm', dir', log, hlog, -, hiff⟩ := writes_own_blocks_iff bm (fill 512 0) ⟨[97], by simp⟩
    [1] (by simp [CString.length]) (by decide)
  have hsub : [257, 258] ⊆ clearOffsets bm := by
    intro k hk
    rw [mem_clearOffsets, hused k]
    simp only [List.mem_cons, List.not_mem_nil, or_false] at hk
    rcases hk with rfl | rfl <;> exact ⟨by omega, by decide⟩
  refine ⟨bm, bm', dir', log, fun k hk => ?_, hlog, hiff.mpr ⟨⟨0, by decide, ?_⟩, ?_⟩⟩
  · rw [hused k, decide_eq_true hk]
  · rw [word_inodeOff_fill 0 (by decide)]
    decide
  · exact (List.subperm_of_subset (by decide) hsub).length_le

/-- One byte, on a full disk: the error value is taken for a block. -/
theorem writes_own_blocks_fails : (∀ k < 257, bit (fill 131072 255) k = true) ∧
    ∃ bm' dir' log, logFile (fill 131072 255) (fill 512 0) ⟨[97], by simp⟩ [1]
        = some (bm', dir', log) ∧
      (∃ w ∈ log, w.block = 0xffffffff) ∧
        ¬ OwnsBlocks (fill 131072 255) bm' (log.map BlockWrite.block) := by
  have hfull : clearOffsets (fill 131072 255) = [] := by
    rw [List.eq_nil_iff_forall_not_mem]
    intro k hk
    obtain ⟨hlt, hclear⟩ := mem_clearOffsets.mp hk
    rw [bit_fill_ones (by omega)] at hclear
    cases hclear
  obtain ⟨bm', dir', log, hlog, hblocks⟩ := logFile_spec (fill 131072 255) (fill 512 0)
    ⟨[97], by simp⟩ [1] (by simp [CString.length]) (by decide)
  have herror : 0xffffffff ∈ log.map BlockWrite.block := by
    rcases hblocks with ⟨-, offs, halloc, hperm⟩ | ⟨-, herror⟩
    · rw [allocBlks_full hfull] at halloc
      obtain ⟨rfl, -⟩ := Prod.mk.inj (Option.some.inj halloc)
      exact hperm.mem_iff.mp (List.mem_replicate.mpr ⟨by decide, rfl⟩)
    · exact herror
  refine ⟨fun k hk => bit_fill_ones (by omega), bm', dir', log, hlog, List.mem_map.mp herror, ?_⟩
  exact fun howns => absurd (howns.below _ herror) (by decide)

/-! ## The inode

The array of the inode has 120 entries in a block that has room for 128.  A file that is a little
too long overruns the array and stays inside of the block, where it overwrites the filling that ends
the list.
-/

section Inode

variable {content : List UInt8}

lemma mem_storeIndices (d idx : ℕ) (hd : idx + d = blocksOf content) (j : ℕ) :
    j ∈ storeIndices (sourceAt content idx) idx ↔ idx ≤ j ∧ j < blocksOf content := by
  induction d generalizing idx with
  | zero =>
      have hstop := @count_sourceAt_end content idx (Nat.le_of_eq hd.symm)
      rw [storeIndices, dif_neg hstop]
      exact iff_of_false List.not_mem_nil (by omega)
  | succ d ih =>
      have hidx : idx < blocksOf content := by omega
      rw [storeIndices, dif_pos (count_sourceAt.mpr hidx), file_sourceAt hidx, List.mem_cons,
        ih (idx + 1) (by omega)]
      omega

end Inode

/-- **The inode's array is not overrun, exactly for files of at most 120 blocks.**  Then its last
32 bytes keep their filling, and end the list for `extract`. -/
theorem inode_bounded_iff (content : List UInt8) :
    ((∀ idx ∈ storeIndices ⟨content, 0⟩ 0, idx < 120) ∧
      ∀ bm disk, ∃ bm' file disk', writeBlocks ⟨content, 0⟩ bm (fill 512 0xcc) 0 disk
          = some (bm', file, disk') ∧
        (∀ i, 480 ≤ i → i < 512 → byteAt file i = 0xcc) ∧
        ∃ j ≤ 120, word file (4 * j) = 0xcccccccc) ↔
      blocksOf content ≤ 120 := by
  rw [← sourceAt_zero]
  constructor
  · rintro ⟨hall, -⟩
    by_contra hlong
    have hmem : 120 ∈ storeIndices (sourceAt content 0) 0 :=
      (mem_storeIndices _ 0 (Nat.zero_add _) 120).mpr ⟨Nat.zero_le _, by omega⟩
    exact absurd (hall 120 hmem) (by decide)
  · intro hfit
    refine ⟨fun idx hidx => ?_, fun bm disk => ?_⟩
    · have hlt := ((mem_storeIndices (blocksOf content) 0 (Nat.zero_add _) idx).mp hidx).2
      omega
    · obtain ⟨bm', file, log, offs, hlog, -, -, hkept⟩ :=
        logBlocks_spec (by omega) (blocksOf content) 0 bm (fill 512 0xcc) (Nat.zero_add _)
      refine ⟨bm', file, _, by rw [writeBlocks_log, hlog]; rfl, fun i hlo hhi => ?_, 120, le_rfl,
        ?_⟩
      · rw [hkept i (by omega), byteAt_fill 0xcc hhi]
      · have hword : word file (4 * 120) = word (fill 512 0xcc) (4 * 120) :=
          word_congr fun i hi => hkept _ (by omega)
        rw [hword, word_fill 0xcc (by decide)]
        rfl

/-- A file that is one byte too long: index 120 of the array is used, which it does not have. -/
theorem inode_bounded_fails : 120 ∈ storeIndices ⟨List.replicate 61441 0, 0⟩ 0 := by
  have hblocks : blocksOf (List.replicate 61441 0) = 121 := by
    rw [blocksOf, List.length_replicate]
  rw [← sourceAt_zero, mem_storeIndices _ 0 (Nat.zero_add _), hblocks]
  omega

end ScratchOs
