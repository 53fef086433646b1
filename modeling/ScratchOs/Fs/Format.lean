import ScratchOs.Core.Files
import ScratchOs.Fs.Directory

/-!
# Writing a disk

`fs-test/format.c`: a disk with one file.  The bitmap lies in blocks 0 to 255 and the directory in
block 256; the first block taken after that is the inode, and the blocks of the file follow.

* `UsedBelow` — the shape the bitmap has all the time: full up to a block, free from there.
* `BlocksWritten` — the invariant of the loop of `fs_write_file`.
* **`formatMain_spec`** — the disk of a file that fits is `Formatted`: where its directory, its
  inode and its bytes are.

**Files and paths.**  `formatMain` is `main` on the contents of its files, and `genDisk` is the same
run on a file system.  The difference matters: the disk is opened, and with that emptied, before the
source file is opened.  Where both are the same file the source has nothing in it any more.

**What is assumed** is that the name fits its field and that the blocks fit the 512 bytes of an
inode, which makes 128 of them.  And `main` passes on a directory of which it has only set the name;
what the rest of it holds is a parameter, since the variable is not initialised.  The results are
for a `dir` that reads as empty.
-/

namespace ScratchOs

open Bytes Files Words

/-! ## The program

The functions of `fs-test/format.c`, with the files they have open as handles.
-/

/-- `file.fs_inode_off[idx] = off`, inside of the block. -/
def storeOff (file : FileBlock) (idx : ℕ) (off : UInt32) : Option FileBlock :=
  if 4 * idx + 4 ≤ 512 then some (write file (4 * idx) (le32 off)) else none

/-- The loop of `fs_write_file`: read a block of the source, take a block of the disk, write it. -/
def writeBlocks (fp : Handle) (bm : Bitmap) (file : FileBlock) (idx : ℕ) (disk : Handle) :
    Option (Bitmap × FileBlock × Handle) :=
  let r := fp.read (fill 512 0)
  if _h : r.count ≠ 0 then do
    let (off, bm) ← fsAllocBlk bm
    let file ← storeOff file idx off
    let disk := (disk.seek (off * 512).toNat).writeBuffer r.buffer
    writeBlocks r.file bm file (idx + 1) disk
  else
    some (bm, file, disk)
  termination_by fp.bytes.length - fp.pos
  decreasing_by exact Handle.read_shrinks fp (fill 512 0) _h

/-- `fs_write_file`, with the contents of the source file: allocate the file, write its blocks,
then write its inode. -/
def fsWriteFile (bm : Bitmap) (dir : FileBlock) (filename : CString) (content : List UInt8)
    (disk : Handle) : Option (Bitmap × FileBlock × Handle) := do
  let a ← fsAllocFileInDir bm dir filename (UInt32.ofNat content.length)
  let (bm, file, disk) ← writeBlocks ⟨content, 0⟩ a.bm (fill 512 0xcc) 0 disk
  let disk := (disk.seek (a.ret * 512).toNat).writeBuffer file
  some (bm, a.dir, disk)

/-- The loop of `main` that reserves the blocks of the bitmap itself. -/
def reserve (bm : Bitmap) (idx : UInt32) (size : ℕ) : Option Bitmap :=
  if size ≠ 0 then do
    let bm ← fsSetBit bm idx 1
    reserve bm (idx + 1) (size - 512)
  else
    some bm
  termination_by size

/-- The string `"hello"`. -/
def hello : CString := ⟨[104, 101, 108, 108, 111], by simp⟩

/-- `main` of `format.c` on its files: from what its local `dir` happens to hold, the path it is
given, and what the file at that path holds when `fs_write_file` opens it.  The result is the
contents of `a.disk`.

`a.disk` has been opened, and with that emptied, by then.  `genDisk` says what the path holds at
that moment. -/
def formatMain (dir : FileBlock) (path : CString) (content : List UInt8) : Option (List UInt8) := do
  let size := ((131072 - 1) / 512 + 1) * 512
  let bm ← reserve (fill 131072 0) 0 size
  let dir ← strcpy dir 0 hello
  let (_, bm) ← fsAllocBlk bm
  let (bm, dir, fp) ← fsWriteFile bm dir path content ⟨[], 0⟩
  let fp := ((fp.seek 0).writeBuffer bm).writeBuffer dir
  some fp.bytes

/-- The path `"a.disk"`. -/
def aDisk : CString := ⟨[97, 46, 100, 105, 115, 107], by simp⟩

/-- A run of `gen-disk`, which is `main` of `format.c`, on the files of a machine.  The disk is
opened with `"wb"` before the source file is opened.  A source file that is not there gives a null
pointer, which `fseek` must not be called with. -/
def genDisk (fs : FileSystem CString) (dir : FileBlock) (path : CString) :
    Option (FileSystem CString) := do
  let fs := fs.put aDisk []
  let content ← fs.get path
  let image ← formatMain dir path content
  some (fs.put aDisk image)

/-! ## The bitmap

In `format` no block is ever given back, so the blocks in use are those below some number, and the
search of `fs_alloc_blk` finds that number.
-/

/-- The blocks below `m` are in use, the others are free. -/
def UsedBelow (bm : Bitmap) (m : ℕ) : Prop := ∀ k, bit bm k = decide (k < m)

lemma usedBelow_fill : UsedBelow (fill 131072 0) 0 := fun k => by simp [bit_fill_zero]

/-- Setting the bit of the first free block. -/
lemma UsedBelow.setBit {bm : Bitmap} {m : ℕ} (h : UsedBelow bm m) (hm : m < 1048576) :
    ∃ bm', fsSetBit bm (UInt32.ofNat m) 1 = some bm' ∧ UsedBelow bm' (m + 1) := by
  have hval : (UInt32.ofNat m).toNat = m := toNat_ofNat (by omega)
  obtain ⟨bm', hok, hbits⟩ := bit_fsSetBit bm (UInt32.ofNat m) 1 (by omega)
  refine ⟨bm', hok, fun k => ?_⟩
  rw [hbits k, hval, h k]
  by_cases hk : k = m
  · subst hk
    simp
  · have hiff : k < m ↔ k < m + 1 := by omega
    simp [hk, hiff]

/-- The next block that is taken is the first free one. -/
lemma UsedBelow.alloc {bm : Bitmap} {m : ℕ} (h : UsedBelow bm m) (hm : m < 1048576) :
    ∃ bm', fsAllocBlk bm = some (UInt32.ofNat m, bm') ∧ UsedBelow bm' (m + 1) := by
  have hfree : bit bm m = false := by rw [h m, decide_eq_false (Nat.lt_irrefl m)]
  rcases fsAllocBlk_spec bm with ⟨k, bm', hok, hfit⟩ | ⟨hfull, -⟩
  · have hge : m ≤ k := by
      have hk := hfit.free
      rw [h k, decide_eq_false_iff_not] at hk
      omega
    have hle : k ≤ m := by
      by_contra hlt
      rw [hfit.least m (by omega)] at hfree
      cases hfree
    obtain rfl : k = m := Nat.le_antisymm hle hge
    refine ⟨bm', hok, fun j => ?_⟩
    rw [hfit.taken j, h j]
    by_cases hj : j = k
    · subst hj
      simp
    · have hiff : j < k ↔ j < k + 1 := by omega
      simp [hj, hiff]
  · rw [hfull m hm] at hfree
    cases hfree

/-- The loop of `main` takes a block for every 512 bytes. -/
lemma reserve_spec (n m : ℕ) (bm : Bitmap) (h : UsedBelow bm m) (hm : m + n ≤ 1048576) :
    ∃ bm', reserve bm (UInt32.ofNat m) (n * 512) = some bm' ∧ UsedBelow bm' (m + n) := by
  induction n generalizing m bm with
  | zero =>
      rw [reserve, if_neg (by simp)]
      exact ⟨bm, rfl, h⟩
  | succ n ih =>
      obtain ⟨bm₁, hset, h₁⟩ := h.setBit (by omega)
      obtain ⟨bm', hrest, h'⟩ := ih (m + 1) bm₁ h₁ (by omega)
      refine ⟨bm', ?_, by rw [show m + (n + 1) = m + 1 + n by omega]; exact h'⟩
      rw [reserve, if_pos (by omega), hset]
      simp only [Option.bind_eq_bind, Option.bind_some]
      rw [show (n + 1) * 512 - 512 = n * 512 by omega, ← hrest, UInt32.ofNat_add]
      rfl

/-! ## The loop of `fs_write_file`

Each round reads a block of the source, takes a block of the disk and puts its number into the
inode.  The invariant says what the three of them have come to.
-/

section Steps

variable {fp : Handle} {bm bm' : Bitmap} {file file' : FileBlock} {idx : ℕ} {off : UInt32}
  {disk : Handle}

lemma storeOff_inside (h : idx < 128) : storeOff file idx off
    = some (write file (4 * idx) (le32 off)) := if_pos (by omega)

lemma storeOff_outside (h : 128 ≤ idx) : storeOff file idx off = none := if_neg (by omega)

lemma writeBlocks_step (hcount : (fp.read (fill 512 0)).count ≠ 0)
    (halloc : fsAllocBlk bm = some (off, bm')) (hstore : storeOff file idx off = some file') :
    writeBlocks fp bm file idx disk
      = writeBlocks (fp.read (fill 512 0)).file bm' file' (idx + 1)
        ((disk.seek (off * 512).toNat).writeBuffer (fp.read (fill 512 0)).buffer) := by
  rw [writeBlocks]
  dsimp only
  rw [dif_pos hcount, halloc]
  simp only [Option.bind_eq_bind, Option.bind_some]
  rw [hstore, Option.bind_some]

lemma writeBlocks_overrun (hcount : (fp.read (fill 512 0)).count ≠ 0) (hidx : 128 ≤ idx) :
    writeBlocks fp bm file idx disk = none := by
  obtain ⟨off, bm', halloc⟩ := fsAllocBlk_total bm
  rw [writeBlocks]
  dsimp only
  rw [dif_pos hcount, halloc]
  simp only [Option.bind_eq_bind, Option.bind_some]
  rw [storeOff_outside hidx, Option.bind_none]

lemma writeBlocks_stop (hcount : ¬ (fp.read (fill 512 0)).count ≠ 0) :
    writeBlocks fp bm file idx disk = some (bm, file, disk) := by
  rw [writeBlocks]
  dsimp only
  rw [dif_neg hcount]

end Steps

/-- How many blocks a file takes, the last of them in part. -/
def blocksOf (content : List UInt8) : ℕ := (content.length + 511) / 512

/-- The source file after `idx` rounds have read from it. -/
def sourceAt (content : List UInt8) (idx : ℕ) : Handle :=
  ⟨content, min (512 * idx) content.length⟩

lemma sourceAt_zero (content : List UInt8) : sourceAt content 0 = ⟨content, 0⟩ := by
  rw [sourceAt, Nat.mul_zero, Nat.zero_min]

section Source

variable {content : List UInt8} {idx : ℕ}

/-- **A round is made** for every block of the source. -/
lemma count_sourceAt : ((sourceAt content idx).read (fill 512 0)).count ≠ 0 ↔
    idx < blocksOf content := by
  show min 512 (content.length - min (512 * idx) content.length) ≠ 0 ↔ _
  rw [blocksOf]
  omega

/-- No round is made at the end of the source. -/
lemma count_sourceAt_end (h : blocksOf content ≤ idx) :
    ¬ ((sourceAt content idx).read (fill 512 0)).count ≠ 0 :=
  mt count_sourceAt.mp (Nat.not_lt_of_le h)

lemma file_sourceAt (h : idx < blocksOf content) :
    ((sourceAt content idx).read (fill 512 0)).file = sourceAt content (idx + 1) := by
  rw [blocksOf] at h
  show Handle.mk content (min (512 * idx) content.length
    + min 512 (content.length - min (512 * idx) content.length)) = _
  rw [sourceAt]
  congr 1
  omega

/-- What a round reads: the next 512 bytes, filled up with zeros at the end. -/
lemma buffer_sourceAt (h : idx < blocksOf content) {i : ℕ} (hi : i < 512) :
    byteAt ((sourceAt content idx).read (fill 512 0)).buffer i
      = (content[512 * idx + i]?).getD 0 := by
  rw [blocksOf] at h
  rw [byteAt_of_lt _ hi]
  show (content[min (512 * idx) content.length + i]?).getD 0 = _
  rw [Nat.min_eq_left (by omega)]

end Source

/-- The loop of `fs_write_file` after `idx` rounds: what it has read, which blocks are taken,
what the inode lists, and what is on the disk. -/
structure BlocksWritten (content : List UInt8) (idx : ℕ) (fp : Handle) (bm : Bitmap)
    (file : FileBlock) (disk : Handle) : Prop where
  source : fp = ⟨content, min (512 * idx) content.length⟩
  used : UsedBelow bm (258 + idx)
  listed : ∀ j < idx, word file (4 * j) = UInt32.ofNat (258 + j)
  rest : ∀ j, idx ≤ j → j < 128 → word file (4 * j) = 0xcccccccc
  data : ∀ t < 512 * idx, disk.bytes[132096 + t]? = some ((content[t]?).getD 0)

section Loop

variable {content : List UInt8} {idx : ℕ} {fp : Handle} {bm : Bitmap} {file : FileBlock}
  {disk : Handle}

/-- The loop starts with the inode cleared to `0xcc`. -/
lemma blocksWritten_zero (h : UsedBelow bm 258) :
    BlocksWritten content 0 ⟨content, 0⟩ bm (fill 512 0xcc) disk where
  source := by rw [Nat.mul_zero, Nat.zero_min]
  used := h
  listed j hj := absurd hj (Nat.not_lt_zero j)
  rest j _ hj := by
    rw [word_fill 0xcc (by omega)]
    rfl
  data t ht := absurd ht (by omega)

lemma toNat_block {m : ℕ} (hm : m < 8388608) : (UInt32.ofNat m * 512).toNat = m * 512 := by
  rw [UInt32.toNat_mul, UInt32.toNat_ofNat', show (512 : UInt32).toNat = 512 from rfl]
  omega

/-- **One round** writes the next block. -/
lemma BlocksWritten.round (h : BlocksWritten content idx fp bm file disk)
    (hidx : idx < blocksOf content) (hfit : idx < 128) :
    ∃ fp' bm' file' disk', writeBlocks fp bm file idx disk
        = writeBlocks fp' bm' file' (idx + 1) disk' ∧
      BlocksWritten content (idx + 1) fp' bm' file' disk' := by
  obtain rfl : fp = sourceAt content idx := h.source
  obtain ⟨bm', halloc, hused⟩ := h.used.alloc (by omega)
  refine ⟨_, _, _, _, writeBlocks_step (count_sourceAt.mpr hidx) halloc (storeOff_inside hfit),
    file_sourceAt hidx, hused, fun j hj => ?_, fun j hj hlt => ?_, fun t ht => ?_⟩
  · by_cases hlast : j = idx
    · rw [hlast, word_write_le32 _ _ (by omega)]
    · rw [word_write_of_disjoint _ (by rw [length_le32]; omega), h.listed j (by omega)]
  · rw [word_write_of_disjoint _ (by rw [length_le32]; omega), h.rest j (by omega) hlt]
  · rw [toNat_block (by omega), Handle.getElem?_seek_writeBuffer _ _ _ (by decide)]
    by_cases hold : t < 512 * idx
    · rw [if_pos (by omega), h.data t hold]
      rfl
    · rw [if_neg (by omega), if_pos (by omega), buffer_sourceAt hidx (by omega)]
      congr 3
      omega

/-- The loop stops when the source is at its end. -/
lemma BlocksWritten.stop (h : BlocksWritten content (blocksOf content) fp bm file disk) :
    writeBlocks fp bm file (blocksOf content) disk = some (bm, file, disk) := by
  obtain rfl : fp = sourceAt content (blocksOf content) := h.source
  exact writeBlocks_stop (count_sourceAt_end le_rfl)

/-- **The loop of `fs_write_file`** writes the whole file, when it fits into an inode. -/
lemma BlocksWritten.run (hfit : blocksOf content ≤ 128) (d : ℕ)
    (h : BlocksWritten content idx fp bm file disk) (hd : idx + d = blocksOf content) :
    ∃ fp' bm' file' disk', writeBlocks fp bm file idx disk = some (bm', file', disk') ∧
      BlocksWritten content (blocksOf content) fp' bm' file' disk' := by
  induction d generalizing idx fp bm file disk with
  | zero =>
      obtain rfl : idx = blocksOf content := hd
      exact ⟨fp, bm, file, disk, h.stop, h⟩
  | succ d ih =>
      obtain ⟨fp', bm', file', disk', heq, h'⟩ := h.round (by omega) (by omega)
      obtain ⟨fp'', bm'', file'', disk'', hok, h''⟩ := ih h' (by omega)
      exact ⟨fp'', bm'', file'', disk'', heq.trans hok, h''⟩

end Loop

/-! ## The disk

The blocks of the file have been written before the bitmap and the directory are, from block 257
on.  Writing these last leaves the blocks behind them alone.
-/

/-- Where everything is on the disk of one file: its slot in the directory, the other slots free,
its list of blocks in block 257, its bytes from block 258 on. -/
structure Formatted (content image : List UInt8) : Prop where
  directory : ∃ root : FileBlock, (∀ i < 512, image[131072 + i]? = some (byteAt root i)) ∧
    word root (inodeOff 0) = 257 ∧ word root (sizeOff 0) = UInt32.ofNat content.length ∧
    ∀ i, 0 < i → i < 15 → word root (inodeOff i) = 0
  inode : ∃ file : FileBlock, (∀ i < 512, image[131584 + i]? = some (byteAt file i)) ∧
    (∀ j < blocksOf content, word file (4 * j) = UInt32.ofNat (258 + j)) ∧
    ∀ j, blocksOf content ≤ j → j < 128 → word file (4 * j) = 0xcccccccc
  data : ∀ t < 512 * blocksOf content, image[132096 + t]? = some ((content[t]?).getD 0)

/-- `fs_write_file` on a disk that is empty so far, after the first 257 blocks have been taken. -/
lemma fsWriteFile_spec {bm : Bitmap} {dir : FileBlock} {path : CString} (content : List UInt8)
    (disk : Handle) (hused : UsedBelow bm 257) (hslot : word dir (inodeOff 0) ≠ 0xffffffff)
    (hpath : path.length < 24) (hfit : blocksOf content ≤ 128) :
    ∃ bm' disk', ∃ file : FileBlock, fsWriteFile bm dir path content disk
        = some (bm', fillSlot dir 0 path (UInt32.ofNat content.length) 257, disk') ∧
      (∀ i < 512, disk'.bytes[131584 + i]? = some (byteAt file i)) ∧
      (∀ j < blocksOf content, word file (4 * j) = UInt32.ofNat (258 + j)) ∧
      (∀ j, blocksOf content ≤ j → j < 128 → word file (4 * j) = 0xcccccccc) ∧
      ∀ t < 512 * blocksOf content, disk'.bytes[132096 + t]? = some ((content[t]?).getD 0) := by
  obtain ⟨bm₁, halloc, hused₁⟩ := hused.alloc (by omega)
  have hcall := fsAllocFileInDir_of_used (UInt32.ofNat content.length) hslot hpath halloc
  have hstart : BlocksWritten content 0 ⟨content, 0⟩ bm₁ (fill 512 0xcc) disk :=
    blocksWritten_zero hused₁
  obtain ⟨fp', bm', file, disk', hloop, hwritten⟩ :=
    hstart.run hfit (blocksOf content) (Nat.zero_add _)
  have hinode : (UInt32.ofNat 257 * 512).toNat = 131584 := toNat_block (by omega)
  refine ⟨bm', (disk'.seek 131584).writeBuffer file, file, ?_, fun i hi => ?_, hwritten.listed,
    hwritten.rest, fun t ht => ?_⟩
  · rw [fsWriteFile, hcall]
    simp only [Option.bind_eq_bind, Option.bind_some, hloop, hinode]
    rfl
  · rw [Handle.getElem?_seek_writeBuffer _ _ _ (by decide), if_neg (by omega), if_pos (by omega),
      Nat.add_sub_cancel_left]
  · rw [Handle.getElem?_seek_writeBuffer _ _ _ (by decide), if_neg (by omega), if_neg (by omega),
      hwritten.data t ht]

/-- The directory `main` passes on: `dir` with its name. -/
def named (dir : FileBlock) : FileBlock := write dir 0 (hello.bytes ++ [0])

/-- The name does not reach the slots. -/
lemma word_named (dir : FileBlock) (i : ℕ) :
    word (named dir) (inodeOff i) = word dir (inodeOff i) := by
  have hoff := (offsets i).2.2
  have hlen : (hello.bytes ++ [0]).length = 6 := rfl
  rw [named, word_write_of_disjoint _ (by omega)]

lemma bind_map {α β γ δ : Type} (x : Option (α × β × γ)) (f : α → β → γ → δ) :
    (do let (a, b, c) ← x; some (f a b c)) = x.map fun (a, b, c) => f a b c := by
  cases x <;> rfl

/-- **`main` of `format.c`** up to its end: the blocks of the bitmap and of the directory are
taken, and the file is written.  Last of all the bitmap and the directory are put before it. -/
lemma formatMain_eq (dir : FileBlock) (path : CString) (content : List UInt8) :
    ∃ bm, UsedBelow bm 257 ∧ formatMain dir path content
      = (fsWriteFile bm (named dir) path content ⟨[], 0⟩).map fun (bm, dir, fp) =>
        (((fp.seek 0).writeBuffer bm).writeBuffer dir).bytes := by
  obtain ⟨bm₁, hreserve, hused₁⟩ := reserve_spec 256 0 _ usedBelow_fill (by omega)
  obtain ⟨bm₂, halloc, hused₂⟩ := hused₁.alloc (by omega)
  have hcopy : strcpy dir 0 hello = some (named dir) := if_pos (by decide)
  have hsize : ((131072 - 1) / 512 + 1) * 512 = 256 * 512 := rfl
  refine ⟨bm₂, hused₂, ?_⟩
  rw [formatMain]
  dsimp only
  rw [hsize, show reserve _ 0 (256 * 512) = _ from hreserve, Option.bind_eq_bind, Option.bind_some,
    hcopy, Option.bind_eq_bind, Option.bind_some, halloc, Option.bind_eq_bind, Option.bind_some]
  exact bind_map _ fun bm dir fp => (((Handle.seek fp 0).writeBuffer bm).writeBuffer dir).bytes

section Front

variable (disk : Handle) (bm : Bitmap) (dir : FileBlock) {i : ℕ}

/-- The directory is written behind the bitmap. -/
lemma getElem?_front (hi : i < 512) :
    (((disk.seek 0).writeBuffer bm).writeBuffer dir).bytes[131072 + i]? = some (byteAt dir i) := by
  have hpos : ((disk.seek 0).writeBuffer bm).pos = 131072 :=
    (Handle.pos_writeBuffer _ bm (by decide)).trans (Nat.zero_add 131072)
  rw [Handle.getElem?_writeBuffer _ _ (by decide), hpos, if_neg (by omega), if_pos (by omega),
    Nat.add_sub_cancel_left]

/-- Behind the directory the disk stays. -/
lemma getElem?_behind (hi : 131584 ≤ i) :
    (((disk.seek 0).writeBuffer bm).writeBuffer dir).bytes[i]? = disk.bytes[i]? := by
  have hpos : ((disk.seek 0).writeBuffer bm).pos = 131072 :=
    (Handle.pos_writeBuffer _ bm (by decide)).trans (Nat.zero_add 131072)
  rw [Handle.getElem?_writeBuffer _ _ (by decide), hpos, if_neg (by omega), if_neg (by omega),
    Handle.getElem?_seek_writeBuffer _ _ _ (by decide), if_neg (by omega), if_neg (by omega)]

end Front

/-- The directory reads as empty, and its first slot is not one the code passes by. -/
structure ReadsEmpty (dir : FileBlock) : Prop where
  first : word dir (inodeOff 0) ≠ 0xffffffff
  rest : ∀ i, 0 < i → i < 15 → word dir (inodeOff i) = 0

lemma readsEmpty_fill : ReadsEmpty (fill 512 0) where
  first := by
    rw [word_inodeOff_fill 0 (by decide)]
    decide
  rest i _ hi := word_inodeOff_fill i hi

/-- **`main` of `format.c`**, from a `dir` that reads as empty, makes a formatted disk of any
file that fits. -/
theorem formatMain_spec {dir : FileBlock} {path : CString} (content : List UInt8)
    (hdir : ReadsEmpty dir) (hpath : path.length < 24) (hfit : blocksOf content ≤ 128) :
    ∃ image, formatMain dir path content = some image ∧ Formatted content image ∧
      ∀ i < 512, image[131072 + i]?
        = some (byteAt (fillSlot (named dir) 0 path (UInt32.ofNat content.length) 257) i) := by
  obtain ⟨bm, hused, hmain⟩ := formatMain_eq dir path content
  obtain ⟨bm', disk, file, hwrite, hfile, hlisted, hrest, hdata⟩ :=
    fsWriteFile_spec content ⟨[], 0⟩ hused (by rw [word_named]; exact hdir.first) hpath hfit
  rw [hwrite, Option.map_some] at hmain
  -- the bitmap and the directory are written last, below block 257
  have hroot := fun i (hi : i < 512) => getElem?_front disk bm'
    (fillSlot (named dir) 0 path (UInt32.ofNat content.length) 257) hi
  refine ⟨_, hmain, ⟨⟨_, hroot, ?_, ?_, fun i hfirst hi => ?_⟩,
    ⟨file, fun i hi => ?_, hlisted, hrest⟩, fun t ht => ?_⟩, hroot⟩
  · exact (entry_fillSlot _ _ _ (by decide) hpath).fsInodeOff
  · exact (entry_fillSlot _ _ _ (by decide) hpath).fsFileSize
  · have hoff := (offsets i).2.2
    have hname := (offsets 0).1
    rw [← hdir.rest i hfirst hi, ← word_named dir i]
    exact word_congr fun j _ => byteAt_fillSlot_of_ne _ _ _ hpath (Or.inr (by omega))
  · rw [getElem?_behind _ _ _ (by omega), hfile i hi]
  · rw [getElem?_behind _ _ _ (by omega), hdata t ht]

end ScratchOs
