import ScratchOs.Fs.Format

/-!
# Reading a disk back

`fs-test/extract.c`: walk the directory, and for every slot in use copy the blocks its inode lists
to one output.

What it finds on a disk is a function of the bytes of the image, and of what its own locals held
where the image is too short.  Nothing is assumed about the image: it need not be one that `format`
has written, and the reader does not check.

* `Junk` — what the locals `file` and `buffer` hold before they are read into.
* `listing` — the files it finds: the slots in use, with what it reads about each.
* `dumpBlocks_ends`, `dumpBlocks_overruns` — the loop over the blocks of an inode copies the blocks
  before the word `0xcccccccc`, and runs past the inode when there is none.
* **`extractMain_listing`** — what comes out is the files of the listing, one after the other.
* **`reader_bounded_iff`** — for which images no loop runs past its inode.

**Two levels.**  The loops move handles about and stop where they stop.  `listing` has no handles
and no loops: it is what a reader of the format would say is on the disk.  From here on the other
modules speak of the listing, and of the loops only through `extractMain_listing`.
-/

namespace ScratchOs

open Bytes Files Words

/-! ## The program

The two loops of `main`, and the run of the program on a file system.  The results of the `fread`
calls are not looked at, as in the source.
-/

/-- The contents of the uninitialised locals of `main`: `file` for each slot, and `buffer` for
each slot and each block.  A read past the end of the disk leaves them as they are. -/
structure Junk where
  file : ℕ → FileBlock
  buffer : ℕ → ℕ → Buffer 512

/-- What the locals of `main` hold may be anything, so there is such a thing. -/
def zeroJunk : Junk := ⟨fun _ => fill 512 0, fun _ _ => fill 512 0⟩

/-- The loop over `fs_inode_off`.  Reading past the inode is undefined. -/
def dumpBlocks (disk : Handle) (file : FileBlock) (junk : ℕ → Buffer 512) (filesz : UInt32) (j : ℕ)
    (dump : Handle) : Option (Handle × Handle) :=
  if 4 * j + 4 ≤ 512 then
    if word file (4 * j) ≠ 0xcccccccc then
      let r := (disk.seek (word file (4 * j) * 512).toNat).read (junk j)
      let count := if filesz < 512 then filesz.toNat else 512
      let dump := dump.write ((List.ofFn r.buffer).take count)
      dumpBlocks r.file file junk (filesz - 512) (j + 1) dump
    else
      some (disk, dump)
  else
    none
  termination_by 512 - 4 * j

/-- The loop over the slots of the directory. -/
def dumpSlots (disk : Handle) (root : FileBlock) (junk : Junk) (i : ℕ) (dump : Handle) :
    Option Handle :=
  if i < 15 then
    if word root (inodeOff i) ≠ 0 then do
      let r := (disk.seek (word root (inodeOff i) * 512).toNat).read (junk.file i)
      let filesz := word root (sizeOff i)
      let (disk, dump) ← dumpBlocks r.file r.buffer (junk.buffer i) filesz 0 dump
      dumpSlots disk root junk (i + 1) dump
    else
      dumpSlots disk root junk (i + 1) dump
  else
    some dump
  termination_by 15 - i

/-- `main` of `extract.c`, from the contents of the disk to the contents of the dump. -/
def extractMain (junk : Junk) (image : List UInt8) : Option (List UInt8) :=
  let bitmap := (Handle.mk image 0).read (fill 131072 0)
  let root := bitmap.file.read (fill 512 0)
  (dumpSlots root.file root.buffer junk 0 ⟨[], 0⟩).map Handle.bytes

/-- A run of `extract` on the files of a machine, with the paths of the disk and of the dump.  The
disk is opened first and read after the dump has been opened with `"wb"`. -/
def extractDisk (junk : Junk) (fs : FileSystem CString) (disk dump : CString) :
    Option (FileSystem CString) := do
  let _ ← fs.get disk
  let fs := fs.put dump []
  let image ← fs.get disk
  let out ← extractMain junk image
  some (fs.put dump out)

/-! ## The listing

What is on the disk, said without the loops.
-/

/-- The directory that `main` reads. -/
def rootOf (image : List UInt8) : FileBlock :=
  (((Handle.mk image 0).read (fill 131072 0)).file.read (fill 512 0)).buffer

/-- The inode that `main` reads for a slot. -/
def inodeOf (junk : Junk) (image : List UInt8) (i : ℕ) : FileBlock :=
  ((Handle.mk image (word (rootOf image) (inodeOff i) * 512).toNat).read (junk.file i)).buffer

/-- The words of an inode from a place on, up to the one that ends the list. -/
def blocksFrom (file : FileBlock) (j : ℕ) : List UInt32 :=
  ((List.range' j (128 - j)).map fun n => word file (4 * n)).takeWhile (· != 0xcccccccc)

/-- The C string at an offset. -/
def stringAt (b : FileBlock) (off : ℕ) : List UInt8 :=
  ((List.range' off (512 - off)).map (byteAt b)).takeWhile (· != 0)

/-- A slot in use, with the name that is printed, the size and the blocks. -/
structure Listed where
  slot : ℕ
  name : List UInt8
  size : UInt32
  blocks : List UInt32
  deriving DecidableEq, Repr

/-- The slots that the reader takes to be in use. -/
def usedSlots (root : FileBlock) : List ℕ :=
  (List.range 15).filter fun i => word root (inodeOff i) != 0

/-- What it finds in a slot. -/
def listSlot (junk : Junk) (image : List UInt8) (i : ℕ) : Listed where
  slot := i
  name := stringAt (rootOf image) (nameOff i)
  size := word (rootOf image) (sizeOff i)
  blocks := blocksFrom (inodeOf junk image i) 0

/-- The files on a disk, as the reader finds them. -/
def listing (junk : Junk) (image : List UInt8) : List Listed :=
  (usedSlots (rootOf image)).map (listSlot junk image)

/-! ## The loop over the blocks

The induction is on the words of the inode that are left.  The counter is not part of it: it decides
how much a round copies, but never when the loop ends.
-/

/-- What round `j` of the loop copies of block `b`: a whole block, or what the counter has left
of it. -/
def chunk (junk : ℕ → Buffer 512) (image : List UInt8) (filesz : UInt32) (j : ℕ) (b : UInt32) :
    List UInt8 :=
  let left := filesz - UInt32.ofNat (512 * j)
  (List.ofFn ((Handle.mk image (b * 512).toNat).read (junk j)).buffer).take
    (if left < 512 then left.toNat else 512)

/-- The list of blocks of an inode ends inside of it. -/
def Ends (file : FileBlock) : Prop := ∃ j < 128, word file (4 * j) = 0xcccccccc

/-- What is left of the size after one more round, in the unsigned counter of the code. -/
lemma left_next (filesz : UInt32) (j : ℕ) :
    filesz - UInt32.ofNat (512 * j) - 512 = filesz - UInt32.ofNat (512 * (j + 1)) := by
  rw [Nat.mul_succ, UInt32.ofNat_add, sub_sub_eq]
  rfl

section Blocks

variable {file : FileBlock} {j : ℕ}

lemma blocksFrom_next (hj : j < 128) (hword : word file (4 * j) ≠ 0xcccccccc) :
    blocksFrom file j = word file (4 * j) :: blocksFrom file (j + 1) := by
  obtain ⟨m, hm⟩ : ∃ m, 128 - j = m + 1 := ⟨127 - j, by omega⟩
  have hm' : 128 - (j + 1) = m := by omega
  rw [blocksFrom, blocksFrom, hm, hm', List.range'_succ, List.map_cons, List.takeWhile_cons,
    if_pos (by simpa using hword)]

lemma blocksFrom_end (hj : j < 128) (hword : word file (4 * j) = 0xcccccccc) :
    blocksFrom file j = [] := by
  obtain ⟨m, hm⟩ : ∃ m, 128 - j = m + 1 := ⟨127 - j, by omega⟩
  rw [blocksFrom, hm, List.range'_succ, List.map_cons, List.takeWhile_cons,
    if_neg (by simpa using hword)]

variable (disk : Handle) (junk : ℕ → Buffer 512) (filesz : UInt32)

lemma dumpBlocks_outside (dump : Handle) (hj : 128 ≤ j) :
    dumpBlocks disk file junk filesz j dump = none := by
  rw [dumpBlocks, if_neg (by omega)]

lemma dumpBlocks_end (dump : Handle) (hj : j < 128) (hword : word file (4 * j) = 0xcccccccc) :
    dumpBlocks disk file junk filesz j dump = some (disk, dump) := by
  rw [dumpBlocks, if_pos (by omega), if_neg (not_not.mpr hword)]

/-- One round copies its part of the block and goes on to the next word of the inode. -/
lemma dumpBlocks_round {image out : List UInt8} (hdisk : disk.bytes = image) (hj : j < 128)
    (hword : word file (4 * j) ≠ 0xcccccccc) :
    ∃ disk', disk'.bytes = image ∧
      dumpBlocks disk file junk (filesz - UInt32.ofNat (512 * j)) j ⟨out, out.length⟩
        = dumpBlocks disk' file junk (filesz - UInt32.ofNat (512 * (j + 1))) (j + 1)
          ⟨out ++ chunk junk image filesz j (word file (4 * j)),
            (out ++ chunk junk image filesz j (word file (4 * j))).length⟩ := by
  subst hdisk
  refine ⟨((disk.seek (word file (4 * j) * 512).toNat).read (junk j)).file, ?_, ?_⟩
  · rw [Handle.bytes_read, Handle.bytes_seek]
  · rw [dumpBlocks, if_pos (by omega), if_pos hword]
    dsimp only
    rw [Handle.write_at_end, left_next]
    rfl

variable {image : List UInt8}

/-- **The loop over the blocks** copies them, when the list ends. -/
lemma dumpBlocks_ends (hdisk : disk.bytes = image) (d : ℕ) (hd : j + d = 128)
    (hends : ∃ n < 128, j ≤ n ∧ word file (4 * n) = 0xcccccccc) (out : List UInt8) :
    ∃ disk', disk'.bytes = image ∧
      dumpBlocks disk file junk (filesz - UInt32.ofNat (512 * j)) j ⟨out, out.length⟩
        = some (disk', ⟨out ++ ((blocksFrom file j).mapIdx fun i b =>
              chunk junk image filesz (j + i) b).flatten,
            (out ++ ((blocksFrom file j).mapIdx fun i b =>
              chunk junk image filesz (j + i) b).flatten).length⟩) := by
  induction d generalizing j disk out with
  | zero =>
      obtain ⟨n, hn, hj, -⟩ := hends
      exact absurd hd (by omega)
  | succ d ih =>
      have hj : j < 128 := by omega
      by_cases hword : word file (4 * j) = 0xcccccccc
      · refine ⟨disk, hdisk, ?_⟩
        rw [dumpBlocks_end _ _ _ _ hj hword, blocksFrom_end hj hword, List.mapIdx_nil,
          List.flatten_nil, List.append_nil]
      · obtain ⟨n, hn, hle, hend⟩ := hends
        have hne : n ≠ j := fun e => hword (e ▸ hend)
        obtain ⟨disk₁, hdisk₁, hround⟩ := dumpBlocks_round disk junk filesz hdisk hj hword
        obtain ⟨disk', hdisk', hrest⟩ :=
          ih disk₁ hdisk₁ (j := j + 1) (by omega) ⟨n, hn, by omega, hend⟩ _
        refine ⟨disk', hdisk', hround.trans (hrest.trans ?_)⟩
        have hshift : ∀ i, j + 1 + i = j + (i + 1) := fun i => by omega
        simp only [blocksFrom_next hj hword, List.mapIdx_cons, List.flatten_cons, Nat.add_zero,
          List.append_assoc, hshift]

/-- The same from the first block on, where nothing has been counted down yet. -/
lemma dumpBlocks_all (hdisk : disk.bytes = image) (hends : Ends file) (out : List UInt8) :
    ∃ disk', disk'.bytes = image ∧
      dumpBlocks disk file junk filesz 0 ⟨out, out.length⟩
        = some (disk', ⟨out ++ ((blocksFrom file 0).mapIdx (chunk junk image filesz)).flatten,
            (out ++ ((blocksFrom file 0).mapIdx (chunk junk image filesz)).flatten).length⟩) := by
  obtain ⟨n, hn, hend⟩ := hends
  obtain ⟨disk', hdisk', hdump⟩ := dumpBlocks_ends disk junk filesz hdisk 128 (Nat.zero_add _)
    ⟨n, hn, Nat.zero_le n, hend⟩ out
  rw [Nat.mul_zero, show UInt32.ofNat 0 = 0 from rfl, UInt32.sub_zero] at hdump
  simp only [Nat.zero_add] at hdump
  exact ⟨disk', hdisk', hdump⟩

/-- The loop runs past the inode when the list does not end.  A read from there on is undefined. -/
lemma dumpBlocks_overruns (hdisk : disk.bytes = image) (d : ℕ) (hd : j + d = 128)
    (hnone : ∀ n < 128, j ≤ n → word file (4 * n) ≠ 0xcccccccc) (out : List UInt8) :
    dumpBlocks disk file junk (filesz - UInt32.ofNat (512 * j)) j ⟨out, out.length⟩ = none := by
  induction d generalizing j disk out with
  | zero => exact dumpBlocks_outside _ _ _ _ (by omega)
  | succ d ih =>
      obtain ⟨disk₁, hdisk₁, hround⟩ := dumpBlocks_round disk junk filesz hdisk (by omega)
        (hnone j (by omega) le_rfl)
      rw [hround]
      exact ih disk₁ hdisk₁ (by omega) (fun n hn hj => hnone n hn (by omega)) _

end Blocks

/-! ## The loop over the slots

The same for the slots that are left, where a slot that is not in use is passed by.
-/

/-- What is copied for a file of the listing. -/
def copied (junk : Junk) (image : List UInt8) (e : Listed) : List UInt8 :=
  (e.blocks.mapIdx fun j b => chunk (junk.buffer e.slot) image e.size j b).flatten

/-- The slots in use from one on. -/
def usedFrom (root : FileBlock) (i : ℕ) : List ℕ :=
  (List.range' i (15 - i)).filter fun i => word root (inodeOff i) != 0

lemma usedSlots_eq (root : FileBlock) : usedSlots root = usedFrom root 0 := by
  rw [usedSlots, usedFrom, List.range_eq_range']

lemma mem_usedSlots {root : FileBlock} {i : ℕ} :
    i ∈ usedSlots root ↔ i < 15 ∧ word root (inodeOff i) ≠ 0 := by
  rw [usedSlots, List.mem_filter, List.mem_range, bne_iff_ne]

/-- A slot in use whose blocks can be copied: the loop goes on with the next slot. -/
lemma dumpSlots_used {disk disk' : Handle} {root : FileBlock} {junk : Junk} {i : ℕ}
    {dump dump' : Handle} (hi : i < 15) (hused : word root (inodeOff i) ≠ 0)
    (hdump : dumpBlocks ((disk.seek (word root (inodeOff i) * 512).toNat).read (junk.file i)).file
      ((disk.seek (word root (inodeOff i) * 512).toNat).read (junk.file i)).buffer (junk.buffer i)
      (word root (sizeOff i)) 0 dump = some (disk', dump')) :
    dumpSlots disk root junk i dump = dumpSlots disk' root junk (i + 1) dump' := by
  rw [dumpSlots, if_pos hi, if_pos hused]
  dsimp only
  rw [hdump]
  rfl

/-- A slot in use whose inode is overrun: there is no result. -/
lemma dumpSlots_none {disk : Handle} {root : FileBlock} {junk : Junk} {i : ℕ} {dump : Handle}
    (hi : i < 15) (hused : word root (inodeOff i) ≠ 0)
    (hdump : dumpBlocks ((disk.seek (word root (inodeOff i) * 512).toNat).read (junk.file i)).file
      ((disk.seek (word root (inodeOff i) * 512).toNat).read (junk.file i)).buffer (junk.buffer i)
      (word root (sizeOff i)) 0 dump = none) :
    dumpSlots disk root junk i dump = none := by
  rw [dumpSlots, if_pos hi, if_pos hused]
  dsimp only
  rw [hdump]
  rfl

section Slots

variable (junk : Junk) {image : List UInt8} {i : ℕ}

lemma usedFrom_next {root : FileBlock} (hi : i < 15) : usedFrom root i
    = if word root (inodeOff i) ≠ 0 then i :: usedFrom root (i + 1) else usedFrom root (i + 1) := by
  obtain ⟨m, hm⟩ : ∃ m, 15 - i = m + 1 := ⟨14 - i, by omega⟩
  have hm' : 15 - (i + 1) = m := by omega
  rw [usedFrom, usedFrom, hm, hm', List.range'_succ, List.filter_cons]
  simp only [bne_iff_ne]

/-- One slot in use adds its file to the dump. -/
lemma dumpSlots_next (disk : Handle) (hdisk : disk.bytes = image) (hi : i < 15)
    (hused : word (rootOf image) (inodeOff i) ≠ 0) (hends : Ends (inodeOf junk image i))
    (out : List UInt8) :
    ∃ disk', disk'.bytes = image ∧
      dumpSlots disk (rootOf image) junk i ⟨out, out.length⟩
        = dumpSlots disk' (rootOf image) junk (i + 1)
          ⟨out ++ copied junk image (listSlot junk image i),
            (out ++ copied junk image (listSlot junk image i)).length⟩ := by
  subst hdisk
  obtain ⟨disk', hdisk', hdump⟩ := dumpBlocks_all
    ((disk.seek (word (rootOf disk.bytes) (inodeOff i) * 512).toNat).read (junk.file i)).file
    (junk.buffer i) (word (rootOf disk.bytes) (sizeOff i))
    (by rw [Handle.bytes_read, Handle.bytes_seek]) hends out
  exact ⟨disk', hdisk', dumpSlots_used hi hused hdump⟩

/-- A slot whose list does not end has no result. -/
lemma dumpSlots_overrun (disk : Handle) (hdisk : disk.bytes = image) (hi : i < 15)
    (hused : word (rootOf image) (inodeOff i) ≠ 0) (hno : ¬ Ends (inodeOf junk image i))
    (out : List UInt8) : dumpSlots disk (rootOf image) junk i ⟨out, out.length⟩ = none := by
  subst hdisk
  have hdump := dumpBlocks_overruns
    ((disk.seek (word (rootOf disk.bytes) (inodeOff i) * 512).toNat).read (junk.file i)).file
    (junk.buffer i) (word (rootOf disk.bytes) (sizeOff i))
    (by rw [Handle.bytes_read, Handle.bytes_seek]) 128 (Nat.zero_add _)
    (fun n hn _ hend => hno ⟨n, hn, hend⟩) out
  rw [Nat.mul_zero, show UInt32.ofNat 0 = 0 from rfl, UInt32.sub_zero] at hdump
  exact dumpSlots_none hi hused hdump

/-- A slot that is not in use is passed by. -/
lemma dumpSlots_unused (disk : Handle) (root : FileBlock) (hi : i < 15)
    (hunused : ¬ word root (inodeOff i) ≠ 0) (dump : Handle) :
    dumpSlots disk root junk i dump = dumpSlots disk root junk (i + 1) dump := by
  rw [dumpSlots, if_pos hi, if_neg hunused]

/-- **The loop over the slots** copies the files of the listing. -/
lemma dumpSlots_ends (d : ℕ) (hd : i + d = 15) (disk : Handle) (hdisk : disk.bytes = image)
    (hends : ∀ k < 15, i ≤ k → word (rootOf image) (inodeOff k) ≠ 0 → Ends (inodeOf junk image k))
    (out : List UInt8) :
    (dumpSlots disk (rootOf image) junk i ⟨out, out.length⟩).map Handle.bytes
      = some (out ++ ((usedFrom (rootOf image) i).map fun k =>
          copied junk image (listSlot junk image k)).flatten) := by
  induction d generalizing i disk out with
  | zero =>
      have hnone : usedFrom (rootOf image) i = [] := by
        rw [usedFrom, show 15 - i = 0 by omega]
        rfl
      rw [dumpSlots, if_neg (by omega), hnone, List.map_nil, List.flatten_nil, List.append_nil]
      rfl
  | succ d ih =>
      have hi : i < 15 := by omega
      by_cases hused : word (rootOf image) (inodeOff i) ≠ 0
      · obtain ⟨disk', hdisk', hnext⟩ := dumpSlots_next junk disk hdisk hi hused
          (hends i hi le_rfl hused) out
        rw [hnext, ih (by omega) disk' hdisk' (fun k hk hle => hends k hk (by omega)),
          usedFrom_next hi, if_pos hused, List.map_cons, List.flatten_cons, List.append_assoc]
      · rw [dumpSlots_unused junk disk _ hi hused, usedFrom_next hi, if_neg hused]
        exact ih (by omega) disk hdisk (fun k hk hle => hends k hk (by omega)) out

/-- It fails at the first slot whose list does not end. -/
lemma dumpSlots_overruns (d : ℕ) (hd : i + d = 15) (disk : Handle) (hdisk : disk.bytes = image)
    (hno : ∃ k < 15, i ≤ k ∧ word (rootOf image) (inodeOff k) ≠ 0 ∧ ¬ Ends (inodeOf junk image k))
    (out : List UInt8) : dumpSlots disk (rootOf image) junk i ⟨out, out.length⟩ = none := by
  induction d generalizing i disk out with
  | zero =>
      obtain ⟨k, hk, hle, -⟩ := hno
      exact absurd hd (by omega)
  | succ d ih =>
      have hi : i < 15 := by omega
      obtain ⟨k, hk, hle, husedk, hnok⟩ := hno
      by_cases hused : word (rootOf image) (inodeOff i) ≠ 0
      · by_cases hends : Ends (inodeOf junk image i)
        · have hne : k ≠ i := fun e => hnok (e ▸ hends)
          obtain ⟨disk', hdisk', hnext⟩ := dumpSlots_next junk disk hdisk hi hused hends out
          rw [hnext]
          exact ih (by omega) disk' hdisk' ⟨k, hk, by omega, husedk, hnok⟩ _
        · exact dumpSlots_overrun junk disk hdisk hi hused hends out
      · have hne : k ≠ i := fun e => hused (e ▸ husedk)
        rw [dumpSlots_unused junk disk _ hi hused]
        exact ih (by omega) disk hdisk ⟨k, hk, by omega, husedk, hnok⟩ out

end Slots

/-! ## `main` of `extract.c`

Both loops together, from the bytes of the image to the bytes of the dump.
-/

section Main

variable (junk : Junk) (image : List UInt8)

/-- After the bitmap and the directory have been read, the slots are gone through from the first
on. -/
lemma extractMain_slots : ∃ disk : Handle, disk.bytes = image ∧
    extractMain junk image
      = (dumpSlots disk (rootOf image) junk 0 ⟨[], 0⟩).map Handle.bytes := by
  refine ⟨(((Handle.mk image 0).read (fill 131072 0)).file.read (fill 512 0)).file, ?_, ?_⟩
  · rw [Handle.bytes_read, Handle.bytes_read]
  · rw [extractMain]
    rfl

/-- **What `extract` writes** is the files of the listing, one after the other. -/
theorem extractMain_listing
    (hends : ∀ i < 15, word (rootOf image) (inodeOff i) ≠ 0 → Ends (inodeOf junk image i)) :
    extractMain junk image = some ((listing junk image).flatMap (copied junk image)) := by
  obtain ⟨disk, hdisk, hmain⟩ := extractMain_slots junk image
  have hslots := dumpSlots_ends junk 15 (Nat.zero_add _) disk hdisk
    (fun k hk _ => hends k hk) []
  rw [List.nil_append, ← usedSlots_eq] at hslots
  rw [hmain, listing, List.flatMap_def, List.map_map]
  exact hslots

/-- **The reader stays inside of its inodes, exactly if their lists end there.** -/
theorem reader_bounded_iff :
    (extractMain junk image).isSome ↔
      ∀ i < 15, word (rootOf image) (inodeOff i) ≠ 0 →
        ∃ j < 128, word (inodeOf junk image i) (4 * j) = 0xcccccccc := by
  constructor
  · intro hsome i hi hused
    by_contra hno
    obtain ⟨disk, hdisk, hmain⟩ := extractMain_slots junk image
    have hslots := dumpSlots_overruns junk 15 (Nat.zero_add _) disk hdisk
      ⟨i, hi, Nat.zero_le i, hused, hno⟩ []
    rw [hmain, show dumpSlots disk (rootOf image) junk 0 ⟨[], 0⟩ = none from hslots] at hsome
    cases hsome
  · intro hends
    rw [extractMain_listing junk image hends]
    rfl

end Main

/-- The bitmap ends where the directory starts. -/
lemma file_bitmap_read {image : List UInt8} (hlong : 131072 < image.length) :
    ((Handle.mk image 0).read (fill 131072 0)).file = ⟨image, 131072⟩ := by
  rw [Handle.file_read_inside _ _ (by
    show 131072 ≤ image.length - 0
    rw [Nat.sub_zero]
    exact Nat.le_of_lt hlong)]
  exact congrArg (Handle.mk image) (Nat.zero_add 131072)

/-- The directory of an image that has one. -/
lemma rootOf_eq {image : List UInt8} {root : FileBlock}
    (hroot : ∀ i < 512, image[131072 + i]? = some (byteAt root i)) : rootOf image = root := by
  have hlong : 131072 < image.length := (List.getElem?_eq_some_iff.mp (hroot 0 (by omega))).1
  rw [rootOf, file_bitmap_read hlong]
  exact Handle.read_inside _ _ hroot

end ScratchOs
