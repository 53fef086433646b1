import ScratchOs.Fs.Extract

/-!
# How much of a file is read back

The loop over the blocks of a file in `fs-test/extract.c` counts its size down by 512 for each of
them, in an unsigned counter that nothing stops at zero.  Behind the last part of a file the counter
is huge, and a block that is still listed there is copied as a whole.

* `length_chunk` — what one round copies, by what is left of the counter.
* **`length_copied`** — what a file gives: all it should, and 512 bytes more for each block after
  the one where the counter wraps.
* `extractMain_slots_eq` — `main` as one loop over the slots in use.
* **`reader_size_iff`** — for which disks each file gives as much as it should.

**What is assumed** is that the lists of blocks end, without which there is no dump to measure.
Disks that `format` has written list no more blocks than the size fills, so on these the wrap is
never seen; it takes a disk made otherwise.
-/

namespace ScratchOs

open Bytes Files Words

/-- What `main` does to the dump for a slot in use. -/
def dumpSlot (junk : Junk) (image : List UInt8) (i : ℕ) (dump : Handle) : Option Handle :=
  let r := (Handle.mk image (word (rootOf image) (inodeOff i) * 512).toNat).read (junk.file i)
  let filesz := word (rootOf image) (sizeOff i)
  (dumpBlocks r.file r.buffer (junk.buffer i) filesz 0 dump).map Prod.snd

/-! ## The counter

The counter is a word, and the size is subtracted from in steps of 512.  Whether it has wrapped in
round `j` depends on the size and `j` only.
-/

/-- What round `j` copies: the part of the file that is due, or a whole block once the counter
has wrapped. -/
lemma length_chunk (junk : ℕ → Buffer 512) (image : List UInt8) (filesz : UInt32) (j : ℕ)
    (b : UInt32) (hj : j < 128) :
    (chunk junk image filesz j b).length
      = if filesz.toNat < 512 * j then 512 else min 512 (filesz.toNat - 512 * j) := by
  have hsize := toNat_lt filesz
  have hdone : (UInt32.ofNat (512 * j)).toNat = 512 * j := toNat_ofNat (by omega)
  have hleft : (filesz - UInt32.ofNat (512 * j)).toNat
      = (4294967296 - 512 * j + filesz.toNat) % 4294967296 := by
    rw [UInt32.toNat_sub, hdone]
  have hlimit : (512 : UInt32).toNat = 512 := rfl
  simp only [chunk, List.length_take, List.length_ofFn, UInt32.lt_iff_toNat_lt, hlimit, hleft]
  split_ifs <;> omega

/-- **What a list of blocks gives.**  The rounds before the wrap give the size, and those behind
it whole blocks. -/
lemma length_chunks (junk : ℕ → Buffer 512) (image : List UInt8) (filesz : UInt32)
    (blocks : List UInt32) (hlen : blocks.length ≤ 128) :
    ((blocks.mapIdx fun j b => chunk junk image filesz j b).flatten).length
      = min filesz.toNat (512 * blocks.length)
        + 512 * (blocks.length - (filesz.toNat / 512 + 1)) := by
  induction blocks using List.reverseRecOn with
  | nil => simp
  | append_singleton blocks b ih =>
      rw [List.length_append, List.length_singleton] at hlen ⊢
      rw [List.mapIdx_concat, List.flatten_append, List.length_append, ih (by omega),
        List.flatten_singleton, length_chunk _ _ _ _ _ (by omega)]
      split_ifs <;> omega

lemma length_blocksFrom_le (file : FileBlock) : (blocksFrom file 0).length ≤ 128 := by
  have hle := List.takeWhile_sublist (· != (0xcccccccc : UInt32))
    (l := (List.range' 0 (128 - 0)).map fun n => word file (4 * n))
  simpa [blocksFrom] using hle.length_le

variable (junk : Junk) (image : List UInt8)

/-- **What a file gives.** -/
theorem length_copied {e : Listed} (he : e ∈ listing junk image) :
    (copied junk image e).length
      = min e.size.toNat (512 * e.blocks.length)
        + 512 * (e.blocks.length - (e.size.toNat / 512 + 1)) := by
  rcases List.mem_map.mp he with ⟨i, -, rfl⟩
  exact length_chunks _ _ _ _ (length_blocksFrom_le _)

/-! ## The loop over the slots

What a file adds to the dump does not depend on the files before it.
-/

/-- A slot in use adds its file to the dump. -/
lemma dumpSlot_eq {i : ℕ} (hends : Ends (inodeOf junk image i)) (out : List UInt8) :
    dumpSlot junk image i ⟨out, out.length⟩
      = some ⟨out ++ copied junk image (listSlot junk image i),
          (out ++ copied junk image (listSlot junk image i)).length⟩ := by
  obtain ⟨disk', -, hdump⟩ := dumpBlocks_all
    ((Handle.mk image (word (rootOf image) (inodeOff i) * 512).toNat).read (junk.file i)).file
    (junk.buffer i) (word (rootOf image) (sizeOff i)) (Handle.bytes_read _ _) hends out
  rw [dumpSlot]
  exact congrArg (Option.map Prod.snd) hdump

/-- How much a file of the listing adds to the dump. -/
lemma dumpSlot_length (hends : ∀ i ∈ usedSlots (rootOf image), Ends (inodeOf junk image i))
    {e : Listed} (he : e ∈ listing junk image) (out : List UInt8) :
    ∃ dump', dumpSlot junk image e.slot ⟨out, out.length⟩ = some dump' ∧
      dump'.bytes.length = out.length + (min e.size.toNat (512 * e.blocks.length)
        + 512 * (e.blocks.length - (e.size.toNat / 512 + 1))) := by
  have hlen := length_copied junk image he
  rcases List.mem_map.mp he with ⟨i, hi, rfl⟩
  refine ⟨_, dumpSlot_eq junk image (hends i hi) out, ?_⟩
  rw [List.length_append, hlen]

/-- Slots in use one after the other, each adding its file. -/
lemma dumpSlots_foldlM {slots : List ℕ} (hends : ∀ i ∈ slots, Ends (inodeOf junk image i))
    (out : List UInt8) :
    slots.foldlM (fun dump i => dumpSlot junk image i dump) ⟨out, out.length⟩
      = some ⟨out ++ (slots.map (listSlot junk image)).flatMap (copied junk image),
          (out ++ (slots.map (listSlot junk image)).flatMap (copied junk image)).length⟩ := by
  induction slots generalizing out with
  | nil => simp
  | cons i slots ih =>
      rw [List.foldlM_cons, dumpSlot_eq junk image (hends i List.mem_cons_self)]
      have hrest := ih (fun k hk => hends k (List.mem_cons_of_mem _ hk))
        (out ++ copied junk image (listSlot junk image i))
      rw [List.map_cons, List.flatMap_cons, ← List.append_assoc]
      exact hrest

/-- `main` does for each slot in use, in order, what `dumpSlot` says, so that one can ask what a
single file adds. -/
lemma extractMain_slots_eq (hends : ∀ i ∈ usedSlots (rootOf image), Ends (inodeOf junk image i)) :
    extractMain junk image
      = ((usedSlots (rootOf image)).foldlM (fun dump i => dumpSlot junk image i dump)
          ⟨[], 0⟩).map Handle.bytes := by
  have hfold := dumpSlots_foldlM junk image hends []
  have hmain := extractMain_listing junk image fun i hi hused =>
    hends i (mem_usedSlots.mpr ⟨hi, hused⟩)
  rw [List.nil_append] at hfold
  rw [hmain, show (usedSlots (rootOf image)).foldlM _ (Handle.mk [] 0) = _ from hfold]
  rfl

/-- **How much `extract` writes for each file.**  When the lists of blocks end, `main` goes through
the slots in use, and each of them adds the smaller of its size and its blocks to the dump if and
only if no list is longer by two blocks than what its size fills. -/
theorem reader_size_iff (hends : ∀ i ∈ usedSlots (rootOf image), Ends (inodeOf junk image i)) :
    extractMain junk image
        = ((usedSlots (rootOf image)).foldlM (fun dump i => dumpSlot junk image i dump)
            ⟨[], 0⟩).map Handle.bytes ∧
      ((∀ e ∈ listing junk image, ∀ out : List UInt8, ∃ dump',
          dumpSlot junk image e.slot ⟨out, out.length⟩ = some dump' ∧
          dump'.bytes.length = out.length + min e.size.toNat (512 * e.blocks.length)) ↔
        ∀ e ∈ listing junk image, e.blocks.length ≤ e.size.toNat / 512 + 1) := by
  refine ⟨extractMain_slots_eq junk image hends, ?_, ?_⟩
  · intro hall e he
    obtain ⟨dump', hdump, hlen⟩ := hall e he []
    obtain ⟨dump'', hdump', hlen'⟩ := dumpSlot_length junk image hends he []
    obtain rfl := Option.some.inj (hdump'.symm.trans hdump)
    omega
  · intro hall e he out
    obtain ⟨dump', hdump, hlen⟩ := dumpSlot_length junk image hends he out
    have hle := hall e he
    exact ⟨dump', hdump, by omega⟩

/-! ## A disk with one file of two blocks

Both lengths that such a disk can give: the right one, and one that is too large.
-/

/-- The directory of the disk, whose first slot names block 257 as the inode. -/
def twoBlockRoot (size : UInt32) : FileBlock :=
  write (write (fill 512 0) (sizeOff 0) (le32 size)) (inodeOff 0) (le32 257)

/-- The inode: block 1 twice, and the end of the list. -/
def twoBlockInode : FileBlock := write (write (fill 512 0xcc) 0 (le32 1)) 4 (le32 1)

/-- The disk: the bitmap, the directory and the inode. -/
def twoBlockDisk (size : UInt32) : List UInt8 :=
  List.replicate 131072 0 ++ (List.ofFn (twoBlockRoot size) ++ List.ofFn twoBlockInode)

section TwoBlocks

variable (size : UInt32)

lemma getElem?_ofFn_buffer {n : ℕ} (b : Buffer n) {i : ℕ} (hi : i < n) :
    (List.ofFn b)[i]? = some (byteAt b i) := by
  rw [List.getElem?_ofFn, dif_pos hi, byteAt_of_lt b hi]

lemma rootOf_twoBlockDisk : rootOf (twoBlockDisk size) = twoBlockRoot size := by
  refine rootOf_eq fun i hi => ?_
  rw [twoBlockDisk, List.getElem?_append_right (by rw [List.length_replicate]; omega),
    List.length_replicate, Nat.add_sub_cancel_left,
    List.getElem?_append_left (by rw [List.length_ofFn]; exact hi), getElem?_ofFn_buffer _ hi]

lemma inodeOff_twoBlockRoot : word (twoBlockRoot size) (inodeOff 0) = 257 :=
  word_write_le32 _ _ (by decide)

lemma sizeOff_twoBlockRoot : word (twoBlockRoot size) (sizeOff 0) = size := by
  rw [twoBlockRoot, word_write_of_disjoint _ (by decide)]
  exact word_write_le32 _ _ (by decide)

lemma usedSlots_twoBlockDisk : usedSlots (rootOf (twoBlockDisk size)) = [0] := by
  have hother : ∀ i < 15, i ≠ 0 → word (twoBlockRoot size) (inodeOff i) = 0 := by
    intro i hi hne
    have hlen : ∀ v : UInt32, (le32 v).length = 4 := length_le32
    rw [twoBlockRoot, word_write_of_disjoint _ (by rw [hlen]; simp only [inodeOff, nameOff]; omega),
      word_write_of_disjoint _ (by rw [hlen]; simp only [inodeOff, sizeOff, nameOff]; omega)]
    exact word_inodeOff_fill i hi
  have hused : usedSlots (twoBlockRoot size) = (List.range 15).filter fun i => decide (i = 0) := by
    refine List.filter_congr fun i hi => ?_
    by_cases hzero : i = 0
    · subst hzero
      rw [inodeOff_twoBlockRoot]
      rfl
    · rw [hother i (List.mem_range.mp hi) hzero]
      simp [hzero]
  rw [rootOf_twoBlockDisk, hused]
  decide

lemma inodeOf_twoBlockDisk (junk : Junk) : inodeOf junk (twoBlockDisk size) 0 = twoBlockInode := by
  rw [inodeOf, rootOf_twoBlockDisk, inodeOff_twoBlockRoot]
  refine Handle.read_inside _ _ fun i hi => ?_
  have hpos : ((257 : UInt32) * 512).toNat = 131072 + 512 := by decide
  show (twoBlockDisk size)[((257 : UInt32) * 512).toNat + i]? = _
  rw [hpos, twoBlockDisk, List.getElem?_append_right (by rw [List.length_replicate]; omega),
    List.length_replicate, List.getElem?_append_right (by rw [List.length_ofFn]; omega),
    List.length_ofFn, show 131072 + 512 + i - 131072 - 512 = i by omega,
    getElem?_ofFn_buffer _ hi]

lemma words_twoBlockInode : word twoBlockInode (4 * 0) = 1 ∧ word twoBlockInode (4 * 1) = 1 ∧
    word twoBlockInode (4 * 2) = 0xcccccccc := by
  refine ⟨?_, word_write_le32 _ _ (by decide), ?_⟩
  · rw [twoBlockInode, word_write_of_disjoint _ (by decide)]
    exact word_write_le32 _ _ (by decide)
  · rw [twoBlockInode, word_write_of_disjoint _ (by decide), word_write_of_disjoint _ (by decide),
      word_fill _ (by decide)]
    decide

lemma blocksFrom_twoBlockInode : blocksFrom twoBlockInode 0 = [1, 1] := by
  obtain ⟨h₀, h₁, h₂⟩ := words_twoBlockInode
  have hnext₀ := blocksFrom_next (j := 0) (by decide) (by rw [h₀]; decide)
  have hnext₁ := blocksFrom_next (j := 1) (by decide) (by rw [h₁]; decide)
  have hend := blocksFrom_end (j := 2) (by decide) h₂
  rw [hnext₀, hnext₁, hend, h₀, h₁]

lemma ends_twoBlockDisk (junk : Junk) :
    ∀ i ∈ usedSlots (rootOf (twoBlockDisk size)), Ends (inodeOf junk (twoBlockDisk size) i) := by
  rw [usedSlots_twoBlockDisk]
  intro i hi
  rw [List.mem_singleton.mp hi, inodeOf_twoBlockDisk]
  exact ⟨2, by decide, words_twoBlockInode.2.2⟩

/-- The file of the disk, as it is listed. -/
lemma listing_twoBlockDisk (junk : Junk) :
    ∃ e, listing junk (twoBlockDisk size) = [e] ∧ e.size = size ∧ e.blocks = [1, 1] := by
  refine ⟨listSlot junk (twoBlockDisk size) 0, ?_, ?_, ?_⟩
  · rw [listing, usedSlots_twoBlockDisk, List.map_singleton]
  · simp only [listSlot, rootOf_twoBlockDisk, sizeOff_twoBlockRoot]
  · simp only [listSlot, inodeOf_twoBlockDisk, blocksFrom_twoBlockInode]

end TwoBlocks

/-- A size of 600 bytes needs the two blocks, and 600 bytes are written. -/
theorem reader_size_iff_two_blocks :
    ∃ e dump', listing zeroJunk (twoBlockDisk 600) = [e] ∧
      dumpSlot zeroJunk (twoBlockDisk 600) e.slot ⟨[], 0⟩ = some dump' ∧
        dump'.bytes.length = 600 := by
  obtain ⟨e, hlist, hsize, hblocks⟩ := listing_twoBlockDisk 600 zeroJunk
  have hsmall : ∀ f ∈ listing zeroJunk (twoBlockDisk 600),
      f.blocks.length ≤ f.size.toNat / 512 + 1 := by
    intro f hf
    rw [hlist] at hf
    rw [List.mem_singleton.mp hf, hsize, hblocks]
    decide
  obtain ⟨dump', hdump, hlen⟩ :=
    (reader_size_iff zeroJunk (twoBlockDisk 600) (ends_twoBlockDisk 600 zeroJunk)).2.mpr hsmall e
      (by rw [hlist]; exact List.mem_cons_self) []
  rw [hsize, hblocks] at hlen
  exact ⟨e, dump', hlist, hdump, hlen⟩

/-- A size of 100 bytes needs one block, and with two blocks 612 bytes are written. -/
theorem reader_size_exceeded :
    ∃ e dump', (∀ i ∈ usedSlots (rootOf (twoBlockDisk 100)),
        Ends (inodeOf zeroJunk (twoBlockDisk 100) i)) ∧
      listing zeroJunk (twoBlockDisk 100) = [e] ∧ e.size = 100 ∧ e.blocks = [1, 1] ∧
      dumpSlot zeroJunk (twoBlockDisk 100) e.slot ⟨[], 0⟩ = some dump' ∧
      dump'.bytes.length = 612 := by
  have hends := ends_twoBlockDisk 100 zeroJunk
  obtain ⟨e, hlist, hsize, hblocks⟩ := listing_twoBlockDisk 100 zeroJunk
  have he : e ∈ listing zeroJunk (twoBlockDisk 100) := by
    rw [hlist]
    exact List.mem_cons_self
  obtain ⟨dump', hdump, hlen⟩ := dumpSlot_length zeroJunk (twoBlockDisk 100) hends he []
  rw [hsize, hblocks] at hlen
  exact ⟨e, dump', hends, hlist, hsize, hblocks, hdump, hlen⟩

end ScratchOs
