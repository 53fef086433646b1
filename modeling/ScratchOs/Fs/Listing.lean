import ScratchOs.Fs.Extract
import ScratchOs.Fs.Writes

/-!
# Disks that `format` has written

What `extract` finds on them.  The two programs were each described by themselves, `format` by where
it puts things and `extract` by what it makes of any image.  Here they meet.

* `listing_formatted` — the disk of a file lists the file and nothing else, when `dir` read as empty
  before.
* `copied_formatted` — copying its blocks gives its bytes.
* **`extract_format`** — what comes out of a formatted disk is the file that was put in, unless that
  file is the disk.
* **`files_independent_iff`** — for which contents of `dir` the disk holds one file.

**The files of the machine.**  The round trip is stated for a file system, in which several paths
may name one file.  Both programs open the file they write, and empty it, before they read the other
one.  So the source must not be `a.disk`, and neither must the dump; `genDisk_of_disk` and
`extractDisk_of_disk` say what happens otherwise.

**What is assumed** apart from that are a name that fits its field, at most 120 blocks, and a `dir`
of zeros, which the code leaves to chance.  The last part of the module asks what other contents do.
-/

namespace ScratchOs

open Bytes Files Words

/-! ## The disk `format` writes

What the reader makes of the directory and of the inode.
-/

/-- A list read up to the first value that ends it. -/
lemma takeWhile_map_range' {α : Type} {f : ℕ → α} {p : α → Bool} {off n k : ℕ} (hk : k < n)
    (hgo : ∀ t < k, p (f (off + t)) = true) (hstop : p (f (off + k)) = false) :
    ((List.range' off n).map f).takeWhile p = (List.range' off k).map f := by
  obtain ⟨m, rfl⟩ : ∃ m, n = k + (m + 1) := ⟨n - k - 1, by omega⟩
  have hall : ∀ a ∈ (List.range' off k).map f, p a = true := by
    intro a ha
    obtain ⟨i, hi, rfl⟩ := List.mem_map.mp ha
    obtain ⟨hlo, hhi⟩ := List.mem_range'_1.mp hi
    obtain ⟨t, rfl⟩ := Nat.exists_eq_add_of_le hlo
    exact hgo t (by omega)
  rw [← List.range'_append_1, List.map_append, List.takeWhile_append_of_pos hall,
    List.range'_succ, List.map_cons, List.takeWhile_cons, if_neg (by simp [hstop]),
    List.append_nil]

/-- The name of a file is read back as it was written. -/
lemma stringAt_entry {dir : FileBlock} {i : ℕ} {name : CString} {size inode : UInt32}
    (h : Entry dir i name size inode) (hi : i < 15) (hname : name.length < 24) :
    stringAt dir (nameOff i) = name.bytes := by
  have hoff := (offsets i).1
  have hbyte : ∀ t (ht : t < name.length), byteAt dir (nameOff i + t) = name.bytes[t] := by
    intro t ht
    rw [h.fsName t ht, List.getElem?_eq_getElem ht]
    rfl
  rw [stringAt, takeWhile_map_range' (k := name.length) (by omega) (fun t ht => ?_)
    (by rw [h.fsNameEnd]; rfl)]
  · refine List.ext_getElem (by rw [List.length_map, List.length_range', CString.length]) ?_
    intro t _ ht
    rw [List.getElem_map, List.getElem_range', Nat.one_mul, hbyte t ht]
  · rw [hbyte t ht, bne_iff_ne]
    exact name.noNul _ (List.getElem_mem ht)

/-- What the disk of one file should list: the file, in slot 0. -/
def theFile (path : CString) (content : List UInt8) : Listed where
  slot := 0
  name := path.bytes
  size := UInt32.ofNat content.length
  blocks := (List.range' 0 (blocksOf content)).map fun j => UInt32.ofNat (258 + j)

section Formatted

variable {content image : List UInt8} {path : CString}

/-- The inode of a formatted disk: the blocks from 258 on, and then the filling. -/
lemma inodeOf_formatted (h : Formatted content image) (junk : Junk) :
    (∀ j < blocksOf content, word (inodeOf junk image 0) (4 * j) = UInt32.ofNat (258 + j)) ∧
      ∀ j, blocksOf content ≤ j → j < 128 → word (inodeOf junk image 0) (4 * j) = 0xcccccccc := by
  obtain ⟨root, hroot, hinode, -, -⟩ := h.directory
  obtain ⟨file, hfile, hlisted, hrest⟩ := h.inode
  have hblock : ((257 : UInt32) * 512).toNat = 131584 := toNat_block (m := 257) (by omega)
  have heq : inodeOf junk image 0 = file := by
    rw [inodeOf, rootOf_eq hroot, hinode, hblock]
    exact Handle.read_inside _ _ hfile
  rw [heq]
  exact ⟨hlisted, hrest⟩

/-- The number of a block does not end the list. -/
lemma listed_ne {m : ℕ} (hm : m < 1048576) : UInt32.ofNat m ≠ 0xcccccccc :=
  ofNat_ne (show m < 3435973836 by omega)

/-- The blocks of the only file, as the reader lists them. -/
lemma blocksFrom_formatted (h : Formatted content image) (hfit : blocksOf content < 128)
    (junk : Junk) : blocksFrom (inodeOf junk image 0) 0
      = (List.range' 0 (blocksOf content)).map fun j => UInt32.ofNat (258 + j) := by
  obtain ⟨hlisted, hrest⟩ := inodeOf_formatted h junk
  rw [blocksFrom, takeWhile_map_range' (k := blocksOf content) (by omega) (fun t ht => ?_)]
  · refine List.map_congr_left fun j hj => hlisted j ?_
    have hlt := (List.mem_range'_1.mp hj).2
    omega
  · rw [Nat.zero_add, hrest _ le_rfl hfit]
    rfl
  · rw [Nat.zero_add, hlisted t ht, bne_iff_ne]
    exact listed_ne (by omega)

/-- A slot is not touched by the entry of another. -/
lemma word_fillSlot_of_ne {dir : FileBlock} {i j : ℕ} {size inode : UInt32} (hij : i ≠ j)
    (hpath : path.length < 24) :
    word (fillSlot dir i path size inode) (inodeOff j) = word dir (inodeOff j) := by
  have hoff := (offsets j).2.2
  have hname := (offsets i).1
  exact word_congr fun t _ => byteAt_fillSlot_of_ne _ _ _ hpath (by omega)

/-- Slot 0 is the only slot in use, when `dir` reads as empty. -/
lemma usedSlots_formatted {dir : FileBlock} (size : UInt32) (hpath : path.length < 24)
    (hdir : ReadsEmpty dir) : usedSlots (fillSlot (named dir) 0 path size 257) = [0] := by
  have hentry := entry_fillSlot (named dir) size 257 (i := 0) (by decide) hpath
  have hused : word (fillSlot (named dir) 0 path size 257) (inodeOff 0) ≠ 0 := by
    rw [hentry.fsInodeOff]
    decide
  have hnone : usedFrom (fillSlot (named dir) 0 path size 257) 1 = [] := by
    rw [usedFrom, List.filter_eq_nil_iff]
    intro i hi
    obtain ⟨hlo, hhi⟩ := List.mem_range'_1.mp hi
    rw [word_fillSlot_of_ne (by omega) hpath, word_named, hdir.rest i hlo (by omega)]
    decide
  rw [usedSlots_eq, usedFrom_next (by decide), if_pos hused, hnone]

/-- **The disk of a file lists the file**, when `dir` reads as empty. -/
lemma listing_formatted {dir : FileBlock} (h : Formatted content image) (hpath : path.length < 24)
    (hfit : blocksOf content < 128) (hdir : ReadsEmpty dir)
    (hroot : rootOf image = fillSlot (named dir) 0 path (UInt32.ofNat content.length) 257)
    (junk : Junk) : listing junk image = [theFile path content] := by
  have hentry := entry_fillSlot (named dir) (UInt32.ofNat content.length) 257 (i := 0) (by decide)
    hpath
  rw [listing, hroot, usedSlots_formatted _ hpath hdir, List.map_singleton, listSlot, theFile,
    blocksFrom_formatted h hfit, hroot, stringAt_entry hentry (by decide) hpath,
    hentry.fsFileSize]

/-! ## The bytes of the file

What is copied, block for block.  The counter of the reader reaches the end of the file in the last
round, so that its wrap is not seen.
-/

/-- The block of the file that starts at a position of it. -/
def blockAt (content : List UInt8) (j : ℕ) : Buffer 512 :=
  fun i => (content[512 * j + i.val]?).getD 0

/-- What is copied out of a block is the next part of the file. -/
lemma take_blockAt (j : ℕ) {count : ℕ} (hcount : count = min 512 (content.length - 512 * j)) :
    (List.ofFn (blockAt content j)).take count = (content.drop (512 * j)).take 512 := by
  have hlen : ((List.ofFn (blockAt content j)).take count).length
      = ((content.drop (512 * j)).take 512).length := by
    rw [List.length_take, List.length_ofFn, List.length_take, List.length_drop, hcount]
    omega
  refine List.ext_getElem hlen fun i _ hi => ?_
  rw [List.length_take, List.length_drop] at hi
  rw [List.getElem_take, List.getElem_ofFn, List.getElem_take, List.getElem_drop]
  show (content[512 * j + i]?).getD 0 = _
  rw [List.getElem?_eq_getElem (by omega)]
  rfl


/-- A block of the disk is read as it was written. -/
lemma read_block (h : Formatted content image) {j : ℕ} (hj : j < blocksOf content)
    (hfit : blocksOf content < 128) (b : Buffer 512) :
    ((Handle.mk image (UInt32.ofNat (258 + j) * 512).toNat).read b).buffer = blockAt content j := by
  refine Handle.read_inside _ b fun i hi => ?_
  show image[(UInt32.ofNat (258 + j) * 512).toNat + i]? = _
  rw [toNat_block (by omega), byteAt_of_lt _ hi,
    show (258 + j) * 512 + i = 132096 + (512 * j + i) by omega, h.data _ (by omega)]
  rfl

/-- **A round copies the next part of the file.**  The size that is left wraps after a last block
that is not full, and is not looked at again. -/
lemma chunk_formatted (h : Formatted content image) {j : ℕ} (hj : j < blocksOf content)
    (hfit : blocksOf content < 128) (junk : ℕ → Buffer 512) :
    chunk junk image (UInt32.ofNat content.length) j (UInt32.ofNat (258 + j))
      = (content.drop (512 * j)).take 512 := by
  have hblocks : blocksOf content = (content.length + 511) / 512 := rfl
  have hsize : (UInt32.ofNat content.length - UInt32.ofNat (512 * j)).toNat
      = content.length - 512 * j := by
    rw [UInt32.toNat_sub, toNat_ofNat (by omega), toNat_ofNat (by omega)]
    omega
  have hlt : UInt32.ofNat content.length - UInt32.ofNat (512 * j) < 512 ↔
      content.length - 512 * j < 512 := by
    rw [UInt32.lt_iff_toNat_lt, hsize]
    rfl
  rw [chunk, read_block h hj hfit]
  refine take_blockAt j ?_
  by_cases hpart : content.length - 512 * j < 512
  · rw [if_pos (hlt.mpr hpart), hsize, Nat.min_eq_right (Nat.le_of_lt hpart)]
  · rw [if_neg (mt hlt.mp hpart), Nat.min_eq_left (Nat.le_of_not_lt hpart)]

/-- The parts of a list, put together again. -/
lemma flatten_parts (content : List UInt8) (n : ℕ) :
    ((List.range n).map fun j => (content.drop (512 * j)).take 512).flatten
      = content.take (512 * n) := by
  induction n with
  | zero => simp
  | succ n ih =>
      rw [List.range_succ, List.map_append, List.flatten_append, ih, Nat.mul_succ, List.take_add]
      simp

/-- **What is copied of the file is the file.** -/
lemma copied_formatted (h : Formatted content image) (hfit : blocksOf content < 128) (junk : Junk) :
    copied junk image (theFile path content) = content := by
  have hparts : ((theFile path content).blocks.mapIdx fun j b =>
      chunk (junk.buffer 0) image (UInt32.ofNat content.length) j b)
        = (List.range (blocksOf content)).map fun j => (content.drop (512 * j)).take 512 := by
    refine List.ext_getElem (by simp [theFile]) fun j hj _ => ?_
    have hlt : j < blocksOf content := by simpa [theFile] using hj
    simp only [theFile, List.getElem_mapIdx, List.getElem_map, List.getElem_range',
      List.getElem_range, Nat.zero_add, Nat.one_mul]
    exact chunk_formatted h hlt hfit _
  have hall : content.length ≤ 512 * blocksOf content := by
    rw [blocksOf]
    omega
  rw [copied]
  show ((theFile path content).blocks.mapIdx fun j b =>
      chunk (junk.buffer 0) image (UInt32.ofNat content.length) j b).flatten = content
  rw [hparts, flatten_parts, List.take_of_length_le hall]

end Formatted

/-- **Reading back what was written.**  For every file of at most `120 · 512` bytes and every path
that fits, on a directory that was zero. -/
lemma extractMain_formatMain (content : List UInt8) (path : CString)
    (hcontent : content.length ≤ 120 * 512) (hpath : path.length < 24) :
    ∃ image, formatMain (fill 512 0) path content = some image ∧
      ∀ junk, extractMain junk image = some content := by
  have hfit : blocksOf content ≤ 120 := by
    rw [blocksOf]
    omega
  obtain ⟨image, hok, hformatted, hbytes⟩ :=
    formatMain_spec content readsEmpty_fill hpath (by omega)
  have hroot := rootOf_eq hbytes
  refine ⟨image, hok, fun junk => ?_⟩
  have hends : ∀ i < 15, word (rootOf image) (inodeOff i) ≠ 0 → Ends (inodeOf junk image i) := by
    intro i hi hused
    have hmem : i ∈ usedSlots (rootOf image) := mem_usedSlots.mpr ⟨hi, hused⟩
    rw [hroot, usedSlots_formatted _ hpath readsEmpty_fill, List.mem_singleton] at hmem
    subst hmem
    exact ⟨blocksOf content, by omega, (inodeOf_formatted hformatted junk).2 _ le_rfl (by omega)⟩
  rw [extractMain_listing junk image hends,
    listing_formatted hformatted hpath (by omega) readsEmpty_fill hroot junk,
    List.flatMap_singleton, copied_formatted hformatted (by omega)]

/-- An empty disk has no directory, and nothing is read back from it. -/
lemma extractMain_nil (junk : Junk) : extractMain junk [] = some [] := by
  have hroot : rootOf [] = fill 512 0 := Handle.read_nil _ rfl _
  have hused : usedSlots (rootOf []) = [] := by
    refine List.eq_nil_iff_forall_not_mem.mpr fun i hi => ?_
    obtain ⟨hlt, hne⟩ := mem_usedSlots.mp hi
    rw [hroot, word_inodeOff_fill i hlt] at hne
    exact hne rfl
  have hends : ∀ i < 15, word (rootOf []) (inodeOff i) ≠ 0 → Ends (inodeOf junk [] i) := by
    intro i hi hne
    rw [hroot, word_inodeOff_fill i hi] at hne
    exact absurd rfl hne
  rw [extractMain_listing junk [] hends, listing, hused]
  rfl

/-! ## The two programs on the files of a machine

The same on a file system, with the paths that the two programs are given.  Whether two paths name
one file is up to the file system.
-/

section Run

variable {fs : FileSystem CString}

/-- A run of `gen-disk`, by what the source holds once the disk has been emptied. -/
lemma genDisk_eq (dir : FileBlock) {path : CString} {content image : List UInt8}
    (hget : (fs.put aDisk []).get path = some content)
    (hformat : formatMain dir path content = some image) :
    genDisk fs dir path = some ((fs.put aDisk []).put aDisk image) := by
  show ((fs.put aDisk []).get path).bind _ = _
  rw [hget, Option.bind_some]
  show (formatMain dir path content).bind _ = _
  rw [hformat]
  rfl

/-- A run of `extract`, by what the disk holds once the dump has been emptied. -/
lemma extractDisk_eq (junk : Junk) {disk dump : CString} {found image out : List UInt8}
    (hfile : fs.get disk = some found) (hget : (fs.put dump []).get disk = some image)
    (hextract : extractMain junk image = some out) :
    extractDisk junk fs disk dump = some ((fs.put dump []).put dump out) := by
  rw [extractDisk, hfile, Option.bind_eq_bind, Option.bind_some]
  show ((fs.put dump []).get disk).bind _ = _
  rw [hget, Option.bind_some]
  show (extractMain junk image).bind _ = _
  rw [hextract]
  rfl

/-- **The disk as its own source.**  A path that names `a.disk` is empty by the time it is read, so
nothing comes out of the disk, whatever was in it. -/
lemma genDisk_of_disk {path : CString} (hsame : fs.file path = fs.file aDisk)
    (hpath : path.length < 24) :
    ∃ fs' image, genDisk fs (fill 512 0) path = some fs' ∧ fs'.get aDisk = some image ∧
      ∀ junk, extractMain junk image = some [] := by
  obtain ⟨image, hformat, hextract⟩ := extractMain_formatMain [] path (by decide) hpath
  exact ⟨_, image, genDisk_eq _ (FileSystem.get_put_of_eq _ _ _ _ hsame) hformat,
    FileSystem.get_put_self _ _ _, hextract⟩

/-- **The disk as its own dump.**  It is empty by the time it is read. -/
lemma extractDisk_of_disk (junk : Junk) {disk dump : CString} {found : List UInt8}
    (hfile : fs.get disk = some found) (hsame : fs.file disk = fs.file dump) :
    ∃ fs', extractDisk junk fs disk dump = some fs' ∧ fs'.get dump = some [] :=
  ⟨_, extractDisk_eq junk hfile (FileSystem.get_put_of_eq _ _ _ _ hsame) (extractMain_nil junk),
    FileSystem.get_put_self _ _ _⟩

end Run

/-- **`extract` undoes `gen-disk`.**  A file of at most `120 · 512` bytes, at a path that fits into
a slot, comes out of `a.disk` as it went in, whatever the locals of `extract` hold.  The local `dir`
of `gen-disk` must be zero.  Neither the source nor the dump may be `a.disk` itself, because both
programs empty the file they write before they read the other. -/
theorem extract_format (fs : FileSystem CString) (path : CString) (content : List UInt8)
    (hfile : fs.get path = some content) (hother : fs.file path ≠ fs.file aDisk)
    (hcontent : content.length ≤ 120 * 512) (hpath : path.length < 24) :
    ∃ fs' image, genDisk fs (fill 512 0) path = some fs' ∧ fs'.get aDisk = some image ∧
      (∀ junk, extractMain junk image = some content) ∧
      ∀ junk dump, fs'.file dump ≠ fs'.file aDisk →
        ∃ fs'', extractDisk junk fs' aDisk dump = some fs'' ∧ fs''.get dump = some content := by
  obtain ⟨image, hformat, hextract⟩ := extractMain_formatMain content path hcontent hpath
  have hdisk : ((fs.put aDisk []).put aDisk image).get aDisk = some image :=
    FileSystem.get_put_self _ _ _
  have hsource : (fs.put aDisk []).get path = some content :=
    (FileSystem.get_put_of_ne _ _ _ _ hother).trans hfile
  refine ⟨_, image, genDisk_eq (fill 512 0) hsource hformat, hdisk, hextract,
    fun junk dump hdump => ⟨_, extractDisk_eq junk hdisk ?_ (hextract junk),
      FileSystem.get_put_self _ _ _⟩⟩
  exact (FileSystem.get_put_of_ne _ _ _ _ (Ne.symm hdump)).trans hdisk

/-- A machine with `a.disk` and one other file, which every other path names. -/
def twoPaths (disk other : List UInt8) : FileSystem CString where
  file p := if p.bytes = aDisk.bytes then 0 else 1
  contents n := if n = 0 then some disk else some other

/-- Three bytes, through a path of one letter, over an older disk: they come out as they went in. -/
theorem extract_format_three :
    ∃ fs' image, genDisk (twoPaths [9] [1, 2, 3]) (fill 512 0) ⟨[97], by simp⟩ = some fs' ∧
      fs'.get aDisk = some image ∧
      (∀ junk, extractMain junk image = some [1, 2, 3]) ∧
      ∀ junk dump, fs'.file dump ≠ fs'.file aDisk →
        ∃ fs'', extractDisk junk fs' aDisk dump = some fs'' ∧ fs''.get dump = some [1, 2, 3] :=
  extract_format (twoPaths [9] [1, 2, 3]) ⟨[97], by simp⟩ [1, 2, 3] (by decide) (by decide)
    (by decide) (by decide)

/-- **The disk as its own source, and as its own dump.**  `gen-disk a.disk` empties the file of one
byte before it reads it, and what `extract` reads back is empty.  `extract a.disk a.disk` empties
the disk, and the dump is empty again. -/
theorem extract_format_aliased :
    (twoPaths [1] [2]).get aDisk = some [1] ∧ aDisk.length < 24 ∧
      (∃ fs' image, genDisk (twoPaths [1] [2]) (fill 512 0) aDisk = some fs' ∧
        fs'.get aDisk = some image ∧ ∀ junk, extractMain junk image = some []) ∧
      ∃ fs', genDisk (twoPaths [1] [2]) (fill 512 0) ⟨[97], by simp⟩ = some fs' ∧
        ∀ junk, ∃ fs'', extractDisk junk fs' aDisk aDisk = some fs'' ∧
          fs''.get aDisk = some [] := by
  refine ⟨by decide, by decide, ?_, ?_⟩
  · exact genDisk_of_disk rfl (by decide)
  · obtain ⟨image, hformat, -⟩ :=
      extractMain_formatMain [2] ⟨[97], by simp⟩ (by decide) (by decide)
    refine ⟨_, genDisk_eq (fill 512 0) (by decide) hformat, fun junk => ?_⟩
    exact extractDisk_of_disk junk (FileSystem.get_put_self _ _ _) rfl

/-- **A file that fills its inode** is not read back: every word of its list is a block, and the
reader runs past them. -/
theorem reader_bounded_fails :
    ∃ image, formatMain (fill 512 0) ⟨[97], by simp⟩ (List.replicate 65536 0) = some image ∧
      ∀ junk, extractMain junk image = none := by
  have hblocks : blocksOf (List.replicate 65536 0) = 128 := by
    rw [blocksOf, List.length_replicate]
  have hpath : (⟨[97], by simp⟩ : CString).length < 24 := by simp [CString.length]
  obtain ⟨image, hok, hformatted, hroot⟩ :=
    formatMain_spec (List.replicate 65536 0) readsEmpty_fill hpath (by rw [hblocks])
  refine ⟨image, hok, fun junk => ?_⟩
  have hused : word (rootOf image) (inodeOff 0) ≠ 0 := by
    rw [rootOf_eq hroot, (entry_fillSlot _ _ _ (by decide) hpath).fsInodeOff]
    decide
  have hno : ¬ Ends (inodeOf junk image 0) := by
    rintro ⟨j, hj, hend⟩
    rw [(inodeOf_formatted hformatted junk).1 j (by rw [hblocks]; exact hj)] at hend
    exact listed_ne (by omega) hend
  obtain ⟨disk, hdisk, hmain⟩ := extractMain_slots junk image
  have hslots := dumpSlots_overrun junk disk hdisk (by decide) hused hno []
  rw [hmain, show dumpSlots disk (rootOf image) junk 0 ⟨[], 0⟩ = none from hslots]
  rfl

/-! ## What `dir` held before

`dir` is a local variable that `main` does not initialise.  The code that puts the file there and
the code that reads it back have different ideas of an empty slot, so that only a `dir` that reads
as empty gives the same disk each time.
-/

section Directory

variable {path : CString}

/-- The directory of the disk, whatever `dir` held: the file is in the first slot that the code
takes, or nowhere. -/
lemma formatMain_root (dir : FileBlock) (content : List UInt8) (hpath : path.length < 24)
    (hfit : blocksOf content ≤ 128) :
    ∃ image, formatMain dir path content = some image ∧
      ((∃ i, FirstSlot (named dir) i ∧
          rootOf image = fillSlot (named dir) i path (UInt32.ofNat content.length) 257) ∨
        NoSlot (named dir) ∧ rootOf image = named dir) := by
  obtain ⟨bm, hused, hmain⟩ := formatMain_eq dir path content
  obtain ⟨bm₁, hfirst, -⟩ := hused.alloc (by omega)
  rcases fsAllocFileInDir_spec bm (named dir) (UInt32.ofNat content.length) hpath with
    ⟨i, off, bm₂, hslot, halloc, hcall⟩ | ⟨hnone, hcall⟩
  · have hoff : off = 257 := congrArg Prod.fst (Option.some.inj (halloc.symm.trans hfirst))
    subst hoff
    obtain ⟨bm', disk, hwrite⟩ := fsWriteFile_dir hcall hfit ⟨[], 0⟩
    rw [hwrite, Option.map_some] at hmain
    exact ⟨_, hmain, Or.inl ⟨i, hslot, rootOf_eq fun t ht => getElem?_front disk bm' _ ht⟩⟩
  · obtain ⟨bm', disk, hwrite⟩ := fsWriteFile_dir hcall hfit ⟨[], 0⟩
    rw [hwrite, Option.map_some] at hmain
    exact ⟨_, hmain, Or.inr ⟨hnone, rootOf_eq fun t ht => getElem?_front disk bm' _ ht⟩⟩

/-- **Leftovers are found.**  When `dir` does not read as empty, two slots of the disk are in
use. -/
lemma usedSlots_leftover {content : List UInt8} {dir root : FileBlock} (hpath : path.length < 24)
    (hroot : (∃ i, FirstSlot (named dir) i ∧
        root = fillSlot (named dir) i path (UInt32.ofNat content.length) 257) ∨
      NoSlot (named dir) ∧ root = named dir) (hdir : ¬ ReadsEmpty dir) :
    ∃ i ∈ usedSlots root, ∃ j ∈ usedSlots root, i ≠ j := by
  rcases hroot with ⟨i, hslot, rfl⟩ | ⟨hnone, rfl⟩
  · have hi : i ∈ usedSlots (fillSlot (named dir) i path (UInt32.ofNat content.length) 257) := by
      rw [mem_usedSlots, (entry_fillSlot _ _ _ hslot.lt hpath).fsInodeOff]
      exact ⟨hslot.lt, by decide⟩
    refine ⟨i, hi, ?_⟩
    by_cases hzero : i = 0
    · -- the first slot is taken: one of the others holds a leftover
      subst hzero
      have hfirst : word dir (inodeOff 0) ≠ 0xffffffff := by
        rw [← word_named]
        exact hslot.free
      by_contra hrest
      refine hdir ⟨hfirst, fun j hpos hj => ?_⟩
      by_contra hleft
      refine hrest ⟨j, ?_, by omega⟩
      rw [mem_usedSlots, word_fillSlot_of_ne (by omega) hpath, word_named]
      exact ⟨hj, hleft⟩
    · -- the first slot was passed by: it holds `0xffffffff`
      refine ⟨0, ?_, hzero⟩
      rw [mem_usedSlots, word_fillSlot_of_ne hzero hpath, hslot.least 0 (by omega)]
      exact ⟨by decide, by decide⟩
  · refine ⟨0, ?_, 1, ?_, by decide⟩
    · rw [mem_usedSlots, hnone 0 (by decide)]
      exact ⟨by decide, by decide⟩
    · rw [mem_usedSlots, hnone 1 (by decide)]
      exact ⟨by decide, by decide⟩

/-- Two slots are two files. -/
lemma listing_ne_singleton {junk : Junk} {image : List UInt8}
    (htwo : ∃ i ∈ usedSlots (rootOf image), ∃ j ∈ usedSlots (rootOf image), i ≠ j) (e : Listed) :
    listing junk image ≠ [e] := by
  obtain ⟨i, hi, j, hj, hij⟩ := htwo
  intro hone
  have hmem : ∀ k ∈ usedSlots (rootOf image), k = e.slot := by
    intro k hk
    have hlisted := List.mem_map_of_mem (f := listSlot junk image) hk
    rw [show (usedSlots (rootOf image)).map (listSlot junk image) = [e] from hone,
      List.mem_singleton] at hlisted
    rw [← hlisted]
    rfl
  exact hij ((hmem i hi).trans (hmem j hj).symm)

/-- One run of `format`: the disk lists the file alone, or what it lists is not one file. -/
lemma formatMain_lists (dir : FileBlock) (content : List UInt8) (hpath : path.length < 24)
    (hfit : blocksOf content ≤ 120) :
    ∃ image, formatMain dir path content = some image ∧
      (ReadsEmpty dir → ∀ junk, listing junk image = [theFile path content]) ∧
        (¬ ReadsEmpty dir → ∀ junk e, listing junk image ≠ [e]) := by
  obtain ⟨image, hmain, hroot⟩ := formatMain_root dir content hpath (by omega)
  refine ⟨image, hmain, fun hdir junk => ?_, fun hdir junk e => ?_⟩
  · obtain ⟨image', hmain', hformatted, hbytes⟩ := formatMain_spec content hdir hpath (by omega)
    obtain rfl : image' = image := Option.some.inj (hmain'.symm.trans hmain)
    exact listing_formatted hformatted hpath (by omega) hdir (rootOf_eq hbytes) junk
  · exact listing_ne_singleton (usedSlots_leftover hpath hroot hdir) e

end Directory

/-- **The files on the disk do not depend on what `dir` held, exactly if it read as empty.** -/
theorem files_independent_iff (content : List UInt8) (path : CString) (dir₁ dir₂ : FileBlock)
    (hfit : blocksOf content ≤ 120) (hpath : path.length < 24) :
    ∃ image₁ image₂, formatMain dir₁ path content = some image₁ ∧
      formatMain dir₂ path content = some image₂ ∧
      ((∃ e, ∀ junk, listing junk image₁ = [e] ∧ listing junk image₂ = [e]) ↔
        ReadsEmpty dir₁ ∧ ReadsEmpty dir₂) := by
  obtain ⟨image₁, hmain₁, hone₁, hmany₁⟩ := formatMain_lists dir₁ content hpath hfit
  obtain ⟨image₂, hmain₂, hone₂, hmany₂⟩ := formatMain_lists dir₂ content hpath hfit
  refine ⟨image₁, image₂, hmain₁, hmain₂, ?_, ?_⟩
  · rintro ⟨e, hall⟩
    obtain ⟨he₁, he₂⟩ := hall zeroJunk
    constructor
    · by_contra hdir
      exact hmany₁ hdir zeroJunk e he₁
    · by_contra hdir
      exact hmany₂ hdir zeroJunk e he₂
  · rintro ⟨hdir₁, hdir₂⟩
    exact ⟨theFile path content, fun junk => ⟨hone₁ hdir₁ junk, hone₂ hdir₂ junk⟩⟩

/-- A `dir` that is zero, and one with leftovers between the name and the slots. -/
theorem files_independent_named : ∃ image₁ image₂,
    formatMain (fill 512 0) ⟨[97], by simp⟩ [1] = some image₁ ∧
      formatMain (write (fill 512 0) 8 [7]) ⟨[97], by simp⟩ [1] = some image₂ ∧
      ∃ e, ∀ junk, listing junk image₁ = [e] ∧ listing junk image₂ = [e] := by
  obtain ⟨image₁, image₂, hmain₁, hmain₂, hiff⟩ := files_independent_iff [1] ⟨[97], by simp⟩
    (fill 512 0) (write (fill 512 0) 8 [7]) (by decide) (by simp [CString.length])
  have hword :
      ∀ i, word (write (fill 512 0) 8 [7]) (inodeOff i) = word (fill 512 0) (inodeOff i) := by
    intro i
    have hoff := (offsets i).2.2
    exact word_write_of_disjoint _ (Or.inr (by rw [hoff, List.length_singleton]; omega))
  refine ⟨image₁, image₂, hmain₁, hmain₂, hiff.mpr ⟨readsEmpty_fill, ?_, fun i hpos hi => ?_⟩⟩
  · rw [hword]
    exact readsEmpty_fill.first
  · rw [hword]
    exact readsEmpty_fill.rest i hpos hi

/-- A `dir` that is zero, and one that is all ones: the second disk lists 15 files. -/
theorem files_independent_fails : ∃ image₁ image₂,
    formatMain (fill 512 0) ⟨[97], by simp⟩ [1] = some image₁ ∧
      formatMain (fill 512 255) ⟨[97], by simp⟩ [1] = some image₂ ∧
      ¬ ∃ e, ∀ junk, listing junk image₁ = [e] ∧ listing junk image₂ = [e] := by
  have hpath : (⟨[97], by simp⟩ : CString).length < 24 := by simp [CString.length]
  obtain ⟨image₁, hmain₁, -⟩ := formatMain_lists (fill 512 0) [1] hpath (by decide)
  obtain ⟨image₂, hmain₂, -, hmany₂⟩ := formatMain_lists (fill 512 255) [1] hpath (by decide)
  refine ⟨image₁, image₂, hmain₁, hmain₂, ?_⟩
  rintro ⟨e, hall⟩
  refine hmany₂ (fun hdir => hdir.first ?_) zeroJunk e (hall zeroJunk).2
  rw [word_fill 255 (by rw [(offsets 0).2.2]; omega)]
  rfl

end ScratchOs
