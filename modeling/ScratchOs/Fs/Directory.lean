import Mathlib.Data.Finset.Card
import Mathlib.Data.Finset.Range
import ScratchOs.Fs.Bitmap

/-!
# The directory

`struct file` and `struct dirent` of `lib/fs.h`, and `fs_alloc_file_in_dir` of `lib/fs.c`.

A block is its 512 bytes, and the members of the union are views of them: `fs_inode_off[j]` is the
word at `4 j`, slot `i` of `fs_files` is the 32 bytes at `32 + 32 i`.

* `Entry` — what slot `i` records about a file.  `fillSlot` is what a successful call writes, with
  its frame facts: one slot, and nothing outside of it for a name that fits.
* `fsAllocFileInDir_of_used` — a slot is free to the code unless its block number is `0xffffffff`.
* **`directory_keeps_iff`** — on a directory that reads as empty, files are kept if and only if
  there is at most one.
* `failed_alloc_unchanged_iff` — a call that fails changes nothing, exactly if it fails for want of
  a slot.

**Two readings of a slot** meet here.  `extract` takes a slot for empty when its block number is 0.
`fs_alloc_file_in_dir` takes the first slot whose number is not `0xffffffff`, and a slot with a file
in it is one of those.  So it finds the slots in use where it should find the free ones.

**Names** are assumed to fit their field in this module.  What a longer name does is in `Fs/Names`.
-/

namespace ScratchOs

open Bytes Words

/-- `struct file`, as the bytes of a block. -/
abbrev FileBlock := Buffer 512

/-- A C string: its bytes before the terminating NUL. -/
structure CString where
  bytes : List UInt8
  noNul : ∀ x ∈ bytes, x ≠ 0

/-- The length that `strlen` finds. -/
def CString.length (s : CString) : ℕ := s.bytes.length

/-- `strcpy` to an offset of an object.  A string that runs past the object is undefined. -/
def strcpy {n : ℕ} (dst : Buffer n) (off : ℕ) (src : CString) : Option (Buffer n) :=
  if off + src.length + 1 ≤ n then some (write dst off (src.bytes ++ [0])) else none

/-! ## Slots

Where the fields of a slot are in the block, and what a call writes to them.
-/

/-- Where `fs_files[i].fs_name` is. -/
abbrev nameOff (i : ℕ) : ℕ := 32 + 32 * i

/-- Where `fs_files[i].fs_file_size` is. -/
abbrev sizeOff (i : ℕ) : ℕ := nameOff i + 24

/-- Where `fs_files[i].fs_inode_off` is. -/
abbrev inodeOff (i : ℕ) : ℕ := nameOff i + 28

/-- The three offsets as numbers, for the arithmetic. -/
lemma offsets (i : ℕ) :
    nameOff i = 32 + 32 * i ∧ sizeOff i = 56 + 32 * i ∧ inodeOff i = 60 + 32 * i :=
  ⟨rfl, by show 32 + 32 * i + 24 = _; omega, by show 32 + 32 * i + 28 = _; omega⟩

lemma word_inodeOff_fill (i : ℕ) (hi : i < 15) : word (fill 512 0) (inodeOff i) = 0 := by
  rw [word_fill 0 (by rw [(offsets i).2.2]; omega)]
  rfl

/-- What a call reports: what it returns, the slot it prints, and the bitmap and the directory it
leaves. -/
structure AllocResult where
  ret : UInt32
  slot : Option ℕ
  bm : Bitmap
  dir : FileBlock

/-- The body of the loop of `fs_alloc_file_in_dir`, for the slot it uses. -/
def useSlot (bm : Bitmap) (dir : FileBlock) (basename : CString) (filesz : UInt32) (i : ℕ) :
    Option AllocResult := do
  let dir ← strcpy dir (nameOff i) basename
  let (off, bm) ← fsAllocBlk bm
  let dir := write dir (inodeOff i) (le32 off)
  let dir := write dir (sizeOff i) (le32 filesz)
  some ⟨word dir (inodeOff i), some i, bm, dir⟩

/-- The loop of `fs_alloc_file_in_dir` over the slots, from slot `i` on. -/
def allocInSlots (bm : Bitmap) (dir : FileBlock) (basename : CString) (filesz : UInt32) (i : ℕ) :
    Option AllocResult :=
  if i < 15 then
    if word dir (inodeOff i) ≠ 0xffffffff then useSlot bm dir basename filesz i
    else allocInSlots bm dir basename filesz (i + 1)
  else
    some ⟨0xffffffff, none, bm, dir⟩
  termination_by 15 - i

/-- `fs_alloc_file_in_dir`, which returns the block of the file or `0xffffffff`. -/
def fsAllocFileInDir (bm : Bitmap) (dir : FileBlock) (basename : CString) (filesz : UInt32) :
    Option AllocResult :=
  allocInSlots bm dir basename filesz 0

/-- The slot records the file: its name, its size and the block of its inode. -/
structure Entry (dir : FileBlock) (i : ℕ) (name : CString) (size inode : UInt32) : Prop where
  fsName : ∀ t < name.length, byteAt dir (nameOff i + t) = (name.bytes[t]?).getD 0
  fsNameEnd : byteAt dir (nameOff i + name.length) = 0
  fsFileSize : word dir (sizeOff i) = size
  fsInodeOff : word dir (inodeOff i) = inode

/-- What a call writes: the name, and then the two words behind it. -/
def fillSlot (dir : FileBlock) (i : ℕ) (name : CString) (size inode : UInt32) : FileBlock :=
  write (write (write dir (nameOff i) (name.bytes ++ [0])) (inodeOff i) (le32 inode)) (sizeOff i)
    (le32 size)

section FillSlot

variable (dir : FileBlock) {i : ℕ} {name : CString} (size inode : UInt32)

/-- Outside of its slot nothing changes, for a name that fits. -/
lemma byteAt_fillSlot_of_ne (hname : name.length < 24) {p : ℕ}
    (hp : p < nameOff i ∨ nameOff i + 32 ≤ p) :
    byteAt (fillSlot dir i name size inode) p = byteAt dir p := by
  obtain ⟨h₁, h₂, h₃⟩ := offsets i
  have hlen : (name.bytes ++ [0]).length = name.length + 1 := List.length_append
  have hsize := length_le32 size
  have hinode := length_le32 inode
  rw [fillSlot, byteAt_write_of_disjoint _ _ _ (by omega),
    byteAt_write_of_disjoint _ _ _ (by omega), byteAt_write_of_disjoint _ _ _ (by omega)]

/-- The slot records the file that was put there. -/
lemma entry_fillSlot (hi : i < 15) (hname : name.length < 24) :
    Entry (fillSlot dir i name size inode) i name size inode := by
  obtain ⟨h₁, h₂, h₃⟩ := offsets i
  have hlen : (name.bytes ++ [0]).length = name.length + 1 := List.length_append
  have hsize := length_le32 size
  have hinode := length_le32 inode
  have hstr : ∀ t ≤ name.length, byteAt (fillSlot dir i name size inode) (nameOff i + t)
      = ((name.bytes ++ [0])[t]?).getD 0 := by
    intro t ht
    rw [fillSlot, byteAt_write_of_disjoint _ _ _ (by omega),
      byteAt_write_of_disjoint _ _ _ (by omega), byteAt_write _ _ _ (by omega),
      if_pos (by omega), Nat.add_sub_cancel_left]
  constructor
  · intro t ht
    rw [hstr t (Nat.le_of_lt ht), List.getElem?_append_left ht]
  · rw [hstr _ le_rfl, CString.length, List.getElem?_append_right le_rfl, Nat.sub_self]
    rfl
  · rw [fillSlot, word_write_le32 _ _ (by omega)]
  · rw [fillSlot, word_write_of_disjoint _ (by omega), word_write_le32 _ _ (by omega)]

end FillSlot

/-! ## One call

The loop ends at the first slot that the code takes for a free one.  Which slot this is depends on
the directory alone.
-/

section Call

variable {bm : Bitmap} {dir : FileBlock} {name : CString}

/-- The body of the loop, for a name that fits its field. -/
lemma useSlot_eq {i : ℕ} {off : UInt32} {bm' : Bitmap} (size : UInt32) (hi : i < 15)
    (hname : name.length < 24) (halloc : fsAllocBlk bm = some (off, bm')) :
    useSlot bm dir name size i = some ⟨off, some i, bm', fillSlot dir i name size off⟩ := by
  have hfit : nameOff i + name.length + 1 ≤ 512 := by
    have h := (offsets i).1
    omega
  have hret := (entry_fillSlot dir size off hi hname).fsInodeOff
  rw [fillSlot] at hret
  rw [useSlot, strcpy, if_pos hfit]
  simp only [Option.bind_eq_bind, Option.bind_some, halloc, hret]
  rfl

/-- **The first slot is used** unless its block number is `0xffffffff`, whether a file is in it or
not. -/
lemma fsAllocFileInDir_of_used {off : UInt32} {bm' : Bitmap} (size : UInt32)
    (hslot : word dir (inodeOff 0) ≠ 0xffffffff) (hname : name.length < 24)
    (halloc : fsAllocBlk bm = some (off, bm')) :
    fsAllocFileInDir bm dir name size
      = some ⟨off, some 0, bm', fillSlot dir 0 name size off⟩ := by
  rw [fsAllocFileInDir, allocInSlots, if_pos (by decide), if_pos hslot,
    useSlot_eq size (by decide) hname halloc]

/-- Every slot holds the value the code takes for a slot in use. -/
def NoSlot (dir : FileBlock) : Prop := ∀ i < 15, word dir (inodeOff i) = 0xffffffff

/-- A directory of bytes `0xff` has no slot for the code. -/
lemma noSlot_fill : NoSlot (fill 512 255) := by
  intro i hi
  rw [word_fill 255 (by rw [(offsets i).2.2]; omega)]
  rfl

/-- Slot `i` is the one a call takes. -/
structure FirstSlot (dir : FileBlock) (i : ℕ) : Prop where
  lt : i < 15
  free : word dir (inodeOff i) ≠ 0xffffffff
  least : ∀ j < i, word dir (inodeOff j) = 0xffffffff

/-- The loop of `fs_alloc_file_in_dir` from a slot on, when the slots before are passed by. -/
lemma allocInSlots_cases (bm : Bitmap) (name : CString) (size : UInt32) (i : ℕ)
    (hpassed : ∀ j < i, word dir (inodeOff j) = 0xffffffff) :
    (∃ k, FirstSlot dir k ∧ allocInSlots bm dir name size i = useSlot bm dir name size k) ∨
      NoSlot dir ∧ allocInSlots bm dir name size i = some ⟨0xffffffff, none, bm, dir⟩ := by
  induction i using allocInSlots.induct dir with
  | case1 i hi hslot =>
      refine Or.inl ⟨i, ⟨hi, hslot, hpassed⟩, ?_⟩
      rw [allocInSlots, if_pos hi, if_pos hslot]
  | case2 i hi hslot ih =>
      rw [allocInSlots, if_pos hi, if_neg hslot]
      refine ih fun j hj => ?_
      by_cases hlast : j = i
      · exact hlast ▸ not_not.mp hslot
      · exact hpassed j (by omega)
  | case3 i hi =>
      rw [allocInSlots, if_neg hi]
      exact Or.inr ⟨fun j hj => hpassed j (by omega), rfl⟩

/-- **The slot a call uses** is the first that does not hold `0xffffffff`. -/
lemma fsAllocFileInDir_cases (bm : Bitmap) (dir : FileBlock) (name : CString) (size : UInt32) :
    (∃ k, FirstSlot dir k ∧ fsAllocFileInDir bm dir name size = useSlot bm dir name size k) ∨
      NoSlot dir ∧ fsAllocFileInDir bm dir name size = some ⟨0xffffffff, none, bm, dir⟩ :=
  allocInSlots_cases bm name size 0 fun j hj => absurd hj (Nat.not_lt_zero j)

/-- **`fs_alloc_file_in_dir`** takes the first slot that does not hold `0xffffffff`, or none. -/
theorem fsAllocFileInDir_spec (bm : Bitmap) (dir : FileBlock) (size : UInt32)
    (hname : name.length < 24) :
    (∃ k off bm', FirstSlot dir k ∧ fsAllocBlk bm = some (off, bm') ∧
      fsAllocFileInDir bm dir name size
        = some ⟨off, some k, bm', fillSlot dir k name size off⟩) ∨
      NoSlot dir ∧ fsAllocFileInDir bm dir name size = some ⟨0xffffffff, none, bm, dir⟩ := by
  rcases fsAllocFileInDir_cases bm dir name size with ⟨k, hslot, hcall⟩ | hnone
  · obtain ⟨off, bm', halloc⟩ := fsAllocBlk_total bm
    exact Or.inl ⟨k, off, bm', hslot, halloc, hcall.trans (useSlot_eq size hslot.lt hname halloc)⟩
  · exact Or.inr hnone

end Call

/-! ## Failed calls

A call can fail in two places: no slot is left, or no block is.  In the second the slot has been
written already, block number `0xffffffff` included, and it is not taken back.
-/

/-- The error value is not the number of a block. -/
lemma ofNat_ne_error {k : ℕ} (h : k < 1048576) : UInt32.ofNat k ≠ 0xffffffff :=
  ofNat_ne (show k < 4294967295 by omega)

/-- **A call that fails changes nothing, exactly if it fails for want of a slot.**  When it is the
bitmap that is full, the slot has been filled in before the error is found. -/
theorem failed_alloc_unchanged_iff (bm : Bitmap) (dir : FileBlock) (name : CString)
    (filesz : UInt32) (hname : name.length < 24) :
    ∃ a, fsAllocFileInDir bm dir name filesz = some a ∧
      ((a.ret = 0xffffffff → a.bm = bm ∧ a.dir = dir) ↔
        (∀ i < 15, word dir (inodeOff i) = 0xffffffff) ∨ ∃ k < 1048576, bit bm k = false) := by
  rcases fsAllocFileInDir_spec bm dir filesz hname with
    ⟨i, off, bm', hslot, halloc, hcall⟩ | ⟨hnone, hcall⟩
  · refine ⟨_, hcall, ?_⟩
    rcases fsAllocBlk_spec bm with ⟨k, bm'', hok, hfit⟩ | ⟨hfull, hok⟩
    · have hoff : off = UInt32.ofNat k :=
        congrArg Prod.fst (Option.some.inj (halloc.symm.trans hok))
      have hne : off ≠ 0xffffffff := by
        rw [hoff]
        exact ofNat_ne_error hfit.lt
      exact iff_of_true (fun h => absurd h hne) (Or.inr ⟨k, hfit.lt, hfit.free⟩)
    · have hoff : off = 0xffffffff := congrArg Prod.fst (Option.some.inj (halloc.symm.trans hok))
      refine iff_of_false (fun h => hslot.free ?_) ?_
      · rw [← (h hoff).2]
        exact (entry_fillSlot dir filesz off hslot.lt hname).fsInodeOff.trans hoff
      · rintro (hall | ⟨k, hk, hfree⟩)
        · exact hslot.free (hall i hslot.lt)
        · rw [hfull k hk] at hfree
          cases hfree
  · exact ⟨_, hcall, iff_of_true (fun _ => ⟨rfl, rfl⟩) (Or.inl hnone)⟩

/-- A directory without a slot and an empty bitmap: the call fails, and it changes nothing. -/
theorem failed_alloc_unchanged_full :
    ∃ a, fsAllocFileInDir (fill 131072 0) (fill 512 255) ⟨[97], by simp⟩ 1 = some a ∧
      a.ret = 0xffffffff ∧ a.bm = fill 131072 0 ∧ a.dir = fill 512 255 := by
  have hname : (⟨[97], by simp⟩ : CString).length < 24 := by simp [CString.length]
  obtain ⟨a, hcall, hiff⟩ := failed_alloc_unchanged_iff (fill 131072 0) (fill 512 255)
    ⟨[97], by simp⟩ 1 hname
  have hret : a.ret = 0xffffffff := by
    rcases fsAllocFileInDir_spec (fill 131072 0) (fill 512 255) 1 hname with
      ⟨k, _, _, hslot, -, -⟩ | ⟨-, hfail⟩
    · exact absurd (noSlot_fill k hslot.lt) hslot.free
    · rw [hfail] at hcall
      rw [← Option.some.inj hcall]
  exact ⟨a, hcall, hret, hiff.mpr (Or.inl noSlot_fill) hret⟩

/-- A full bitmap and an empty directory: the slot is filled in. -/
theorem failed_alloc_unchanged_fails :
    ∃ a, fsAllocFileInDir (fill 131072 255) (fill 512 0) ⟨[97], by simp⟩ 1 = some a ∧
      a.ret = 0xffffffff ∧ a.dir ≠ fill 512 0 := by
  have hslot : word (fill 512 0) (inodeOff 0) ≠ 0xffffffff := by
    rw [word_inodeOff_fill 0 (by decide)]
    decide
  have halloc : fsAllocBlk (fill 131072 255) = some (0xffffffff, fill 131072 255) := by
    rcases fsAllocBlk_spec (fill 131072 255) with ⟨k, _, _, hfit⟩ | ⟨-, hok⟩
    · have hlt := hfit.lt
      have hfree := hfit.free
      rw [bit_fill_ones (by omega)] at hfree
      cases hfree
    · exact hok
  have hname : (⟨[97], by simp⟩ : CString).length < 24 := by simp [CString.length]
  refine ⟨_, fsAllocFileInDir_of_used 1 hslot hname halloc, rfl, fun heq => hslot ?_⟩
  rw [← heq]
  exact (entry_fillSlot _ _ _ (by decide) hname).fsInodeOff

/-! ## Sequences of calls

Calls that put files into one directory.  After the first call its slot 0 holds the number of a
block, which is not `0xffffffff`, and so the second call takes slot 0 again.
-/

/-- A file to be put into a directory. -/
structure FileRequest where
  name : CString
  size : UInt32

/-- Calls of `fs_alloc_file_in_dir`, one after the other. -/
def allocFiles (bm : Bitmap) (dir : FileBlock) :
    List FileRequest → Option (List AllocResult × Bitmap × FileBlock)
  | [] => some ([], bm, dir)
  | r :: rs => do
      let a ← fsAllocFileInDir bm dir r.name r.size
      let (as, bm, dir) ← allocFiles a.bm a.dir rs
      some (a :: as, bm, dir)

/-- The call has not returned its error value. -/
abbrev AllocResult.Succeeds (a : AllocResult) : Prop := a.ret ≠ 0xffffffff

/-- The directory has lost none of the files that were put into it: no two share a slot, every one
is still recorded, the first 15 are accepted and a 16th is not. -/
structure KeepsFiles (requests : List FileRequest) (results : List AllocResult) (dir : FileBlock) :
    Prop where
  slots : results.Pairwise fun a b => a.Succeeds → b.Succeeds → a.slot ≠ b.slot
  entries : ∀ (k : ℕ) r a, requests[k]? = some r → results[k]? = some a → a.Succeeds →
    ∃ i, a.slot = some i ∧ Entry dir i r.name r.size a.ret
  first : ∀ (k : ℕ) a, k < 15 → results[k]? = some a → a.Succeeds
  full : ∀ a, results[15]? = some a → a.ret = 0xffffffff

/-- The blocks the bitmap has left. -/
def freeBlocks (bm : Bitmap) : Finset ℕ := (Finset.range 1048576).filter fun k => bit bm k = false

/-- A call with a block left takes one, and leaves the others.  (The count is never a number to
calculate with: nothing should try to evaluate it.) -/
lemma fsAllocBlk_of_free {bm : Bitmap} (h : 1 ≤ (freeBlocks bm).card) :
    ∃ off bm', fsAllocBlk bm = some (off, bm') ∧ off ≠ 0xffffffff ∧
      ∀ m, m + 1 ≤ (freeBlocks bm).card → m ≤ (freeBlocks bm').card := by
  rcases fsAllocBlk_spec bm with ⟨k, bm', hok, hfit⟩ | ⟨hfull, -⟩
  · refine ⟨_, bm', hok, ofNat_ne_error hfit.lt, ?_⟩
    · have hsub : freeBlocks bm ⊆ insert k (freeBlocks bm') := by
        intro j hj
        rw [freeBlocks, Finset.mem_filter] at hj
        rw [Finset.mem_insert, freeBlocks, Finset.mem_filter, hfit.taken j]
        by_cases hjk : j = k
        · exact Or.inl hjk
        · rw [if_neg hjk]
          exact Or.inr hj
      intro m hm
      have hle := (hm.trans (Finset.card_le_card hsub)).trans (Finset.card_insert_le k _)
      exact Nat.add_le_add_iff_right.mp hle
  · obtain ⟨k, hk⟩ := Finset.card_pos.mp h
    rw [freeBlocks, Finset.mem_filter, Finset.mem_range] at hk
    rw [hfull k hk.1] at hk
    exact absurd hk.2 (by decide)

/-- Any call with a name that fits returns. -/
lemma fsAllocFileInDir_total {r : FileRequest} (hname : r.name.length < 24) (bm : Bitmap)
    (dir : FileBlock) : ∃ a, fsAllocFileInDir bm dir r.name r.size = some a := by
  rcases fsAllocFileInDir_spec bm dir r.size hname with ⟨k, off, bm', -, -, hcall⟩ | ⟨-, hcall⟩
  · exact ⟨_, hcall⟩
  · exact ⟨_, hcall⟩

/-- A call and the calls after it, when both are known. -/
lemma allocFiles_cons {r : FileRequest} {rs : List FileRequest} {bm bm' : Bitmap}
    {dir dir' : FileBlock} {a : AllocResult} {results : List AllocResult}
    (ha : fsAllocFileInDir bm dir r.name r.size = some a)
    (hrest : allocFiles a.bm a.dir rs = some (results, bm', dir')) :
    allocFiles bm dir (r :: rs) = some (a :: results, bm', dir') := by
  rw [allocFiles, ha]
  simp only [Option.bind_eq_bind, Option.bind_some, hrest]

/-- Every sequence of calls with names that fit runs to its end. -/
lemma allocFiles_total {rs : List FileRequest} (hnames : ∀ r ∈ rs, r.name.length < 24)
    (bm : Bitmap) (dir : FileBlock) :
    ∃ results bm' dir', allocFiles bm dir rs = some (results, bm', dir') := by
  induction rs generalizing bm dir with
  | nil => exact ⟨[], bm, dir, rfl⟩
  | cons r rs ih =>
      obtain ⟨a, ha⟩ := fsAllocFileInDir_total (hnames r List.mem_cons_self) bm dir
      obtain ⟨results, bm', dir', hrest⟩ :=
        ih (fun r hr => hnames r (List.mem_cons_of_mem _ hr)) a.bm a.dir
      exact ⟨a :: results, bm', dir', allocFiles_cons ha hrest⟩

/-- A call with a block left, on a directory whose first slot does not hold `0xffffffff`, succeeds
in that slot, and leaves such a directory. -/
lemma alloc_first_slot (r : FileRequest) (bm : Bitmap) (dir : FileBlock)
    (hslot : word dir (inodeOff 0) ≠ 0xffffffff) (hname : r.name.length < 24)
    (hfree : 1 ≤ (freeBlocks bm).card) :
    ∃ a, fsAllocFileInDir bm dir r.name r.size = some a ∧ a.Succeeds ∧ a.slot = some 0 ∧
      Entry a.dir 0 r.name r.size a.ret ∧
        ∀ m, m + 1 ≤ (freeBlocks bm).card → m ≤ (freeBlocks a.bm).card := by
  obtain ⟨off, bm', halloc, hoff, hcard⟩ := fsAllocBlk_of_free hfree
  exact ⟨_, fsAllocFileInDir_of_used r.size hslot hname halloc, hoff, rfl,
    entry_fillSlot dir r.size off (by decide) hname, hcard⟩

/-- The first two of a sequence of calls both get slot 0. -/
lemma allocFiles_share_slot {r₁ r₂ : FileRequest} {rs : List FileRequest} {bm : Bitmap}
    {dir : FileBlock} (hslot : word dir (inodeOff 0) ≠ 0xffffffff)
    (hnames : ∀ r ∈ r₁ :: r₂ :: rs, r.name.length < 24) (hfree : 2 ≤ (freeBlocks bm).card) :
    ∃ a₁ a₂ results bm' dir', allocFiles bm dir (r₁ :: r₂ :: rs)
        = some (a₁ :: a₂ :: results, bm', dir') ∧
      a₁.Succeeds ∧ a₂.Succeeds ∧ a₁.slot = some 0 ∧ a₂.slot = some 0 := by
  obtain ⟨a₁, h₁, hok₁, hslot₁, hentry₁, hcard₁⟩ := alloc_first_slot r₁ bm dir hslot
    (hnames r₁ List.mem_cons_self) (le_trans (by decide) hfree)
  obtain ⟨a₂, h₂, hok₂, hslot₂, -, -⟩ := alloc_first_slot r₂ a₁.bm a₁.dir
    (by rw [hentry₁.fsInodeOff]; exact hok₁) (hnames r₂ (by simp)) (hcard₁ 1 hfree)
  have hrs : ∀ r ∈ rs, r.name.length < 24 := fun r hr => hnames r (by simp [hr])
  obtain ⟨results, bm', dir', hrest⟩ := allocFiles_total hrs a₂.bm a₂.dir
  exact ⟨a₁, a₂, results, bm', dir', allocFiles_cons h₁ (allocFiles_cons h₂ hrest), hok₁, hok₂,
    hslot₁, hslot₂⟩

/-- **Files are kept exactly if there is at most one.**  The second file put into a directory that
`extract` reads as empty takes the slot of the first. -/
theorem directory_keeps_iff (bm : Bitmap) (dir : FileBlock) (requests : List FileRequest)
    (hempty : ∀ i < 15, word dir (inodeOff i) = 0) (hnames : ∀ r ∈ requests, r.name.length < 24)
    (hfree : min requests.length 15 ≤ (freeBlocks bm).card) :
    ∃ results bm' dir', allocFiles bm dir requests = some (results, bm', dir') ∧
      (KeepsFiles requests results dir' ↔ requests.length ≤ 1) := by
  have hslot : word dir (inodeOff 0) ≠ 0xffffffff := by
    rw [hempty 0 (by decide)]
    decide
  rcases requests with _ | ⟨r₁, _ | ⟨r₂, rs⟩⟩
  · refine ⟨[], bm, dir, rfl, iff_of_true ?_ (by simp)⟩
    exact ⟨List.Pairwise.nil, by simp, by simp, by simp⟩
  · obtain ⟨a, ha, hok, hslot', hentry, -⟩ := alloc_first_slot r₁ bm dir hslot
      (hnames r₁ List.mem_cons_self) (le_trans (by simp) hfree)
    refine ⟨[a], a.bm, a.dir, ?_, iff_of_true ?_ (by simp)⟩
    · exact allocFiles_cons ha rfl
    · refine ⟨List.pairwise_singleton _ _, fun k r b hr hb _ => ?_, fun k b _ hb => ?_, by simp⟩
      · cases k with
        | zero =>
            obtain rfl := Option.some.inj hr
            obtain rfl := Option.some.inj hb
            exact ⟨0, hslot', hentry⟩
        | succ k => simp at hb
      · cases k with
        | zero =>
            obtain rfl := Option.some.inj hb
            exact hok
        | succ k => simp at hb
  · obtain ⟨a₁, a₂, results, bm', dir', hrun, hok₁, hok₂, hslot₁, hslot₂⟩ :=
      allocFiles_share_slot hslot hnames (le_trans (by simp) hfree)
    refine ⟨_, bm', dir', hrun, iff_of_false (fun hkeeps => ?_) (by simp)⟩
    have hne := List.rel_of_pairwise_cons hkeeps.slots List.mem_cons_self hok₁ hok₂
    exact hne (hslot₁.trans hslot₂.symm)

/-- Two files for an empty directory. -/
def twoFiles : List FileRequest := [⟨⟨[97], by simp⟩, 1⟩, ⟨⟨[98], by simp⟩, 2⟩]

lemma mem_freeBlocks_fill {k : ℕ} (h : k < 1048576) : k ∈ freeBlocks (fill 131072 0) := by
  rw [freeBlocks, Finset.mem_filter, Finset.mem_range]
  exact ⟨h, bit_fill_zero k⟩

lemma two_le_freeBlocks_fill : 2 ≤ (freeBlocks (fill 131072 0)).card :=
  Finset.one_lt_card.mpr ⟨0, mem_freeBlocks_fill (by omega), 1, mem_freeBlocks_fill (by omega),
    by decide⟩

/-- The first of them alone is kept, as it should be. -/
theorem directory_keeps_one :
    ∃ results bm' dir', allocFiles (fill 131072 0) (fill 512 0) [⟨⟨[97], by simp⟩, 1⟩]
        = some (results, bm', dir') ∧ KeepsFiles [⟨⟨[97], by simp⟩, 1⟩] results dir' := by
  obtain ⟨results, bm', dir', hrun, hiff⟩ := directory_keeps_iff (fill 131072 0) (fill 512 0)
    [⟨⟨[97], by simp⟩, 1⟩] word_inodeOff_fill (by simp [CString.length])
    (le_trans (by simp) two_le_freeBlocks_fill)
  exact ⟨results, bm', dir', hrun, hiff.mpr (by simp)⟩

/-- The second takes the slot of the first, so that the first is lost. -/
theorem directory_keeps_fails :
    ∃ a₁ a₂ results bm' dir', allocFiles (fill 131072 0) (fill 512 0) twoFiles
        = some (a₁ :: a₂ :: results, bm', dir') ∧
      a₁.Succeeds ∧ a₂.Succeeds ∧ a₁.slot = some 0 ∧ a₂.slot = some 0 :=
  allocFiles_share_slot (by rw [word_inodeOff_fill 0 (by decide)]; decide)
    (by simp [CString.length]) two_le_freeBlocks_fill

end ScratchOs
