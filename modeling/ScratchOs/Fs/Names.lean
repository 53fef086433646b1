import ScratchOs.Fs.Directory

/-!
# Names that do not fit

`fs_alloc_file_in_dir` copies the name with `strcpy` into the 24 bytes of `fs_name`, and assigns the
eight bytes behind it afterwards.  A longer name goes on over them, over the slots behind and at
last over the end of the directory.  Nothing in `format` looks at the length of the path it is
given.

* `useSlot_any` — the body of the loop for a name of any length.
* `byteAt_fillSlot_behind` — what a name leaves behind its slot.
* **`name_contained_iff`** — for which calls the name does no damage.

**The exact condition** has a corner: a call that fails for want of a block is not asked for a name
that ends, and then a long name still does no damage if the very bytes it puts behind its slot are
there already.  It is part of the result because the result is an equivalence.
-/

namespace ScratchOs

open Bytes Words

/-- The bytes of a string with its NUL. -/
def CString.withNul (s : CString) : List UInt8 := s.bytes ++ [0]

lemma CString.length_withNul (s : CString) : s.withNul.length = s.length + 1 :=
  List.length_append

/-- A name has done no damage: outside of the slot that was chosen every byte of the directory is
as before, and after a success the name in the slot ends. -/
structure Contained (dir : FileBlock) (a : AllocResult) : Prop where
  frame : ∀ p < 512, (∀ i, a.slot = some i → p < nameOff i ∨ nameOff i + 32 ≤ p) →
    byteAt a.dir p = byteAt dir p
  ends : a.ret ≠ 0xffffffff → ∃ i, a.slot = some i ∧ ∃ t < 24, byteAt a.dir (nameOff i + t) = 0

section Fill

variable {dir : FileBlock} {name : CString} {i : ℕ} (size inode : UInt32)

/-- The two fields behind the name are assigned in the slot, so that elsewhere only the name
counts. -/
lemma byteAt_fillSlot {p : ℕ} (hp : p < nameOff i + 24 ∨ nameOff i + 32 ≤ p) :
    byteAt (fillSlot dir i name size inode) p
      = byteAt (write dir (nameOff i) name.withNul) p := by
  obtain ⟨h₁, h₂, h₃⟩ := offsets i
  have hsize := length_le32 size
  have hinode := length_le32 inode
  rw [fillSlot, byteAt_write_of_disjoint _ _ _ (by omega),
    byteAt_write_of_disjoint _ _ _ (by omega), CString.withNul]

/-- The name in its field, as far as the two of them go. -/
lemma byteAt_fillSlot_name (hi : i < 15) {t : ℕ} (ht : t < 24) (hle : t ≤ name.length) :
    byteAt (fillSlot dir i name size inode) (nameOff i + t) = (name.withNul[t]?).getD 0 := by
  have hoff := (offsets i).1
  have hlen := name.length_withNul
  rw [byteAt_fillSlot size inode (by omega), byteAt_write _ _ _ (by omega), if_pos (by omega),
    Nat.add_sub_cancel_left]

/-- **What a name leaves behind its slot**: the rest of its own bytes, and behind its end what
was there. -/
lemma byteAt_fillSlot_behind {t : ℕ} (ht : 32 ≤ t) (hin : nameOff i + t < 512) :
    byteAt (fillSlot dir i name size inode) (nameOff i + t)
      = if t ≤ name.length then (name.withNul[t]?).getD 0 else byteAt dir (nameOff i + t) := by
  have hlen := name.length_withNul
  rw [byteAt_fillSlot size inode (by omega), byteAt_write _ _ _ hin]
  by_cases hle : t ≤ name.length
  · rw [if_pos (by omega), if_pos hle, Nat.add_sub_cancel_left]
  · rw [if_neg (by omega), if_neg hle]

/-- Before its slot a name leaves everything as it is. -/
lemma byteAt_fillSlot_before {p : ℕ} (hp : p < nameOff i) :
    byteAt (fillSlot dir i name size inode) p = byteAt dir p := by
  rw [byteAt_fillSlot size inode (by omega), byteAt_write_of_disjoint _ _ _ (by omega)]

end Fill

section Call

variable {bm : Bitmap} {dir : FileBlock} {name : CString} {i : ℕ}

/-- **The body of the loop for a name of any length.**  It is defined as long as the name ends
inside of the block. -/
lemma useSlot_any {off : UInt32} {bm' : Bitmap} (size : UInt32)
    (halloc : fsAllocBlk bm = some (off, bm')) :
    useSlot bm dir name size i
      = if nameOff i + name.length + 1 ≤ 512 then
          some ⟨off, some i, bm', fillSlot dir i name size off⟩
        else none := by
  rw [useSlot, strcpy]
  by_cases hfit : nameOff i + name.length + 1 ≤ 512
  · have hoff := offsets i
    have hlen := length_le32 size
    have hret : word (fillSlot dir i name size off) (inodeOff i) = off := by
      rw [fillSlot, word_write_of_disjoint _ (by omega), word_write_le32 _ _ (by omega)]
    rw [fillSlot] at hret
    rw [if_pos hfit, if_pos hfit]
    simp only [Option.bind_eq_bind, Option.bind_some, halloc, hret]
    rfl
  · rw [if_neg hfit, if_neg hfit]
    rfl

/-- A name with no NUL in the first 24 bytes does not end in its field. -/
lemma fillSlot_ends_iff (size off : UInt32) (hi : i < 15) :
    (∃ t < 24, byteAt (fillSlot dir i name size off) (nameOff i + t) = 0) ↔ name.length < 24 := by
  constructor
  · rintro ⟨t, ht, hzero⟩
    by_contra hlong
    have hlt : t < name.bytes.length := by
      show t < name.length
      omega
    rw [byteAt_fillSlot_name size off hi ht (by omega), CString.withNul,
      List.getElem?_append_left hlt, List.getElem?_eq_getElem hlt] at hzero
    exact name.noNul _ (List.getElem_mem hlt) hzero
  · intro hshort
    refine ⟨name.length, hshort, ?_⟩
    rw [byteAt_fillSlot_name size off hi hshort le_rfl, CString.withNul, CString.length,
      List.getElem?_append_right le_rfl, Nat.sub_self]
    rfl

/-- Outside of its slot a name changes nothing if what it puts there is there already. -/
lemma fillSlot_frame_iff (size off : UInt32)
    (hfit : nameOff i + name.length + 1 ≤ 512) :
    (∀ p < 512, p < nameOff i ∨ nameOff i + 32 ≤ p →
        byteAt (fillSlot dir i name size off) p = byteAt dir p) ↔
      ∀ t, 32 ≤ t → t ≤ name.length →
        byteAt dir (nameOff i + t) = (name.withNul[t]?).getD 0 := by
  constructor
  · intro hframe t ht hle
    have hbyte := hframe (nameOff i + t) (by omega) (by omega)
    rw [byteAt_fillSlot_behind size off ht (by omega), if_pos hle] at hbyte
    exact hbyte.symm
  · intro hsame p hp hout
    rcases hout with hbefore | hbehind
    · exact byteAt_fillSlot_before size off hbefore
    · obtain ⟨t, rfl⟩ := Nat.exists_eq_add_of_le (show nameOff i ≤ p by omega)
      rw [byteAt_fillSlot_behind size off (by omega) hp]
      by_cases hle : t ≤ name.length
      · rw [if_pos hle, hsame t (by omega) hle]
      · rw [if_neg hle]

/-- A call that uses slot `i`, with the condition on the bytes behind that slot. -/
lemma useSlot_contained_iff {off : UInt32} {bm' : Bitmap} (size : UInt32) (hi : i < 15)
    (halloc : fsAllocBlk bm = some (off, bm')) :
    (∃ a, useSlot bm dir name size i = some a ∧ Contained dir a) ↔
      (nameOff i + name.length + 1 ≤ 512 ∧ ∀ t, 32 ≤ t → t ≤ name.length →
        byteAt dir (nameOff i + t) = (name.withNul[t]?).getD 0) ∧
      (off ≠ 0xffffffff → name.length < 24) := by
  rw [useSlot_any size halloc]
  by_cases hfit : nameOff i + name.length + 1 ≤ 512
  · rw [if_pos hfit]
    constructor
    · rintro ⟨a, hcall, hcontained⟩
      obtain rfl := Option.some.inj hcall
      refine ⟨⟨hfit, (fillSlot_frame_iff size off hfit).mp fun p hp hout => ?_⟩, fun hok => ?_⟩
      · exact hcontained.frame p hp fun j hj => Option.some.inj hj ▸ hout
      · obtain ⟨j, hj, hend⟩ := hcontained.ends hok
        obtain rfl := Option.some.inj hj
        exact (fillSlot_ends_iff size off hi).mp hend
    · rintro ⟨⟨-, hsame⟩, hshort⟩
      refine ⟨_, rfl, fun p hp hout => ?_, fun hok => ⟨i, rfl, ?_⟩⟩
      · exact (fillSlot_frame_iff size off hfit).mpr hsame p hp (hout i rfl)
      · exact (fillSlot_ends_iff size off hi).mpr (hshort hok)
  · rw [if_neg hfit]
    constructor
    · rintro ⟨a, hcall, -⟩
      cases hcall
    · rintro ⟨⟨hfit', -⟩, -⟩
      exact absurd hfit' hfit

/-- There is only one slot that a call takes. -/
lemma FirstSlot.unique {j : ℕ} (hi : FirstSlot dir i) (hj : FirstSlot dir j) : i = j := by
  rcases Nat.lt_trichotomy i j with h | h | h
  · exact absurd (hj.least i h) hi.free
  · exact h
  · exact absurd (hi.least j h) hj.free

end Call

/-- **A name does no damage** if and only if no slot is chosen, or it is shorter than its field, or
no block is free and what it would leave behind its slot is there already. -/
theorem name_contained_iff (bm : Bitmap) (dir : FileBlock) (name : CString) (filesz : UInt32) :
    (∃ a, fsAllocFileInDir bm dir name filesz = some a ∧ Contained dir a) ↔
      (∀ i < 15, word dir (inodeOff i) = 0xffffffff) ∨ name.length < 24 ∨
        (∀ k < 1048576, bit bm k = true) ∧ ∀ i, FirstSlot dir i →
          nameOff i + name.length + 1 ≤ 512 ∧ ∀ t, 32 ≤ t → t ≤ name.length →
            byteAt dir (nameOff i + t) = (name.withNul[t]?).getD 0 := by
  rcases fsAllocFileInDir_cases bm dir name filesz with ⟨i, hslot, hcall⟩ | ⟨hnone, hcall⟩
  · have hsome : ¬ ∀ j < 15, word dir (inodeOff j) = 0xffffffff :=
      fun hall => hslot.free (hall i hslot.lt)
    have hfirst : ∀ {P : ℕ → Prop}, (∀ j, FirstSlot dir j → P j) ↔ P i :=
      fun {P} => ⟨fun h => h i hslot, fun h j hj => hslot.unique hj ▸ h⟩
    have hoff := (offsets i).1
    have hlt := hslot.lt
    rw [hcall, hfirst]
    rcases fsAllocBlk_spec bm with ⟨k, bm', halloc, hfit⟩ | ⟨hfull, halloc⟩
    · have hfree : ¬ ∀ j < 1048576, bit bm j = true := by
        intro hall
        have hused := hall k hfit.lt
        rw [hfit.free] at hused
        cases hused
      rw [useSlot_contained_iff filesz hslot.lt halloc]
      constructor
      · rintro ⟨-, hshort⟩
        exact Or.inr (Or.inl (hshort (ofNat_ne_error hfit.lt)))
      · rintro (hall | hshort | ⟨hall, -⟩)
        · exact absurd hall hsome
        · exact ⟨⟨by omega, fun t ht hle => absurd hle (by omega)⟩, fun _ => hshort⟩
        · exact absurd hall hfree
    · rw [useSlot_contained_iff filesz hslot.lt halloc]
      constructor
      · rintro ⟨hsame, -⟩
        exact Or.inr (Or.inr ⟨hfull, hsame⟩)
      · rintro (hall | hshort | ⟨-, hsame⟩)
        · exact absurd hall hsome
        · exact ⟨⟨by omega, fun t ht hle => absurd hle (by omega)⟩, fun h => absurd rfl h⟩
        · exact ⟨hsame, fun h => absurd rfl h⟩
  · rw [hcall]
    refine iff_of_true ⟨_, rfl, fun _ _ _ => rfl, fun h => absurd rfl h⟩ (Or.inl hnone)

/-- A name of 40 bytes, an empty directory and an empty bitmap: the name does not end in its field,
and goes on into the next slot. -/
theorem name_contained_fails :
    ∃ a, fsAllocFileInDir (fill 131072 0) (fill 512 0) ⟨List.replicate 40 97, by simp⟩ 1 = some a ∧
      a.ret ≠ 0xffffffff ∧ a.slot = some 0 ∧ (∀ t < 24, byteAt a.dir (nameOff 0 + t) ≠ 0) ∧
      byteAt a.dir (nameOff 1) ≠ byteAt (fill 512 0) (nameOff 1) := by
  have hfirst : FirstSlot (fill 512 0) 0 := by
    refine ⟨by decide, ?_, fun j hj => absurd hj (Nat.not_lt_zero j)⟩
    rw [word_inodeOff_fill 0 (by decide)]
    decide
  have hbytes : ∀ t < 40, ((List.replicate 40 (97 : UInt8) ++ [0])[t]?).getD 0 ≠ 0 := by decide
  generalize hname : (⟨List.replicate 40 97, by simp⟩ : CString) = name
  have hlen : name.length = 40 := by rw [← hname, CString.length, List.length_replicate]
  have hnul : name.withNul = List.replicate 40 97 ++ [0] := by rw [← hname, CString.withNul]
  rcases fsAllocFileInDir_cases (fill 131072 0) (fill 512 0) name 1 with
    ⟨i, hslot, hcall⟩ | ⟨hnone, -⟩
  · obtain rfl := hfirst.unique hslot
    rcases fsAllocBlk_spec (fill 131072 0) with ⟨k, bm', halloc, hfit⟩ | ⟨hfull, -⟩
    · rw [useSlot_any 1 halloc, hlen, if_pos (by decide)] at hcall
      refine ⟨_, hcall, ofNat_ne_error hfit.lt, rfl, fun t ht => ?_, ?_⟩
      · rw [byteAt_fillSlot_name _ _ (by decide) ht (by omega), hnul]
        exact hbytes t (by omega)
      · have hbehind := @byteAt_fillSlot_behind (fill 512 0) name 0 1 (UInt32.ofNat k) 32 le_rfl
          (by decide)
        rw [hlen, if_pos (by decide), hnul] at hbehind
        rw [byteAt_fill_zero]
        exact fun hzero => hbytes 32 (by decide) (hbehind.symm.trans hzero)
    · have hfree := hfull 0 (by decide)
      rw [bit_fill_zero] at hfree
      cases hfree
  · exact absurd (hnone 0 (by decide)) hfirst.free

end ScratchOs
