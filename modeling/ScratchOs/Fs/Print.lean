import ScratchOs.Fs.Bitmap

/-!
# The printed bitmap

`putbyte_chomp` and `putbm` of `lib/fs.c`: one digit for each bit, the least significant bit of a
byte first, so that the digits stand in the order of the offsets.  The map is meant to be looked at,
and it is right in the sense that matters for that: the place of a digit in the text is the number
of the block.

* `putbm_eq` — digit `k` is bit `k`.
* **`putbm_alloc`** — what `fs_alloc_blk` does to the printed map: the first `0` becomes a `1`, and
  the block it returns is the place of that digit.

Printing is a list of characters here.  The lemmas are for bitmaps of any size and any contents.
-/

namespace ScratchOs

open Bytes

/-! ## The program

The two functions, with what they print as their result.
-/

/-- The rounds of `putbyte_chomp` that are left, on what is left of the byte. -/
def putbyteChompFrom : ℕ → UInt8 → List Char
  | 0, _ => []
  | n + 1, byte => (if byte &&& 0x1 ≠ 0 then '1' else '0') :: putbyteChompFrom n (byte >>> 1)

/-- `putbyte_chomp`, which prints the eight bits of a byte. -/
def putbyteChomp (byte : UInt8) : List Char := putbyteChompFrom 8 byte

/-- `putbm`, for a bitmap of any size. -/
def putbm {n : ℕ} (bm : Buffer n) : List Char :=
  ((List.range n).flatMap fun i => putbyteChomp (byteAt bm i)) ++ ['\n']

/-! ## Digits

Both loops go up through the bits, so that no place is exchanged with another.
-/

/-- The digit that is printed for a bit. -/
def bitDigit (b : Bool) : Char := if b then '1' else '0'

/-- Eight digits, the least significant bit first. -/
lemma putbyteChomp_eq (byte : UInt8) :
    putbyteChomp byte = (List.range 8).map fun t => bitDigit (byte.toNat.testBit t) := by
  have hall : ∀ k : Fin 256, putbyteChomp (UInt8.ofNat k)
      = (List.range 8).map fun t => bitDigit ((UInt8.ofNat k).toNat.testBit t) := by
    decide +kernel
  have hbyte : UInt8.ofNat byte.toNat = byte := UInt8.ofNat_toNat
  have h := hall ⟨byte.toNat, byte.toNat_lt⟩
  rwa [hbyte] at h

/-- **The digits of a bitmap** are its bits, in order. -/
theorem putbm_eq {n : ℕ} (bm : Buffer n) :
    putbm bm = ((List.range (8 * n)).map fun k => bitDigit (bit bm k)) ++ ['\n'] := by
  have hbytes : ∀ m, ((List.range m).flatMap fun i => putbyteChomp (byteAt bm i))
      = (List.range (8 * m)).map fun k => bitDigit (bit bm k) := by
    intro m
    induction m with
    | zero => rfl
    | succ m ih =>
        rw [List.range_succ, List.flatMap_append, ih, Nat.mul_succ, List.range_add, List.map_append,
          List.map_map, List.flatMap_singleton, putbyteChomp_eq]
        congr 1
        refine List.map_congr_left fun t ht => ?_
        have hlt : t < 8 := List.mem_range.mp ht
        have hdiv : (8 * m + t) / 8 = m := by omega
        have hmod : (8 * m + t) % 8 = t := by omega
        rw [Function.comp_apply, bit, hdiv, hmod]
  rw [putbm, hbytes]

section Digits

variable {n : ℕ} {bm : Buffer n} {k : ℕ}

lemma getElem?_putbm (hk : k < 8 * n) : (putbm bm)[k]? = some (bitDigit (bit bm k)) := by
  rw [putbm_eq, List.getElem?_append_left (by simpa using hk), List.getElem?_map,
    List.getElem?_range hk, Option.map_some]

lemma length_putbm : (putbm bm).length = 8 * n + 1 := by
  rw [putbm_eq]
  simp

/-- Where all bits are set there is no `0`. -/
lemma zero_notMem_digits {m : ℕ} (hset : ∀ j < m, bit bm j = true) :
    '0' ∉ (List.range m).map fun j => bitDigit (bit bm j) := by
  intro hmem
  obtain ⟨j, hj, hzero⟩ := List.mem_map.mp hmem
  rw [hset j (List.mem_range.mp hj)] at hzero
  exact absurd hzero (by decide)

lemma take_putbm (hk : k ≤ 8 * n) :
    (putbm bm).take k = (List.range k).map fun j => bitDigit (bit bm j) := by
  rw [putbm_eq, List.take_append_of_le_length (by simpa using hk), ← List.map_take,
    List.take_range, Nat.min_eq_left hk]

/-- The first `0` of the printed map is the first bit that is clear. -/
lemma idxOf_putbm (hk : k < 8 * n) (hclear : bit bm k = false) (hset : ∀ j < k, bit bm j = true) :
    (putbm bm).idxOf '0' = k := by
  have hlen : (putbm bm).length = 8 * n + 1 := length_putbm
  have hlt : k < (putbm bm).length := by omega
  have hget : (putbm bm)[k] = '0' := by
    have h : (putbm bm)[k]? = some (bitDigit (bit bm k)) := getElem?_putbm hk
    rw [List.getElem?_eq_getElem hlt, hclear] at h
    exact Option.some.inj h
  have hbefore : '0' ∉ (putbm bm).take k := by
    rw [take_putbm (Nat.le_of_lt hk)]
    exact zero_notMem_digits hset
  have hsplit : putbm bm = (putbm bm).take k ++ '0' :: (putbm bm).drop (k + 1) := by
    rw [← hget, ← List.drop_eq_getElem_cons hlt, List.take_append_drop]
  rw [hsplit, List.idxOf_append, if_neg hbefore, List.length_take, List.idxOf_cons_self]
  omega

/-- Setting a bit sets its digit. -/
lemma putbm_set {bm' : Buffer n} (hk : k < 8 * n)
    (h : ∀ j, bit bm' j = if j = k then true else bit bm j) :
    putbm bm' = (putbm bm).set k '1' := by
  rw [putbm_eq, putbm_eq, List.set_append_left _ _ (by simpa using hk)]
  congr 1
  refine List.ext_getElem (by simp) fun j hj _ => ?_
  simp only [List.getElem_set, List.getElem_map, List.getElem_range, h]
  by_cases hjk : k = j
  · rw [if_pos hjk, if_pos hjk.symm]
    rfl
  · rw [if_neg hjk, if_neg (Ne.symm hjk)]

end Digits

/-! ## The search

First fit, said of the text: what is searched for is its first `0`.
-/

/-- **`fs_alloc_blk` on the printed map**: it returns the place of the first `0` and makes it a `1`,
or finds no `0`. -/
theorem putbm_alloc (bm : Bitmap) :
    (∃ off bm', fsAllocBlk bm = some (off, bm') ∧ '0' ∈ putbm bm ∧
        off.toNat = (putbm bm).idxOf '0' ∧ putbm bm' = (putbm bm).set off.toNat '1') ∨
      (fsAllocBlk bm = some (0xffffffff, bm) ∧ '0' ∉ putbm bm) := by
  rcases fsAllocBlk_spec bm with ⟨k, bm', hok, hfit⟩ | ⟨hfull, hok⟩
  · left
    have hlt := hfit.lt
    have hoff : (UInt32.ofNat k).toNat = k := Words.toNat_ofNat (by omega)
    have hidx : (putbm bm).idxOf '0' = k := idxOf_putbm hlt hfit.free hfit.least
    refine ⟨_, bm', hok, ?_, by rw [hoff, hidx], by rw [hoff, putbm_set hlt hfit.taken]⟩
    refine List.mem_iff_getElem?.mpr ⟨k, ?_⟩
    rw [getElem?_putbm hlt, hfit.free]
    rfl
  · right
    refine ⟨hok, ?_⟩
    rw [putbm_eq, List.mem_append, not_or]
    exact ⟨zero_notMem_digits hfull, by decide⟩

end ScratchOs
