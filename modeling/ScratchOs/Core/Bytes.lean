import Mathlib.Tactic.Common

/-!
# Byte buffers

An object in memory, seen as the function from its offsets to its bytes.  A C program looks at one
and the same object in several ways: as raw bytes that it reads from a file, as a structure with
`uint32_t` fields, as an array of bits.  All of these views are functions of the bytes here, so that
a fact about one view can be carried over to another without a change of representation.

**Totality.**  `byteAt` gives 0 past the end, and `write` drops what does not fit.  Neither is a
claim about C, where such an access is undefined: the programs check the offset first and have no
result where it is outside of the object.  Total views keep that check in one place, and the lemmas
free of side conditions.

* `byteAt_write` — where a write goes, byte by byte.  The frame facts follow from it.
* **`word_write_le32`** — a word that has been written is read back; `word_write_of_disjoint` —
  other words stay.
* `bit_update` — what assigning one byte does to the bits.
-/

namespace Bytes

/-- An object of `n` bytes. -/
abbrev Buffer (n : ℕ) := Fin n → UInt8

variable {n : ℕ}

/-- The byte at an offset, and 0 past the end. -/
def byteAt (b : Buffer n) (i : ℕ) : UInt8 := if h : i < n then b ⟨i, h⟩ else 0

lemma byteAt_of_lt (b : Buffer n) {i : ℕ} (h : i < n) : byteAt b i = b ⟨i, h⟩ := dif_pos h

/-- `memset` of a whole object. -/
def fill (n : ℕ) (x : UInt8) : Buffer n := fun _ => x

lemma byteAt_fill (x : UInt8) {i : ℕ} (h : i < n) : byteAt (fill n x) i = x := byteAt_of_lt _ h

@[simp] lemma byteAt_fill_zero (i : ℕ) : byteAt (fill n 0) i = 0 := by
  by_cases h : i < n
  · exact byteAt_fill 0 h
  · exact dif_neg h

/-- The object after bytes have been written from an offset on.  What does not fit is not
written. -/
def write (b : Buffer n) (off : ℕ) (data : List UInt8) : Buffer n :=
  fun i => if off ≤ i.val then (data[i.val - off]?).getD (b i) else b i

/-- Where a write goes: an offset in the range gets its byte of the data, and every other one
keeps what it had. -/
lemma byteAt_write (b : Buffer n) (off : ℕ) (data : List UInt8) {i : ℕ} (hi : i < n) :
    byteAt (write b off data) i
      = if off ≤ i ∧ i < off + data.length then (data[i - off]?).getD 0 else byteAt b i := by
  rw [byteAt_of_lt _ hi, byteAt_of_lt _ hi, write]
  by_cases hlo : off ≤ i
  · rw [if_pos hlo]
    by_cases hhi : i < off + data.length
    · have hsome : data[i - off]? = some data[i - off] := List.getElem?_eq_getElem (by omega)
      rw [if_pos ⟨hlo, hhi⟩, hsome]
      rfl
    · have hnone : data[i - off]? = none := List.getElem?_eq_none (by omega)
      rw [if_neg (fun h => hhi h.2), hnone]
      rfl
  · rw [if_neg hlo, if_neg (fun h => hlo h.1)]

/-- A write does not reach the bytes outside of its range. -/
lemma byteAt_write_of_disjoint (b : Buffer n) (off : ℕ) (data : List UInt8) {i : ℕ}
    (h : i < off ∨ off + data.length ≤ i) : byteAt (write b off data) i = byteAt b i := by
  by_cases hi : i < n
  · rw [byteAt_write _ _ _ hi, if_neg (by omega)]
  · rw [byteAt, byteAt, dif_neg hi, dif_neg hi]

/-! ## Words

A `uint32_t` field is four consecutive bytes.  Nothing asks for the offset to be a multiple of four,
because structures may be packed.
-/

/-- The four bytes of a word, least significant first, as x86 stores them. -/
def le32 (v : UInt32) : List UInt8 :=
  [UInt8.ofNat v.toNat, UInt8.ofNat (v.toNat / 256), UInt8.ofNat (v.toNat / 65536),
    UInt8.ofNat (v.toNat / 16777216)]

@[simp] lemma length_le32 (v : UInt32) : (le32 v).length = 4 := rfl

/-- The word at an offset, read as x86 reads it. -/
def word (b : Buffer n) (off : ℕ) : UInt32 :=
  UInt32.ofNat ((byteAt b off).toNat + (byteAt b (off + 1)).toNat * 256
    + (byteAt b (off + 2)).toNat * 65536 + (byteAt b (off + 3)).toNat * 16777216)

/-- A word depends on its four bytes only, whatever object they are in. -/
lemma word_congr {m : ℕ} {b : Buffer n} {c : Buffer m} {off off' : ℕ}
    (h : ∀ i < 4, byteAt b (off + i) = byteAt c (off' + i)) : word b off = word c off' := by
  have h₀ := h 0 (by omega)
  have h₁ := h 1 (by omega)
  have h₂ := h 2 (by omega)
  have h₃ := h 3 (by omega)
  rw [Nat.add_zero, Nat.add_zero] at h₀
  rw [word, word, h₀, h₁, h₂, h₃]

/-- **A word is read back** after it has been written, at every offset at which it fits. -/
lemma word_write_le32 (b : Buffer n) {off : ℕ} (v : UInt32) (h : off + 4 ≤ n) :
    word (write b off (le32 v)) off = v := by
  have hv := UInt32.toNat_lt v
  have hbyte : ∀ i (hi : i < 4), byteAt (write b off (le32 v)) (off + i) = (le32 v)[i] := by
    intro i hi
    rw [byteAt_write _ _ _ (by omega), length_le32, if_pos (by omega), Nat.add_sub_cancel_left,
      List.getElem?_eq_getElem (by rw [length_le32]; exact hi)]
    rfl
  have h₀ := hbyte 0 (by omega)
  rw [Nat.add_zero] at h₀
  rw [word, h₀, hbyte 1 (by omega), hbyte 2 (by omega), hbyte 3 (by omega), ← UInt32.toNat_inj]
  simp only [le32, List.getElem_cons_zero, List.getElem_cons_succ, UInt8.toNat_ofNat',
    UInt32.toNat_ofNat']
  omega

/-- A write does not change the words outside of its range. -/
lemma word_write_of_disjoint (b : Buffer n) {off p : ℕ} {data : List UInt8}
    (h : p + 4 ≤ off ∨ off + data.length ≤ p) : word (write b off data) p = word b p :=
  word_congr fun i hi => byteAt_write_of_disjoint b off data (by omega)

/-- Every word of an object that `memset` has filled repeats the byte four times. -/
lemma word_fill (x : UInt8) {off : ℕ} (h : off + 4 ≤ n) :
    word (fill n x) off = UInt32.ofNat (x.toNat * 16843009) := by
  rw [word, byteAt_fill x (by omega), byteAt_fill x (by omega), byteAt_fill x (by omega),
    byteAt_fill x (by omega)]
  congr 1
  omega

/-! ## Bits

The bits of an object are numbered as bitmaps mostly do it: by byte, and inside of a byte from the
least significant bit on.
-/

/-- Bit `k`, counted from the least significant bit of the first byte. -/
def bit (b : Buffer n) (k : ℕ) : Bool := (byteAt b (k / 8)).toNat.testBit (k % 8)

lemma bit_fill_zero (k : ℕ) : bit (fill n 0) k = false := by
  rw [bit, byteAt_fill_zero]
  exact Nat.zero_testBit _

lemma bit_fill_ones {k : ℕ} (h : k / 8 < n) : bit (fill n 255) k = true := by
  have hall : ∀ t < 8, (255 : UInt8).toNat.testBit t = true := by decide
  rw [bit, byteAt_fill _ h]
  exact hall _ (Nat.mod_lt _ (by decide))

/-- Assigning one byte changes its own eight bits and no others. -/
lemma bit_update (b : Buffer n) (i : Fin n) (x : UInt8) (k : ℕ) :
    bit (Function.update b i x) k = if k / 8 = i.val then x.toNat.testBit (k % 8) else bit b k := by
  by_cases hi : k / 8 = i.val
  · rw [if_pos hi, bit, byteAt_of_lt _ (by rw [hi]; exact i.isLt)]
    simp [hi]
  · rw [if_neg hi, bit, bit, byteAt, byteAt]
    by_cases hk : k / 8 < n
    · have hne : (⟨k / 8, hk⟩ : Fin n) ≠ i := fun e => hi (congrArg Fin.val e)
      rw [dif_pos hk, dif_pos hk, Function.update_of_ne hne]
    · rw [dif_neg hk, dif_neg hk]

end Bytes
