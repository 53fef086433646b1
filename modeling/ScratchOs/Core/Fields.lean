import Mathlib.Data.Nat.Notation
import Mathlib.Tactic.Common
import Mathlib.Tactic.Ring

/-!
# Bit fields

A C structure of bit fields as the number that its bytes make: the first field starts at bit 0, and
each other one where the one before ends.  This is how the compilers for x86 lay such structures
out, and the processor reads descriptors by the same positions; what has to be shown each time is
that the two agree.

The fields are given as a list of bit vectors of their own widths, so that the positions need not be
written down: they are computed from the widths of the fields before.

* **`extract_pack`** — the bits where a field lies are the field, whatever the others hold.
* `setWidth_and_mask` — masking what is assigned to a field changes nothing when the field is no
  wider than the mask, because the assignment cuts the value anyway.
-/

namespace Fields

/-- A field: how many bits it has, and what they are. -/
abbrev Field := (w : ℕ) × BitVec w

/-- The number that fields make, the first of them in its lowest bits. -/
def pack : List Field → ℕ
  | [] => 0
  | f :: fs => f.2.toNat + 2 ^ f.1 * pack fs

/-- How many bits fields have together. -/
def width (fs : List Field) : ℕ := (fs.map Sigma.fst).sum

/-- The `w` bits of a number from bit `off` on. -/
def extract (off w x : ℕ) : BitVec w := BitVec.ofNat w (x / 2 ^ off)

@[simp] lemma width_nil : width [] = 0 := rfl

@[simp] lemma width_cons (f : Field) (fs : List Field) : width (f :: fs) = f.1 + width fs := by
  simp [width]

/-- The first field is in the lowest bits. -/
lemma extract_pack_head (f : Field) (fs : List Field) :
    extract 0 f.1 (pack (f :: fs)) = f.2 := by
  have hf : f.2.toNat < 2 ^ f.1 := f.2.isLt
  refine BitVec.eq_of_toNat_eq ?_
  simp [extract, pack, Nat.add_mul_mod_self_left, Nat.mod_eq_of_lt hf]

/-- Behind the first field the number is the one that the others make. -/
lemma extract_pack_tail (f : Field) (fs : List Field) (off w : ℕ) :
    extract (f.1 + off) w (pack (f :: fs)) = extract off w (pack fs) := by
  have hf : f.2.toNat < 2 ^ f.1 := f.2.isLt
  have hdiv : pack (f :: fs) / 2 ^ f.1 = pack fs := by
    rw [pack, Nat.add_mul_div_left _ _ (Nat.two_pow_pos _), Nat.div_eq_of_lt hf, Nat.zero_add]
  rw [extract, extract, Nat.pow_add, ← Nat.div_div_eq_div_mul, hdiv]

/-- **A field is read back**, whatever the others hold. -/
theorem extract_pack (before after : List Field) (f : Field) :
    extract (width before) f.1 (pack (before ++ f :: after)) = f.2 := by
  induction before with
  | nil => exact extract_pack_head f after
  | cons g gs ih =>
      rw [width_cons, List.cons_append, extract_pack_tail]
      exact ih

/-- The same by the number of the field, which is how a structure with named fields is used:
`off` is the sum of the widths before it. -/
lemma extract_getElem (fs : List Field) (k : ℕ) {off : ℕ} {f : Field} (h : fs[k]? = some f)
    (hoff : width (fs.take k) = off) : extract off f.1 (pack fs) = f.2 := by
  obtain ⟨hk, rfl⟩ := List.getElem?_eq_some_iff.mp h
  have hsplit := extract_pack (fs.take k) (fs.drop (k + 1)) fs[k]
  rwa [← List.drop_eq_getElem_cons hk, List.take_append_drop, hoff] at hsplit

/-! ## Assignments

What C does to a value that is assigned to a bit field: it is cut to the width of the field.
-/

variable {n w : ℕ}

/-- Masking a value before it is assigned to a field does nothing, if the mask has all the bits
of the field. -/
lemma setWidth_and_mask {v mask : BitVec n} (h : mask.setWidth w = BitVec.allOnes w) :
    (v &&& mask).setWidth w = v.setWidth w := by
  rw [BitVec.setWidth_and, h, BitVec.and_allOnes]

/-- A value that is shifted and then assigned to a field gives the field the bits from the shift
on. -/
lemma setWidth_shiftRight (v : BitVec n) (off : ℕ) :
    (v >>> off).setWidth w = v.extractLsb' off w := by
  ext i hi
  simp

end Fields
