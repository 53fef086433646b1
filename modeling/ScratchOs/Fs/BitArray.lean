import ScratchOs.Core.Runs
import ScratchOs.Core.Slots
import ScratchOs.Fs.FirstFit

/-!
# The bitmap as an array

`fs_get_bit` and `fs_set_bit` of `lib/fs.c` over whole runs of calls.  Eight bits share a byte, and
a call reads the byte, changes it and writes it back.  So it is not evident that the bits are
independent of each other; that they are is what lets the rest of the file system think of the
bitmap as a set of blocks.

* `bitsOf` — the table of bits that `fs_get_bit` reads, with the offsets as its slots.
* `setBits_assigns` — a run of `fs_set_bit` does to the table what assigning its slots in order
  does.
* **`bits_independent`** — so a bit is what the last call for it made of it, and no call for another
  offset changes it.

The offsets are those of the bitmap, so that every call is defined.  Of a value the calls keep the
lowest bit only.
-/

namespace ScratchOs

open Bytes Words

/-- An offset of the bitmap: one below `8 * sizeof(struct bitmap)`. -/
abbrev BitOffset := {offset : UInt32 // offset.toNat < 8 * 131072}

/-- The calls `fs_set_bit(bm, offset, val)` of a list, in order. -/
def setBits (bm : Bitmap) (calls : List (BitOffset × UInt32)) : Option Bitmap :=
  calls.foldlM (fun bm call => fsSetBit bm call.1 call.2) bm

/-- The table: what `fs_get_bit` reads at each offset. -/
def bitsOf (bm : Bitmap) : BitOffset → Option UInt32 := fun i => fsGetBit bm i

/-- The value that one call assigns to its offset. -/
def assigned (call : BitOffset × UInt32) : BitOffset × UInt32 := (call.1, call.2 &&& 1)

/-- The lowest bit of a value, as a number. -/
lemma ite_testBit_zero (val : UInt32) :
    (if val.toNat.testBit 0 then 1 else 0 : UInt32) = val &&& 1 := by
  have hmask : (val &&& 1).toNat = val.toNat % 2 := toNat_mask val 1 1 rfl
  rw [← UInt32.toNat_inj, hmask, Nat.testBit_zero]
  rcases Nat.mod_two_eq_zero_or_one val.toNat with h | h <;> simp [h]

/-- **One call** updates one slot of the table, and every other slot reads as before. -/
lemma fsSetBit_assigns (bm : Bitmap) (call : BitOffset × UInt32) :
    ∃ bm', fsSetBit bm call.1 call.2 = some bm' ∧
      bitsOf bm' = Function.update (bitsOf bm) call.1 (some (call.2 &&& 1)) := by
  obtain ⟨bm', hset, hbits⟩ := bit_fsSetBit bm call.1 call.2 call.1.property
  refine ⟨bm', hset, funext fun i => ?_⟩
  rw [bitsOf, fsGetBit_eq bm' i.property, hbits]
  by_cases hi : i = call.1
  · subst hi
    rw [if_pos rfl, Function.update_self, ite_testBit_zero]
  · have hne : i.val.toNat ≠ call.1.val.toNat := by
      intro heq
      exact hi (Subtype.ext (UInt32.toNat_inj.mp heq))
    rw [if_neg hne, Function.update_of_ne hi, bitsOf, fsGetBit_eq bm i.property]

/-- A run of calls assigns the slots in order.  What this makes of a slot is a general fact about
tables, in `Core/Slots`. -/
lemma setBits_assigns (bm : Bitmap) (calls : List (BitOffset × UInt32)) :
    ∃ bm', setBits bm calls = some bm' ∧
      bitsOf bm' = Slots.assign (bitsOf bm) (calls.map assigned) := by
  have hrun := Runs.foldlM_simulates (R := fun m bm => bitsOf bm = m)
    (f := fun bm (call : BitOffset × UInt32) => fsSetBit bm call.1 call.2)
    (g := fun m call => Function.update m call.1 (some (call.2 &&& 1)))
    (fun m bm call hm => hm ▸ fsSetBit_assigns bm call) calls (rfl : bitsOf bm = _)
  rw [Slots.assign, List.foldl_map]
  exact hrun

/-- The offsets of a run are the slots that it assigns. -/
lemma map_fst_assigned (calls : List (BitOffset × UInt32)) :
    (calls.map assigned).map Prod.fst = calls.map Prod.fst := by
  simp [assigned]

/-- **The bitmap is an array of independent bits.**  After any run of `fs_set_bit`, `fs_get_bit`
reads at each offset the lowest bit of what the last call for that offset was given, and what it
read before the run when no call was for that offset. -/
theorem bits_independent (bm : Bitmap) (calls : List (BitOffset × UInt32)) :
    ∃ bm', setBits bm calls = some bm' ∧ ∀ i : BitOffset,
      (∀ before val after, calls = before ++ (i, val) :: after → i ∉ after.map Prod.fst →
        fsGetBit bm' i = some (val &&& 1)) ∧
      (i ∉ calls.map Prod.fst → fsGetBit bm' i = fsGetBit bm i) := by
  obtain ⟨bm', hok, hbits⟩ := setBits_assigns bm calls
  refine ⟨bm', hok, fun i => ⟨?_, ?_⟩⟩
  · intro before val after hcalls hlast
    rw [← map_fst_assigned] at hlast
    have hslot : bitsOf bm' i = some (val &&& 1) := by
      rw [hbits, hcalls, List.map_append, List.map_cons]
      exact Slots.assign_last hlast
    exact hslot
  · intro hnone
    rw [← map_fst_assigned] at hnone
    have hslot : bitsOf bm' i = bitsOf bm i := by
      rw [hbits, Slots.assign_of_not_mem hnone]
    exact hslot

end ScratchOs
