import ScratchOs.Core.Bytes

/-!
# Byte memory with 32-bit addresses

The memory of the machine, as every byte an address names.  Addresses wrap at `2 ^ 32`, and the C
functions that work on memory do not look out for it.  A range is therefore given by its first
address and its length, and an address is in it when its distance from the first is below the
length; this is right for ranges that go around the end of the address space as well.

* `copy` — the bytes of an object copied to an address; `copy_of_within` and `copy_of_not_within`
  say where they go.
* **`load32_store32`** — a word that has been stored is loaded; `load32_store32_of_apart` — other
  words stay.
* `Holds mem a ws` — the words from an address on; **`Holds.push`** — a stack that grows downwards,
  as the frame of an interrupt does.
-/

namespace Memory

open Bytes

/-- A memory: the byte at every address. -/
abbrev Mem := UInt32 → UInt8

variable {n : ℕ}

/-- The address is one of the `n` addresses from `base` on, which may go around the end of the
address space. -/
def Within (base : UInt32) (n : ℕ) (a : UInt32) : Prop := (a - base).toNat < n

instance (base : UInt32) (n : ℕ) (a : UInt32) : Decidable (Within base n a) :=
  inferInstanceAs (Decidable (_ < _))

/-- The memory after `memcpy` of a whole object. -/
def copy (mem : Mem) (dst : UInt32) (b : Buffer n) : Mem :=
  fun a => if Within dst n a then byteAt b (a - dst).toNat else mem a

/-- The `n` bytes from an address on, as an object. -/
def window (mem : Mem) (base : UInt32) (n : ℕ) : Buffer n := fun i => mem (base + UInt32.ofNat i)

lemma copy_of_within (mem : Mem) (b : Buffer n) {dst a : UInt32} (h : Within dst n a) :
    copy mem dst b a = byteAt b (a - dst).toNat := if_pos h

lemma copy_of_not_within (mem : Mem) (b : Buffer n) {dst a : UInt32} (h : ¬ Within dst n a) :
    copy mem dst b a = mem a := if_neg h

/-- How far a byte of an object is from the first one, for objects that are not longer than the
address space. -/
lemma toNat_add_sub (base : UInt32) {i : ℕ} (hi : i < 4294967296) :
    (base + UInt32.ofNat i - base).toNat = i := by
  rw [UInt32.add_comm, UInt32.add_sub_cancel, UInt32.toNat_ofNat', Nat.mod_eq_of_lt hi]

/-- What has been copied is there afterwards. -/
lemma window_copy (mem : Mem) (dst : UInt32) (b : Buffer n) (hn : n ≤ 4294967296) :
    window (copy mem dst b) dst n = b := by
  funext i
  have hdist : (dst + UInt32.ofNat i - dst).toNat = i.val := toNat_add_sub dst (by omega)
  have hin : Within dst n (dst + UInt32.ofNat i) := by
    rw [Within, hdist]
    exact i.isLt
  rw [window, copy_of_within mem b hin, hdist]
  exact byteAt_of_lt b i.isLt

/-! ## Words -/

/-- The word at an address, in the byte order of x86. -/
def load32 (mem : Mem) (a : UInt32) : UInt32 := word (window mem a 4) 0

/-- The memory after a word has been stored. -/
def store32 (mem : Mem) (a v : UInt32) : Mem := copy mem a (write (window mem a 4) 0 (le32 v))

/-- **A word that has been stored is loaded back**, also where it goes around the end of the
address space. -/
theorem load32_store32 (mem : Mem) (a v : UInt32) : load32 (store32 mem a v) a = v := by
  rw [load32, store32, window_copy _ _ _ (by decide), word_write_le32 _ _ (Nat.le_refl 4)]

/-- A word depends on the four bytes it is made of, and on nothing else in the memory. -/
lemma load32_congr {mem mem' : Mem} {a : UInt32}
    (h : ∀ i < 4, mem (a + UInt32.ofNat i) = mem' (a + UInt32.ofNat i)) :
    load32 mem a = load32 mem' a := by
  have hwindow : window mem a 4 = window mem' a 4 := by
    funext i
    exact h i i.isLt
  rw [load32, load32, hwindow]

/-- Storing a word does not reach the bytes outside of it. -/
lemma store32_of_not_within (mem : Mem) (v : UInt32) {a b : UInt32} (h : ¬ Within a 4 b) :
    store32 mem a v b = mem b :=
  copy_of_not_within _ _ h

/-- **Another word stays** when the two do not overlap.  The distance is taken in both
directions, since addresses wrap. -/
theorem load32_store32_of_apart (mem : Mem) (v : UInt32) {a b : UInt32}
    (h : 4 ≤ (b - a).toNat ∧ (b - a).toNat ≤ 4294967292) :
    load32 (store32 mem a v) b = load32 mem b := by
  refine load32_congr fun i hi => store32_of_not_within mem v ?_
  have hdist : (b + UInt32.ofNat i - a).toNat = (b - a).toNat + i := by
    rw [UInt32.sub_eq_add_neg, UInt32.add_assoc, UInt32.add_comm (UInt32.ofNat i),
      ← UInt32.add_assoc, ← UInt32.sub_eq_add_neg, UInt32.toNat_add, UInt32.toNat_ofNat']
    omega
  rw [Within, hdist]
  omega

/-! ## Stacks

A stack grows downwards, and the word pushed last is at the lowest address.  What an interrupt frame
holds is stated as a list of words from the stack pointer on.
-/

/-- The words from the address on are those of the list, the first of them at the lowest address. -/
def Holds (mem : Mem) : UInt32 → List UInt32 → Prop
  | _, [] => True
  | a, w :: ws => load32 mem a = w ∧ Holds mem (a + 4) ws

/-- Words stay when the word that is stored is below them and they do not reach around to it. -/
lemma Holds.store {mem : Mem} {a b : UInt32} {ws : List UInt32} (h : Holds mem b ws) (v : UInt32)
    (hlo : 4 ≤ (b - a).toNat) (hhi : (b - a).toNat + 4 * ws.length ≤ 4294967296) :
    Holds (store32 mem a v) b ws := by
  induction ws generalizing b with
  | nil => trivial
  | cons w ws ih =>
      rw [List.length_cons] at hhi
      refine ⟨(load32_store32_of_apart mem v ⟨hlo, by omega⟩).trans h.1, ?_⟩
      cases ws with
      | nil => trivial
      | cons w' ws =>
          rw [List.length_cons] at hhi
          have hdist : (b + 4 - a).toNat = (b - a).toNat + 4 := by
            have hcomm : b + 4 - a = b - a + 4 := by grind
            rw [hcomm, UInt32.toNat_add]
            show ((b - a).toNat + 4) % 4294967296 = _
            omega
          exact ih h.2 (by omega) (by rw [List.length_cons]; omega)

/-- **A word is pushed** on top of the others.  The bound keeps the stack from reaching around
the address space to the place where the word goes. -/
theorem Holds.push {mem : Mem} {a : UInt32} {ws : List UInt32} (h : Holds mem a ws) (w : UInt32)
    (hlen : ws.length < 1073741824) : Holds (store32 mem (a - 4) w) (a - 4) (w :: ws) := by
  have hnext : a - 4 + 4 = a := UInt32.sub_add_cancel a 4
  have hdist : (a - (a - 4)).toNat = 4 := by
    have hself : a - (a - 4) = 4 := by grind
    rw [hself]
    rfl
  refine ⟨load32_store32 mem _ w, ?_⟩
  rw [hnext]
  exact h.store w (by omega) (by omega)

end Memory
