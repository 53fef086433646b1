import Mathlib.Data.Set.Basic
import Mathlib.Data.Set.Lattice
import Mathlib.Tactic.Common
import ScratchOs.Core.Runs

/-!
# Drawing

A canvas is a colour for every point of a plane that does not end.  Drawing replaces the colours of
an area; what is drawn later covers what was drawn before.

A program draws on some memory, which shows a part of a canvas (`R s c`: the memory `s` shows the
canvas `c`).  Points outside of that part can be drawn as well, and then the program does nothing;
this is what clipping is for, and it lets a program be described by the areas it means rather than
by the pixels that are left of them.

* `Draws R f A col` — the program `f` does not fail, and gives the points of `A` the colours `col`.
* **`Draws.forTo`** — a loop of such programs draws the union of their areas.
* **`Draws.rect`** — two loops, one in the other, draw a rectangle.

With these a drawing function of the source gets one statement, which says its area and its colours,
and the functions that call it get theirs without a look into the loops.
-/

namespace Canvas

open Runs

variable {P α σ : Type*}

/-! ## Canvases

The plane has no edges here.  What a screen shows of it is left to the relation between the memory
and the canvas.
-/

open Classical in
/-- The canvas after an area has been drawn over. -/
noncomputable def paint (A : Set P) (col c : P → α) : P → α := fun p => if p ∈ A then col p else c p

section Paint

variable {A B : Set P} {col col' c : P → α} {p : P}

@[simp] lemma paint_of_mem (h : p ∈ A) : paint A col c p = col p := if_pos h

@[simp] lemma paint_of_notMem (h : p ∉ A) : paint A col c p = c p := if_neg h

/-- The colour of a point is the one that was drawn last. -/
lemma paint_apply {q : P → Prop} [Decidable (q p)] :
    paint {p | q p} col c p = if q p then col p else c p := by
  by_cases hp : q p
  · rw [if_pos hp, paint_of_mem (Set.mem_ofPred_eq ▸ hp)]
  · rw [if_neg hp, paint_of_notMem (Set.mem_ofPred_eq ▸ hp)]

@[simp] lemma paint_empty : paint ∅ col c = c := by
  funext p
  simp

/-- Drawing two areas with the same colours is drawing their union. -/
lemma paint_paint : paint B col (paint A col c) = paint (A ∪ B) col c := by
  funext p
  by_cases hB : p ∈ B
  · simp [hB]
  · by_cases hA : p ∈ A <;> simp [hA, hB]

lemma paint_congr (h : ∀ p ∈ A, col p = col' p) : paint A col c = paint A col' c := by
  funext p
  by_cases hp : p ∈ A
  · simp [hp, h p hp]
  · simp [hp]

end Paint

/-! ## Programs that draw

The statement about a drawing program is about every memory and every canvas that it shows, so that
it can be used wherever the program is called.
-/

/-- From a memory that shows a canvas the program leads to one that shows the same with the area
drawn over. -/
def Draws (R : σ → (P → α) → Prop) (f : σ → Option σ) (A : Set P) (col : P → α) : Prop :=
  ∀ s c, R s c → ∃ s', f s = some s' ∧ R s' (paint A col c)

section Draws

variable {R : σ → (P → α) → Prop} {f g : σ → Option σ} {A B : Set P} {col col' : P → α}

/-- Doing nothing draws the empty area. -/
lemma draws_nothing : Draws R some ∅ col := by
  intro s c hs
  exact ⟨s, rfl, by rwa [paint_empty]⟩

/-- The same area may be described differently. -/
lemma Draws.area (h : Draws R f A col) (hAB : ∀ p, p ∈ A ↔ p ∈ B) : Draws R f B col := by
  rwa [show B = A from (Set.ext hAB).symm]

/-- Only the colours inside of the area matter. -/
lemma Draws.colours (h : Draws R f A col) (hcol : ∀ p ∈ A, col p = col' p) :
    Draws R f A col' := by
  intro s c hs
  rw [← paint_congr hcol]
  exact h s c hs

/-- One program after the other draws both areas, if the colours are the same. -/
lemma Draws.seq (hf : Draws R f A col) (hg : Draws R g B col) :
    Draws R (fun s => (f s).bind g) (A ∪ B) col := by
  intro s c hs
  rcases hf s c hs with ⟨s₁, hok₁, h₁⟩
  rcases hg s₁ _ h₁ with ⟨s₂, hok₂, h₂⟩
  rw [paint_paint] at h₂
  exact ⟨s₂, by simp [hok₁, hok₂], h₂⟩

/-- **A loop** draws the union of what its rounds draw.  All rounds draw with the same colours,
so that their order does not matter. -/
theorem Draws.forTo {f : σ → ℤ → Option σ} {A : ℤ → Set P} {n : ℤ}
    (h : ∀ i, 0 ≤ i → i < n → Draws R (fun s => f s i) (A i) col) :
    Draws R (Runs.forTo n f) {p | ∃ i, 0 ≤ i ∧ i < n ∧ p ∈ A i} col := by
  have hrounds : ∀ m : ℕ, m ≤ n.toNat →
      Draws R (Runs.forTo m f) {p | ∃ i, 0 ≤ i ∧ i < (m : ℤ) ∧ p ∈ A i} col := by
    intro m
    induction m with
    | zero =>
        intro _
        refine draws_nothing.area fun p => ?_
        simp only [Set.mem_empty_iff_false, Set.mem_ofPred_eq, false_iff]
        rintro ⟨i, hlo, hhi, -⟩
        exact absurd hhi (by omega)
    | succ m ih =>
        intro hm
        have hlast := h m (by omega) (by omega)
        rw [forTo_succ]
        refine ((ih (by omega)).seq hlast).area fun p => ?_
        simp only [Set.mem_union, Set.mem_ofPred_eq]
        constructor
        · rintro (⟨i, hlo, hhi, hp⟩ | hp)
          · exact ⟨i, hlo, by omega, hp⟩
          · exact ⟨m, by omega, by omega, hp⟩
        · rintro ⟨i, hlo, hhi, hp⟩
          rcases Int.lt_or_eq_of_le (show i ≤ m by omega) with hi | rfl
          · exact Or.inl ⟨i, hlo, hi, hp⟩
          · exact Or.inr hp
  have hall := hrounds n.toNat le_rfl
  have heq : Runs.forTo n f = Runs.forTo (n.toNat : ℤ) f := by
    funext s
    rw [Runs.forTo, Runs.forTo, Int.toNat_natCast]
  rw [heq]
  refine hall.area fun p => ?_
  simp only [Set.mem_ofPred_eq]
  constructor
  · rintro ⟨i, hlo, hhi, hp⟩
    exact ⟨i, hlo, by omega, hp⟩
  · rintro ⟨i, hlo, hhi, hp⟩
    exact ⟨i, hlo, by omega, hp⟩

end Draws

/-! ## Rectangles -/

/-- The points of a rectangle, from its corner on.  With a negative width or height there are
none. -/
def rect (x y w h : ℤ) : Set (ℤ × ℤ) := {p | (x ≤ p.1 ∧ p.1 < x + w) ∧ y ≤ p.2 ∧ p.2 < y + h}

/-- **Two loops** that draw the points of a rectangle, row by row. -/
theorem Draws.rect {R : σ → (ℤ × ℤ → α) → Prop} {f : σ → ℤ → ℤ → Option σ} {x y w h : ℤ}
    {col : ℤ × ℤ → α}
    (hpoint : ∀ i j, 0 ≤ i → i < w → 0 ≤ j → j < h →
      Draws R (fun s => f s i j) {(x + i, y + j)} col) :
    Draws R (Runs.forTo h fun s j => Runs.forTo w (fun s i => f s i j) s) (rect x y w h) col := by
  have hrow : ∀ j, 0 ≤ j → j < h → Draws R (Runs.forTo w fun s i => f s i j)
      {p | ∃ i, 0 ≤ i ∧ i < w ∧ p ∈ ({(x + i, y + j)} : Set (ℤ × ℤ))} col :=
    fun j hj hjh => Draws.forTo fun i hi hiw => hpoint i j hi hiw hj hjh
  refine (Draws.forTo hrow).area fun p => ?_
  simp only [Set.mem_ofPred_eq, Set.mem_singleton_iff, Canvas.rect, Prod.ext_iff]
  constructor
  · rintro ⟨j, hj, hjh, i, hi, hiw, hx, hy⟩
    omega
  · rintro ⟨⟨hx, hxw⟩, hy, hyh⟩
    exact ⟨p.2 - y, by omega, by omega, p.1 - x, by omega, by omega, by omega, by omega⟩

end Canvas
