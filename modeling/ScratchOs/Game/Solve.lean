import Mathlib.Data.Fin.Tuple.Sort
import Mathlib.GroupTheory.Perm.Sign
import Mathlib.Order.Fin.Basic
import ScratchOs.Game.Board

/-!
# The end of the puzzle

`check_valid` of `kernel/game.c`, which ends the game, and why the keys always lead there.  The test
compares neighbours only.  That this is enough, and that no sequence of keys leads into a dead end,
are the two things a player would want to know.

* `checkValid_shows` — on a board the test finds the tiles in order exactly if every tile is at its
  own place: a permutation that does not decrease is the identity.
* **`check_valid_iff`** — so it does in every state the game can be in.
* `reaches_cursor`, `reaches_swap` — the arrow keys take the cursor to every place of the torus, and
  two presses of the space bar swap any two tiles.
* **`puzzle_solvable`** — swaps generate the permutations, so the puzzle can be solved from every
  state.

**The keys are constructed** in the proof, but no count of them comes out of it: the swaps are those
that the induction on permutations of the library yields.
-/

namespace ScratchOs

open Runs

/-! ## The test

The loop of the test, and what its answer means on a permutation.
-/

/-- The loop of `check_valid` compares neighbours. -/
lemma checkFrom_eq (block : List ℤ) (n : ℕ) (hn : n ≤ block.length) (d i : ℕ) (hd : n ≤ i + d + 1) :
    ∃ r, checkFrom block n i = some r ∧
      (r = 1 ↔
        ∀ k a b, i ≤ k → k + 1 < n → block[k]? = some a → block[k + 1]? = some b → a ≤ b) := by
  induction d generalizing i with
  | zero =>
      refine ⟨1, by rw [checkFrom, if_neg (by omega)], ?_⟩
      simp only [true_iff]
      intro k a b hi hk
      exact absurd hk (by omega)
  | succ d ih =>
      by_cases hlast : i + 1 < n
      · have ha : block[i]? = some block[i] := List.getElem?_eq_getElem (by omega)
        have hb : block[i + 1]? = some block[i + 1] := List.getElem?_eq_getElem (by omega)
        rw [checkFrom, if_pos (by omega), ha, hb]
        simp only [Option.bind_eq_bind, Option.bind_some]
        by_cases hlt : block[i + 1] < block[i]
        · refine ⟨0, by rw [if_pos hlt], ?_⟩
          simp only [zero_ne_one, false_iff]
          intro hall
          exact absurd (hall i _ _ le_rfl hlast ha hb) (not_le.mpr hlt)
        · obtain ⟨r, hr, hiff⟩ := ih (i + 1) (by omega)
          refine ⟨r, by rw [if_neg hlt, hr], hiff.trans ?_⟩
          constructor
          · intro hall k a b hi hk hka hkb
            rcases Nat.eq_or_lt_of_le hi with rfl | hi
            · rw [ha] at hka
              rw [hb] at hkb
              cases hka
              cases hkb
              exact not_lt.mp hlt
            · exact hall k a b hi hk hka hkb
          · intro hall k a b hi
            exact hall k a b (by omega)
      · refine ⟨1, by rw [checkFrom, if_neg (by omega)], ?_⟩
        simp only [true_iff]
        intro k a b hi hk
        exact absurd hk (by omega)

/-- **A permutation that does not decrease is the identity.** -/
lemma eq_one_of_le {n : ℕ} (tiles : Equiv.Perm (Fin n))
    (h : ∀ k (hk : k + 1 < n), tiles ⟨k, by omega⟩ ≤ tiles ⟨k + 1, hk⟩) : tiles = 1 := by
  rcases n with _ | n
  · exact Subsingleton.elim _ _
  have hmono : Monotone tiles := Fin.monotone_iff_le_succ.mpr fun i => h i.val (by omega)
  exact (Equiv.Perm.monotone_iff tiles).mp hmono

/-- The array of a board in order is `0, 1, 2, …`. -/
lemma blockOf_one_iff {n : ℕ} (tiles : Equiv.Perm (Fin n)) :
    tiles = 1 ↔ ∀ i < n, (blockOf tiles)[i]? = some (i : ℤ) := by
  constructor
  · rintro rfl i hi
    exact getElem?_blockOf 1 ⟨i, hi⟩
  · intro hall
    refine Equiv.ext fun i => Fin.ext ?_
    have hi := hall i.val i.isLt
    rw [getElem?_blockOf] at hi
    simpa using hi

/-- **`check_valid` on a board** tells whether its tiles are in order. -/
lemma checkValid_shows {v h : ℕ} {b : Board v h} {game : GameState} (hb : b.Shows game) :
    ∃ r, checkValid game = some r ∧ (r = 1 ↔ b.tiles = 1) := by
  have hn : game.nrBlockH * game.nrBlockV = ((v * h : ℕ) : ℤ) := by
    rw [hb.nrBlockH, hb.nrBlockV, Int.mul_comm, Int.natCast_mul]
  obtain ⟨r, hr, hiff⟩ := checkFrom_eq game.block (v * h) (by rw [hb.block, length_blockOf])
    (v * h) 0 (by omega)
  refine ⟨r, by rw [checkValid, hn, hr], hiff.trans ⟨fun hall => ?_, ?_⟩⟩
  · refine eq_one_of_le _ fun k hk => ?_
    have hle := hall k _ _ (Nat.zero_le k) hk
      (by rw [hb.block]; exact getElem?_blockOf _ ⟨k, by omega⟩)
      (by rw [hb.block]; exact getElem?_blockOf _ ⟨k + 1, hk⟩)
    exact Fin.le_def.mpr (by exact_mod_cast hle)
  · intro hone k x y _ hk hx hy
    rw [hb.block, (blockOf_one_iff _).mp hone k (by omega)] at hx
    rw [hb.block, (blockOf_one_iff _).mp hone (k + 1) hk] at hy
    cases hx
    cases hy
    simp

/-- **The game ends exactly when the picture is restored**, whatever keys have been pressed. -/
theorem check_valid_iff (pic : Picture) (hw : 100 ≤ pic.w) (hh : 100 ≤ pic.h)
    (keys : List UInt32) :
    ∃ game r, keys.foldlM updateGameState pic.initialState = some game ∧
      checkValid game = some r ∧
      (r = 1 ↔ ∀ i < (pic.h / 100).toNat * (pic.w / 100).toNat, game.block[i]? = some (i : ℤ)) := by
  obtain ⟨hrows, hcolumns⟩ := Picture.neZero hw hh
  obtain ⟨game, hok, hshows⟩ := keys_shows keys (initial_shows pic hw hh)
  obtain ⟨r, hr, hiff⟩ := checkValid_shows hshows
  refine ⟨game, r, hok, hr, hiff.trans ?_⟩
  rw [hshows.block]
  exact blockOf_one_iff _

/-- A picture of two tiles, before any key and after its tiles have been swapped. -/
theorem check_valid_two_tiles :
    ∃ game r, [keySpace, keyRight, keySpace].foldlM updateGameState
        (Picture.initialState ⟨[], 200, 100⟩) = some game ∧ checkValid game = some r ∧
      (r = 1 ↔ ∀ i : ℕ, i < 2 → game.block[i]? = some (i : ℤ)) :=
  check_valid_iff ⟨[], 200, 100⟩ (by decide) (by decide) _

/-! ## The keys

Boards and keys only: the code is not mentioned before the last result.
-/

/-- The scancode of a key. -/
def Key.scancode : Key → UInt32
  | .up => keyUp
  | .down => keyDown
  | .left => keyLeft
  | .right => keyRight
  | .space => keySpace

lemma Key.ofScancode_scancode (key : Key) : Key.ofScancode key.scancode = some key := by
  cases key <;> decide

namespace Board

variable {v h : ℕ} [NeZero v] [NeZero h]

/-- Some keys lead from the one board to the other. -/
def Reaches (b b' : Board v h) : Prop := ∃ keys : List Key, keys.foldl press b = b'

lemma Reaches.refl (b : Board v h) : Reaches b b := ⟨[], rfl⟩

lemma Reaches.trans {b₁ b₂ b₃ : Board v h} (h₁₂ : Reaches b₁ b₂) (h₂₃ : Reaches b₂ b₃) :
    Reaches b₁ b₃ := by
  rcases h₁₂ with ⟨keys₁, rfl⟩
  rcases h₂₃ with ⟨keys₂, rfl⟩
  exact ⟨keys₁ ++ keys₂, List.foldl_append⟩

lemma reaches_press (b : Board v h) (key : Key) : Reaches b (b.press key) := ⟨[key], rfl⟩

/-! ### The cursor

On a torus going on in one direction is enough, so that two of the four arrows are used.
-/

lemma val_iterate_add_one {n : ℕ} [NeZero n] (k : ℕ) (i : Fin n) :
    ((· + 1)^[k] i : Fin n).val = (i.val + k) % n := by
  induction k with
  | zero => simp [Nat.mod_eq_of_lt i.isLt]
  | succ k ih =>
      rw [Function.iterate_succ_apply', Fin.val_add, ih]
      simp [Nat.add_assoc]

/-- Going on in one direction leads around to every place. -/
lemma exists_iterate_add_one {n : ℕ} [NeZero n] (i j : Fin n) : ∃ k, (· + 1)^[k] i = j := by
  refine ⟨n + j.val - i.val, Fin.ext ?_⟩
  rw [val_iterate_add_one, show i.val + (n + j.val - i.val) = n + j.val by omega, Nat.add_mod_left,
    Nat.mod_eq_of_lt j.isLt]

lemma reaches_row (k : ℕ) (b : Board v h) :
    Reaches b { b with cursor := ((· + 1)^[k] b.cursor.1, b.cursor.2) } := by
  induction k generalizing b with
  | zero => exact Reaches.refl b
  | succ k ih => exact (reaches_press b .down).trans (ih (b.press .down))

lemma reaches_column (k : ℕ) (b : Board v h) :
    Reaches b { b with cursor := (b.cursor.1, (· + 1)^[k] b.cursor.2) } := by
  induction k generalizing b with
  | zero => exact Reaches.refl b
  | succ k ih => exact (reaches_press b .right).trans (ih (b.press .right))

/-- **The arrow keys** take the cursor to every place. -/
lemma reaches_cursor (b : Board v h) (p : Fin v × Fin h) :
    Reaches b { b with cursor := p } := by
  rcases exists_iterate_add_one b.cursor.1 p.1 with ⟨i, hi⟩
  rcases exists_iterate_add_one b.cursor.2 p.2 with ⟨j, hj⟩
  have hcolumn := reaches_column j { b with cursor := (p.1, b.cursor.2) }
  rw [← hi] at hcolumn
  have hpath := (reaches_row i b).trans hcolumn
  simp only [hi, hj] at hpath
  exact hpath

/-! ### The tiles

From moving the cursor to swapping two tiles, and from swaps to any permutation.  A selection at the
start is given up first, which costs one swap.
-/

/-- **Two presses of the space bar** swap any two tiles. -/
lemma reaches_swap (b : Board v h) (hb : b.selected = none) (p q : Fin v × Fin h) :
    Reaches b ⟨b.tiles * Equiv.swap (place p) (place q), p, none⟩ := by
  have hselect : Reaches b { b with cursor := q, selected := some q } := by
    have hpress := reaches_press { b with cursor := q } .space
    simp only [press, hb] at hpress
    have hmove := reaches_cursor b q
    rw [hb] at hmove
    exact hmove.trans hpress
  have hmove := reaches_cursor { b with cursor := q, selected := some q } p
  have hswap := reaches_press { b with cursor := p, selected := some q } .space
  exact hselect.trans (hmove.trans hswap)

/-- **Every permutation of the tiles** can be made. -/
lemma reaches_mul (σ : Equiv.Perm (Fin (v * h))) (b : Board v h) (hb : b.selected = none) :
    ∃ p, Reaches b ⟨b.tiles * σ, p, none⟩ := by
  induction σ using Equiv.Perm.swap_induction_on generalizing b with
  | one =>
      refine ⟨b.cursor, ?_⟩
      rw [mul_one, ← hb]
      exact Reaches.refl b
  | swap_mul σ x y _ ih =>
      rcases finProdFinEquiv.surjective x with ⟨p, rfl⟩
      rcases finProdFinEquiv.surjective y with ⟨q, rfl⟩
      rcases ih ⟨b.tiles * Equiv.swap (place p) (place q), p, none⟩ rfl with ⟨p', hrest⟩
      rw [mul_assoc] at hrest
      exact ⟨p', (reaches_swap b hb p q).trans hrest⟩

/-- **From every board** the tiles can be put in order, with a tile selected or not. -/
theorem reaches_solved (b : Board v h) : ∃ b' : Board v h, Reaches b b' ∧ b'.tiles = 1 := by
  have hnone : ∀ b : Board v h, b.selected = none →
      ∃ b' : Board v h, Reaches b b' ∧ b'.tiles = 1 := by
    intro b hb
    rcases reaches_mul b.tiles⁻¹ b hb with ⟨p, hreach⟩
    exact ⟨_, hreach, mul_inv_cancel b.tiles⟩
  cases hsel : b.selected with
  | none => exact hnone b hsel
  | some p =>
      -- the space bar gives the selection up, and swaps two tiles on the way
      have hpress : (b.press .space).selected = none := by rw [press, hsel]
      rcases hnone _ hpress with ⟨b', hreach, hone⟩
      exact ⟨b', (reaches_press b .space).trans hreach, hone⟩

/-- The keys as scancodes do the same to a board. -/
lemma foldl_scancodes (keys : List Key) (b : Board v h) :
    (keys.map Key.scancode).foldl step b = keys.foldl press b := by
  induction keys generalizing b with
  | nil => rfl
  | cons key keys ih =>
      rw [List.map_cons, List.foldl_cons, List.foldl_cons, ih, step, Key.ofScancode_scancode]
      rfl

end Board

/-- **The puzzle is always solvable.**  From every state the game can be in, some keys lead to one
in which `check_valid` returns 1. -/
theorem puzzle_solvable (pic : Picture) (hw : 100 ≤ pic.w) (hh : 100 ≤ pic.h)
    (keys : List UInt32) :
    ∃ game, keys.foldlM updateGameState pic.initialState = some game ∧
      ∃ (more : List Key) (game' : GameState),
        (more.map Key.scancode).foldlM updateGameState game = some game' ∧
          checkValid game' = some 1 := by
  obtain ⟨hrows, hcolumns⟩ := Picture.neZero hw hh
  obtain ⟨game, hok, hshows⟩ := keys_shows keys (initial_shows pic hw hh)
  rcases Board.reaches_solved (keys.foldl Board.step (Board.initial pic.rows pic.columns)) with
    ⟨_, ⟨more, rfl⟩, hone⟩
  obtain ⟨game', hok', hshows'⟩ := keys_shows (more.map Key.scancode) hshows
  rw [Board.foldl_scancodes] at hshows'
  obtain ⟨r, hr, hiff⟩ := checkValid_shows hshows'
  obtain rfl := hiff.mpr hone
  exact ⟨game, hok, more, game', hok', hr⟩

/-- A picture of six tiles, with a tile selected. -/
theorem puzzle_solvable_six_tiles :
    ∃ game, [keyDown, keySpace].foldlM updateGameState (Picture.initialState ⟨[], 300, 200⟩)
        = some game ∧
      ∃ (more : List Key) (game' : GameState),
        (more.map Key.scancode).foldlM updateGameState game = some game' ∧
          checkValid game' = some 1 :=
  puzzle_solvable ⟨[], 300, 200⟩ (by decide) (by decide) _

end ScratchOs
