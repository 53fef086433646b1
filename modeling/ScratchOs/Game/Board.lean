import Mathlib.Algebra.Group.End
import Mathlib.Algebra.Group.Fin.Basic
import Mathlib.Algebra.GroupWithZero.Nat
import Mathlib.Data.Fin.Rev
import Mathlib.Data.List.FinRange
import Mathlib.Logic.Equiv.Fin.Basic
import ScratchOs.Core.Runs
import ScratchOs.Game.State

/-!
# What the puzzle is for

A board is a permutation of the tiles, a cursor on a torus, and a place that may be selected.
Nothing on it can be out of bounds: the places are of type `Fin`, and the tiles a `Equiv.Perm`, so
that no tile can be lost or doubled.

* `Board.press` — the keys.  The arrows move the cursor by one, around the edges; the space bar
  selects the place under the cursor, or swaps the tiles of the two places.
* **`updateGameState_shows`** — the code follows `press`: it never leaves its array, and it shows
  the board the key leads to.
* **`puzzle_invariant`** — what that means for every sequence of scancodes from the first state.

**How it is used.**  `Board.Shows` relates a state of the code to a board, and
`updateGameState_shows` is the only result that looks into the code.  All that is said of the game
later, here and in `Game/Solve` and `Game/Mainloop`, is said of boards first and carried over by it.

**What is assumed** is a picture with at least one tile.  With none, there would be no place for the
cursor to be at.
-/

namespace ScratchOs

open Runs

/-- The keys of the game. -/
inductive Key
  | up
  | down
  | left
  | right
  | space
  deriving DecidableEq, Repr

/-- The key of a scancode; the other scancodes are ignored. -/
def Key.ofScancode (scancode : UInt32) : Option Key :=
  if scancode = keySpace then some .space
  else if scancode = keyDown then some .down
  else if scancode = keyUp then some .up
  else if scancode = keyLeft then some .left
  else if scancode = keyRight then some .right
  else none

/-- A board of `v` rows and `h` columns: the tile at each place, counted by rows, the row and
column of the cursor, and those of the selected place. -/
structure Board (v h : ℕ) where
  tiles : Equiv.Perm (Fin (v * h))
  cursor : Fin v × Fin h
  selected : Option (Fin v × Fin h)

namespace Board

variable {v h : ℕ}

/-- The place in a row and a column. -/
abbrev place (p : Fin v × Fin h) : Fin (v * h) := finProdFinEquiv p

variable [NeZero v] [NeZero h]

/-- What a key does to a board. -/
def press (b : Board v h) : Key → Board v h
  | .up => { b with cursor := (b.cursor.1 - 1, b.cursor.2) }
  | .down => { b with cursor := (b.cursor.1 + 1, b.cursor.2) }
  | .left => { b with cursor := (b.cursor.1, b.cursor.2 - 1) }
  | .right => { b with cursor := (b.cursor.1, b.cursor.2 + 1) }
  | .space =>
      match b.selected with
      | none => { b with selected := some b.cursor }
      | some p =>
          { b with
            tiles := b.tiles * Equiv.swap (place b.cursor) (place p)
            selected := none }

/-- What a scancode does to a board. -/
def step (b : Board v h) (scancode : UInt32) : Board v h :=
  ((Key.ofScancode scancode).map b.press).getD b

/-- The first board: the tiles in reverse, the cursor in the corner, nothing selected. -/
def initial (v h : ℕ) [NeZero v] [NeZero h] : Board v h := ⟨Fin.revPerm, (0, 0), none⟩

end Board

/-- The tiles as the array of the code holds them. -/
def blockOf {n : ℕ} (tiles : Equiv.Perm (Fin n)) : List ℤ := List.ofFn fun i => ((tiles i : ℕ) : ℤ)

/-- The state shows the board: every field of it has the value that the board gives. -/
structure Board.Shows {v h : ℕ} (b : Board v h) (game : GameState) : Prop where
  nrBlockV : game.nrBlockV = v
  nrBlockH : game.nrBlockH = h
  block : game.block = blockOf b.tiles
  blockY : game.blockY = (b.cursor.1 : ℕ)
  blockX : game.blockX = (b.cursor.2 : ℕ)
  select : game.select = .selected ↔ b.selected.isSome
  selected : ∀ p ∈ b.selected, game.selectBlockY = (p.1 : ℕ) ∧ game.selectBlockX = (p.2 : ℕ)

/-! ## The array

The array holds the tiles by rows, and swapping two of its entries is composing the permutation with
a transposition.
-/

section Array

variable {n : ℕ} (tiles : Equiv.Perm (Fin n))

@[simp] lemma length_blockOf : (blockOf tiles).length = n := List.length_ofFn

lemma getElem?_blockOf (i : Fin n) : (blockOf tiles)[i.val]? = some ((tiles i : ℕ) : ℤ) := by
  simp [blockOf]

/-- Whatever the tiles are, the array is a permutation of their numbers. -/
lemma blockOf_perm : (blockOf tiles).Perm ((List.range n).map Nat.cast) := by
  have h := Equiv.Perm.ofFn_comp_perm tiles fun i : Fin n => ((i : ℕ) : ℤ)
  have hrange : (List.ofFn fun i : Fin n => ((i : ℕ) : ℤ)) = (List.range n).map Nat.cast := by
    refine List.ext_getElem (by simp) fun i _ _ => ?_
    simp
  rw [← hrange]
  exact h

lemma index_blockOf (i : Fin n) :
    index (blockOf tiles) ((i : ℕ) : ℤ) = some ⟨i.val, by rw [length_blockOf]; exact i.isLt⟩ := by
  have hi := i.isLt
  rw [index, dif_pos (by rw [length_blockOf]; omega)]
  simp

/-- **The swap** of two places of the array. -/
lemma swap_blockOf (i j : Fin n) :
    swap (blockOf tiles) ((i : ℕ) : ℤ) ((j : ℕ) : ℤ)
      = some (blockOf (tiles * Equiv.swap i j)) := by
  rw [swap, index_blockOf, index_blockOf]
  simp only [Option.bind_eq_bind, Option.bind_some, Option.some_inj]
  refine List.ext_getElem (by simp) fun k hk _ => ?_
  have hkn : k < n := by simpa using hk
  simp only [blockOf, List.getElem_set, Fin.getElem_fin, List.getElem_ofFn, Equiv.Perm.coe_mul,
    Function.comp_apply]
  by_cases hkj : j.val = k
  · have heq : (⟨k, hkn⟩ : Fin n) = j := Fin.ext hkj.symm
    rw [if_pos hkj, heq, Equiv.swap_apply_right]
  · have hj : (⟨k, hkn⟩ : Fin n) ≠ j := fun e => hkj (congrArg Fin.val e).symm
    rw [if_neg hkj]
    by_cases hki : i.val = k
    · have heq : (⟨k, hkn⟩ : Fin n) = i := Fin.ext hki.symm
      rw [if_pos hki, heq, Equiv.swap_apply_left]
    · have hi : (⟨k, hkn⟩ : Fin n) ≠ i := fun e => hki (congrArg Fin.val e).symm
      rw [if_neg hki, Equiv.swap_apply_of_ne_of_ne hi hj]

end Array

/-! ## The cursor

The code moves the cursor first and wraps it afterwards.  Together this is a step on a torus.
-/

section Cursor

variable {n : ℕ} (i : Fin n)

lemma wrap_self : GameState.wrap ((i : ℕ) : ℤ) n = ((i : ℕ) : ℤ) := by
  have hi := i.isLt
  rw [GameState.wrap, if_neg (by omega), if_neg (by omega)]

variable [NeZero n]

lemma wrap_add_one : GameState.wrap (((i : ℕ) : ℤ) + 1) n = ((i + 1 : Fin n) : ℕ) := by
  obtain ⟨m, rfl⟩ := Nat.exists_eq_succ_of_ne_zero (NeZero.ne n)
  have hi := i.isLt
  rw [Fin.val_add_one, GameState.wrap]
  by_cases hlast : i = Fin.last m
  · have hval : i.val = m := congrArg Fin.val hlast
    rw [if_pos hlast, if_pos (by omega)]
    rfl
  · have hval : i.val ≠ m := fun e => hlast (Fin.ext e)
    rw [if_neg hlast, if_neg (by omega), if_neg (by omega)]
    rfl

lemma wrap_sub_one : GameState.wrap (((i : ℕ) : ℤ) - 1) n = ((i - 1 : Fin n) : ℕ) := by
  obtain ⟨m, rfl⟩ := Nat.exists_eq_succ_of_ne_zero (NeZero.ne n)
  have hi := i.isLt
  rw [Fin.coe_sub_one, GameState.wrap]
  by_cases hzero : i = 0
  · subst hzero
    have hval : ((0 : Fin (m + 1)) : ℕ) = 0 := rfl
    rw [if_pos rfl, hval, if_neg (by omega), if_pos (by omega)]
    omega
  · have hval : i.val ≠ 0 := fun e => hzero (Fin.ext e)
    rw [if_neg hzero, if_neg (by omega), if_neg (by omega)]
    omega

end Cursor

/-! ## The simulation

One key, and from it any number of keys.  The cases are the keys, and each of them is a lemma on the
array or on the cursor.
-/

section Shows

variable {v h : ℕ} [NeZero v] [NeZero h] {b : Board v h} {game : GameState}

omit [NeZero v] [NeZero h] in
/-- The index the code computes from a row and a column. -/
lemma index_place (p : Fin v × Fin h) :
    ((p.1 : ℕ) : ℤ) * h + ((p.2 : ℕ) : ℤ) = ((Board.place p : ℕ) : ℤ) := by
  have hval : (Board.place p : ℕ) = p.2.val + h * p.1.val := rfl
  rw [hval, Int.natCast_add, Int.natCast_mul, Int.mul_comm, Int.add_comm]

/-- The space bar: the code and the board select the same place, or swap the same two. -/
lemma pressSpace_shows (hb : b.Shows game) :
    ∃ game', game.pressSpace = some game' ∧ (b.press .space).Shows game' := by
  cases hsel : b.selected with
  | none =>
      have hnone : game.select = .none := by
        cases hgame : game.select with
        | none => rfl
        | selected => simpa [hsel] using hb.select.mp hgame
      refine ⟨_, by rw [GameState.pressSpace, hnone], ?_⟩
      rw [Board.press, hsel]
      refine ⟨hb.nrBlockV, hb.nrBlockH, hb.block, hb.blockY, hb.blockX, by simp, ?_⟩
      rintro p hp
      obtain rfl := Option.some.inj hp
      exact ⟨hb.blockY, hb.blockX⟩
  | some p =>
      have hselected : game.select = .selected := hb.select.mpr (by rw [hsel]; rfl)
      obtain ⟨hselY, hselX⟩ := hb.selected p hsel
      have hfirst : game.blockFirst = ((Board.place b.cursor : ℕ) : ℤ) := by
        rw [GameState.blockFirst, hb.blockY, hb.blockX, hb.nrBlockH, index_place]
      have hsecond : game.blockSecond = ((Board.place p : ℕ) : ℤ) := by
        rw [GameState.blockSecond, hselY, hselX, hb.nrBlockH, index_place]
      refine ⟨{ game with
        block := blockOf (b.tiles * Equiv.swap (Board.place b.cursor) (Board.place p))
        select := .none }, ?_, ?_⟩
      · rw [GameState.pressSpace, hselected]
        simp only [hfirst, hsecond, hb.block, swap_blockOf, Option.map_some]
      · rw [Board.press, hsel]
        exact ⟨hb.nrBlockV, hb.nrBlockH, rfl, hb.blockY, hb.blockX, by simp, by simp⟩

omit [NeZero v] [NeZero h] in
/-- The end of `update_game_state` puts the cursor back on the board. -/
lemma wrapCursor_shows (hb : b.Shows game) {y x : ℤ} {p : Fin v × Fin h}
    (hy : GameState.wrap y v = (p.1 : ℕ)) (hx : GameState.wrap x h = (p.2 : ℕ)) :
    ({ b with cursor := p } : Board v h).Shows
      ({ game with blockY := y, blockX := x } : GameState).wrapCursor where
  nrBlockV := hb.nrBlockV
  nrBlockH := hb.nrBlockH
  block := hb.block
  blockY := by
    show GameState.wrap y game.nrBlockV = _
    rw [hb.nrBlockV, hy]
  blockX := by
    show GameState.wrap x game.nrBlockH = _
    rw [hb.nrBlockH, hx]
  select := hb.select
  selected := hb.selected

/-- **One key.**  The code never leaves its array, and follows the board. -/
theorem updateGameState_shows (hb : b.Shows game) (scancode : UInt32) :
    ∃ game', updateGameState game scancode = some game' ∧ (b.step scancode).Shows game' := by
  have hy : GameState.wrap game.blockY v = (b.cursor.1 : ℕ) := by rw [hb.blockY, wrap_self]
  have hx : GameState.wrap game.blockX h = (b.cursor.2 : ℕ) := by rw [hb.blockX, wrap_self]
  rw [Board.step, Key.ofScancode]
  by_cases hspace : scancode = keySpace
  · subst hspace
    obtain ⟨game', hok, hb'⟩ := pressSpace_shows hb
    have hy' : GameState.wrap game'.blockY v = ((b.press .space).cursor.1 : ℕ) := by
      rw [hb'.blockY, wrap_self]
    have hx' : GameState.wrap game'.blockX h = ((b.press .space).cursor.2 : ℕ) := by
      rw [hb'.blockX, wrap_self]
    refine ⟨game'.wrapCursor, ?_, wrapCursor_shows hb' hy' hx'⟩
    rw [updateGameState, if_pos rfl, hok]
    rfl
  refine ⟨(game.moveCursor scancode).wrapCursor, by rw [updateGameState, if_neg hspace]; rfl, ?_⟩
  rw [if_neg hspace, GameState.moveCursor]
  by_cases hdown : scancode = keyDown
  · rw [if_pos hdown, if_pos hdown]
    exact wrapCursor_shows hb (by rw [hb.blockY, wrap_add_one]) hx
  rw [if_neg hdown, if_neg hdown]
  by_cases hup : scancode = keyUp
  · rw [if_pos hup, if_pos hup]
    exact wrapCursor_shows hb (by rw [hb.blockY, wrap_sub_one]) hx
  rw [if_neg hup, if_neg hup]
  by_cases hleft : scancode = keyLeft
  · rw [if_pos hleft, if_pos hleft]
    exact wrapCursor_shows hb hy (by rw [hb.blockX, wrap_sub_one])
  rw [if_neg hleft, if_neg hleft]
  by_cases hright : scancode = keyRight
  · rw [if_pos hright, if_pos hright]
    exact wrapCursor_shows hb hy (by rw [hb.blockX, wrap_add_one])
  · rw [if_neg hright, if_neg hright]
    exact wrapCursor_shows hb hy hx

/-- **Every sequence of keys**, from a state that shows a board. -/
theorem keys_shows (keys : List UInt32) (hb : b.Shows game) :
    ∃ game', keys.foldlM updateGameState game = some game' ∧
      (keys.foldl Board.step b).Shows game' :=
  foldlM_simulates (R := Board.Shows)
    (fun _ _ scancode h => updateGameState_shows h scancode) keys hb

end Shows

/-! ## From the first state

What the simulation gives for the states of the code, in words that do not mention boards any more.
-/

/-- The rows of a picture. -/
def Picture.rows (pic : Picture) : ℕ := (pic.h / 100).toNat

/-- The columns of a picture. -/
def Picture.columns (pic : Picture) : ℕ := (pic.w / 100).toNat

/-- The first state shows the first board. -/
lemma initial_shows (pic : Picture) (hw : 100 ≤ pic.w) (hh : 100 ≤ pic.h) [NeZero pic.rows]
    [NeZero pic.columns] : (Board.initial pic.rows pic.columns).Shows pic.initialState := by
  have hcolumns : pic.w.tdiv 100 = pic.columns := by
    rw [Int.tdiv_eq_ediv_of_nonneg (by omega), Picture.columns]
    omega
  have hrows : pic.h.tdiv 100 = pic.rows := by
    rw [Int.tdiv_eq_ediv_of_nonneg (by omega), Picture.rows]
    omega
  have hn : pic.w.tdiv 100 * pic.h.tdiv 100 = ((pic.rows * pic.columns : ℕ) : ℤ) := by
    rw [hcolumns, hrows, Int.mul_comm, Int.natCast_mul]
  refine ⟨hrows, hcolumns, ?_, rfl, rfl, by simp [Picture.initialState, Board.initial],
    by simp [Board.initial]⟩
  simp only [Picture.initialState, hn, Int.toNat_natCast, Board.initial]
  refine List.ext_getElem (by simp) fun i hi _ => ?_
  have hlt : i < pic.rows * pic.columns := by simpa using hi
  simp only [blockOf, List.getElem_map, List.getElem_range, List.getElem_ofFn, Fin.revPerm_apply,
    Fin.val_rev]
  omega

/-- What holds of the state between two keys, for a board of `v` rows and `h` columns. -/
structure GameState.Valid (game : GameState) (v h : ℕ) : Prop where
  nrBlockV : game.nrBlockV = v
  nrBlockH : game.nrBlockH = h
  perm : game.block.Perm ((List.range (v * h)).map Nat.cast)
  cursor : (0 ≤ game.blockX ∧ game.blockX < h) ∧ 0 ≤ game.blockY ∧ game.blockY < v
  selected : game.select = .selected →
    (0 ≤ game.selectBlockX ∧ game.selectBlockX < h) ∧
      0 ≤ game.selectBlockY ∧ game.selectBlockY < v
  first : 0 ≤ game.blockFirst ∧ game.blockFirst < game.block.length
  second : game.select = .selected →
    0 ≤ game.blockSecond ∧ game.blockSecond < game.block.length

/-- A state that shows a board is valid. -/
lemma Board.Shows.valid {v h : ℕ} {b : Board v h} {game : GameState} (hb : b.Shows game) :
    game.Valid v h := by
  have hplace : ∀ p : Fin v × Fin h, 0 ≤ ((p.1 : ℕ) : ℤ) * h + ((p.2 : ℕ) : ℤ) ∧
      ((p.1 : ℕ) : ℤ) * h + ((p.2 : ℕ) : ℤ) < game.block.length := by
    intro p
    have hlt := (Board.place p).isLt
    rw [index_place, hb.block, length_blockOf]
    omega
  refine ⟨hb.nrBlockV, hb.nrBlockH, hb.block ▸ blockOf_perm _, ?_, fun hsel => ?_, ?_,
    fun hsel => ?_⟩
  · have h₁ := b.cursor.1.isLt
    have h₂ := b.cursor.2.isLt
    rw [hb.blockX, hb.blockY]
    omega
  · obtain ⟨p, hp⟩ := Option.isSome_iff_exists.mp (hb.select.mp hsel)
    have h₁ := p.1.isLt
    have h₂ := p.2.isLt
    obtain ⟨hselY, hselX⟩ := hb.selected p hp
    rw [hselY, hselX]
    omega
  · rw [GameState.blockFirst, hb.blockY, hb.blockX, hb.nrBlockH]
    exact hplace b.cursor
  · obtain ⟨p, hp⟩ := Option.isSome_iff_exists.mp (hb.select.mp hsel)
    obtain ⟨hselY, hselX⟩ := hb.selected p hp
    rw [GameState.blockSecond, hselY, hselX, hb.nrBlockH]
    exact hplace p

/-- A picture with at least one tile has rows and columns. -/
lemma Picture.neZero {pic : Picture} (hw : 100 ≤ pic.w) (hh : 100 ≤ pic.h) :
    NeZero pic.rows ∧ NeZero pic.columns :=
  ⟨⟨by rw [rows]; omega⟩, ⟨by rw [columns]; omega⟩⟩

/-- **The state of the puzzle.**  For every picture with at least one tile and every sequence of
scancodes, the game stays inside its array, the array stays a permutation of the tiles, and the
cursor and the selected place stay on the board. -/
theorem puzzle_invariant (pic : Picture) (hw : 100 ≤ pic.w) (hh : 100 ≤ pic.h)
    (keys : List UInt32) :
    ∃ game, keys.foldlM updateGameState pic.initialState = some game ∧
      game.Valid (pic.h / 100).toNat (pic.w / 100).toNat := by
  obtain ⟨hrows, hcolumns⟩ := Picture.neZero hw hh
  obtain ⟨game, hok, hshows⟩ := keys_shows keys (initial_shows pic hw hh)
  exact ⟨game, hok, hshows.valid⟩

/-- A picture of two tiles: select the first, go right around the edge twice, swap it. -/
theorem puzzle_invariant_two_tiles :
    ∃ game, [keySpace, keyRight, keyRight, keySpace].foldlM updateGameState
        (Picture.mk [] 200 100).initialState = some game ∧ game.Valid 1 2 :=
  puzzle_invariant ⟨[], 200, 100⟩ (by decide) (by decide) _

end ScratchOs
