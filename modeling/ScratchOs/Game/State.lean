import Mathlib.Data.List.Basic
import Mathlib.Algebra.Order.Group.Int

/-!
# The puzzle

The state of `kernel/game.c` and what a key does to it, with the picture as a parameter.  The
picture is cut into tiles of 100 × 100 pixels, which start in reverse order; the player selects a
tile, moves the cursor and swaps the two, until the picture is whole again.

`int` is `ℤ` here: a picture that fits in 32 bits of memory has fewer than 2 ^ 18 tiles, so no sum
or product of these fields overflows.  `block` is the array on the stack of `game_mainloop`; an
access outside of it is undefined, and `none` in the model.

**The picture** is a parameter because it is made by the build from a file that is not part of the
sources.  Sizes that are no multiple of a tile are allowed, and so are pictures without any.

The module has only the program in it.  What it means is said of boards, in `Game/Board`.
-/

namespace ScratchOs

/-- The picture the build puts into `assets`: `pic_bgr`, `pic_w`, `pic_h`. -/
structure Picture where
  bgr : List UInt8
  w : ℤ
  h : ℤ

/-- `SelState`: whether there is a selected tile. -/
inductive SelState
  | none
  | selected
  deriving DecidableEq, Repr

/-- `GameState`, with its fields in the order of the source. -/
structure GameState where
  image : List UInt8
  imageW : ℤ
  imageH : ℤ
  block : List ℤ
  blockX : ℤ
  blockY : ℤ
  selectBlockX : ℤ
  selectBlockY : ℤ
  nrBlockH : ℤ
  nrBlockV : ℤ
  blockW : ℤ
  blockH : ℤ
  select : SelState
  deriving DecidableEq, Repr

/-! ## Scancodes

The scancodes that `get_key` returns for the keys of the game.  The arrow keys have two bytes.
-/

/-- `KEY_UP`. -/
abbrev keyUp : UInt32 := 0xE048

/-- `KEY_DOWN`. -/
abbrev keyDown : UInt32 := 0xE050

/-- `KEY_LEFT`. -/
abbrev keyLeft : UInt32 := 0xE04B

/-- `KEY_RIGHT`. -/
abbrev keyRight : UInt32 := 0xE04D

/-- `KEY_SPACE`. -/
abbrev keySpace : UInt32 := 0x39

/-! ## A key

`update_game_state` and its parts.  A scancode that is not among the five does nothing but wrap the
cursor, which is on the board already.
-/

/-- The place of `block[i]`, if there is one.  A negative index is outside of the array as well. -/
def index (block : List ℤ) (i : ℤ) : Option (Fin block.length) :=
  if h : 0 ≤ i ∧ i < block.length then some ⟨i.toNat, by omega⟩ else none

/-- `swap(block[first], block[second])`, through a third variable.  Both places must be in the
array. -/
def swap (block : List ℤ) (first second : ℤ) : Option (List ℤ) := do
  let i ← index block first
  let j ← index block second
  let z := block[i]
  let block := block.set i block[j]
  some (block.set j z)

namespace GameState

/-- The index of the tile under the cursor. -/
def blockFirst (game : GameState) : ℤ := game.blockY * game.nrBlockH + game.blockX

/-- The index of the selected tile. -/
def blockSecond (game : GameState) : ℤ := game.selectBlockY * game.nrBlockH + game.selectBlockX

/-- The space bar: select the tile under the cursor, or swap it with the selected one. -/
def pressSpace (game : GameState) : Option GameState :=
  match game.select with
  | .none =>
      some { game with
        select := .selected, selectBlockX := game.blockX, selectBlockY := game.blockY }
  | .selected =>
      (swap game.block game.blockFirst game.blockSecond).map fun block =>
        { game with select := .none, block := block }

/-- The arrow keys, which may take the cursor off the board; `wrapCursor` puts it back. -/
def moveCursor (game : GameState) (scancode : UInt32) : GameState :=
  if scancode = keyDown then { game with blockY := game.blockY + 1 }
  else if scancode = keyUp then { game with blockY := game.blockY - 1 }
  else if scancode = keyLeft then { game with blockX := game.blockX - 1 }
  else if scancode = keyRight then { game with blockX := game.blockX + 1 }
  else game

/-- A coordinate that has left its side comes back on the other one. -/
def wrap (i n : ℤ) : ℤ := if n ≤ i then 0 else if i < 0 then n - 1 else i

/-- The end of `update_game_state`, for both coordinates. -/
def wrapCursor (game : GameState) : GameState :=
  { game with blockY := wrap game.blockY game.nrBlockV, blockX := wrap game.blockX game.nrBlockH }

end GameState

/-- `update_game_state`, from the scancode `get_key` returns. -/
def updateGameState (game : GameState) (scancode : UInt32) : Option GameState := do
  let game ← if scancode = keySpace then game.pressSpace else some game
  some (game.moveCursor scancode).wrapCursor

/-- The loop of `check_valid`, which stops at the first tile that is smaller than the one before
it. -/
def checkFrom (block : List ℤ) (nrBlock : ℤ) (i : ℕ) : Option ℤ :=
  if (i : ℤ) < nrBlock - 1 then do
    let a ← block[i]?
    let b ← block[i + 1]?
    if b < a then some 0 else checkFrom block nrBlock (i + 1)
  else
    some 1
  termination_by (nrBlock - 1 - i).toNat

/-- `check_valid`, which tells 1 when the tiles are in order. -/
def checkValid (game : GameState) : Option ℤ :=
  checkFrom game.block (game.nrBlockH * game.nrBlockV) 0

/-- The state that `game_mainloop` starts with: the tiles in reverse. -/
def Picture.initialState (pic : Picture) : GameState :=
  let nrBlockH := pic.w.tdiv 100
  let nrBlockV := pic.h.tdiv 100
  let nrBlock := nrBlockH * nrBlockV
  { image := pic.bgr
    imageW := pic.w
    imageH := pic.h
    block := (List.range nrBlock.toNat).map fun i : ℕ => nrBlock - 1 - (i : ℤ)
    blockX := 0
    blockY := 0
    selectBlockX := 0
    selectBlockY := 0
    nrBlockH := nrBlockH
    nrBlockV := nrBlockV
    blockW := 100
    blockH := 100
    select := .none }

end ScratchOs
