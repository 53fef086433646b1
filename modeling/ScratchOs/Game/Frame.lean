import ScratchOs.Game.Board
import ScratchOs.Kernel.Draw

/-!
# A frame of the game

`update_frame` of `kernel/game.c`: the tiles, the lines between them, the cursor and the selected
place, each drawn over what was drawn before.  A frame is drawn anew after each key, and from the
state alone.

* `frameColor` — the colour a point of the frame should have, layer by layer from the top.
* `drawTile_draws` — a tile is copied from its own place in the picture to the place it is at.
* **`frame_layers`** — in every state the game can be in, every pixel has its colour, and the
  picture is read inside of its array.

**How it is proved.**  Each loop of the function draws a set of points, and drawing one after the
other paints the later set over the earlier one.  So a lemma for each layer is enough, and the
colour of a point is decided by the layers that it lies in.  Nothing is computed pixel by pixel.

**What is assumed**: the mode fits the buffer, the picture has as many bytes as its size asks for,
and the tiles are tiles of the picture.  The last holds in every state of the game, by the
simulation of `Game/Board`.
-/

namespace ScratchOs

open Bytes Canvas Runs

/-! ## The program

The function with its loops.  What `update_frame` reads is the state, and the picture that the state
refers to.
-/

/-- The body of the loop that draws the puzzle: the tile with number `block[i]`, at place `i`. -/
def drawTile (info : ModeInfoBlock) (game : GameState) (buf : VmemBuffer) (i : ℤ) :
    Option VmemBuffer := do
  let k ← index game.block i
  let blockIndex := game.block[k]
  let scrX := i.tmod game.nrBlockH * game.blockW
  let scrY := i.tdiv game.nrBlockH * game.blockH
  let picX := blockIndex.tmod game.nrBlockH * game.blockW
  let picY := blockIndex.tdiv game.nrBlockH * game.blockH
  forTo game.blockH (fun buf offY =>
    forTo game.blockW (fun buf offX => do
      let color ← getColor game.image (picX + offX) (picY + offY) game.imageW game.imageH
      drawPixel info buf (scrX + offX) (scrY + offY) color) buf) buf

/-- What `update_frame` leaves in `vmem_buffer`, which it clears first. -/
def updateFrame (info : ModeInfoBlock) (game : GameState) : Option VmemBuffer := do
  let nrBlock := game.nrBlockH * game.nrBlockV
  let buf ← forTo nrBlock (drawTile info game) (fill 1440000 0)
  let buf ← forTo (game.nrBlockH + 1)
    (fun buf i => drawColumn info buf (i * game.blockW) 0 6 info.Yres.toNat 0) buf
  let buf ← forTo (game.nrBlockV + 1)
    (fun buf i => drawRow info buf 0 (i * game.blockH) 6 info.Xres.toNat 0) buf
  let buf ← drawBorder info buf (game.blockX * game.blockW) (game.blockY * game.blockH) game.blockW
    game.blockH 3 0x000000ff
  if game.select = .selected then
    drawBorder info buf (game.selectBlockX * game.blockW) (game.selectBlockY * game.blockH)
      game.blockW game.blockH 3 0x00ff0000
  else
    some buf

/-! ## The frame as it should be

The layers in the order in which they hide each other.
-/

/-- The border of a cell: less than 3 or more than 96 from its first row or column, inside of the
cell. -/
abbrev OnBorder (blockX blockY : ℤ) (p : ℤ × ℤ) : Prop :=
  (100 * blockX ≤ p.1 ∧ p.1 < 100 * blockX + 100) ∧
    (100 * blockY ≤ p.2 ∧ p.2 < 100 * blockY + 100) ∧
      ((p.1 - 100 * blockX < 3 ∨ 96 < p.1 - 100 * blockX) ∨
        p.2 - 100 * blockY < 3 ∨ 96 < p.2 - 100 * blockY)

/-- One of the lines between `n` cells, six pixels wide. -/
abbrev OnLine (n a : ℤ) : Prop :=
  ∃ i < (n + 1).toNat, 100 * (i : ℤ) - 3 ≤ a ∧ a ≤ 100 * (i : ℤ) + 2

/-- The colour of the tile at a point: its own part of the picture. -/
def GameState.tileColor (game : GameState) (p : ℤ × ℤ) : Bgr :=
  let tile := (game.block[(p.2 / 100 * game.nrBlockH + p.1 / 100).toNat]?).getD 0
  pictureAt game.image game.imageW (tile % game.nrBlockH * 100 + p.1 % 100)
    (tile / game.nrBlockH * 100 + p.2 % 100)

/-- The colour of a point of the frame, from the uppermost layer down. -/
def GameState.frameColor (game : GameState) (p : ℤ × ℤ) : Bgr :=
  if game.select = .selected ∧ OnBorder game.selectBlockX game.selectBlockY p then ⟨0xff, 0, 0⟩
  else if OnBorder game.blockX game.blockY p then ⟨0, 0, 0xff⟩
  else if OnLine game.nrBlockH p.1 ∨ OnLine game.nrBlockV p.2 then ⟨0, 0, 0⟩
  else if p.1 < 100 * game.nrBlockH ∧ p.2 < 100 * game.nrBlockV then game.tileColor p
  else ⟨0, 0, 0⟩

/-! ## The picture

The picture is the same in all states of the game, since no key changes it.
-/

/-- What the game never changes: the picture, and the sizes that are taken from it. -/
structure GameState.ShowsPicture (game : GameState) (pic : Picture) : Prop where
  image : game.image = pic.bgr
  imageW : game.imageW = pic.w
  imageH : game.imageH = pic.h
  blockW : game.blockW = 100
  blockH : game.blockH = 100
  nrBlockH : game.nrBlockH = pic.w.tdiv 100
  nrBlockV : game.nrBlockV = pic.h.tdiv 100

lemma initial_showsPicture (pic : Picture) : pic.initialState.ShowsPicture pic :=
  ⟨rfl, rfl, rfl, rfl, rfl, rfl, rfl⟩

section Keys

variable {game game' : GameState} {pic : Picture} (hpic : game.ShowsPicture pic)
include hpic

lemma pressSpace_showsPicture (h : game.pressSpace = some game') : game'.ShowsPicture pic := by
  rw [GameState.pressSpace] at h
  cases hsel : game.select with
  | none =>
      rw [hsel] at h
      cases h
      exact ⟨hpic.image, hpic.imageW, hpic.imageH, hpic.blockW, hpic.blockH, hpic.nrBlockH,
        hpic.nrBlockV⟩
  | selected =>
      rw [hsel] at h
      rcases Option.map_eq_some_iff.mp h with ⟨block, -, rfl⟩
      exact ⟨hpic.image, hpic.imageW, hpic.imageH, hpic.blockW, hpic.blockH, hpic.nrBlockH,
        hpic.nrBlockV⟩

lemma moveCursor_showsPicture (scancode : UInt32) :
    (game.moveCursor scancode).wrapCursor.ShowsPicture pic := by
  rw [GameState.moveCursor]
  split_ifs <;>
    exact ⟨hpic.image, hpic.imageW, hpic.imageH, hpic.blockW, hpic.blockH, hpic.nrBlockH,
      hpic.nrBlockV⟩

lemma updateGameState_showsPicture {scancode : UInt32}
    (h : updateGameState game scancode = some game') : game'.ShowsPicture pic := by
  rw [updateGameState] at h
  by_cases hspace : scancode = keySpace
  · rw [if_pos hspace] at h
    rcases Option.bind_eq_some_iff.mp h with ⟨game₁, hpress, hmove⟩
    cases hmove
    exact moveCursor_showsPicture (pressSpace_showsPicture hpic hpress) scancode
  · rw [if_neg hspace] at h
    cases h
    exact moveCursor_showsPicture hpic scancode

end Keys

/-! ## The layers

One lemma for each loop: which points it draws, and in which colour.
-/

/-- The tiles of the board are tiles of the picture, and the picture is all there. -/
structure GameState.Pictured (game : GameState) (pic : Picture) : Prop where
  picture : game.ShowsPicture pic
  columns : 0 ≤ game.nrBlockH
  rows : 0 ≤ game.nrBlockV
  wide : 100 * game.nrBlockH ≤ pic.w
  high : 100 * game.nrBlockV ≤ pic.h
  bytes : (pic.bgr.length : ℤ) = pic.w * pic.h * 3
  tiles : ∀ i, 0 ≤ i → i < game.nrBlockV * game.nrBlockH →
    ∃ tile, game.block[i.toNat]? = some tile ∧ 0 ≤ tile ∧ tile < game.nrBlockV * game.nrBlockH

section Layers

variable {game : GameState} {pic : Picture} {info : ModeInfoBlock}

/-- The row and the column of a place. -/
lemma place_bounds {v h i : ℤ} (hh : 0 ≤ h) (hi : 0 ≤ i) (hin : i < v * h) :
    (0 ≤ i % h ∧ i % h < h) ∧ 0 ≤ i / h ∧ i / h < v := by
  have hpos : 0 < h := by
    rcases hh.lt_or_eq with hpos | rfl
    · exact hpos
    · rw [mul_zero] at hin
      omega
  refine ⟨⟨Int.emod_nonneg i (by omega), Int.emod_lt_of_pos i hpos⟩, Int.ediv_nonneg hi hh, ?_⟩
  exact Int.ediv_lt_of_lt_mul hpos hin

/-- **A tile is copied** from its own place in the picture to the place it is at. -/
lemma drawTile_draws (hfits : info.FitsBuffer) (hgame : game.Pictured pic) {i : ℤ} (hi : 0 ≤ i)
    (hin : i < game.nrBlockV * game.nrBlockH) :
    Draws (OnScreen info) (fun buf => drawTile info game buf i)
      (rect (i % game.nrBlockH * 100) (i / game.nrBlockH * 100) 100 100) game.tileColor := by
  rcases hgame.tiles i hi hin with ⟨tile, htile, hpos, hlt⟩
  rcases place_bounds hgame.columns hi hin with ⟨hcolumn, hrow⟩
  rcases place_bounds hgame.columns hpos hlt with ⟨hpicX, hpicY⟩
  rcases List.getElem?_eq_some_iff.mp htile with ⟨hlen, hget⟩
  have hwide := hgame.wide
  have hhigh := hgame.high
  have hk : index game.block i = some ⟨i.toNat, hlen⟩ := dif_pos ⟨hi, by omega⟩
  have hbody : (fun buf => drawTile info game buf i) = fun buf =>
      forTo 100 (fun buf offY => forTo 100 (fun buf offX =>
        (getColor pic.bgr (tile % game.nrBlockH * 100 + offX) (tile / game.nrBlockH * 100 + offY)
          pic.w pic.h).bind fun color => drawPixel info buf (i % game.nrBlockH * 100 + offX)
            (i / game.nrBlockH * 100 + offY) color) buf) buf := by
    funext buf
    rw [drawTile, hk]
    simp only [Option.bind_eq_bind, Option.bind_some, Fin.getElem_fin, hget, hgame.picture.image,
      hgame.picture.imageW, hgame.picture.imageH, hgame.picture.blockW, hgame.picture.blockH,
      Int.tmod_eq_emod_of_nonneg hi, Int.tdiv_eq_ediv_of_nonneg hi,
      Int.tmod_eq_emod_of_nonneg hpos, Int.tdiv_eq_ediv_of_nonneg hpos]
  rw [hbody]
  refine Draws.rect fun offX offY hx hx' hy hy' => ?_
  rcases getColor_eq (x := tile % game.nrBlockH * 100 + offX)
    (y := tile / game.nrBlockH * 100 + offY) hgame.bytes (by omega) (by omega) with
    ⟨color, hcolor, hunpack⟩
  simp only [hcolor, Option.bind_some]
  refine (drawPixel_draws hfits _ _ color).colours fun p hp => ?_
  obtain rfl : p = (i % game.nrBlockH * 100 + offX, i / game.nrBlockH * 100 + offY) := hp
  have hdivX : (i % game.nrBlockH * 100 + offX) / 100 = i % game.nrBlockH := by omega
  have hdivY : (i / game.nrBlockH * 100 + offY) / 100 = i / game.nrBlockH := by omega
  have hmodX : (i % game.nrBlockH * 100 + offX) % 100 = offX := by omega
  have hmodY : (i / game.nrBlockH * 100 + offY) % 100 = offY := by omega
  have hplace : i / game.nrBlockH * game.nrBlockH + i % game.nrBlockH = i :=
    Int.ediv_mul_add_emod i _
  simp only [hunpack, GameState.tileColor, hdivX, hdivY, hmodX, hmodY, hplace, htile,
    Option.getD_some, hgame.picture.image, hgame.picture.imageW]

/-- The tiles cover the board, each in its own cell. -/
lemma drawTiles_draws (hfits : info.FitsBuffer) (hgame : game.Pictured pic) :
    Draws (OnScreen info) (forTo (game.nrBlockH * game.nrBlockV) (drawTile info game))
      (rect 0 0 (100 * game.nrBlockH) (100 * game.nrBlockV)) game.tileColor := by
  have hcolumns := hgame.columns
  rw [Int.mul_comm]
  refine (Draws.forTo fun i hi hin => drawTile_draws hfits hgame hi hin).area fun p => ?_
  simp only [Set.mem_ofPred_eq, rect]
  generalize game.nrBlockH = h at hcolumns
  generalize game.nrBlockV = v
  constructor
  · rintro ⟨i, hi, hin, ⟨hx, hx'⟩, hy, hy'⟩
    rcases place_bounds hcolumns hi hin with ⟨hcolumn, hrow⟩
    omega
  · rintro ⟨⟨hx, hx'⟩, hy, hy'⟩
    have hcolumn : p.1 / 100 < h := by omega
    have hrow : p.2 / 100 < v := by omega
    have hlast : (p.2 / 100 + 1) * h ≤ v * h := mul_le_mul_of_nonneg_right (by omega) hcolumns
    have hpos : 0 ≤ p.2 / 100 * h := mul_nonneg (by omega) hcolumns
    rw [add_mul, one_mul] at hlast
    have hmod : (p.2 / 100 * h + p.1 / 100) % h = p.1 / 100 := by
      rw [Int.add_comm, Int.add_mul_emod_self_right, Int.emod_eq_of_lt (by omega) hcolumn]
    have hdiv : (p.2 / 100 * h + p.1 / 100) / h = p.2 / 100 := by
      rw [Int.add_comm, Int.add_mul_ediv_right _ _ (by omega),
        Int.ediv_eq_zero_of_lt (by omega) hcolumn, Int.zero_add]
    refine ⟨p.2 / 100 * h + p.1 / 100, by omega, by omega, ?_⟩
    rw [hmod, hdiv]
    omega

/-- The lines between the columns. -/
lemma drawColumns_draws (hfits : info.FitsBuffer) (hpic : game.ShowsPicture pic) :
    Draws (OnScreen info) (forTo (game.nrBlockH + 1)
        fun buf i => drawColumn info buf (i * game.blockW) 0 6 info.Yres.toNat 0)
      {p | OnLine game.nrBlockH p.1 ∧ 0 ≤ p.2 ∧ p.2 < info.Yres.toNat} fun _ => unpack 0 := by
  have hwidth : (6 : ℤ).tdiv 2 = 3 := rfl
  refine (Draws.forTo fun i _ _ =>
    drawColumn_draws hfits (i * game.blockW) 0 6 _ 0).area fun p => ?_
  simp only [Set.mem_ofPred_eq, rect, hwidth, hpic.blockW, OnLine]
  constructor
  · rintro ⟨i, hi, hin, hx, hy⟩
    exact ⟨⟨i.toNat, by omega, by omega, by omega⟩, by omega, by omega⟩
  · rintro ⟨⟨i, hin, hx, hx'⟩, hy, hy'⟩
    exact ⟨i, by omega, by omega, ⟨by omega, by omega⟩, by omega, by omega⟩

/-- The lines between the rows. -/
lemma drawRows_draws (hfits : info.FitsBuffer) (hpic : game.ShowsPicture pic) :
    Draws (OnScreen info) (forTo (game.nrBlockV + 1)
        fun buf i => drawRow info buf 0 (i * game.blockH) 6 info.Xres.toNat 0)
      {p | OnLine game.nrBlockV p.2 ∧ 0 ≤ p.1 ∧ p.1 < info.Xres.toNat} fun _ => unpack 0 := by
  have hwidth : (6 : ℤ).tdiv 2 = 3 := rfl
  refine (Draws.forTo fun i _ _ => drawRow_draws hfits 0 (i * game.blockH) 6 _ 0).area fun p => ?_
  simp only [Set.mem_ofPred_eq, rect, hwidth, hpic.blockH, OnLine]
  constructor
  · rintro ⟨i, hi, hin, hx, hy⟩
    exact ⟨⟨i.toNat, by omega, by omega, by omega⟩, by omega, by omega⟩
  · rintro ⟨⟨i, hin, hy, hy'⟩, hx, hx'⟩
    exact ⟨i, by omega, by omega, ⟨by omega, by omega⟩, by omega, by omega⟩

/-- The border of a cell, drawn for the cursor and for the selected place. -/
lemma drawCell_draws (hfits : info.FitsBuffer) (hpic : game.ShowsPicture pic) (blockX blockY : ℤ)
    (color : UInt32) :
    Draws (OnScreen info) (fun buf => drawBorder info buf (blockX * game.blockW)
        (blockY * game.blockH) game.blockW game.blockH 3 color)
      {p | OnBorder blockX blockY p} fun _ => unpack color := by
  rw [hpic.blockW, hpic.blockH]
  refine (drawBorder_draws hfits (by decide) (by decide) color).area fun p => ?_
  simp only [border, rect, Set.mem_ofPred_eq, OnBorder]
  omega

/-- What is drawn below the selection, painted layer over layer, is the rest of `frameColor`. -/
lemma paint_below (info : ModeInfoBlock) (game : GameState) {p : ℤ × ℤ}
    (hx : 0 ≤ p.1 ∧ p.1 < info.Xres.toNat) (hy : 0 ≤ p.2 ∧ p.2 < info.Yres.toNat) :
    paint {p | OnBorder game.blockX game.blockY p} (fun _ => unpack 0x000000ff)
      (paint {p | OnLine game.nrBlockV p.2 ∧ 0 ≤ p.1 ∧ p.1 < info.Xres.toNat} (fun _ => unpack 0)
        (paint {p | OnLine game.nrBlockH p.1 ∧ 0 ≤ p.2 ∧ p.2 < info.Yres.toNat} (fun _ => unpack 0)
          (paint (rect 0 0 (100 * game.nrBlockH) (100 * game.nrBlockV)) game.tileColor
            fun _ => ⟨0, 0, 0⟩))) p
      = if OnBorder game.blockX game.blockY p then ⟨0, 0, 0xff⟩
        else if OnLine game.nrBlockH p.1 ∨ OnLine game.nrBlockV p.2 then ⟨0, 0, 0⟩
        else if p.1 < 100 * game.nrBlockH ∧ p.2 < 100 * game.nrBlockV then game.tileColor p
        else ⟨0, 0, 0⟩ := by
  have hred : unpack 0x000000ff = ⟨0, 0, 0xff⟩ := rfl
  have hblack : unpack 0 = ⟨0, 0, 0⟩ := rfl
  rw [rect, paint_apply, paint_apply, paint_apply, paint_apply, hred, hblack]
  by_cases hcursor : OnBorder game.blockX game.blockY p
  · rw [if_pos hcursor, if_pos hcursor]
  rw [if_neg hcursor, if_neg hcursor]
  by_cases hrow : OnLine game.nrBlockV p.2
  · rw [if_pos ⟨hrow, hx⟩, if_pos (Or.inr hrow)]
  rw [if_neg (fun hline => hrow hline.1)]
  by_cases hcolumn : OnLine game.nrBlockH p.1
  · rw [if_pos ⟨hcolumn, hy⟩, if_pos (Or.inl hcolumn)]
  have hlines : ¬ (OnLine game.nrBlockH p.1 ∨ OnLine game.nrBlockV p.2) := by
    rintro (hline | hline)
    · exact hcolumn hline
    · exact hrow hline
  rw [if_neg (fun hline => hcolumn hline.1), if_neg hlines]
  have hboard : (0 ≤ p.1 ∧ p.1 < 0 + 100 * game.nrBlockH) ∧ 0 ≤ p.2 ∧
      p.2 < 0 + 100 * game.nrBlockV ↔
        p.1 < 100 * game.nrBlockH ∧ p.2 < 100 * game.nrBlockV := by
    omega
  simp only [hboard]

/-- **`update_frame`** draws every layer over the ones below. -/
lemma updateFrame_layers (hfits : info.FitsBuffer) (hgame : game.Pictured pic) :
    ∃ buf, updateFrame info game = some buf ∧
      ∀ x y : ℕ, x < info.Xres.toNat → y < info.Yres.toNat →
        pixelAt info buf x y = game.frameColor (x, y) := by
  have hpic := hgame.picture
  have hblank : OnScreen info (fill 1440000 0) fun _ => ⟨0, 0, 0⟩ := by
    intro x y _ _
    simp only [pixelAt, byteAt_fill_zero]
  rcases drawTiles_draws hfits hgame _ _ hblank with ⟨buf₁, hok₁, h₁⟩
  rcases drawColumns_draws hfits hpic _ _ h₁ with ⟨buf₂, hok₂, h₂⟩
  rcases drawRows_draws hfits hpic _ _ h₂ with ⟨buf₃, hok₃, h₃⟩
  rcases drawCell_draws hfits hpic game.blockX game.blockY 0x000000ff _ _ h₃ with ⟨buf₄, hok₄, h₄⟩
  rcases drawCell_draws hfits hpic game.selectBlockX game.selectBlockY 0x00ff0000 _ _ h₄ with
    ⟨buf₅, hok₅, h₅⟩
  have hbelow := fun (x y : ℕ) (hx : x < info.Xres.toNat) (hy : y < info.Yres.toNat) =>
    paint_below info game (p := (x, y)) (by simpa using hx) (by simpa using hy)
  by_cases hsel : game.select = .selected
  · refine ⟨buf₅, ?_, fun x y hx hy => ?_⟩
    · simp only [updateFrame, Option.bind_eq_bind, hok₁, Option.bind_some, hok₂, hok₃, hok₄, hok₅,
        if_pos hsel]
    · rw [h₅ x y hx hy, paint_apply, hbelow x y hx hy, GameState.frameColor]
      simp only [hsel, true_and]
      rfl
  · refine ⟨buf₄, ?_, fun x y hx hy => ?_⟩
    · simp only [updateFrame, Option.bind_eq_bind, hok₁, Option.bind_some, hok₂, hok₃, hok₄,
        if_neg hsel]
    · have hnone : ¬ (game.select = .selected ∧
          OnBorder game.selectBlockX game.selectBlockY (x, y)) := fun hboth => hsel hboth.1
      rw [h₄ x y hx hy, GameState.frameColor, if_neg hnone]
      exact hbelow x y hx hy

end Layers

/-! ## Every frame

The layers put together, for the states that the keys lead to.
-/

/-- The tiles of a board are tiles of the picture. -/
lemma Board.Shows.tiles {v h : ℕ} {b : Board v h} {game : GameState} (hb : b.Shows game) {i : ℤ}
    (hi : 0 ≤ i) (hin : i < game.nrBlockV * game.nrBlockH) :
    ∃ tile, game.block[i.toNat]? = some tile ∧ 0 ≤ tile ∧
      tile < game.nrBlockV * game.nrBlockH := by
  rw [hb.nrBlockV, hb.nrBlockH] at hin ⊢
  have hn : i.toNat < v * h := by
    zify
    omega
  have hlt : ((b.tiles ⟨i.toNat, hn⟩ : ℕ) : ℤ) < (v : ℤ) * h := by
    exact_mod_cast (b.tiles ⟨i.toNat, hn⟩).isLt
  refine ⟨_, ?_, Int.natCast_nonneg _, hlt⟩
  rw [hb.block]
  exact getElem?_blockOf b.tiles ⟨i.toNat, hn⟩

/-- Whatever keys have been pressed, the tiles are tiles of the picture. -/
lemma keys_pictured {pic : Picture} (hw : 0 ≤ pic.w) (hh : 0 ≤ pic.h)
    (hbytes : (pic.bgr.length : ℤ) = pic.w * pic.h * 3) {keys : List UInt32} {game : GameState}
    (hkeys : keys.foldlM updateGameState pic.initialState = some game) : game.Pictured pic := by
  have hpic : game.ShowsPicture pic :=
    foldlM_invariant (fun _ _ _ h hstep => updateGameState_showsPicture h hstep)
      (initial_showsPicture pic) hkeys
  have hcolumns : game.nrBlockH = pic.w / 100 := by
    rw [hpic.nrBlockH, Int.tdiv_eq_ediv_of_nonneg hw]
  have hrows : game.nrBlockV = pic.h / 100 := by
    rw [hpic.nrBlockV, Int.tdiv_eq_ediv_of_nonneg hh]
  refine ⟨hpic, by omega, by omega, by omega, by omega, hbytes, fun i hi hin => ?_⟩
  by_cases htiles : 100 ≤ pic.w ∧ 100 ≤ pic.h
  · obtain ⟨hne, hne'⟩ := Picture.neZero htiles.1 htiles.2
    rcases keys_shows keys (initial_shows pic htiles.1 htiles.2) with ⟨game', hok, hshows⟩
    obtain rfl : game' = game := Option.some.inj (hok.symm.trans hkeys)
    exact hshows.tiles hi hin
  · -- a picture without a tile: nothing is drawn
    have hnone : game.nrBlockV * game.nrBlockH = 0 := by
      rw [mul_eq_zero]
      omega
    omega

/-- **Every frame of the game.**  In every state that some keys lead to, each pixel of the screen
has the colour of its uppermost layer, and the picture has been read inside of its array. -/
theorem frame_layers (pic : Picture) (hw : 0 ≤ pic.w) (hh : 0 ≤ pic.h)
    (hbytes : (pic.bgr.length : ℤ) = pic.w * pic.h * 3) (info : ModeInfoBlock)
    (hline : 3 * info.Xres.toNat ≤ info.pitch.toNat)
    (hsize : info.Yres.toNat * info.pitch.toNat ≤ 800 * 600 * 3) (keys : List UInt32)
    (game : GameState) (hkeys : keys.foldlM updateGameState pic.initialState = some game) :
    ∃ buf, updateFrame info game = some buf ∧
      ∀ x y : ℕ, x < info.Xres.toNat → y < info.Yres.toNat →
        pixelAt info buf x y = game.frameColor (x, y) :=
  updateFrame_layers ⟨hline, hsize⟩ (keys_pictured hw hh hbytes hkeys)

/-- The target's mode, 800 × 600 with 2400 bytes to the line, and a white picture of one tile. -/
theorem frame_layers_target :
    ∃ game buf, [keySpace].foldlM updateGameState
        (Picture.initialState ⟨List.replicate 30000 255, 100, 100⟩) = some game ∧
      updateFrame ⟨2400, 800, 600, 0xfd000000⟩ game = some buf ∧
      ∀ x y : ℕ, x < 800 → y < 600 →
        pixelAt ⟨2400, 800, 600, 0xfd000000⟩ buf x y = game.frameColor (x, y) := by
  rcases frame_layers ⟨List.replicate 30000 255, 100, 100⟩ (by decide) (by decide)
    (by rw [List.length_replicate]; rfl) ⟨2400, 800, 600, 0xfd000000⟩ (by decide) (by decide)
    [keySpace] _ rfl with ⟨buf, hframe, hpixels⟩
  exact ⟨_, buf, rfl, hframe, hpixels⟩

end ScratchOs
