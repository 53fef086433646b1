import Mathlib.Tactic.Linarith
import ScratchOs.Core.Bytes
import ScratchOs.Core.Canvas
import ScratchOs.Core.Words
import ScratchOs.Kernel.Video

/-!
# Drawing on the screen

The drawing functions of `kernel/video.c`.  Everything is drawn into `vmem_buffer`, three bytes to
the pixel and `pitch` bytes to the line; the screen shows the part of a canvas that it has pixels
for, and drawing outside of it does nothing.

* **`drawPixel_draws`** — a pixel is one point of the canvas, if the mode fits the buffer.
* `getColor_eq` — a colour of a picture, and that `draw_pixel` takes it apart again.
* `drawColumn_draws`, `drawRow_draws` — bars, aligned at their middle.
* **`drawBorder_draws`** — a frame inside of a rectangle.

**The canvas** is a colour for every point of the plane, and `OnScreen` says that the buffer shows
its part of it.  A function that draws is then described by a set of points and the colours it gives
them (`Draws`, of `Core/Canvas`), and a function that calls others is described by the union of
their sets.  Nothing has to be said about bytes again until `Kernel/Screen` asks for them.

**Out of bounds.**  A store outside of `vmem_buffer` has no result in the model.  The bounds that
`draw_pixel_bgr` tests are those of the screen and not of the buffer, so this does happen for a mode
that does not fit.
-/

namespace ScratchOs

open Bytes Canvas Runs Words

/-! ## The program

The functions as they are, loops included.  What is undefined in the source has no result.
-/

/-- `vmem_buffer`, with a byte for each of its `800 * 600 * 3` places. -/
abbrev VmemBuffer := Buffer 1440000

/-- The three bytes of a pixel, in the order they are stored in. -/
structure Bgr where
  b : UInt8
  g : UInt8
  r : UInt8
  deriving DecidableEq, Repr

/-- The stores through `pixel`.  Outside of the buffer they are undefined. -/
def storePixel {n : ℕ} (buf : Buffer n) (pixel : ℤ) (c : Bgr) : Option (Buffer n) :=
  if 0 ≤ pixel ∧ pixel + 3 ≤ n then some (write buf pixel.toNat [c.b, c.g, c.r]) else none

/-- `draw_pixel_bgr`, which leaves out what is not on the screen. -/
def drawPixelBgr (info : ModeInfoBlock) (buf : VmemBuffer) (x y : ℤ) (b g r : UInt8) :
    Option VmemBuffer :=
  if (0 ≤ x ∧ x < info.Xres.toNat) ∧ 0 ≤ y ∧ y < info.Yres.toNat then
    storePixel buf (y * info.pitch.toNat + x * 3) ⟨b, g, r⟩
  else
    some buf

/-- `draw_pixel`, whose colour has blue in bits 16 to 23. -/
def drawPixel (info : ModeInfoBlock) (buf : VmemBuffer) (x y : ℤ) (color : UInt32) :
    Option VmemBuffer :=
  drawPixelBgr info buf x y ((color >>> 16) &&& 0xff).toUInt8 ((color >>> 8) &&& 0xff).toUInt8
    (color &&& 0xff).toUInt8

/-- `bgr[i]`.  Outside of the array it is undefined. -/
def readByte (bgr : List UInt8) (i : ℤ) : Option UInt8 := if 0 ≤ i then bgr[i.toNat]? else none

/-- `get_color`, whose last argument it does not use. -/
def getColor (bgr : List UInt8) (x y w _h : ℤ) : Option UInt32 := do
  let index := (y * w + x) * 3
  let b ← readByte bgr index
  let g ← readByte bgr (index + 1)
  let r ← readByte bgr (index + 2)
  some ((b.toUInt32 <<< 16) ||| (g.toUInt32 <<< 8) ||| r.toUInt32)

/-- `draw_column`, from the top to the bottom and each line from the left. -/
def drawColumn (info : ModeInfoBlock) (buf : VmemBuffer) (x y width length : ℤ) (color : UInt32) :
    Option VmemBuffer :=
  let x := x - width.tdiv 2
  forTo length (fun buf offY =>
    forTo width (fun buf offX => drawPixel info buf (x + offX) (y + offY) color) buf) buf

/-- `draw_row`, the same for a bar of `width` lines around `y`. -/
def drawRow (info : ModeInfoBlock) (buf : VmemBuffer) (x y width length : ℤ) (color : UInt32) :
    Option VmemBuffer :=
  let y := y - width.tdiv 2
  forTo width (fun buf offY =>
    forTo length (fun buf offX => drawPixel info buf (x + offX) (y + offY) color) buf) buf

/-- `draw_border`: the two rows of the frame, corners included, and the two columns between them. -/
def drawBorder (info : ModeInfoBlock) (buf : VmemBuffer) (x y w h thick : ℤ) (color : UInt32) :
    Option VmemBuffer := do
  let buf ← drawRow info buf x (y + thick.tdiv 2) thick w color
  let buf ← drawRow info buf x (y + h - thick + thick.tdiv 2) thick w color
  let buf ← drawColumn info buf (x + thick.tdiv 2) (y + thick) thick (h - thick * 2) color
  drawColumn info buf (x + w - thick + thick.tdiv 2) (y + thick) thick (h - thick * 2) color

/-! ## The screen

What the bytes of the buffer mean, and that the functions draw what their comments show.
-/

/-- The bytes at a pixel of the screen. -/
def pixelAt {n : ℕ} (info : ModeInfoBlock) (buf : Buffer n) (x y : ℕ) : Bgr :=
  let pixel := y * info.pitch.toNat + x * 3
  ⟨byteAt buf pixel, byteAt buf (pixel + 1), byteAt buf (pixel + 2)⟩

/-- The buffer shows the part of the canvas that is on the screen. -/
def OnScreen (info : ModeInfoBlock) (buf : VmemBuffer) (c : ℤ × ℤ → Bgr) : Prop :=
  ∀ x y : ℕ, x < info.Xres.toNat → y < info.Yres.toNat → pixelAt info buf x y = c (x, y)

/-- The mode fits `vmem_buffer`: a line has room for its pixels, and the lines together fit the
buffer. -/
structure ModeInfoBlock.FitsBuffer (info : ModeInfoBlock) : Prop where
  line : 3 * info.Xres.toNat ≤ info.pitch.toNat
  size : info.Yres.toNat * info.pitch.toNat ≤ 800 * 600 * 3

/-- The colour that `draw_pixel` makes of a word. -/
def unpack (color : UInt32) : Bgr :=
  ⟨((color >>> 16) &&& 0xff).toUInt8, ((color >>> 8) &&& 0xff).toUInt8, (color &&& 0xff).toUInt8⟩

/-- The colour of a point of a picture of `w` columns. -/
def pictureAt (bgr : List UInt8) (w : ℤ) (x y : ℤ) : Bgr :=
  let index := ((y * w + x) * 3).toNat
  ⟨(bgr[index]?).getD 0, (bgr[index + 1]?).getD 0, (bgr[index + 2]?).getD 0⟩

/-- `draw_pixel` takes apart what `get_color` has put together. -/
lemma unpack_pack (b g r : UInt8) :
    unpack ((b.toUInt32 <<< 16) ||| (g.toUInt32 <<< 8) ||| r.toUInt32) = ⟨b, g, r⟩ := by
  have hb := b.toNat_lt
  have hg := g.toNat_lt
  have hr := r.toNat_lt
  have h8 : (8 : UInt32).toNat = 8 := rfl
  have h16 : (16 : UInt32).toNat = 16 := rfl
  have hlow : ((g.toUInt32 <<< 8) ||| r.toUInt32).toNat = g.toNat * 256 + r.toNat := by
    rw [toNat_shl_or _ _ _ (by decide) (by rw [h8, UInt8.toNat_toUInt32]; exact hr), h8,
      UInt8.toNat_toUInt32, UInt8.toNat_toUInt32]
    omega
  have hpack : ((b.toUInt32 <<< 16) ||| (g.toUInt32 <<< 8) ||| r.toUInt32).toNat
      = b.toNat * 65536 + (g.toNat * 256 + r.toNat) := by
    rw [UInt32.or_assoc, toNat_shl_or _ _ _ (by decide) (by rw [hlow, h16]; omega), hlow, h16,
      UInt8.toNat_toUInt32]
    omega
  have hmask : ∀ a : UInt32, (a &&& 0xff).toNat = a.toNat % 256 := fun a => toNat_mask a 0xff 8 rfl
  generalize (b.toUInt32 <<< 16) ||| (g.toUInt32 <<< 8) ||| r.toUInt32 = color at hpack
  rw [unpack, Bgr.mk.injEq, ← UInt8.toNat_inj, ← UInt8.toNat_inj, ← UInt8.toNat_inj]
  simp only [UInt32.toNat_toUInt8, hmask, toNat_shr _ _ (show (16 : UInt32).toNat < 32 by decide),
    toNat_shr _ _ (show (8 : UInt32).toNat < 32 by decide), hpack, h8, h16]
  omega

lemma readByte_eq {bgr : List UInt8} {i : ℤ} {k : ℕ} (hi : i = k) (hk : k < bgr.length) :
    readByte bgr i = some ((bgr[k]?).getD 0) := by
  rw [readByte, if_pos (by omega), hi, Int.toNat_natCast, List.getElem?_eq_getElem hk]
  rfl

/-- **A colour of a picture** is read inside of its array. -/
lemma getColor_eq {bgr : List UInt8} {x y w h : ℤ} (hlen : (bgr.length : ℤ) = w * h * 3)
    (hx : 0 ≤ x ∧ x < w) (hy : 0 ≤ y ∧ y < h) :
    ∃ color, getColor bgr x y w h = some color ∧ unpack color = pictureAt bgr w x y := by
  have hpos : 0 ≤ y * w := mul_nonneg hy.1 (by omega)
  have hrow : (y + 1) * w ≤ h * w := mul_le_mul_of_nonneg_right (by omega) (by omega)
  rw [add_mul, one_mul] at hrow
  rw [mul_comm w h] at hlen
  obtain ⟨k, hk⟩ : ∃ k : ℕ, (y * w + x) * 3 = k := ⟨((y * w + x) * 3).toNat, by omega⟩
  have hpicture : pictureAt bgr w x y
      = ⟨(bgr[k]?).getD 0, (bgr[k + 1]?).getD 0, (bgr[k + 2]?).getD 0⟩ := by
    simp only [pictureAt, hk, Int.toNat_natCast]
  refine ⟨_, ?_, (unpack_pack _ _ _).trans hpicture.symm⟩
  rw [getColor, readByte_eq hk (by omega),
    readByte_eq (k := k + 1) (by rw [hk]; rfl) (by omega),
    readByte_eq (k := k + 2) (by rw [hk]; rfl) (by omega)]
  rfl

/-- The bytes of different pixels are different bytes. -/
lemma pixels_disjoint {pitch x y x' y' : ℕ} (hx : 3 * x + 3 ≤ pitch) (hx' : 3 * x' + 3 ≤ pitch)
    (hne : (x', y') ≠ (x, y)) :
    y' * pitch + x' * 3 + 3 ≤ y * pitch + x * 3 ∨ y * pitch + x * 3 + 3 ≤ y' * pitch + x' * 3 := by
  rcases Nat.lt_trichotomy y' y with hy | rfl | hy
  · have hlines : (y' + 1) * pitch ≤ y * pitch := Nat.mul_le_mul_right pitch hy
    rw [Nat.succ_mul] at hlines
    omega
  · have hxne : x' ≠ x := by
      rintro rfl
      exact hne rfl
    omega
  · have hlines : (y + 1) * pitch ≤ y' * pitch := Nat.mul_le_mul_right pitch hy
    rw [Nat.succ_mul] at hlines
    omega

/-- A pixel that is stored is shown, and the others stay as they were. -/
lemma pixelAt_write {n : ℕ} {info : ModeInfoBlock} (buf : Buffer n) (c : Bgr) {x y x' y' : ℕ}
    (hline : 3 * info.Xres.toNat ≤ info.pitch.toNat) (hx : x < info.Xres.toNat)
    (hx' : x' < info.Xres.toNat) (hin : y * info.pitch.toNat + x * 3 + 3 ≤ n) :
    pixelAt info (write buf (y * info.pitch.toNat + x * 3) [c.b, c.g, c.r]) x' y'
      = if (x', y') = (x, y) then c else pixelAt info buf x' y' := by
  have hlen : [c.b, c.g, c.r].length = 3 := rfl
  by_cases hsame : (x', y') = (x, y)
  · rcases Prod.mk.inj hsame with ⟨rfl, rfl⟩
    rw [if_pos rfl]
    simp only [pixelAt]
    generalize y' * info.pitch.toNat + x' * 3 = pixel at hin
    rw [byteAt_write _ _ _ (by omega), byteAt_write _ _ _ (by omega), byteAt_write _ _ _ (by omega),
      if_pos (by omega), if_pos (by omega), if_pos (by omega)]
    simp
  · have hdisjoint : y' * info.pitch.toNat + x' * 3 + 3 ≤ y * info.pitch.toNat + x * 3 ∨
        y * info.pitch.toNat + x * 3 + 3 ≤ y' * info.pitch.toNat + x' * 3 :=
      pixels_disjoint (by omega) (by omega) hsame
    rw [if_neg hsame]
    simp only [pixelAt]
    rw [byteAt_write_of_disjoint _ _ _ (by omega), byteAt_write_of_disjoint _ _ _ (by omega),
      byteAt_write_of_disjoint _ _ _ (by omega)]

/-- A point is a pixel of the screen, or `draw_pixel_bgr` leaves it out. -/
lemma pixel_or_out (info : ModeInfoBlock) (x y : ℤ) :
    (∃ px py : ℕ, x = px ∧ y = py ∧ px < info.Xres.toNat ∧ py < info.Yres.toNat) ∨
      ¬ ((0 ≤ x ∧ x < info.Xres.toNat) ∧ 0 ≤ y ∧ y < info.Yres.toNat) := by
  by_cases hin : (0 ≤ x ∧ x < info.Xres.toNat) ∧ 0 ≤ y ∧ y < info.Yres.toNat
  · rcases Int.eq_ofNat_of_zero_le hin.1.1 with ⟨px, rfl⟩
    rcases Int.eq_ofNat_of_zero_le hin.2.1 with ⟨py, rfl⟩
    exact Or.inl ⟨px, py, rfl, rfl, by omega, by omega⟩
  · exact Or.inr hin

/-- A pixel of the screen is stored if it is inside of the buffer. -/
lemma drawPixelBgr_onScreen {info : ModeInfoBlock} (buf : VmemBuffer) {px py : ℕ}
    (hx : px < info.Xres.toNat) (hy : py < info.Yres.toNat) (b g r : UInt8) :
    drawPixelBgr info buf px py b g r
      = if py * info.pitch.toNat + px * 3 + 3 ≤ 1440000 then
          some (write buf (py * info.pitch.toNat + px * 3) [b, g, r])
        else none := by
  have hpixel : (py : ℤ) * info.pitch.toNat + px * 3
      = ((py * info.pitch.toNat + px * 3 : ℕ) : ℤ) := by
    push_cast
    rfl
  rw [drawPixelBgr, if_pos (by omega), hpixel, storePixel]
  by_cases hin : py * info.pitch.toNat + px * 3 + 3 ≤ 1440000
  · rw [if_pos (by omega), if_pos hin, Int.toNat_natCast]
  · rw [if_neg (by omega), if_neg hin]

lemma drawPixel_onScreen {info : ModeInfoBlock} (buf : VmemBuffer) {px py : ℕ}
    (hx : px < info.Xres.toNat) (hy : py < info.Yres.toNat) (color : UInt32) :
    drawPixel info buf px py color
      = if py * info.pitch.toNat + px * 3 + 3 ≤ 1440000 then
          some (write buf (py * info.pitch.toNat + px * 3)
            [(unpack color).b, (unpack color).g, (unpack color).r])
        else none :=
  drawPixelBgr_onScreen buf hx hy _ _ _

section Draw

variable {info : ModeInfoBlock} (hfits : info.FitsBuffer)
include hfits

/-- In a mode that fits, a pixel of the screen is inside of the buffer. -/
lemma pixel_le {x y : ℕ} (hx : x < info.Xres.toNat) (hy : y < info.Yres.toNat) :
    y * info.pitch.toNat + x * 3 + 3 ≤ 1440000 := by
  have hline := hfits.line
  have hsize := hfits.size
  have hlast : (y + 1) * info.pitch.toNat ≤ info.Yres.toNat * info.pitch.toNat :=
    Nat.mul_le_mul_right _ hy
  rw [Nat.succ_mul] at hlast
  omega

/-- **`draw_pixel_bgr`** draws one point, wherever it is: outside of the screen there is nothing
to show it. -/
theorem drawPixelBgr_draws (x y : ℤ) (b g r : UInt8) :
    Draws (OnScreen info) (fun buf => drawPixelBgr info buf x y b g r) {(x, y)}
      fun _ => ⟨b, g, r⟩ := by
  intro buf c hbuf
  have hline := hfits.line
  rcases pixel_or_out info x y with ⟨px, py, rfl, rfl, hx, hy⟩ | hout
  · have hle := pixel_le hfits hx hy
    have hok := drawPixelBgr_onScreen buf hx hy b g r
    rw [if_pos hle] at hok
    refine ⟨_, hok, fun x' y' hx' hy' => ?_⟩
    rw [pixelAt_write buf ⟨b, g, r⟩ hline hx hx' hle, hbuf x' y' hx' hy']
    by_cases hsame : (x', y') = (px, py)
    · rcases Prod.mk.inj hsame with ⟨rfl, rfl⟩
      simp
    · have hne : ((x' : ℤ), (y' : ℤ)) ∉ ({((px : ℤ), (py : ℤ))} : Set (ℤ × ℤ)) := by
        simpa using hsame
      rw [if_neg hsame, paint_of_notMem hne]
  · refine ⟨buf, if_neg hout, fun x' y' hx' hy' => ?_⟩
    have hne : ((x' : ℤ), (y' : ℤ)) ∉ ({(x, y)} : Set (ℤ × ℤ)) := by
      rw [Set.mem_singleton_iff, Prod.mk.injEq]
      omega
    rw [paint_of_notMem hne, hbuf x' y' hx' hy']

/-- **`draw_pixel`** draws one point. -/
lemma drawPixel_draws (x y : ℤ) (color : UInt32) :
    Draws (OnScreen info) (fun buf => drawPixel info buf x y color) {(x, y)}
      fun _ => unpack color :=
  drawPixelBgr_draws hfits x y _ _ _

/-- **`draw_column`** draws a bar with its middle at `x`. -/
lemma drawColumn_draws (x y width length : ℤ) (color : UInt32) :
    Draws (OnScreen info) (fun buf => drawColumn info buf x y width length color)
      (rect (x - width.tdiv 2) y width length) fun _ => unpack color :=
  Draws.rect fun _ _ _ _ _ _ => drawPixel_draws hfits _ _ color

/-- **`draw_row`** draws a bar with its middle at `y`. -/
lemma drawRow_draws (x y width length : ℤ) (color : UInt32) :
    Draws (OnScreen info) (fun buf => drawRow info buf x y width length color)
      (rect x (y - width.tdiv 2) length width) fun _ => unpack color :=
  Draws.rect fun _ _ _ _ _ _ => drawPixel_draws hfits _ _ color

end Draw

/-- The frame of a thickness inside of a rectangle. -/
def border (x y w h thick : ℤ) : Set (ℤ × ℤ) :=
  {p | p ∈ rect x y w h ∧ ((p.1 < x + thick ∨ x + w - thick ≤ p.1) ∨
    p.2 < y + thick ∨ y + h - thick ≤ p.2)}

/-- **`draw_border`** draws the frame of a rectangle. -/
theorem drawBorder_draws {info : ModeInfoBlock} (hfits : info.FitsBuffer) {x y w h thick : ℤ}
    (hw : thick ≤ w) (hh : thick ≤ h) (color : UInt32) :
    Draws (OnScreen info) (fun buf => drawBorder info buf x y w h thick color)
      (border x y w h thick) fun _ => unpack color := by
  have hA := drawRow_draws hfits x (y + thick.tdiv 2) thick w color
  have hD := drawRow_draws hfits x (y + h - thick + thick.tdiv 2) thick w color
  have hB := drawColumn_draws hfits (x + thick.tdiv 2) (y + thick) thick (h - thick * 2) color
  have hC := drawColumn_draws hfits (x + w - thick + thick.tdiv 2) (y + thick) thick
    (h - thick * 2) color
  refine (hA.seq (hD.seq (hB.seq hC))).area fun p => ?_
  simp only [rect, border, Set.mem_union, Set.mem_ofPred_eq]
  omega

end ScratchOs
