import ScratchOs.Core.Memory
import ScratchOs.Kernel.Draw

/-!
# The bytes of the screen

What the drawing functions of `kernel/video.c` do to `vmem_buffer` byte by byte, and what
`update_screen` does to the memory.  `Kernel/Draw` speaks of what is shown.  Here it is about the
bytes that show nothing, such as those at the end of a line, and about the bytes that are not in the
buffer at all.

* `drawPixel_keeps_frame` — the bytes that belong to no pixel of the screen stay.
* **`border_painted`** — `draw_border`, byte by byte.
* `draws_safe_iff` — drawing stays inside of the buffer when the last pixel does.
* **`drawing_safe_iff`** — what the mode has to be for drawing and updating to be safe.

**Both directions** of the last result matter.  The buffer has the size of one mode, 800 × 600 with
three bytes to the pixel, while the code takes whatever mode the BIOS reports.  A mode with longer
lines overruns the buffer, and one with a smaller frame buffer has `update_screen` copy past its
mapping.
-/

namespace ScratchOs

open Bytes Canvas Memory Runs

/-! ## The program

The rest of the functions, and a name for any call of one of those that draw.
-/

/-- `update_screen`, which copies the whole buffer whatever the mode is. -/
def updateScreen (video : Video) (buf : VmemBuffer) (mem : Mem) : Mem := copy mem video.vmem buf

/-- A call of one of the drawing functions. -/
inductive DrawCall
  | pixel (x y : ℤ) (color : UInt32)
  | row (x y width length : ℤ) (color : UInt32)
  | column (x y width length : ℤ) (color : UInt32)
  | border (x y w h thick : ℤ) (color : UInt32)

/-- What a call does to the buffer. -/
def DrawCall.run (info : ModeInfoBlock) (buf : VmemBuffer) : DrawCall → Option VmemBuffer
  | pixel x y color => drawPixel info buf x y color
  | row x y width length color => drawRow info buf x y width length color
  | column x y width length color => drawColumn info buf x y width length color
  | border x y w h thick color => drawBorder info buf x y w h thick color

/-! ## Everything is drawn by pixels

So a property of the buffer that a pixel keeps is kept by every call.  The frame and the bounds
below are two such properties.
-/

section Keeps

variable {info : ModeInfoBlock} {I : VmemBuffer → Prop}
  (hpixel : ∀ x y color, Keeps I fun buf => drawPixel info buf x y color)
include hpixel

lemma drawRow_keeps (x y width length : ℤ) (color : UInt32) :
    Keeps I fun buf => drawRow info buf x y width length color :=
  Keeps.forTo (fun offY => Keeps.forTo (fun offX =>
    hpixel (x + offX) (y - width.tdiv 2 + offY) color) length) width

lemma drawColumn_keeps (x y width length : ℤ) (color : UInt32) :
    Keeps I fun buf => drawColumn info buf x y width length color :=
  Keeps.forTo (fun offY => Keeps.forTo (fun offX =>
    hpixel (x - width.tdiv 2 + offX) (y + offY) color) width) length

lemma drawBorder_keeps (x y w h thick : ℤ) (color : UInt32) :
    Keeps I fun buf => drawBorder info buf x y w h thick color := by
  have hA := drawRow_keeps hpixel x (y + thick.tdiv 2) thick w color
  have hD := drawRow_keeps hpixel x (y + h - thick + thick.tdiv 2) thick w color
  have hB := drawColumn_keeps hpixel (x + thick.tdiv 2) (y + thick) thick (h - thick * 2) color
  have hC := drawColumn_keeps hpixel (x + w - thick + thick.tdiv 2) (y + thick) thick
    (h - thick * 2) color
  exact hA.seq (hD.seq (hB.seq hC))

/-- **A call keeps what a pixel keeps.** -/
lemma DrawCall.run_keeps (call : DrawCall) : Keeps I fun buf => call.run info buf := by
  cases call with
  | pixel x y color => exact hpixel x y color
  | row x y width length color => exact drawRow_keeps hpixel x y width length color
  | column x y width length color => exact drawColumn_keeps hpixel x y width length color
  | border x y w h thick color => exact drawBorder_keeps hpixel x y w h thick color

end Keeps

/-! ## Byte by byte

What is seen on the screen, and everything else in the buffer.
-/

/-- A byte belongs to a pixel when it is one of its three. -/
def OfPixel (info : ModeInfoBlock) (x y i : ℕ) : Prop :=
  y * info.pitch.toNat + x * 3 ≤ i ∧ i < y * info.pitch.toNat + x * 3 + 3

/-- A pixel is its three bytes: where the pixel is the same, so are they. -/
lemma byteAt_eq_of_pixelAt {info : ModeInfoBlock} {buf buf' : VmemBuffer} {x y i : ℕ}
    (h : pixelAt info buf' x y = pixelAt info buf x y) (hi : OfPixel info x y i) :
    byteAt buf' i = byteAt buf i := by
  obtain ⟨d, rfl⟩ := Nat.exists_eq_add_of_le hi.1
  have hd : d < 3 := by
    have hhi := hi.2
    omega
  simp only [pixelAt, Bgr.mk.injEq] at h
  rcases show d = 0 ∨ d = 1 ∨ d = 2 by omega with rfl | rfl | rfl
  · exact h.1
  · exact h.2.1
  · exact h.2.2

section Fits

variable {info : ModeInfoBlock} (hfits : info.FitsBuffer)
include hfits

/-- **`draw_pixel`** writes to the bytes of pixels of the screen only. -/
lemma drawPixel_keeps_frame (buf₀ : VmemBuffer) (x y : ℤ) (color : UInt32) :
    Keeps (fun buf => ∀ i, (∀ px < info.Xres.toNat, ∀ py < info.Yres.toNat,
        ¬ OfPixel info px py i) → byteAt buf i = byteAt buf₀ i)
      fun buf => drawPixel info buf x y color := by
  intro buf hbuf
  rcases pixel_or_out info x y with ⟨px, py, rfl, rfl, hx, hy⟩ | hout
  · have hok := drawPixel_onScreen buf hx hy color
    rw [if_pos (pixel_le hfits hx hy)] at hok
    refine ⟨_, hok, fun i hi => ?_⟩
    have hout := hi px hx py hy
    rw [OfPixel] at hout
    rw [byteAt_write_of_disjoint _ _ _ (by simp only [List.length_cons, List.length_nil]; omega)]
    exact hbuf i hi
  · exact ⟨buf, if_neg hout, hbuf⟩

/-- **`draw_border` byte by byte.**  The pixels of the screen on the inner frame of the rectangle
get the colour, and every byte that belongs to none of them stays. -/
theorem border_painted {x y w h thick : ℤ} (hw : thick ≤ w) (hh : thick ≤ h) (color : UInt32)
    (buf : VmemBuffer) :
    ∃ buf', drawBorder info buf x y w h thick color = some buf' ∧
      (∀ px < info.Xres.toNat, ∀ py < info.Yres.toNat,
        ((px : ℤ), (py : ℤ)) ∈ border x y w h thick →
          pixelAt info buf' px py = unpack color) ∧
      ∀ i < 1440000, (∀ px < info.Xres.toNat, ∀ py < info.Yres.toNat,
        ((px : ℤ), (py : ℤ)) ∈ border x y w h thick → ¬ OfPixel info px py i) →
          byteAt buf' i = byteAt buf i := by
  have hshown : OnScreen info buf fun p => pixelAt info buf p.1.toNat p.2.toNat :=
    fun _ _ _ _ => rfl
  obtain ⟨buf', hok, hdrawn⟩ := drawBorder_draws hfits hw hh color buf _ hshown
  obtain ⟨buf'', hok', hframe⟩ :=
    drawBorder_keeps (drawPixel_keeps_frame hfits buf) x y w h thick color buf fun _ _ => rfl
  obtain rfl : buf' = buf'' := Option.some.inj (hok.symm.trans hok')
  refine ⟨buf', hok, ?_, ?_⟩
  · intro px hx py hy hmem
    rw [hdrawn px py hx hy, paint_of_mem hmem]
  · intro i _ hi
    -- a byte of a pixel that is not on the frame, or one of no pixel
    by_cases hon : ∃ px < info.Xres.toNat, ∃ py < info.Yres.toNat, OfPixel info px py i
    · obtain ⟨px, hx, py, hy, hof⟩ := hon
      have hnot : ((px : ℤ), (py : ℤ)) ∉ border x y w h thick :=
        fun hmem => hi px hx py hy hmem hof
      refine byteAt_eq_of_pixelAt ?_ hof
      rw [hdrawn px py hx hy, paint_of_notMem hnot]
      rfl
    · exact hframe i fun px hx py hy hof => hon ⟨px, hx, py, hy, hof⟩

end Fits

/-- A frame of thickness 3 in a rectangle of height 4 that hangs off the left edge of the screen:
its area is the whole rectangle. -/
theorem border_painted_thick :
    ∃ buf', drawBorder ⟨2400, 800, 600, 0xfd000000⟩ (fill 1440000 7) (-2) 0 5 4 3 0x102030
        = some buf' ∧
      pixelAt ⟨2400, 800, 600, 0xfd000000⟩ buf' 2 1 = ⟨0x10, 0x20, 0x30⟩ ∧
      byteAt buf' 9 = 7 := by
  obtain ⟨buf', hok, hinside, houtside⟩ :=
    @border_painted ⟨2400, 800, 600, 0xfd000000⟩ ⟨by decide, by decide⟩ (-2) 0 5 4 3 (by decide)
      (by decide) 0x102030 (fill 1440000 7)
  refine ⟨buf', hok, ?_, ?_⟩
  · rw [hinside 2 (by decide) 1 (by decide) (by simp [border, rect])]
    decide
  · rw [houtside 9 (by decide) ?_, byteAt_fill 7 (by decide)]
    intro px hx py hy hmem hof
    simp only [border, rect, Set.mem_ofPred_eq] at hmem
    have hpitch : (2400 : UInt16).toNat = 2400 := rfl
    simp only [OfPixel, hpitch] at hof
    omega

/-! ## Which modes are safe

The condition is necessary as well: where the last pixel ends behind the buffer, drawing that one
pixel is enough to leave it.
-/

section Safe

variable {info : ModeInfoBlock}

/-- The last pixel of the screen ends inside of the buffer, if there is one. -/
def ModeInfoBlock.LastPixelFits (info : ModeInfoBlock) : Prop :=
  info.Xres = 0 ∨ info.Yres = 0 ∨
    (info.Yres.toNat - 1) * info.pitch.toNat + 3 * info.Xres.toNat ≤ 800 * 600 * 3

/-- No pixel ends behind the last one. -/
lemma pixel_le_of_lastPixel (h : info.LastPixelFits) {px py : ℕ} (hx : px < info.Xres.toNat)
    (hy : py < info.Yres.toNat) : py * info.pitch.toNat + px * 3 + 3 ≤ 1440000 := by
  rcases h with hzero | hzero | hlast
  · rw [hzero] at hx
    exact absurd hx (Nat.not_lt_zero px)
  · rw [hzero] at hy
    exact absurd hy (Nat.not_lt_zero py)
  · have hlines : py * info.pitch.toNat ≤ (info.Yres.toNat - 1) * info.pitch.toNat :=
      Nat.mul_le_mul_right _ (by omega)
    omega

/-- `draw_pixel` never leaves the buffer when the last pixel is inside. -/
lemma drawPixel_keeps (h : info.LastPixelFits) (x y : ℤ) (color : UInt32) :
    Keeps (fun _ => True) fun buf => drawPixel info buf x y color := by
  intro buf _
  rcases pixel_or_out info x y with ⟨px, py, rfl, rfl, hx, hy⟩ | hout
  · have hok := drawPixel_onScreen buf hx hy color
    rw [if_pos (pixel_le_of_lastPixel h hx hy)] at hok
    exact ⟨_, hok, trivial⟩
  · exact ⟨buf, if_neg hout, trivial⟩

/-- **Drawing stays inside of `vmem_buffer`**, whatever is called, if and only if the last pixel of
the screen is inside of it. -/
lemma draws_safe_iff :
    (∀ (calls : List DrawCall) (buf : VmemBuffer),
      ∃ buf', calls.foldlM (DrawCall.run info) buf = some buf') ↔ info.LastPixelFits := by
  constructor
  · intro hall
    by_cases hempty : info.Xres = 0 ∨ info.Yres = 0
    · rcases hempty with hx | hy
      · exact Or.inl hx
      · exact Or.inr (Or.inl hy)
    · have hx : info.Xres.toNat ≠ 0 := fun e => hempty (Or.inl (UInt16.toNat_inj.mp e))
      have hy : info.Yres.toNat ≠ 0 := fun e => hempty (Or.inr (UInt16.toNat_inj.mp e))
      have hon := @drawPixel_onScreen info (fill 1440000 0) (info.Xres.toNat - 1)
        (info.Yres.toNat - 1) (by omega) (by omega) 0
      -- the call that draws the last pixel
      obtain ⟨buf', hrun⟩ := hall [.pixel (info.Xres.toNat - 1 : ℕ) (info.Yres.toNat - 1 : ℕ) 0]
        (fill 1440000 0)
      rw [List.foldlM_cons] at hrun
      rcases Option.bind_eq_some_iff.mp hrun with ⟨buf₁, hpixel, -⟩
      refine Or.inr (Or.inr ?_)
      by_contra hout
      rw [if_neg (by omega)] at hon
      cases hpixel.symm.trans hon
  · intro hlast calls buf
    have hcall := fun call => DrawCall.run_keeps (drawPixel_keeps hlast) call
    obtain ⟨buf', hok, -⟩ := Keeps.foldlM hcall calls buf trivial
    exact ⟨buf', hok⟩

end Safe

/-- The addresses that `init_video` asks to map. -/
def Video.Mapped (video : Video) (a : UInt32) : Prop :=
  Within video.modeInfo.physbase video.modeInfo.size.toNat a

/-- **Updating the screen** writes to mapped addresses only if and only if the buffer is no longer
than the frame buffer. -/
lemma updates_safe_iff {video : Video} (hbase : video.vmem = video.modeInfo.physbase) :
    (∀ buf mem a, ¬ video.Mapped a → updateScreen video buf mem a = mem a)
      ↔ 800 * 600 * 3 ≤ video.modeInfo.size.toNat := by
  constructor
  · intro hall
    by_contra hsmall
    have hlt : video.modeInfo.size.toNat < 1440000 := by omega
    -- the first byte behind the frame buffer
    let a := video.vmem + UInt32.ofNat video.modeInfo.size.toNat
    have hdist : (a - video.vmem).toNat = video.modeInfo.size.toNat :=
      toNat_add_sub _ (by omega)
    have hwithin : Within video.vmem 1440000 a := by
      rw [Within, hdist]
      exact hlt
    have hout : ¬ video.Mapped a := by
      rw [Video.Mapped, ← hbase, Within, hdist]
      exact Nat.lt_irrefl _
    have hwritten := hall (fill 1440000 1) (fun _ => 0) a hout
    rw [updateScreen, copy_of_within _ _ hwithin, byteAt_fill 1 hwithin] at hwritten
    exact absurd hwritten (by decide)
  · intro hlarge buf mem a hout
    refine copy_of_not_within mem buf fun hin => hout ?_
    rw [Video.Mapped, ← hbase]
    exact Nat.lt_of_lt_of_le hin hlarge

/-- `init_video` keeps the block, and its `physbase` as the address of the frame buffer. -/
lemma initVideo_ok {k k' : Kernel} {info : ModeInfoBlock} {video : Video}
    (h : initVideo k info = (.ok video, k')) : video = ⟨info, info.physbase⟩ := by
  simp only [initVideo] at h
  split at h
  · cases h
  · cases h
    rfl

/-- **Drawing and updating are safe** if and only if the last pixel of the screen is inside of
`vmem_buffer`, and `vmem_buffer` is no longer than the frame buffer. -/
theorem drawing_safe_iff {k k' : Kernel} {info : ModeInfoBlock} {video : Video}
    (hvideo : initVideo k info = (.ok video, k')) :
    ((∀ (calls : List DrawCall) (buf : VmemBuffer),
        ∃ buf', calls.foldlM (DrawCall.run video.modeInfo) buf = some buf') ∧
      ∀ buf mem a, ¬ video.Mapped a → updateScreen video buf mem a = mem a) ↔
    ((info.Xres = 0 ∨ info.Yres = 0 ∨
        (info.Yres.toNat - 1) * info.pitch.toNat + 3 * info.Xres.toNat ≤ 800 * 600 * 3) ∧
      800 * 600 * 3 ≤ info.Yres.toNat * info.pitch.toNat) := by
  obtain rfl := initVideo_ok hvideo
  rw [draws_safe_iff, updates_safe_iff rfl, info.toNat_size]
  rfl

/-- The mode of the target, 800 × 600 with 2400 bytes to the line, where both are safe. -/
theorem drawing_safe_iff_target :
    ∃ k₁ k₂ video, initPage Kernel.blank 0x420000 = some (.ok (), k₁) ∧
      initVideo k₁ ⟨2400, 800, 600, 0xfd000000⟩ = (.ok video, k₂) ∧
      (∀ (calls : List DrawCall) (buf : VmemBuffer),
        ∃ buf', calls.foldlM (DrawCall.run video.modeInfo) buf = some buf') ∧
      ∀ buf mem a, ¬ video.Mapped a → updateScreen video buf mem a = mem a := by
  obtain ⟨k₁, k₂, hpage, hvideo, -, -⟩ :=
    @initVideo_spec Kernel.blank 0x420000 ⟨2400, 800, 600, 0xfd000000⟩ (by decide)
      ⟨by decide, by decide, by decide, by decide⟩
  exact ⟨k₁, k₂, _, hpage, hvideo, (drawing_safe_iff hvideo).mpr (by decide)⟩

/-- The same mode with four bytes to the pixel, 3200 to the line: the last pixel of the screen is
stored behind the buffer. -/
theorem drawing_unsafe :
    ∃ k₁ k₂ video, initPage Kernel.blank 0x420000 = some (.ok (), k₁) ∧
      initVideo k₁ ⟨3200, 800, 600, 0xfd000000⟩ = (.ok video, k₂) ∧
      DrawCall.run video.modeInfo (fill 1440000 0) (.pixel 799 599 0) = none := by
  obtain ⟨k₁, k₂, hpage, hvideo, -, -⟩ :=
    @initVideo_spec Kernel.blank 0x420000 ⟨3200, 800, 600, 0xfd000000⟩ (by decide)
      ⟨by decide, by decide, by decide, by decide⟩
  refine ⟨k₁, k₂, _, hpage, hvideo, ?_⟩
  have hon := @drawPixel_onScreen ⟨3200, 800, 600, 0xfd000000⟩ (fill 1440000 0) 799 599
    (by decide) (by decide) 0
  rw [if_neg (by decide)] at hon
  exact hon

end ScratchOs
