import ScratchOs.Kernel.Ranges

/-!
# The frame buffer

`init_video` of `kernel/video.c` keeps the mode block of the BIOS and maps the frame buffer with one
more call of `mm_continous_map` on the kernel directory.  It is the second thing at boot that maps
memory, after `init_page`, and what the game draws is seen only if both have done their part.

* `MapCall.identity_of_slot` — a call that starts a slot and asks for the address itself maps to
  itself everything up to its end, a last partial page included: from 4 MB on the inner loop fills
  the tables completely.
* **`initVideo_spec`** — after `init_page` the call succeeds.
* **`frame_buffer_mapped`** — what the two calls at boot leave.

**What is assumed** is collected in `ModeInfoBlock.FromBios`: the BIOS puts the frame buffer at the
start of a slot and above the memory of the machine.  The first is what makes the mapping right,
since the tables are filled from entry 0 whatever the address; the second keeps it clear of what
`init_page` has mapped.  That the stores of the call reach the tables is a question of its own,
which `Kernel/Writable` answers.
-/

namespace ScratchOs

/-- `ModeInfoBlock`, with the fields the code says it cares about. -/
structure ModeInfoBlock where
  pitch : UInt16
  Xres : UInt16
  Yres : UInt16
  physbase : UInt32

/-- The two variables of the file, `mode_info` and `vmem`. -/
structure Video where
  modeInfo : ModeInfoBlock
  vmem : UInt32

/-- The size that is asked for, `mode_info.Yres * mode_info.pitch`. -/
def ModeInfoBlock.size (info : ModeInfoBlock) : UInt32 :=
  info.Yres.toUInt32 * info.pitch.toUInt32

/-- `init_video`, from the block at `0xf000`, where the loader has left it. -/
def initVideo (k : Kernel) (info : ModeInfoBlock) : Except Panic Video × Kernel :=
  let vmem := info.physbase
  match mmContinousMap k k.kpgdir vmem vmem info.size with
  | (.error e, k) => (.error e, k)
  | (.ok (), k) => (.ok ⟨info, vmem⟩, k)

section Slot

variable {mem : PhysMem} {pgdir : Frame} {A : AddrSpace} {p size x : UInt32}

/-- **A call that starts a slot** above slot 0 maps its range to itself.  In slot 0 the inner
loop stops at the last page, in all others it does not. -/
lemma MapCall.identity_of_slot (hp : p.toNat % 4194304 = 0) (hpos : 4194304 ≤ p.toNat)
    (hpend : p.toNat + size.toNat < 4294967296)
    (hspace : translate mem pgdir = (MapCall.mk p p size).after A) (hlo : p.toNat ≤ x.toNat)
    (hhi : x.toNat < p.toNat + size.toNat) : walkAddr mem pgdir x = some x := by
  have hpage : p.toNat % 4096 = 0 := by omega
  have hend : (MapCall.mk p p size).mapEnd.toNat = (p.toNat + size.toNat) / 4096 * 4096 := by
    rw [MapCall.toNat_mapEnd]
    show ((roundup p).toNat + size.toNat) % 4294967296 / 4096 * 4096 = _
    rw [toNat_roundup_of_aligned hpage, Nat.mod_eq_of_lt hpend]
  have hbuilt : (MapCall.mk p p size).Rebuilds x := by
    rw [MapCall.Rebuilds, MapCall.Touches, MapCall.rounds, dir_val, dirBeg_of_aligned hpage, hend]
    omega
  rw [walkAddr_rebuilt hspace hbuilt, MapCall.filled_mapEnd, hend, base_of_aligned hpage,
    dirBeg_of_aligned hpage]
  refine ⟨rfl, ?_, by omega⟩
  rw [Nat.min_eq_left (by omega)]
  exact Nat.mod_lt _ (by decide)

end Slot

/-- What is assumed of the BIOS: the frame buffer starts a slot above the memory of the machine,
and neither its size nor its end overflows. -/
structure ModeInfoBlock.FromBios (info : ModeInfoBlock) : Prop where
  slot : info.physbase.toNat % 4194304 = 0
  above : 0x8000000 ≤ info.physbase.toNat
  size : info.Yres.toNat * info.pitch.toNat < 2147483648
  fits : info.physbase.toNat + info.Yres.toNat * info.pitch.toNat < 4294967296

/-- The product of two half words is a word, so that the multiplication in the code does not
overflow. -/
lemma ModeInfoBlock.toNat_size (info : ModeInfoBlock) :
    info.size.toNat = info.Yres.toNat * info.pitch.toNat := by
  have hlines : info.Yres.toNat < 65536 := info.Yres.toNat_lt
  have hpitch : info.pitch.toNat < 65536 := info.pitch.toNat_lt
  have hlt : info.Yres.toNat * info.pitch.toNat < 65536 * 65536 :=
    Nat.mul_lt_mul'' hlines hpitch
  rw [ModeInfoBlock.size, UInt32.toNat_mul]
  exact Nat.mod_eq_of_lt hlt

/-- The call of `mm_continous_map` in `init_video`. -/
def ModeInfoBlock.call (info : ModeInfoBlock) : MapCall := ⟨info.physbase, info.physbase, info.size⟩

section Call

variable {info : ModeInfoBlock} (h : info.FromBios)
include h

lemma ModeInfoBlock.dirBeg_call : info.call.dirBeg = info.physbase.toNat / 4194304 :=
  dirBeg_of_aligned (by have := h.slot; omega)

/-- The frame buffer needs 513 tables at most, for less than 2 GB and a slot that is only partly
used. -/
lemma ModeInfoBlock.rounds_call_le : info.call.rounds ≤ 513 := by
  have hslot := h.slot
  have hsize := h.size
  have hround : (roundup info.physbase).toNat = info.physbase.toNat :=
    toNat_roundup_of_aligned (by omega)
  rw [MapCall.rounds, MapCall.toNat_mapEnd, MapCall.dirBeg]
  show ((roundup info.physbase).toNat + info.size.toNat) % 4294967296 / 4096 * 4096 / 4194304 + 1
    - (roundup info.physbase).toNat / 4194304 ≤ 513
  rw [hround, info.toNat_size, Nat.mod_eq_of_lt h.fits]
  omega

end Call

/-- **`init_video` after `init_page`** finds a free page for each table of the frame buffer. -/
lemma initVideo_spec (k : Kernel) {kernEnd : UInt32} {info : ModeInfoBlock}
    (himage : ImageFits kernEnd) (hbios : info.FromBios) :
    ∃ k₁ k₂, initPage k kernEnd = some (.ok (), k₁) ∧
      initVideo k₁ info = (.ok ⟨info, info.physbase⟩, k₂) ∧ SameRegs k₁ k₂ ∧
        translate k₂.mem k₁.kpgdir = info.call.after (translate k₁.mem k₁.kpgdir) := by
  obtain ⟨k₁, hpage, hboot⟩ := initPage_spec k himage.bootPages_le
  obtain ⟨k₂, hcall, -, hregs, hspace⟩ := mmContinousMap_spec info.call hboot.directory <| by
    have hnat := himage.toNat
    have hrounds := ModeInfoBlock.rounds_call_le hbios
    rw [length_freePages, bootPages, himage.nrKernelPage_eq, bootCall_rounds]
    show _ ≤ 32768 - _
    omega
  refine ⟨k₁, k₂, hpage, ?_, hregs, hspace⟩
  rw [MapCall.run] at hcall
  rw [initVideo]
  simp only [show mmContinousMap k₁ k₁.kpgdir info.physbase info.physbase info.size = _ from hcall]

/-- **The two calls at boot.**  After `init_page` and `init_video` every byte of the frame buffer
is mapped to itself, and below 128 MB nothing has changed since `init_page`. -/
theorem frame_buffer_mapped (k : Kernel) (kernEnd : UInt32) (info : ModeInfoBlock)
    (himage : ImageFits kernEnd) (hbios : info.FromBios) :
    ∃ k₁ k₂ video, initPage k kernEnd = some (.ok (), k₁) ∧ initVideo k₁ info = (.ok video, k₂) ∧
      (∀ x : UInt32, info.physbase.toNat ≤ x.toNat →
        x.toNat < info.physbase.toNat + info.Yres.toNat * info.pitch.toNat →
          walkAddr k₂.mem k₂.kpgdir x = some x) ∧
      ∀ x : UInt32, x.toNat < 0x8000000 →
        walkAddr k₂.mem k₂.kpgdir x = walkAddr k₁.mem k₁.kpgdir x := by
  obtain ⟨k₁, k₂, hpage, hvideo, hregs, hspace⟩ := initVideo_spec k himage hbios
  have hsize := info.toNat_size
  refine ⟨k₁, k₂, ⟨info, info.physbase⟩, hpage, hvideo, ?_, ?_⟩
  · intro x hlo hhi
    rw [hregs.kpgdir]
    rw [← hsize] at hhi
    exact MapCall.identity_of_slot hbios.slot (Nat.le_trans (by decide) hbios.above)
      (hsize ▸ hbios.fits) hspace hlo hhi
  · -- the slots of the first 128 MB are not the ones the second call rebuilds
    intro x hx
    rw [hregs.kpgdir]
    refine walkAddr_kept hspace fun hbuilt => ?_
    have hlo := hbuilt.1
    have habove := hbios.above
    rw [ModeInfoBlock.dirBeg_call hbios, dir_val] at hlo
    omega

/-- The target's mode, 800 × 600 with 2400 bytes to the line: the last byte of the buffer, in its
partial last page. -/
theorem frame_buffer_mapped_target :
    ∃ k₁ k₂ video, initPage Kernel.blank 0x420000 = some (.ok (), k₁) ∧
      initVideo k₁ ⟨2400, 800, 600, 0xfd000000⟩ = (.ok video, k₂) ∧
      walkAddr k₂.mem k₂.kpgdir 0xfd15f8ff = some 0xfd15f8ff := by
  obtain ⟨k₁, k₂, video, hpage, hvideo, hmapped, -⟩ :=
    frame_buffer_mapped Kernel.blank 0x420000 ⟨2400, 800, 600, 0xfd000000⟩ (by decide)
      ⟨by decide, by decide, by decide, by decide⟩
  exact ⟨k₁, k₂, video, hpage, hvideo, hmapped 0xfd15f8ff (by decide) (by decide)⟩

end ScratchOs
