import Mathlib.Data.Fin.VecNotation
import ScratchOs.Core.Fields
import ScratchOs.Core.Words

/-!
# Segment descriptors

`set_descriptor` and `init_gdt` of `kernel/segment.c` on one side, and on the other what the CPU
takes out of the eight bytes of a descriptor.  The base and the limit are scattered over the bytes,
and nothing but the processor ever reads them: a slip in between shows only when a segment is used.

* `cpuBase_setDescriptor`, `cpuType_setDescriptor`, `cpuDpl_setDescriptor` — base, type and
  privilege level come back.
* **`lastByte_setDescriptor`** — the limit comes back rounded up to the end of its page.
* `descriptor_decodes_iff` — when the limit that comes back is the one that was asked for.

**The limit** of a descriptor has 20 bits, counted in bytes or in pages by the granularity bit.
`set_descriptor` always counts in pages.  This is right for the flat segments, and for the task
state segment it is not: the segment reaches far past the structure, and with it the place where the
processor looks for the I/O permission map (`iomb_le_lastByte`).

**How it is proved.**  A descriptor is a list of bit fields, and what the processor reads are bits
of the number they make.  `Core/Fields` says where a field is found in such a number, so that each
lemma here is about one field only.
-/

namespace ScratchOs

open Fields Words

/-! ## The program

The descriptor is a structure with a value for each field, and becomes a number by laying the fields
side by side.
-/

/-- `struct Segdesc`, with its fields in the order of the source. -/
structure Segdesc where
  sdLim_15_0 : BitVec 16
  sdBase_15_0 : BitVec 16
  sdBase_23_16 : BitVec 8
  sdType : BitVec 4
  sdS : BitVec 1
  sdDpl : BitVec 2
  sdP : BitVec 1
  sdLim_19_16 : BitVec 4
  sdAvl : BitVec 1
  sdRsv1 : BitVec 1
  sdDb : BitVec 1
  sdG : BitVec 1
  sdBase_31_24 : BitVec 8

/-- The fields of a descriptor, from its first bit to its last. -/
def Segdesc.fields (d : Segdesc) : List Field :=
  [⟨16, d.sdLim_15_0⟩, ⟨16, d.sdBase_15_0⟩, ⟨8, d.sdBase_23_16⟩, ⟨4, d.sdType⟩, ⟨1, d.sdS⟩,
    ⟨2, d.sdDpl⟩, ⟨1, d.sdP⟩, ⟨4, d.sdLim_19_16⟩, ⟨1, d.sdAvl⟩, ⟨1, d.sdRsv1⟩, ⟨1, d.sdDb⟩,
    ⟨1, d.sdG⟩, ⟨8, d.sdBase_31_24⟩]

/-- The eight bytes of a descriptor as one number, least significant byte first. -/
def Segdesc.bits (d : Segdesc) : ℕ := pack d.fields

/-- `set_descriptor`: what it leaves in the descriptor.  Every field is assigned after the
`memset`; an assignment keeps the bits that the field has. -/
def setDescriptor (type dpl base limit : UInt32) : Segdesc where
  sdLim_15_0 := ((limit >>> 12) &&& 0xffff).toBitVec.setWidth 16
  sdLim_19_16 := (limit >>> 28).toBitVec.setWidth 4
  sdBase_15_0 := (base &&& 0xffff).toBitVec.setWidth 16
  sdBase_23_16 := ((base >>> 16) &&& 0xff).toBitVec.setWidth 8
  sdBase_31_24 := (base >>> 24).toBitVec.setWidth 8
  sdType := type.toBitVec.setWidth 4
  sdDpl := dpl.toBitVec.setWidth 2
  sdS := 1
  sdP := 1
  sdAvl := 0
  sdRsv1 := 0
  sdG := 1
  sdDb := 1

/-- `DTR`, the operand of `lgdt`: the last byte of the table, and its address. -/
structure DTR where
  limit : UInt16
  base : UInt32

/-- `struct Taskstate`, with the one field that is not left zero. -/
structure Taskstate where
  tsIomb : UInt16

/-- `sizeof(tss)`, which has no padding. -/
def sizeofTss : UInt32 := 104

/-- What `init_gdt` sets up: the table, the task state, and the operands of `lgdt` and `ltr`. -/
structure Gdt where
  gdt : Fin 4 → Segdesc
  tss : Taskstate
  gdtr : DTR
  tr : UInt16

/-- `init_gdt`, with the addresses of `gdt` and `tss`. -/
def initGdt (gdt tss : UInt32) : Gdt where
  gdt := ![setDescriptor 0 0 0 0,
    setDescriptor (0x8 ||| 0x2) 0 0 0xffffffff,
    setDescriptor (0x2 ||| 0x2) 0 0 0xffffffff,
    { setDescriptor 9 0 tss (sizeofTss - 1) with sdS := 0 }]
  tss := ⟨104⟩
  gdtr := ⟨4 * 8 - 1, gdt⟩
  tr := (3 : UInt16) <<< 3

/-! ## The processor

What the manual of the processor says about the eight bytes, written down without a look at the
structure above.
-/

/-- The base of a segment. -/
def cpuBase (x : ℕ) : UInt32 := ⟨extract 56 8 x ++ extract 32 8 x ++ extract 16 16 x⟩

/-- The limit of a segment, in the unit that the granularity bit selects. -/
def cpuLimit (x : ℕ) : BitVec 20 := extract 48 4 x ++ extract 0 16 x

/-- The granularity bit: the limit counts pages. -/
def cpuGranular (x : ℕ) : Bool := extract 55 1 x == 1

/-- The offset of the last byte of a segment, which is what the limit is compared with. -/
def lastByte (x : ℕ) : UInt32 :=
  let limit : UInt32 := ⟨(cpuLimit x).setWidth 32⟩
  if cpuGranular x then (limit <<< 12) ||| 0xfff else limit

def cpuType (x : ℕ) : BitVec 4 := extract 40 4 x

def cpuDpl (x : ℕ) : BitVec 2 := extract 45 2 x

/-- The processor finds in a descriptor what was asked for. -/
structure Segdesc.Decodes (d : Segdesc) (type dpl base limit : UInt32) : Prop where
  base : cpuBase d.bits = base
  type : (cpuType d.bits).toNat = type.toNat
  dpl : (cpuDpl d.bits).toNat = dpl.toNat
  limit : lastByte d.bits = limit

/-! ## The fields of a descriptor

Where each of the fields is found.  These are instances of one lemma on bit fields, at the offset of
the field.
-/

variable (d : Segdesc)

lemma Segdesc.cpuBase_bits :
    cpuBase d.bits = ⟨d.sdBase_31_24 ++ d.sdBase_23_16 ++ d.sdBase_15_0⟩ := by
  have hlow : extract 16 16 d.bits = d.sdBase_15_0 :=
    extract_getElem d.fields 1 rfl (by simp [fields])
  have hmid : extract 32 8 d.bits = d.sdBase_23_16 :=
    extract_getElem d.fields 2 rfl (by simp [fields])
  have hhigh : extract 56 8 d.bits = d.sdBase_31_24 :=
    extract_getElem d.fields 12 rfl (by simp [fields])
  rw [cpuBase, hlow, hmid, hhigh]

lemma Segdesc.cpuType_bits : cpuType d.bits = d.sdType :=
  extract_getElem d.fields 3 rfl (by simp [fields])

lemma Segdesc.cpuDpl_bits : cpuDpl d.bits = d.sdDpl :=
  extract_getElem d.fields 5 rfl (by simp [fields])

lemma Segdesc.cpuLimit_bits : cpuLimit d.bits = d.sdLim_19_16 ++ d.sdLim_15_0 := by
  have hlow : extract 0 16 d.bits = d.sdLim_15_0 :=
    extract_getElem d.fields 0 rfl (by simp [fields])
  have hhigh : extract 48 4 d.bits = d.sdLim_19_16 :=
    extract_getElem d.fields 7 rfl (by simp [fields])
  rw [cpuLimit, hlow, hhigh]

lemma Segdesc.cpuGranular_bits : cpuGranular d.bits = (d.sdG == 1) := by
  have hg : extract 55 1 d.bits = d.sdG := extract_getElem d.fields 11 rfl (by simp [fields])
  rw [cpuGranular, hg]

/-- The bit that makes a descriptor one of the system does not change the limit. -/
lemma Segdesc.lastByte_system (s : BitVec 1) :
    lastByte { d with sdS := s }.bits = lastByte d.bits := by
  simp only [lastByte, cpuGranular_bits, cpuLimit_bits]

/-- Nor does it change what else is decoded. -/
lemma Segdesc.decodes_system (s : BitVec 1) (type dpl base limit : UInt32) :
    { d with sdS := s }.Decodes type dpl base limit ↔ d.Decodes type dpl base limit := by
  have hbase : cpuBase { d with sdS := s }.bits = cpuBase d.bits := by simp only [cpuBase_bits]
  have htype : cpuType { d with sdS := s }.bits = cpuType d.bits := by simp only [cpuType_bits]
  have hdpl : cpuDpl { d with sdS := s }.bits = cpuDpl d.bits := by simp only [cpuDpl_bits]
  have hlimit := d.lastByte_system s
  constructor
  · intro h
    exact ⟨hbase.symm.trans h.base, (congrArg BitVec.toNat htype).symm.trans h.type,
      (congrArg BitVec.toNat hdpl).symm.trans h.dpl, hlimit.symm.trans h.limit⟩
  · intro h
    exact ⟨hbase.trans h.base, (congrArg BitVec.toNat htype).trans h.type,
      (congrArg BitVec.toNat hdpl).trans h.dpl, hlimit.trans h.limit⟩

/-! ## What comes back

Base, type and privilege level survive for all values.  The limit is what the result is about.
-/

variable (type dpl base limit : UInt32)

/-- **The base** comes back from its three fields. -/
lemma cpuBase_setDescriptor : cpuBase (setDescriptor type dpl base limit).bits = base := by
  have hlow : (base &&& 0xffff).toBitVec.setWidth 16 = base.toBitVec.extractLsb' 0 16 := by
    rw [← setWidth_shiftRight, BitVec.ushiftRight_zero]
    exact setWidth_and_mask rfl
  have hmid : ((base >>> 16) &&& 0xff).toBitVec.setWidth 8 = base.toBitVec.extractLsb' 16 8 := by
    rw [← setWidth_shiftRight]
    exact setWidth_and_mask rfl
  have hhigh : (base >>> 24).toBitVec.setWidth 8 = base.toBitVec.extractLsb' 24 8 :=
    setWidth_shiftRight base.toBitVec 24
  have hupper : base.toBitVec.extractLsb' 24 8 ++ base.toBitVec.extractLsb' 16 8
      = base.toBitVec.extractLsb' 16 16 := BitVec.extractLsb'_append_extractLsb'_eq_extractLsb' rfl
  have hall : base.toBitVec.extractLsb' 16 16 ++ base.toBitVec.extractLsb' 0 16 = base.toBitVec :=
    BitVec.extractLsb'_append_extractLsb'
  rw [Segdesc.cpuBase_bits, ← UInt32.toBitVec_inj]
  show ((base >>> 24).toBitVec.setWidth 8 ++ ((base >>> 16) &&& 0xff).toBitVec.setWidth 8
    ++ (base &&& 0xffff).toBitVec.setWidth 16 : BitVec 32) = base.toBitVec
  rw [hlow, hmid, hhigh, hupper, hall]

/-- **The limit** comes back as the last byte of the page that it lies in. -/
lemma lastByte_setDescriptor :
    (lastByte (setDescriptor type dpl base limit).bits).toNat
      = limit.toNat / 4096 * 4096 + 4095 := by
  have hlow : ((limit >>> 12) &&& 0xffff).toBitVec.setWidth 16
      = limit.toBitVec.extractLsb' 12 16 := by
    rw [← setWidth_shiftRight]
    exact setWidth_and_mask rfl
  have hhigh : (limit >>> 28).toBitVec.setWidth 4 = limit.toBitVec.extractLsb' 28 4 :=
    setWidth_shiftRight limit.toBitVec 28
  have hjoin : limit.toBitVec.extractLsb' 28 4 ++ limit.toBitVec.extractLsb' 12 16
      = limit.toBitVec.extractLsb' 12 20 := BitVec.extractLsb'_append_extractLsb'_eq_extractLsb' rfl
  have hpages : ((limit.toBitVec.extractLsb' 12 20).setWidth 32).toNat = limit.toNat / 4096 := by
    have hlt := toNat_lt limit
    rw [BitVec.toNat_setWidth, BitVec.extractLsb'_toNat, Nat.shiftRight_eq_div_pow]
    show limit.toNat / 2 ^ 12 % 2 ^ 20 % 2 ^ 32 = _
    omega
  have hlimit : lastByte (setDescriptor type dpl base limit).bits
      = ((⟨((limit >>> 28).toBitVec.setWidth 4
        ++ ((limit >>> 12) &&& 0xffff).toBitVec.setWidth 16 : BitVec 20).setWidth 32⟩ : UInt32)
          <<< 12) ||| 0xfff := by
    rw [lastByte, Segdesc.cpuGranular_bits, Segdesc.cpuLimit_bits]
    rfl
  rw [hlimit, hlow, hhigh, hjoin, toNat_shl_or _ _ _ (by decide) (by decide)]
  show ((limit.toBitVec.extractLsb' 12 20).setWidth 32).toNat * 2 ^ 12 % 4294967296 + 4095 = _
  have hlt := toNat_lt limit
  rw [hpages]
  omega

/-- **A limit is the last byte of a page or it is lost.**  The bounds on type and privilege level
are those of their fields; wider values would be cut. -/
lemma setDescriptor_decodes_iff (htype : type.toNat < 16) (hdpl : dpl.toNat < 4) :
    (setDescriptor type dpl base limit).Decodes type dpl base limit
      ↔ limit.toNat % 4096 = 4095 := by
  have hlast := lastByte_setDescriptor type dpl base limit
  constructor
  · intro h
    rw [h.limit] at hlast
    omega
  · intro hpage
    constructor
    · exact cpuBase_setDescriptor type dpl base limit
    · rw [Segdesc.cpuType_bits]
      exact Nat.mod_eq_of_lt htype
    · rw [Segdesc.cpuDpl_bits]
      exact Nat.mod_eq_of_lt hdpl
    · rw [← UInt32.toNat_inj, hlast]
      omega

section Gdt

variable (gdt tss : UInt32)

lemma gdt_code : (initGdt gdt tss).gdt 1 = setDescriptor (0x8 ||| 0x2) 0 0 0xffffffff := rfl

lemma gdt_data : (initGdt gdt tss).gdt 2 = setDescriptor (0x2 ||| 0x2) 0 0 0xffffffff := rfl

lemma gdt_tss :
    (initGdt gdt tss).gdt 3 = { setDescriptor 9 0 tss (sizeofTss - 1) with sdS := 0 } := rfl

/-- The I/O permission map that `init_gdt` means to leave out starts inside of the segment. -/
theorem iomb_le_lastByte :
    (initGdt gdt tss).tss.tsIomb.toNat ≤ (lastByte ((initGdt gdt tss).gdt 3).bits).toNat := by
  rw [gdt_tss, Segdesc.lastByte_system, lastByte_setDescriptor]
  show 104 ≤ 4095
  decide

end Gdt

/-- **Segment descriptors** decode to what was asked for if and only if the limit is the last byte
of a page.  The flat segments of `init_gdt` do, the task state segment does not. -/
theorem descriptor_decodes_iff (htype : type.toNat < 16) (hdpl : dpl.toNat < 4)
    (gdt tss : UInt32) :
    ((setDescriptor type dpl base limit).Decodes type dpl base limit
        ↔ limit.toNat % 4096 = 4095) ∧
      ((initGdt gdt tss).gdt 1).Decodes (0x8 ||| 0x2) 0 0 0xffffffff ∧
      ((initGdt gdt tss).gdt 2).Decodes (0x2 ||| 0x2) 0 0 0xffffffff ∧
      ¬ ((initGdt gdt tss).gdt 3).Decodes 9 0 tss (sizeofTss - 1) := by
  refine ⟨setDescriptor_decodes_iff type dpl base limit htype hdpl, ?_, ?_, ?_⟩
  · rw [gdt_code]
    exact (setDescriptor_decodes_iff _ _ _ _ (by decide) (by decide)).mpr rfl
  · rw [gdt_data]
    exact (setDescriptor_decodes_iff _ _ _ _ (by decide) (by decide)).mpr rfl
  · rw [gdt_tss, Segdesc.decodes_system, setDescriptor_decodes_iff _ _ _ _ (by decide) (by decide)]
    decide

/-- A data segment of sixteen pages, whose limit is the last byte of a page. -/
theorem descriptor_decodes_iff_pages :
    (setDescriptor 2 3 0x12345000 0xffff).Decodes 2 3 0x12345000 0xffff :=
  (descriptor_decodes_iff 2 3 0x12345000 0xffff (by decide) (by decide) 0 0).1.mpr rfl

/-- The task state of 104 bytes gets a segment of 4096. -/
theorem tss_limit_lost :
    lastByte ((initGdt 0x9000 0x8000).gdt 3).bits = 0xfff ∧
      ¬ ((initGdt 0x9000 0x8000).gdt 3).Decodes 9 0 0x8000 103 := by
  have hlast : lastByte ((initGdt 0x9000 0x8000).gdt 3).bits = 0xfff := by decide
  refine ⟨hlast, fun h => ?_⟩
  rw [h.limit] at hlast
  exact absurd hlast (by decide)

end ScratchOs
