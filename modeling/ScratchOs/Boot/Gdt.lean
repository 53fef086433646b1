import ScratchOs.Kernel.Segment

/-!
# The bootstrap descriptor table

The table that `boot/boot.S` loads before it switches to protected mode, with the assembler's `SEG`
of `inc/mmu.h`, which writes out the bytes of a descriptor that `set_descriptor` of the kernel puts
together from bit fields.  The same eight bytes are made in two places and in two languages, and the
processor works with the one while the other is being made.

* `seg_eq_setDescriptor` — the two make the same descriptor.
* **`seg_decodes`** — the processor reads in it what the macro was given.
* `bootGdt_kernel` — so the kernel's own table keeps the meaning of the selectors that are loaded
  when it takes over.
* `bootGdt_flat` — and addresses are what they were in real mode.

The bits of a type that are beyond its field are assumed to be 0.  The macro would put them into the
fields next to it, where the bit field of the kernel cuts them off.
-/

namespace ScratchOs

open Fields Words

/-! ## The program

The directives and the macros of the assembler, as lists of bytes.
-/

/-- `.word` of the assembler, least significant byte first. -/
def asmWord (v : UInt32) : List UInt8 := [v.toUInt8, (v >>> 8).toUInt8]

/-- `.byte` of the assembler, which keeps the low byte of its value. -/
def asmByte (v : UInt32) : List UInt8 := [v.toUInt8]

/-- `SEG_NULL` of the assembler. -/
def segNull : List UInt8 :=
  asmWord 0 ++ asmWord 0 ++ asmByte 0 ++ asmByte 0 ++ asmByte 0 ++ asmByte 0

/-- `SEG` of the assembler. -/
def seg (type base lim : UInt32) : List UInt8 :=
  asmWord ((lim >>> 12) &&& 0xffff) ++ asmWord (base &&& 0xffff) ++
    asmByte ((base >>> 16) &&& 0xff) ++ asmByte (0x90 ||| type) ++
    asmByte ((0xC0 : UInt32) ||| ((lim >>> 28) &&& 0xf)) ++ asmByte ((base >>> 24) &&& 0xff)

/-- `gdt` of `boot.S`: nothing, code, data. -/
def bootGdt : List UInt8 := segNull ++ seg (0x8 ||| 0x2) 0 0xffffffff ++ seg 0x2 0 0xffffffff

/-- `PROT_MODE_CSEG` -/
abbrev protModeCseg : ℕ := 0x8

/-- `PROT_MODE_DSEG` -/
abbrev protModeDseg : ℕ := 0x10

/-! ## The descriptors in it

Both descriptors as one number.  The bytes cut it every 8 bits and the fields where they end, so
that it is a matter of arithmetic that they agree.
-/

/-- Bytes as one number, least significant byte first. -/
def bitsOfBytes (l : List UInt8) : ℕ := pack (l.map fun b => ⟨8, b.toBitVec⟩)

/-- What the CPU fetches for a selector of a table. -/
def descriptorAt (table : List UInt8) (selector : ℕ) : ℕ :=
  bitsOfBytes ((table.drop (selector / 8 * 8)).take 8)

section Seg

variable (type base lim : UInt32)

/-- The byte with the type, and with what the macro puts above it. -/
lemma toNat_type (h : type.toNat < 16) : (0x90 ||| type).toUInt8.toNat = 144 + type.toNat := by
  have hall : ∀ k : Fin 16, (144 ||| k.val) % 256 = 144 + k.val := by decide
  rw [UInt32.toNat_toUInt8, UInt32.toNat_or]
  exact hall ⟨type.toNat, h⟩

/-- The byte with the top of the limit, and with what the macro puts above it. -/
lemma toNat_limit :
    ((0xC0 : UInt32) ||| ((lim >>> 28) &&& 0xf)).toUInt8.toNat
      = 192 + lim.toNat / 268435456 := by
  have hall : ∀ k : Fin 16, (192 ||| k.val) % 256 = 192 + k.val := by decide
  have hlt := lim.toNat_lt
  have htop : ((lim >>> 28) &&& 0xf).toNat = lim.toNat / 268435456 := by
    rw [toNat_mask _ 0xf 4 rfl, toNat_shr _ _ (by decide)]
    show lim.toNat / 268435456 % 16 = _
    omega
  rw [UInt32.toNat_toUInt8, UInt32.toNat_or, htop]
  exact hall ⟨lim.toNat / 268435456, by omega⟩

/-- The eight bytes and the fields, put together to the same number. -/
lemma sum_bytes_fields {l b m t n h : ℕ} (hl : l < 2 ^ 16) (hb : b < 2 ^ 16) (hm : m < 2 ^ 8)
    (ht : t < 2 ^ 4) (hn : n < 2 ^ 4) (hh : h < 2 ^ 8) :
    l % 2 ^ 8 + 2 ^ 8 * (l / 256 % 2 ^ 8 + 2 ^ 8 * (b % 2 ^ 8 + 2 ^ 8 * (b / 256 % 2 ^ 8 + 2 ^ 8 *
        (m % 2 ^ 8 + 2 ^ 8 * (144 + t + 2 ^ 8 * (192 + n + 2 ^ 8 * (h % 2 ^ 8 + 2 ^ 8 * 0)))))))
      = l % 2 ^ 16 + 2 ^ 16 * (b % 2 ^ 16 + 2 ^ 16 * (m % 2 ^ 8 + 2 ^ 8 * (t % 2 ^ 4 + 2 ^ 4 *
        (1 + 2 ^ 1 * (0 % 2 ^ 2 + 2 ^ 2 * (1 + 2 ^ 1 * (n % 2 ^ 4 + 2 ^ 4 * (0 + 2 ^ 1 * (0 + 2 ^ 1 *
          (1 + 2 ^ 1 * (1 + 2 ^ 1 * (h % 2 ^ 8 + 2 ^ 8 * 0)))))))))))) := by
  rw [Nat.mod_eq_of_lt hl, Nat.mod_eq_of_lt hb, Nat.mod_eq_of_lt hm, Nat.mod_eq_of_lt ht,
    Nat.mod_eq_of_lt hn, Nat.mod_eq_of_lt hh]
  omega

/-- **The assembler's descriptor is the kernel's**, for every type that has four bits. -/
lemma seg_eq_setDescriptor (h : type.toNat < 16) :
    bitsOfBytes (seg type base lim) = (setDescriptor type 0 base lim).bits := by
  have hlim := lim.toNat_lt
  have hlt := base.toNat_lt
  have htype := toNat_type type h
  have hlimit := toNat_limit lim
  have hlow : ((lim >>> 12) &&& 0xffff).toNat = lim.toNat / 4096 % 65536 := by
    rw [toNat_mask _ 0xffff 16 rfl, toNat_shr _ _ (by decide)]
    rfl
  have hbase : (base &&& 0xffff).toNat = base.toNat % 65536 := toNat_mask _ _ 16 rfl
  have hmid : ((base >>> 16) &&& 0xff).toNat = base.toNat / 65536 % 256 := by
    rw [toNat_mask _ 0xff 8 rfl, toNat_shr _ _ (by decide)]
    rfl
  have hhigh : ((base >>> 24) &&& 0xff).toNat = base.toNat / 16777216 := by
    rw [toNat_mask _ 0xff 8 rfl, toNat_shr _ _ (by decide)]
    show base.toNat / 16777216 % 256 = _
    omega
  have height : ∀ v : UInt32, (v >>> 8).toNat = v.toNat / 256 := fun v => toNat_shr v 8 (by decide)
  have hlimit' : (lim >>> 28).toNat = lim.toNat / 268435456 := toNat_shr lim 28 (by decide)
  have hbase' : (base >>> 24).toNat = base.toNat / 16777216 := toNat_shr base 24 (by decide)
  have hone : BitVec.toNat (1 : BitVec 1) = 1 := rfl
  have hzero : BitVec.toNat (0 : BitVec 1) = 0 := rfl
  have hdpl : (0 : UInt32).toNat = 0 := rfl
  -- both numbers, field by field
  simp only [bitsOfBytes, seg, asmWord, asmByte, List.cons_append, List.nil_append, List.map_cons,
    List.map_nil, pack, Segdesc.bits, Segdesc.fields, setDescriptor, UInt8.toNat_toBitVec,
    BitVec.toNat_setWidth, UInt32.toNat_toBitVec, UInt32.toNat_toUInt8, hlimit, htype, height, hlow,
    hbase, hmid, hhigh, hlimit', hbase', hone, hzero, hdpl]
  exact sum_bytes_fields (Nat.mod_lt _ (by decide)) (Nat.mod_lt _ (by decide))
    (Nat.mod_lt _ (by decide)) h (by omega) (by omega)

/-- **What the processor reads** in the bytes of `SEG` is the descriptor of `set_descriptor` with
the same arguments: the base, the type, ring 0, and the limit up to the end of its page. -/
theorem seg_decodes (h : type.toNat < 16) :
    bitsOfBytes (seg type base lim) = (setDescriptor type 0 base lim).bits
      ∧ cpuBase (bitsOfBytes (seg type base lim)) = base
      ∧ (cpuType (bitsOfBytes (seg type base lim))).toNat = type.toNat
      ∧ cpuDpl (bitsOfBytes (seg type base lim)) = 0
      ∧ (lastByte (bitsOfBytes (seg type base lim))).toNat = lim.toNat / 4096 * 4096 + 4095 := by
  rw [seg_eq_setDescriptor type base lim h, Segdesc.cpuType_bits, Segdesc.cpuDpl_bits]
  exact ⟨rfl, cpuBase_setDescriptor type 0 base lim, Nat.mod_eq_of_lt h, rfl,
    lastByte_setDescriptor type 0 base lim⟩

/-- A code segment that does not begin at address 0. -/
theorem seg_decodes_code :
    bitsOfBytes (seg 0xa 0x12345678 0xfffff) = (setDescriptor 0xa 0 0x12345678 0xfffff).bits
      ∧ cpuBase (bitsOfBytes (seg 0xa 0x12345678 0xfffff)) = 0x12345678
      ∧ (cpuType (bitsOfBytes (seg 0xa 0x12345678 0xfffff))).toNat = (0xa : UInt32).toNat
      ∧ cpuDpl (bitsOfBytes (seg 0xa 0x12345678 0xfffff)) = 0
      ∧ (lastByte (bitsOfBytes (seg 0xa 0x12345678 0xfffff))).toNat
        = (0xfffff : UInt32).toNat / 4096 * 4096 + 4095 :=
  seg_decodes 0xa 0x12345678 0xfffff (by decide)

end Seg

/-! ## The tables

The table of the loader next to that of the kernel, at the selectors that are in use while the one
replaces the other.
-/

/-- **The kernel's table means the same** as the one that it replaces, for the selectors that are
loaded. -/
theorem bootGdt_kernel (gdt tss : UInt32) :
    descriptorAt bootGdt protModeCseg = ((initGdt gdt tss).gdt 1).bits
      ∧ descriptorAt bootGdt protModeDseg = ((initGdt gdt tss).gdt 2).bits := by
  have hcode : (bootGdt.drop 8).take 8 = seg (0x8 ||| 0x2) 0 0xffffffff := by decide +kernel
  have hdata : (bootGdt.drop 16).take 8 = seg (0x2 ||| 0x2) 0 0xffffffff := by decide +kernel
  rw [gdt_code, gdt_data, descriptorAt, descriptorAt]
  refine ⟨?_, ?_⟩
  · rw [← seg_eq_setDescriptor (0x8 ||| 0x2) 0 0xffffffff (by decide), ← hcode]
    rfl
  · rw [← seg_eq_setDescriptor (0x2 ||| 0x2) 0 0xffffffff (by decide), ← hdata]
    rfl

/-- **Addresses stay what they are** when protected mode is on: the segments begin at 0, and there
is nothing behind them. -/
theorem bootGdt_flat {selector : ℕ} (h : selector = protModeCseg ∨ selector = protModeDseg)
    (addr : UInt32) : cpuBase (descriptorAt bootGdt selector) + addr = addr
      ∧ addr ≤ lastByte (descriptorAt bootGdt selector) := by
  have hboth : cpuBase (descriptorAt bootGdt selector) = 0
      ∧ (lastByte (descriptorAt bootGdt selector)).toNat = 4294967295 := by
    obtain ⟨hcode, hdata⟩ := bootGdt_kernel 0 0
    rcases h with rfl | rfl
    · rw [hcode, gdt_code, cpuBase_setDescriptor, lastByte_setDescriptor]
      exact ⟨rfl, rfl⟩
    · rw [hdata, gdt_data, cpuBase_setDescriptor, lastByte_setDescriptor]
      exact ⟨rfl, rfl⟩
  obtain ⟨hbase, hlast⟩ := hboth
  have hlt := addr.toNat_lt
  refine ⟨by rw [hbase, UInt32.zero_add], UInt32.le_iff_toNat_le.mpr ?_⟩
  omega

end ScratchOs
