import Mathlib.Data.List.OfFn
import ScratchOs.Core.CStrings
import ScratchOs.Core.StringOps
import ScratchOs.Core.Words

/-!
# Reading the disk

`readsect` and `readseg` of `boot/main.c`.  The controller is its registers, two drives, what its
status register will say, and the bytes at its data port.  Touching it before it has been seen to be
ready is undefined, and a wait that does not end has no result; both are `none`.

* `readsect_cases` — a sector of the drive that bit 28 of the sector number selects.
* **`readseg_cases`** — when `readseg` returns, and what it leaves in memory: whole sectors, from
  the beginning of the first one on.

**What is assumed** about the controller is that it follows the few commands that are sent to it.
What is not assumed is that it ever gets ready: how often it does decides between the two cases of
each result, and a loader that waits for ever is one of them.

**The sector number** has 32 bits in the code and 28 in the registers, and the bit above them
selects the drive.  So the results say which drive was read, and the loader has to be shown to stay
below.  And the end of a segment is computed modulo 2 ^ 32: one that comes around past the last
sector of the address space is never reached.
-/

namespace ScratchOs

open Memory Words

/-! ## The controller

As much of a controller as the loader uses.  Every access says what state it needs, so that a driver
that is too quick has no result.
-/

/-- A controller, as far as the loader can tell. -/
structure Ide where
  count : UInt8
  lbaLow : UInt8
  lbaMid : UInt8
  lbaHigh : UInt8
  device : UInt8
  /-- The bytes of the master, and of the slave. -/
  drives : Bool → ℕ → UInt8
  /-- What the status register will say. -/
  status : List UInt8
  /-- It has been seen to be ready, and has not got a command since. -/
  ready : Bool
  /-- The bytes at the data port. -/
  data : List UInt8

/-- The sector that the registers name: 28 bits of them. -/
def Ide.lba (c : Ide) : ℕ :=
  c.lbaLow.toNat + c.lbaMid.toNat * 256 + c.lbaHigh.toNat * 65536
    + (c.device &&& 0x0F).toNat * 16777216

/-- The drive that the registers select. -/
def Ide.slave (c : Ide) : Bool := c.device &&& 0x10 ≠ 0

/-- How many sectors the registers ask for, where 0 stands for 256. -/
def Ide.sectors (c : Ide) : ℕ := if c.count = 0 then 256 else c.count.toNat

/-- `outb(0x1F0 + reg, val)`, for the registers that are used.  Of the commands there is the one to
read sectors. -/
def Ide.outb (c : Ide) (reg : ℕ) (val : UInt8) : Option Ide :=
  if c.ready then
    match reg with
    | 2 => some { c with count := val }
    | 3 => some { c with lbaLow := val }
    | 4 => some { c with lbaMid := val }
    | 5 => some { c with lbaHigh := val }
    | 6 => some { c with device := val }
    | 7 =>
        if val = 0x20 then
          some { c with
            ready := false
            data := List.ofFn fun i : Fin (c.sectors * 512) => c.drives c.slave (c.lba * 512 + i) }
        else none
    | _ => none
  else none

/-- What ends `waitdisk`: the drive is ready, and it is not busy. -/
def diskReady (status : UInt8) : Bool := status &&& 0xC0 = 0x40

/-- The loop of `waitdisk`.  Where the list ends the loop does not. -/
def waitStatus (c : Ide) : List UInt8 → Option Ide
  | [] => none
  | val :: rest =>
      if diskReady val then some { c with status := rest, ready := true } else waitStatus c rest

/-- `waitdisk`, after which the controller may be given a command. -/
def waitdisk (c : Ide) : Option Ide := waitStatus c c.status

/-- The rounds of `insl`, each of which takes one word from the data port. -/
def inslFrom : ℕ → Mem → UInt32 → List UInt8 → Option (Mem × List UInt8)
  | 0, mem, _, data => some (mem, data)
  | n + 1, mem, edi, b₀ :: b₁ :: b₂ :: b₃ :: data =>
      inslFrom n (put mem edi [b₀, b₁, b₂, b₃]) (edi + 4) data
  | _ + 1, _, _, _ => none

/-- A controller, and the memory. -/
structure Machine where
  ide : Ide
  mem : Mem

/-- `insl(0x1F0, addr, cnt)`, with a count of words. -/
def insl (m : Machine) (addr : UInt32) (cnt : ℕ) : Option Machine :=
  if m.ide.ready then
    (inslFrom cnt m.mem addr m.ide.data).map fun x => ⟨{ m.ide with data := x.2 }, x.1⟩
  else none

/-! ## The loader's reads

The three functions of the loader that touch the disk.
-/

/-- `SECTSIZE` -/
abbrev sectSize : UInt32 := 512

/-- `readsect`, write for write. -/
def readsect (dst offset : UInt32) (m : Machine) : Option Machine := do
  let c ← waitdisk m.ide
  let c ← c.outb 2 1
  let c ← c.outb 3 offset.toUInt8
  let c ← c.outb 4 (offset >>> 8).toUInt8
  let c ← c.outb 5 (offset >>> 16).toUInt8
  let c ← c.outb 6 ((offset >>> 24) ||| 0xE0).toUInt8
  let c ← c.outb 7 0x20
  let c ← waitdisk c
  insl ⟨c, m.mem⟩ dst (sectSize / 4).toNat

/-- The loop of `readseg`.  After as many rounds as there are sectors in the address space it has
come around, and does not end. -/
def readsegFrom : ℕ → UInt32 → UInt32 → UInt32 → Machine → Option Machine
  | 0, _, _, _, _ => none
  | fuel + 1, pa, end_pa, offset, m =>
      if pa < end_pa then do
        let m ← readsect pa offset m
        readsegFrom fuel (pa + sectSize) end_pa (offset + 1) m
      else some m

/-- `readseg`, which reads whole sectors, and so may read more than it is asked for. -/
def readseg (pa count offset : UInt32) (m : Machine) : Option Machine :=
  let end_pa := pa + count
  let pa := pa &&& ~~~(sectSize - 1)
  let offset := offset / sectSize + 1
  readsegFrom 8388609 pa end_pa offset m

/-! ## Waiting

The wait is a search in what the status register will say.  Each sector takes two of its answers.
-/

/-- How often the controller will be ready, which is what the loader has to wait for. -/
def Ide.room (c : Ide) : ℕ := c.status.countP diskReady

/-- The wait ends at the first time that the controller is ready. -/
lemma waitdisk_cases (c : Ide) :
    (c.room = 0 ∧ waitdisk c = none)
      ∨ ∃ rest, c.room = rest.countP diskReady + 1
        ∧ waitdisk c = some { c with status := rest, ready := true } := by
  rw [Ide.room, waitdisk]
  generalize c.status = l
  induction l with
  | nil => exact Or.inl ⟨rfl, rfl⟩
  | cons val rest ih =>
      by_cases hready : diskReady val = true
      · refine Or.inr ⟨rest, List.countP_cons_of_pos hready, ?_⟩
        rw [waitStatus, if_pos hready]
      · rw [List.countP_cons_of_neg hready, waitStatus, if_neg hready]
        exact ih

/-! ## A sector

The registers, the command, the wait, and the bytes at the data port.  The arithmetic is about
taking the sector number apart and putting it together again.
-/

/-- One stretch written behind another is one long stretch. -/
lemma put_put (mem : Mem) (dst : UInt32) (l l' : List UInt8) (hl : l.length < 4294967296)
    (hlen : l.length + l'.length ≤ 4294967296) :
    put (put mem dst l) (dst + UInt32.ofNat l.length) l' = put mem dst (l ++ l') := by
  funext a
  have hlt := (a - dst).toNat_lt
  simp only [put_apply, toNat_sub_up hl, List.getElem?_append]
  by_cases hfirst : (a - dst).toNat < l.length
  · rw [if_pos hfirst, if_neg (by omega), List.getElem?_eq_none (by omega)]
    rfl
  · rw [if_neg hfirst, if_pos (by omega), List.getElem?_eq_none (by omega : l.length ≤ _)]
    rfl

/-- `insl` takes the bytes in order, least significant byte of a word first. -/
lemma inslFrom_eq {n : ℕ} (hn : n < 1073741824) (mem : Mem) (edi : UInt32) {l : List UInt8}
    (hl : l.length = 4 * n) (rest : List UInt8) :
    inslFrom n mem edi (l ++ rest) = some (put mem edi l, rest) := by
  induction n generalizing mem edi l with
  | zero =>
      cases List.eq_nil_of_length_eq_zero hl
      rw [put_nil]
      rfl
  | succ n ih =>
      match l, hl with
      | b₀ :: b₁ :: b₂ :: b₃ :: l, hl =>
          have hl' : l.length = 4 * n := by
            simp only [List.length_cons] at hl
            omega
          have hput := put_put mem edi [b₀, b₁, b₂, b₃] l (by simp) (by
            simp only [List.length_cons, List.length_nil, hl']
            omega)
          have h := ih (by omega) (put mem edi [b₀, b₁, b₂, b₃]) (edi + 4) hl'
          rw [show edi + UInt32.ofNat [b₀, b₁, b₂, b₃].length = edi + 4 from rfl] at hput
          rw [hput] at h
          exact h

/-- The bytes of a drive, written as a list or as a stretch of the drive. -/
lemma put_ofFn (mem : Mem) (dst : UInt32) (dev : ℕ → UInt8) (pos n : ℕ) :
    put mem dst (List.ofFn fun i : Fin n => dev (pos + i)) = load mem dst dev pos n := by
  funext a
  rw [put_apply, load_apply, List.getElem?_ofFn]
  split <;> rfl

/-- From the data port to memory, for the bytes that a drive has put there. -/
lemma inslFrom_ofFn {n : ℕ} (hn : n < 1073741824) (mem : Mem) (dst : UInt32) (dev : ℕ → UInt8)
    (pos : ℕ) : inslFrom n mem dst (List.ofFn fun i : Fin (4 * n) => dev (pos + i))
      = some (load mem dst dev pos (4 * n), []) := by
  have h := inslFrom_eq hn mem dst (l := List.ofFn fun i : Fin (4 * n) => dev (pos + i))
    List.length_ofFn []
  rwa [List.append_nil, put_ofFn] at h

/-- The drive that a sector number selects, by its bit 28. -/
def slaveOf (offset : UInt32) : Bool := offset.toNat / 268435456 % 2 = 1

/-- The low half of the device register is the top of the sector number, and the next bit is the
drive. -/
lemma device_bits (b : UInt8) : ((b ||| 0xE0) &&& 0x0F).toNat = b.toNat % 16
    ∧ (decide ((b ||| 0xE0) &&& 0x10 ≠ 0) = decide (b.toNat / 16 % 2 = 1)) := by
  have hall : ∀ k : Fin 256, ((UInt8.ofNat k ||| 0xE0) &&& 0x0F).toNat = (UInt8.ofNat k).toNat % 16
      ∧ (decide ((UInt8.ofNat k ||| 0xE0) &&& 0x10 ≠ 0)
        = decide ((UInt8.ofNat k).toNat / 16 % 2 = 1)) := by
    decide +kernel
  have hb : UInt8.ofNat b.toNat = b := UInt8.ofNat_toNat
  have h := hall ⟨b.toNat, b.toNat_lt⟩
  rwa [hb] at h

/-- The bytes that the controller fetches, when its registers have been written. -/
lemma fetch_eq (c : Ide) (offset : UInt32) (hcount : c.count = 1) (hlow : c.lbaLow = offset.toUInt8)
    (hmid : c.lbaMid = (offset >>> 8).toUInt8) (hhigh : c.lbaHigh = (offset >>> 16).toUInt8)
    (hdevice : c.device = ((offset >>> 24) ||| 0xE0).toUInt8) :
    (List.ofFn fun i : Fin (c.sectors * 512) => c.drives c.slave (c.lba * 512 + i))
      = List.ofFn fun i : Fin 512 =>
          c.drives (slaveOf offset) (offset.toNat % 268435456 * 512 + i) := by
  have hsplit : ((offset >>> 24) ||| 0xE0).toUInt8 = (offset >>> 24).toUInt8 ||| 0xE0 :=
    UInt32.toUInt8_or _ _
  obtain ⟨hbits, hdrive⟩ := device_bits (offset >>> 24).toUInt8
  have hlow' : offset.toUInt8.toNat = offset.toNat % 256 := UInt32.toNat_toUInt8 _
  have hmid' : (offset >>> 8).toUInt8.toNat = offset.toNat / 256 % 256 := by
    rw [UInt32.toNat_toUInt8, UInt32.toNat_shiftRight]
    exact congrArg (· % 256) (Nat.shiftRight_eq_div_pow _ 8)
  have hhigh' : (offset >>> 16).toUInt8.toNat = offset.toNat / 65536 % 256 := by
    rw [UInt32.toNat_toUInt8, UInt32.toNat_shiftRight]
    exact congrArg (· % 256) (Nat.shiftRight_eq_div_pow _ 16)
  have htop' : (offset >>> 24).toUInt8.toNat = offset.toNat / 16777216 % 256 := by
    rw [UInt32.toNat_toUInt8, UInt32.toNat_shiftRight]
    exact congrArg (· % 256) (Nat.shiftRight_eq_div_pow _ 24)
  have hlba : c.lba = offset.toNat % 268435456 := by
    rw [Ide.lba, hlow, hmid, hhigh, hdevice, hsplit, hbits, hlow', hmid', hhigh', htop']
    omega
  have hslave : c.slave = slaveOf offset := by
    have hdiv : offset.toNat / 16777216 % 256 / 16 % 2 = offset.toNat / 268435456 % 2 := by omega
    rw [Ide.slave, hdevice, hsplit, hdrive, htop', hdiv, slaveOf]
  have hone : c.sectors = 1 := by
    rw [Ide.sectors, hcount]
    rfl
  rw [hlba, hslave, hone]

/-- **A sector** of the drive that bit 28 of its number selects. -/
lemma readsect_cases (dst offset : UInt32) (m : Machine) :
    (m.ide.room < 2 ∧ readsect dst offset m = none)
      ∨ ∃ c, readsect dst offset m = some ⟨c, load m.mem dst (m.ide.drives (slaveOf offset))
          (offset.toNat % 268435456 * 512) 512⟩
        ∧ c.drives = m.ide.drives ∧ c.room + 2 = m.ide.room := by
  rcases waitdisk_cases m.ide with ⟨hroom, hnone⟩ | ⟨rest, hroom, hsome⟩
  · refine Or.inl ⟨by omega, ?_⟩
    rw [readsect, hnone]
    rfl
  · rw [readsect, hsome]
    simp only [Option.bind_eq_bind, Option.bind_some, Ide.outb, if_true]
    rw [fetch_eq _ offset rfl rfl rfl rfl rfl]
    rcases waitdisk_cases _ with ⟨hroom', hnone⟩ | ⟨rest', hroom', hsome'⟩
    · refine Or.inl ⟨?_, by rw [hnone]; rfl⟩
      change rest.countP diskReady = 0 at hroom'
      omega
    · rw [hsome', Option.bind_some, insl]
      change rest.countP diskReady = rest'.countP diskReady + 1 at hroom'
      have hread := inslFrom_ofFn (n := 128) (by decide) m.mem dst
        (m.ide.drives (slaveOf offset)) (offset.toNat % 268435456 * 512)
      rw [show 4 * 128 = 512 from rfl] at hread
      rw [if_pos rfl, show (sectSize / 4).toNat = 128 from rfl, hread]
      refine Or.inr ⟨_, rfl, rfl, ?_⟩
      rw [hroom, hroom']
      rfl

/-! ## Whole segments

One sector after the other, with the number and the address counted up together.  The cases are
whether the controller gets ready often enough.
-/

/-- `readseg` does not come to its end when that is in the last sector of the address space. -/
lemma readsegFrom_of_gt (fuel : ℕ) {pa e : UInt32} (haligned : pa.toNat % 512 = 0)
    (he : 4294966784 < e.toNat) (offset : UInt32) (m : Machine) :
    readsegFrom fuel pa e offset m = none := by
  induction fuel generalizing pa offset m with
  | zero => rfl
  | succ fuel ih =>
      have hlt := pa.toNat_lt
      have hnext : (pa + sectSize).toNat = (pa.toNat + 512) % 4294967296 := UInt32.toNat_add _ _
      rw [readsegFrom, if_pos (UInt32.lt_iff_toNat_lt.mpr (by omega))]
      rcases readsect_cases pa offset m with ⟨-, hnone⟩ | ⟨c, hsome, -, -⟩
      · rw [hnone]
        rfl
      · rw [hsome]
        exact ih (by omega) _ _

/-- The rounds of `readseg`, of which there are `n`. -/
lemma readsegFrom_cases {n fuel : ℕ} (hfuel : n < fuel) {pa e offset : UInt32}
    (haligned : pa.toNat % 512 = 0) (he : e.toNat ≤ 4294966784)
    (hn : (e.toNat - pa.toNat + 511) / 512 = n) (hoffset : offset.toNat + n ≤ 268435456)
    (m : Machine) :
    (m.ide.room < 2 * n ∧ readsegFrom fuel pa e offset m = none)
      ∨ ∃ c, readsegFrom fuel pa e offset m
          = some ⟨c, load m.mem pa (m.ide.drives false) (offset.toNat * 512) (n * 512)⟩
        ∧ c.drives = m.ide.drives ∧ c.room + 2 * n = m.ide.room := by
  induction n generalizing fuel pa offset m with
  | zero =>
      obtain ⟨fuel, rfl⟩ := Nat.exists_eq_succ_of_ne_zero (Nat.pos_iff_ne_zero.mp hfuel)
      refine Or.inr ⟨m.ide, ?_, rfl, rfl⟩
      rw [readsegFrom, if_neg (fun h => by have := UInt32.lt_iff_toNat_lt.mp h; omega), Nat.zero_mul,
        load_zero]
  | succ n ih =>
      obtain ⟨fuel, rfl⟩ := Nat.exists_eq_succ_of_ne_zero (by omega : fuel ≠ 0)
      have hlt : pa.toNat < e.toNat := by omega
      have hnext : (pa + sectSize).toNat = (pa.toNat + 512) % 4294967296 := UInt32.toNat_add _ _
      have hsector : (offset + 1).toNat = (offset.toNat + 1) % 4294967296 := UInt32.toNat_add _ _
      have hmaster : slaveOf offset = false := by
        rw [slaveOf, decide_eq_false_iff_not]
        omega
      rw [readsegFrom, if_pos (UInt32.lt_iff_toNat_lt.mpr hlt)]
      rcases readsect_cases pa offset m with ⟨hroom, hnone⟩ | ⟨c, hsome, hdrives, hroom⟩
      · exact Or.inl ⟨by omega, by rw [hnone]; rfl⟩
      · have hfuel' : n < fuel := by omega
        have haligned' : (pa + sectSize).toNat % 512 = 0 := by omega
        have hn' : (e.toNat - (pa + sectSize).toNat + 511) / 512 = n := by omega
        have hoffset' : (offset + 1).toNat + n ≤ 268435456 := by omega
        have hmod : offset.toNat % 268435456 = offset.toNat := by omega
        have hpos : (offset + 1).toNat * 512 = offset.toNat * 512 + 512 := by omega
        rw [hmaster, hmod] at hsome
        have hload := load_load m.mem pa (m.ide.drives false) (offset.toNat * 512)
          (by decide : 512 < 4294967296) (m := n * 512) (by omega)
        rw [show pa + UInt32.ofNat 512 = pa + sectSize from rfl, ← hpos, Nat.add_comm,
          ← Nat.succ_mul] at hload
        rw [hsome, Option.bind_eq_bind, Option.bind_some]
        rcases ih hfuel' haligned' hn' hoffset' ⟨c, _⟩ with
          ⟨hroom', hnone⟩ | ⟨c', hsome', hdrives', hroom'⟩
        · change c.room < 2 * n at hroom'
          exact Or.inl ⟨by omega, hnone⟩
        · change c'.room + 2 * n = c.room at hroom'
          rw [hdrives, hload] at hsome'
          exact Or.inr ⟨c', hsome', hdrives'.trans hdrives, by omega⟩

/-- Where `readseg` begins: at the start of the sector that the address is in. -/
def segBase (pa : UInt32) : UInt32 := pa &&& ~~~(sectSize - 1)

/-- How many sectors it reads, when it returns. -/
def segSectors (pa count : UInt32) : ℕ := ((pa + count).toNat - (segBase pa).toNat + 511) / 512

/-- Rounding down to a sector, as a number. -/
lemma segBase_toNat (pa : UInt32) : (segBase pa).toNat = pa.toNat - pa.toNat % 512 := by
  have hmask : (pa &&& (sectSize - 1)).toNat = pa.toNat % 512 := toNat_mask pa _ 9 rfl
  have hle : pa &&& (sectSize - 1) ≤ pa := by
    rw [UInt32.le_iff_toNat_le, hmask]
    exact Nat.mod_le _ _
  rw [segBase, and_not_eq_sub, UInt32.toNat_sub_of_le _ _ hle, hmask]

/-- **When `readseg` returns**: the end, which may have come around, is not in the last sector of
the address space, and the controller gets ready twice for every sector.  Then it has loaded
whole sectors of the master, from the one with the byte at `offset` on. -/
theorem readseg_cases (pa count offset : UInt32) (m : Machine) :
    (¬ ((pa + count).toNat ≤ 4294966784 ∧ 2 * segSectors pa count ≤ m.ide.room)
        ∧ readseg pa count offset m = none)
      ∨ ((pa + count).toNat ≤ 4294966784 ∧ ∃ c, readseg pa count offset m
          = some ⟨c, load m.mem (segBase pa) (m.ide.drives false)
              ((offset.toNat / 512 + 1) * 512) (segSectors pa count * 512)⟩
        ∧ c.drives = m.ide.drives ∧ c.room + 2 * segSectors pa count = m.ide.room) := by
  have hbase := segBase_toNat pa
  have hlt := pa.toNat_lt
  have haligned : (segBase pa).toNat % 512 = 0 := by omega
  rcases Nat.lt_or_ge 4294966784 (pa + count).toNat with hlast | hend
  · exact Or.inl ⟨by omega, readsegFrom_of_gt _ haligned hlast _ m⟩
  · have hoffset := offset.toNat_lt
    have hsector : (offset / sectSize + 1).toNat = offset.toNat / 512 + 1 := by
      rw [UInt32.toNat_add, UInt32.toNat_div]
      show (offset.toNat / 512 + 1) % 4294967296 = _
      omega
    have hcount : segSectors pa count ≤ 8388608 := by
      rw [segSectors]
      omega
    have hlast : (offset / sectSize + 1).toNat + segSectors pa count ≤ 268435456 := by omega
    rcases readsegFrom_cases (by omega : segSectors pa count < 8388609) haligned hend rfl hlast m with
      ⟨hroom, hnone⟩ | ⟨c, hsome, hdrives, hroom⟩
    · exact Or.inl ⟨by omega, hnone⟩
    · rw [hsector] at hsome
      exact Or.inr ⟨hend, c, hsome, hdrives, hroom⟩

end ScratchOs
