import ScratchOs.Core.Fields
import ScratchOs.Core.Memory

/-!
# An x86 processor that is interrupted

The registers of a 32-bit processor in ring 0 with flat segments, what it does when an interrupt is
delivered through a gate, and the instructions that a stub behind the gate is made of.  Addresses
wrap.

Only what an interrupt can be noticed by is in the model: the general registers, `eip`, `esp`, `cs`,
EFLAGS and the memory.  There is no change of privilege, so that a delivery does not switch stacks
and `iret` pops three words.

* `Eflags` — the register holds no other value than one whose reserved bits are as they should be.
* `Gate.decode`, `Cpu.deliver` — the processor reads the eight bytes of a gate, and pushes EFLAGS,
  CS, EIP and for some exceptions an error code.  The error code is what a stub that does not expect
  it trips over.
* `Cpu.exec` — one instruction; a `call` runs its function to the end.
* `Cdecl` — what the calling convention promises of a function.  C code is known by this promise
  only.
* **`Cpu.holds_deliver`** — the stack that a delivery leaves.
-/

namespace X86

open Fields Memory

/-! ## Registers -/

/-- What EFLAGS holds after a word has been loaded into it: bit 1 is always set, and bits 3, 5, 15
and those above 21 are always clear. -/
def flagsOf (x : UInt32) : UInt32 := (x &&& 0x3f7fd5) ||| 0x2

/-- A value of EFLAGS, with the proof that its reserved bits are as the processor keeps them. -/
@[ext]
structure Eflags where
  val : UInt32
  canonical : flagsOf val = val
  deriving DecidableEq

lemma flagsOf_flagsOf (x : UInt32) : flagsOf (flagsOf x) = flagsOf x := by
  have hmask (m t : BitVec 32) :
      ((x.toBitVec &&& m) ||| t) &&& m ||| t = (x.toBitVec &&& m) ||| t := by
    ext i hi
    cases ht : t[i] <;> simp [ht]
  exact UInt32.toBitVec_inj.mp (hmask 0x3f7fd5 0x2)

/-- EFLAGS after a word has been loaded into it. -/
def Eflags.of (x : UInt32) : Eflags := ⟨flagsOf x, flagsOf_flagsOf x⟩

lemma Eflags.of_val (e : Eflags) : Eflags.of e.val = e := Eflags.ext e.canonical

/-- EFLAGS after some bits have been cleared and others set. -/
def Eflags.update (e : Eflags) (clear set : UInt32) : Eflags := .of ((e.val &&& ~~~clear) ||| set)

/-- The interrupt flag IF. -/
def flagIF : UInt32 := 0x200

/-- The flags that every delivery clears: TF, NT, RF and VM. -/
def flagsTrap : UInt32 := 0x100 ||| 0x4000 ||| 0x10000 ||| 0x20000

/-- The flags that an addition writes: CF, PF, AF, ZF, SF and OF. -/
def flagsStatus : UInt32 := 0x8d5

/-- The flags that an addition leaves, by its operands. -/
def addFlags (x y : UInt32) : UInt32 :=
  let sum := x + y
  let bit (b : Bool) (flag : UInt32) : UInt32 := if b then flag else 0
  bit (sum < x) 0x1
    ||| bit ((List.range 8).countP (fun i => sum.toNat.testBit i) % 2 == 0) 0x4
    ||| ((x ^^^ y ^^^ sum) &&& 0x10)
    ||| bit (sum == 0) 0x40
    ||| bit (0x80000000 ≤ sum) 0x80
    ||| bit (0x80000000 ≤ (x ^^^ sum) &&& (y ^^^ sum)) 0x800

/-- The registers that code in ring 0 computes with. -/
@[ext]
structure Regs where
  eax : UInt32
  ecx : UInt32
  edx : UInt32
  ebx : UInt32
  esp : UInt32
  ebp : UInt32
  esi : UInt32
  edi : UInt32
  eip : UInt32
  cs : UInt16
  eflags : Eflags
  deriving DecidableEq

/-- The general registers are the same, `esp` apart. -/
structure SameGeneral (r r' : Regs) : Prop where
  eax : r.eax = r'.eax
  ecx : r.ecx = r'.ecx
  edx : r.edx = r'.edx
  ebx : r.ebx = r'.ebx
  ebp : r.ebp = r'.ebp
  esi : r.esi = r'.esi
  edi : r.edi = r'.edi

lemma SameGeneral.trans {r r' r'' : Regs} (h : SameGeneral r r') (h' : SameGeneral r' r'') :
    SameGeneral r r'' :=
  ⟨h.eax.trans h'.eax, h.ecx.trans h'.ecx, h.edx.trans h'.edx, h.ebx.trans h'.ebx,
    h.ebp.trans h'.ebp, h.esi.trans h'.esi, h.edi.trans h'.edi⟩

/-- The state of the machine: the registers and the memory. -/
structure Cpu extends Regs where
  mem : Mem

/-- `pushl` of a word. -/
def Cpu.push (c : Cpu) (w : UInt32) : Cpu :=
  { c with esp := c.esp - 4, mem := store32 c.mem (c.esp - 4) w }

/-! ## Delivery

What the processor does between two instructions of the code that is interrupted.
-/

/-- An interrupt or trap gate, as the processor reads it. -/
structure Gate where
  offset : UInt32
  selector : UInt16
  present : Bool
  isTrap : Bool

/-- The eight bytes of a gate, least significant byte first.  The lowest bit of its type tells a
trap gate from an interrupt gate. -/
def Gate.decode (x : ℕ) : Gate where
  offset := ⟨extract 48 16 x ++ extract 0 16 x⟩
  selector := ⟨extract 16 16 x⟩
  present := extract 47 1 x == 1
  isTrap := (extract 40 4 x)[0]

/-- What an interrupt comes from: an exception, with the error code it may have, or a device or an
`int` instruction. -/
inductive Cause
  | exception (code : UInt32)
  | interrupt
  deriving DecidableEq

/-- The error code that is pushed: exceptions 8, 10 to 14 and 17 have one. -/
def errorCode (vector : ℕ) : Cause → Option UInt32
  | .exception code =>
      if vector = 8 ∨ (10 ≤ vector ∧ vector ≤ 14) ∨ vector = 17 then some code else none
  | .interrupt => none

/-- The words of a delivery, from the top of the stack on. -/
def Regs.frame (r : Regs) (err : Option UInt32) : List UInt32 :=
  err.toList ++ [r.eip, r.cs.toUInt32, r.eflags.val]

/-- The words are pushed, the error code last. -/
def Cpu.pushFrame (c : Cpu) (err : Option UInt32) : Cpu :=
  let p := ((c.push c.eflags.val).push c.cs.toUInt32).push c.eip
  err.elim p p.push

/-- **A delivery in ring 0**, through a gate that is present: the words are pushed, and the
processor goes on at the gate's address. -/
def Cpu.deliver (c : Cpu) (gate : Gate) (err : Option UInt32) : Cpu :=
  { c.pushFrame err with
    eip := gate.offset
    cs := gate.selector
    eflags := c.eflags.update (if gate.isTrap then flagsTrap else flagsTrap ||| flagIF) 0 }

/-! ## Instructions

The instructions that a stub is made of, and a few more for a function with locals, as an example of
code that is interrupted.
-/

/-- The instructions of a stub. -/
inductive Instr
  | cli
  | sti
  | pushlEsp
  | addlEsp (n : UInt32)
  | call (target : UInt32)
  | iret
  deriving DecidableEq

def Cpu.cli (c : Cpu) : Cpu := { c with eip := c.eip + 1, eflags := c.eflags.update flagIF 0 }

def Cpu.sti (c : Cpu) : Cpu := { c with eip := c.eip + 1, eflags := c.eflags.update 0 flagIF }

/-- `pushl %esp` pushes the pointer as it was before. -/
def Cpu.pushlEsp (c : Cpu) : Cpu := { c.push c.esp with eip := c.eip + 1 }

/-- `addl $n, %esp`, which also writes the flags. -/
def Cpu.addlEsp (c : Cpu) (n : UInt32) : Cpu :=
  { c with
    eip := c.eip + 3
    esp := c.esp + n
    eflags := c.eflags.update flagsStatus (addFlags c.esp n) }

/-- `leal n(%esp), %esp`, with which a function makes room for its locals and gives it back. -/
def Cpu.lealEsp (c : Cpu) (n : UInt32) : Cpu := { c with eip := c.eip + 4, esp := c.esp + n }

/-- `movl %eax, (%esp)`, into the local that lies lowest. -/
def Cpu.movlToTop (c : Cpu) : Cpu :=
  { c with eip := c.eip + 3, mem := store32 c.mem c.esp c.eax }

/-- `movl (%esp), %ecx`, back from that local. -/
def Cpu.movlFromTop (c : Cpu) : Cpu := { c with eip := c.eip + 3, ecx := load32 c.mem c.esp }

/-- `ret`, which jumps to the address on top of the stack and pops it. -/
def Cpu.ret (c : Cpu) : Cpu := { c with eip := load32 c.mem c.esp, esp := c.esp + 4 }

/-- The state at the first instruction of a function that is called. -/
def Cpu.enter (c : Cpu) (target : UInt32) : Cpu := { c.push (c.eip + 5) with eip := target }

/-- `iret` to ring 0: EIP, CS and EFLAGS are popped, if the selector is one of a code segment. -/
def Cpu.iret (isCode : UInt16 → Bool) (c : Cpu) : Option Cpu :=
  let cs := (load32 c.mem (c.esp + 4)).toUInt16
  if isCode cs then
    some { c with
      eip := load32 c.mem c.esp
      cs := cs
      eflags := .of (load32 c.mem (c.esp + 4 + 4))
      esp := c.esp + 12 }
  else
    none

/-- One instruction.  `function` says what the code at an address does from the first instruction
of a function to the `ret` that ends it; a function that does not come back to its caller ends the
run here. -/
def Cpu.exec (isCode : UInt16 → Bool) (function : UInt32 → Cpu → Cpu) (c : Cpu) :
    Instr → Option Cpu
  | .cli => some c.cli
  | .sti => some c.sti
  | .pushlEsp => some c.pushlEsp
  | .addlEsp n => some (c.addlEsp n)
  | .call target =>
      let r := function target (c.enter target)
      if r.eip = c.eip + 5 then some r else none
  | .iret => c.iret isCode

/-- **The calling convention.**  A function returns to the address on top of the stack and pops it,
and keeps the registers that belong to its caller.  It may change `eax`, `ecx`, `edx`, the flags
and the memory. -/
structure Cdecl (f : Cpu → Cpu) : Prop where
  returns : ∀ c, (f c).eip = load32 c.mem c.esp
  esp : ∀ c, (f c).esp = c.esp + 4
  ebx : ∀ c, (f c).ebx = c.ebx
  ebp : ∀ c, (f c).ebp = c.ebp
  esi : ∀ c, (f c).esi = c.esi
  edi : ∀ c, (f c).edi = c.edi
  cs : ∀ c, (f c).cs = c.cs

/-! ## What is on the stack

A stub is correct if it finds the words of the delivery again at its end; so the stack is followed
as a list.
-/

section Stack

variable {c : Cpu} {ws : List UInt32}

/-- The words from the top of the stack on are those of the list. -/
abbrev Cpu.Holds (c : Cpu) (ws : List UInt32) : Prop := Memory.Holds c.mem c.esp ws

lemma Cpu.holds_push (h : c.Holds ws) (w : UInt32) (hlen : ws.length < 1073741824) :
    (c.push w).Holds (w :: ws) := h.push w hlen

lemma Cpu.holds_pushFrame (c : Cpu) (err : Option UInt32) :
    (c.pushFrame err).Holds (c.frame err) := by
  have hnil : c.Holds [] := trivial
  have hframe := Cpu.holds_push (Cpu.holds_push (Cpu.holds_push hnil c.eflags.val (by simp))
    c.cs.toUInt32 (by simp)) c.eip (by simp)
  cases err with
  | none => exact hframe
  | some w => exact Cpu.holds_push hframe w (by simp)

/-- **A delivery** leaves its words on the stack, the last one pushed on top. -/
lemma Cpu.holds_deliver (c : Cpu) (gate : Gate) (err : Option UInt32) :
    (c.deliver gate err).Holds (c.frame err) :=
  c.holds_pushFrame err

/-- How far a delivery moves the stack pointer, without an error code and with one. -/
lemma Cpu.esp_deliver_none (c : Cpu) (gate : Gate) : (c.deliver gate none).esp + 12 = c.esp := by
  show c.esp - 4 - 4 - 4 + 12 = c.esp
  grind

lemma Cpu.esp_deliver_some (c : Cpu) (gate : Gate) (w : UInt32) :
    (c.deliver gate (some w)).esp + 16 = c.esp := by
  show c.esp - 4 - 4 - 4 - 4 + 16 = c.esp
  grind

lemma Cpu.sameGeneral_push (c : Cpu) (w : UInt32) : SameGeneral (c.push w).toRegs c.toRegs :=
  ⟨rfl, rfl, rfl, rfl, rfl, rfl, rfl⟩

lemma Cpu.sameGeneral_pushFrame (c : Cpu) (err : Option UInt32) :
    SameGeneral (c.pushFrame err).toRegs c.toRegs := by
  have hframe := ((((c.push c.eflags.val).push c.cs.toUInt32).sameGeneral_push c.eip).trans
    ((c.push c.eflags.val).sameGeneral_push c.cs.toUInt32)).trans (c.sameGeneral_push c.eflags.val)
  cases err with
  | none => exact hframe
  | some w => exact (Cpu.sameGeneral_push _ w).trans hframe

/-- A delivery keeps the general registers, `esp` apart. -/
lemma Cpu.sameGeneral_deliver (c : Cpu) (gate : Gate) (err : Option UInt32) :
    SameGeneral (c.deliver gate err).toRegs c.toRegs := by
  have h := c.sameGeneral_pushFrame err
  exact ⟨h.eax, h.ecx, h.edx, h.ebx, h.ebp, h.esi, h.edi⟩

end Stack

end X86
