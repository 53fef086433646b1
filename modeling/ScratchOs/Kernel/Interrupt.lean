import ScratchOs.Core.X86
import ScratchOs.Kernel.Segment

/-!
# Interrupts

`init_idt` of `kernel/interrupt/interrupt.c` and the stub `entry` of `kernel/interrupt/entry.S`,
from the delivery of an interrupt to the `iret` that ends it.  Code that is interrupted should not
be able to tell; how far this is so for the stub of this kernel is what the module is about.

* `initIdt_apply`, `decode_gateTo` — every gate leads the processor to `entry`.
* `isCode_iff` — the one code segment that `init_gdt` has set up is the one the gates name.
* `entryStub_eq` — the stub is the call of the handler, and an `iret` from where the delivery has
  left the stack.
* `interrupt_none`, `interrupt_some` — the state it ends in without an error code, and with one.
* **`transparent_iff`** — the interrupted code finds its registers again exactly if the exception
  has pushed no error code and the handler itself keeps `eax`, `ecx`, `edx` and the frame.

**What is assumed.**  The handler is any function that follows the calling convention (`Cdecl`, of
`Core/X86`): it returns to its caller and keeps the registers that the convention has it keep.  The
`irq_handle` of the source has an empty body and keeps them all, but the stub is written for any
handler.  The interrupted code runs in ring 0, as all code of this kernel does, so that the stack is
not switched.

**Two ways to fail** come out of it.  The stub saves nothing, so what a handler does to the three
registers that it may overwrite is seen.  And the stub does not drop the error code that some
exceptions push, so that its `iret` takes the words of the frame one place too early.
-/

namespace ScratchOs

open Fields Memory X86

/-! ## The program

The structures and the functions of the source, and the stub as a list of instructions.
-/

/-- `struct Gatedesc`, with its fields in the order of the source. -/
structure Gatedesc where
  gdOff_15_0 : BitVec 16
  gdSel : BitVec 16
  gdArgs : BitVec 5
  gdRsv1 : BitVec 3
  gdType : BitVec 4
  gdS : BitVec 1
  gdDpl : BitVec 2
  gdP : BitVec 1
  gdOff_31_16 : BitVec 16

/-- The fields of a gate, from its first bit to its last. -/
def Gatedesc.fields (g : Gatedesc) : List Field :=
  [⟨16, g.gdOff_15_0⟩, ⟨16, g.gdSel⟩, ⟨5, g.gdArgs⟩, ⟨3, g.gdRsv1⟩, ⟨4, g.gdType⟩, ⟨1, g.gdS⟩,
    ⟨2, g.gdDpl⟩, ⟨1, g.gdP⟩, ⟨16, g.gdOff_31_16⟩]

/-- The eight bytes of a gate as one number. -/
def Gatedesc.bits (g : Gatedesc) : ℕ := pack g.fields

/-- The type of an interrupt gate, `STS_IG32`. -/
def stsIG32 : BitVec 4 := 0xe

/-- The gate that `init_idt` fills in first, and then copies. -/
def gateTo (entry : UInt32) : Gatedesc where
  gdSel := 0x8
  gdP := 1
  gdDpl := 0
  gdS := 0
  gdRsv1 := 0
  gdArgs := 0
  gdType := stsIG32
  gdOff_15_0 := (entry &&& 0x0000ffff).toBitVec.setWidth 16
  gdOff_31_16 := ((entry &&& 0xffff0000) >>> 16).toBitVec.setWidth 16

/-- What `init_idt` sets up: the table, and the operand of `lidt`. -/
structure Idt where
  idt : Fin 48 → Gatedesc
  idtr : DTR

/-- `init_idt`, with the addresses of `idt` and `entry`. -/
def initIdt (idt entry : UInt32) : Idt :=
  let zero : Fin 48 → Gatedesc := fun _ => ⟨0, 0, 0, 0, 0, 0, 0, 0, 0⟩
  let table := Function.update zero 32 (gateTo entry)
  let table := Function.update table 33 (table 32)
  let table := Function.update table 0 (table 32)
  let table := (List.finRange 48).foldl (fun t i => Function.update t i (t 0)) table
  ⟨table, ⟨48 * 8 - 1, idt⟩⟩

/-- The instructions of `entry`. -/
def entryStub (irqHandle : UInt32) : List Instr :=
  [.cli, .pushlEsp, .call irqHandle, .addlEsp 4, .sti, .iret]

/-- `StackFrame`, what the handler is told about the interrupted code. -/
structure StackFrame where
  eip : UInt32
  cs : UInt32
  eflags : UInt32

/-- `irq_handle`, whose body is empty: it only returns. -/
def irqHandle (c : Cpu) : Cpu := { c with eip := load32 c.mem c.esp, esp := c.esp + 4 }

lemma cdecl_irqHandle : Cdecl irqHandle :=
  ⟨fun _ => rfl, fun _ => rfl, fun _ => rfl, fun _ => rfl, fun _ => rfl, fun _ => rfl, fun _ => rfl⟩

/-- Where the linker has put the symbols.  Nothing is assumed about the addresses. -/
structure Symbols where
  gdt : UInt32
  tss : UInt32
  idt : UInt32
  entry : UInt32
  irqHandle : UInt32

/-! ## The processor

The delivery is the part that no line of the source shows.  It reads the gate, checks the selector
in the table of `init_gdt`, and pushes the frame; all of it goes by the bytes that the functions
above have set up.
-/

/-- A descriptor of a code segment of ring 0. -/
def cpuRing0Code (x : ℕ) : Bool :=
  extract 47 1 x == 1 && extract 44 1 x == 1 && (cpuType x)[3] && cpuDpl x == 0

/-- The selector is one of ring 0, and names a code segment of the table. -/
def ring0Code (gdt : Fin 4 → Segdesc) (sel : UInt16) : Bool :=
  if h : sel.toNat / 8 < 4 then
    sel.toNat % 8 == 0 && sel.toNat / 8 != 0 && cpuRing0Code (gdt ⟨sel.toNat / 8, h⟩).bits
  else
    false

/-- The code segments of `init_gdt`, which the selectors are checked against. -/
def Symbols.isCode (k : Symbols) : UInt16 → Bool := ring0Code (initGdt k.gdt k.tss).gdt

/-- The state at the first instruction behind the gate of the vector. -/
def delivered (k : Symbols) (v : Fin 48) (cause : Cause) (s : Cpu) : Cpu :=
  s.deliver (Gate.decode ((initIdt k.idt k.entry).idt v).bits) (errorCode v cause)

/-- **An interrupt**, from its delivery to the end of the stub.  The gate of the vector has to be
present, to name a code segment, and to lead to the stub. -/
def interrupt (k : Symbols) (function : UInt32 → Cpu → Cpu) (v : Fin 48) (cause : Cause) (s : Cpu) :
    Option Cpu :=
  let gate := Gate.decode ((initIdt k.idt k.entry).idt v).bits
  if gate.present && k.isCode gate.selector && gate.offset == k.entry then
    (entryStub k.irqHandle).foldlM (Cpu.exec k.isCode function) (delivered k v cause s)
  else
    none

/-! ## The gates

What the processor finds when it looks up a vector.
-/

/-- The loop copies the first gate to the vectors it visits. -/
lemma fill_apply {g : Gatedesc} (l : List (Fin 48)) (t : Fin 48 → Gatedesc) (h : t 0 = g)
    (v : Fin 48) :
    l.foldl (fun t i => Function.update t i (t 0)) t v = if v ∈ l then g else t v := by
  induction l generalizing t with
  | nil => simp
  | cons i l ih =>
      have hfirst : Function.update t i (t 0) 0 = g := by
        rw [Function.update_apply, ite_self, h]
      rw [List.foldl_cons, ih _ hfirst, Function.update_apply, h]
      by_cases hv : v = i
      · simp [hv]
      · simp [hv]

/-- **Every vector** has the gate to `entry`. -/
lemma initIdt_apply (idt entry : UInt32) (v : Fin 48) :
    (initIdt idt entry).idt v = gateTo entry := by
  refine (fill_apply _ _ ?_ v).trans (if_pos (List.mem_finRange v))
  simp

/-- The processor reads the gate as it was meant: present, an interrupt gate, and with the
address in one piece. -/
lemma decode_gateTo (entry : UInt32) :
    Gate.decode (gateTo entry).bits = ⟨entry, 0x8, true, false⟩ := by
  have hlow : extract 0 16 (gateTo entry).bits = entry.toBitVec.extractLsb' 0 16 := by
    have hmask : (0xffff : BitVec 32).setWidth 16 = BitVec.allOnes 16 := rfl
    rw [← setWidth_shiftRight, BitVec.ushiftRight_zero, ← setWidth_and_mask hmask]
    exact extract_getElem (gateTo entry).fields 0 rfl (by simp [Gatedesc.fields])
  have hhigh : extract 48 16 (gateTo entry).bits = entry.toBitVec.extractLsb' 16 16 := by
    have hmask : (0xffff0000 : BitVec 32).extractLsb' 16 16 = BitVec.allOnes 16 := rfl
    have hand : entry.toBitVec.extractLsb' 16 16
        = (entry.toBitVec &&& 0xffff0000).extractLsb' 16 16 := by
      rw [BitVec.extractLsb'_and, hmask, BitVec.and_allOnes]
    rw [hand, ← setWidth_shiftRight]
    exact extract_getElem (gateTo entry).fields 8 rfl (by simp [Gatedesc.fields])
  have hall : entry.toBitVec.extractLsb' 16 16 ++ entry.toBitVec.extractLsb' 0 16
      = entry.toBitVec := BitVec.extractLsb'_append_extractLsb'
  have hsel : extract 16 16 (gateTo entry).bits = 0x8 :=
    extract_getElem (gateTo entry).fields 1 rfl (by simp [Gatedesc.fields])
  have hpresent : extract 47 1 (gateTo entry).bits = 1 :=
    extract_getElem (gateTo entry).fields 7 rfl (by simp [Gatedesc.fields])
  have htype : extract 40 4 (gateTo entry).bits = stsIG32 :=
    extract_getElem (gateTo entry).fields 4 rfl (by simp [Gatedesc.fields])
  rw [Gate.decode, hlow, hhigh, hall, hsel, hpresent, htype]
  rfl

/-! ## The code segment

The selector in the gates, and in the frames that `iret` takes.
-/

lemma Segdesc.cpuRing0Code_bits (d : Segdesc) :
    cpuRing0Code d.bits = (d.sdP == 1 && d.sdS == 1 && d.sdType[3] && d.sdDpl == 0) := by
  have hp : extract 47 1 d.bits = d.sdP := extract_getElem d.fields 6 rfl (by simp [fields])
  have hs : extract 44 1 d.bits = d.sdS := extract_getElem d.fields 4 rfl (by simp [fields])
  rw [cpuRing0Code, hp, hs, cpuType_bits, cpuDpl_bits]

/-- Of the descriptors of `init_gdt` only the second is one of a code segment. -/
lemma cpuRing0Code_gdt (gdt tss : UInt32) (i : Fin 4) :
    cpuRing0Code ((initGdt gdt tss).gdt i).bits = true ↔ i = 1 := by
  rw [Segdesc.cpuRing0Code_bits]
  match i with
  | 0 => simp [initGdt, setDescriptor]
  | 1 => simp [initGdt, setDescriptor]
  | 2 => simp [initGdt, setDescriptor]
  | 3 => simp [initGdt]

/-- **Code in ring 0 runs in segment 8.** -/
lemma isCode_iff (k : Symbols) (sel : UInt16) : k.isCode sel = true ↔ sel = 8 := by
  rw [Symbols.isCode, ring0Code]
  constructor
  · intro h
    split at h
    · rw [Bool.and_eq_true, Bool.and_eq_true, cpuRing0Code_gdt, Fin.ext_iff] at h
      rcases h with ⟨⟨hlow, -⟩, hindex⟩
      have hrem : sel.toNat % 8 = 0 := eq_of_beq hlow
      have hdiv : sel.toNat / 8 = 1 := hindex
      rw [← UInt16.toNat_inj]
      show sel.toNat = 8
      omega
    · cases h
  · rintro rfl
    have hcode : cpuRing0Code ((initGdt k.gdt k.tss).gdt 1).bits = true :=
      (cpuRing0Code_gdt k.gdt k.tss 1).mpr rfl
    rw [dif_pos (by decide), Bool.and_eq_true]
    exact ⟨by decide, hcode⟩

/-! ## The stub

What the handler sees, and what is left when it has returned.  The stack is described by the words
it holds, from the stack pointer up.
-/

/-- The frame behind a pointer, read word for word. -/
def frameAt (mem : Mem) (a : UInt32) : StackFrame :=
  ⟨load32 mem a, load32 mem (a + 4), load32 mem (a + 4 + 4)⟩

/-- What `iret` takes from a frame, which is what the interrupted code needs to go on. -/
def StackFrame.scene (f : StackFrame) : UInt32 × UInt16 × Eflags :=
  (f.eip, f.cs.toUInt16, .of f.eflags)

lemma scene_of_holds {mem : Mem} {a eip cs eflags : UInt32} {ws : List UInt32}
    (h : Memory.Holds mem a (eip :: cs :: eflags :: ws)) :
    (frameAt mem a).scene = (eip, cs.toUInt16, .of eflags) := by
  rw [StackFrame.scene, frameAt, h.1, h.2.1, h.2.2.1]

/-- `frame`, the argument of the function that is called. -/
def argument (c : Cpu) : UInt32 := load32 c.mem (c.esp + 4)

/-- The function, called here, leaves what the stub does not save as it finds it.  The condition
is about this call only. -/
structure LeavesScene (f : Cpu → Cpu) (c : Cpu) : Prop where
  eax : (f c).eax = c.eax
  ecx : (f c).ecx = c.ecx
  edx : (f c).edx = c.edx
  frame : (frameAt (f c).mem (argument c)).scene = (frameAt c.mem (argument c)).scene

lemma leavesScene_irqHandle (c : Cpu) : LeavesScene irqHandle c := ⟨rfl, rfl, rfl, rfl⟩

/-- The state in which the stub calls the handler. -/
def handlerCall (irqHandle : UInt32) (c : Cpu) : Cpu := c.cli.pushlEsp.enter irqHandle

section Stub

variable {isCode : UInt16 → Bool} {function : UInt32 → Cpu → Cpu} {irqHandle : UInt32} {c : Cpu}
  {ws : List UInt32}

/-- The stack of the handler: the address it returns to, its argument, and what was there. -/
lemma holds_handlerCall (h : c.Holds ws) (hlen : ws.length < 1073741823) :
    (handlerCall irqHandle c).Holds ((c.eip + 1 + 1 + 5) :: c.esp :: ws) :=
  (h.push c.esp (by omega)).push (c.eip + 1 + 1 + 5) (by rw [List.length_cons]; omega)

/-- The handler's stack is two words below the delivery. -/
lemma esp_handlerCall : (handlerCall irqHandle c).esp + 4 + 4 = c.esp := by
  show c.esp - 4 - 4 + 4 + 4 = c.esp
  grind

/-- **The stub** is an `iret` after the handler, from where the stack was before.  The calling
convention is what makes the stack come back there. -/
lemma entryStub_eq (hf : Cdecl (function irqHandle)) :
    (entryStub irqHandle).foldlM (Cpu.exec isCode function) c =
      Cpu.iret isCode { function irqHandle (handlerCall irqHandle c) with esp := c.esp } := by
  have hstack : (handlerCall irqHandle c).Holds [c.eip + 1 + 1 + 5, c.esp] :=
    holds_handlerCall trivial (by decide)
  have hreturn : (function irqHandle (handlerCall irqHandle c)).eip = c.eip + 1 + 1 + 5 :=
    (hf.returns _).trans hstack.1
  have hesp : (function irqHandle (handlerCall irqHandle c)).esp + 4 = c.esp := by
    rw [hf.esp, esp_handlerCall]
  have hcall : c.cli.pushlEsp.exec isCode function (.call irqHandle)
      = some (function irqHandle (handlerCall irqHandle c)) := if_pos hreturn
  calc (entryStub irqHandle).foldlM (Cpu.exec isCode function) c
      = (c.cli.pushlEsp.exec isCode function (.call irqHandle)).bind fun r =>
          ((r.addlEsp 4).sti).iret isCode := by
        simp [entryStub, Cpu.exec]
    _ = (((function irqHandle (handlerCall irqHandle c)).addlEsp 4).sti).iret isCode := by
        rw [hcall, Option.bind_some]
    _ = _ := by
        rw [← hesp]
        rfl

lemma sameGeneral_handlerCall (irqHandle : UInt32) (c : Cpu) :
    SameGeneral (handlerCall irqHandle c).toRegs c.toRegs := by
  have hcli : SameGeneral c.cli.toRegs c.toRegs := ⟨rfl, rfl, rfl, rfl, rfl, rfl, rfl⟩
  have hpush := (c.cli.sameGeneral_push c.cli.esp).trans hcli
  have hcall := (c.cli.pushlEsp.sameGeneral_push (c.cli.pushlEsp.eip + 5)).trans
    ⟨hpush.eax, hpush.ecx, hpush.edx, hpush.ebx, hpush.ebp, hpush.esi, hpush.edi⟩
  exact ⟨hcall.eax, hcall.ecx, hcall.edx, hcall.ebx, hcall.ebp, hcall.esi, hcall.edi⟩

/-- `iret` takes the scene that its frame holds, if the selector in it is one of a code segment. -/
lemma iret_eq (r : Cpu) (esp : UInt32) :
    Cpu.iret isCode { r with esp := esp } =
      if isCode (frameAt r.mem esp).scene.2.1 then
        some { r with
          eip := (frameAt r.mem esp).scene.1
          cs := (frameAt r.mem esp).scene.2.1
          eflags := (frameAt r.mem esp).scene.2.2
          esp := esp + 12 }
      else none := rfl

/-- The handler is given the words that were on the stack. -/
lemma handlerCall_argument (h : c.Holds ws) (hlen : ws.length < 1073741823) :
    argument (handlerCall irqHandle c) = c.esp ∧
      Memory.Holds (handlerCall irqHandle c).mem c.esp ws := by
  have hstack : (handlerCall irqHandle c).Holds _ := holds_handlerCall h hlen
  refine ⟨hstack.2.1, ?_⟩
  rw [← esp_handlerCall (c := c)]
  exact hstack.2.2

end Stub

/-! ## Transparency

The delivery, the handler and the `iret` together.  The cases are split by the error code, since
everything on the stack moves with it.
-/

section Transparent

variable {k : Symbols} {function : UInt32 → Cpu → Cpu} {v : Fin 48} {cause : Cause} {s : Cpu}

/-- Every interrupt reaches the stub, and so ends in its `iret` or in a fault. -/
lemma interrupt_eq (hf : Cdecl (function k.irqHandle)) :
    interrupt k function v cause s = Cpu.iret k.isCode
      { function k.irqHandle (handlerCall k.irqHandle (delivered k v cause s)) with
        esp := (delivered k v cause s).esp } := by
  have hcode : k.isCode 0x8 = true := (isCode_iff k 8).mpr rfl
  rw [interrupt, initIdt_apply, decode_gateTo, ← entryStub_eq hf]
  simp [hcode]

/-- The handler gets a pointer to what the delivery has pushed. -/
lemma argument_delivered (k : Symbols) (v : Fin 48) (cause : Cause) (s : Cpu) :
    argument (handlerCall k.irqHandle (delivered k v cause s)) = (delivered k v cause s).esp ∧
      Memory.Holds (handlerCall k.irqHandle (delivered k v cause s)).mem
        (delivered k v cause s).esp (s.frame (errorCode v cause)) := by
  refine handlerCall_argument (s.holds_deliver _ _) ?_
  cases errorCode v cause <;> simp [Regs.frame]

/-- Without an error code that is the interrupted scene. -/
lemma scene_none (herr : errorCode v cause = none) :
    (frameAt (handlerCall k.irqHandle (delivered k v cause s)).mem
      (delivered k v cause s).esp).scene = (s.eip, s.cs, s.eflags) := by
  have hstack := (argument_delivered k v cause s).2
  rw [herr] at hstack
  rw [scene_of_holds hstack, Eflags.of_val, UInt16.toUInt16_toUInt32]

/-- With one everything has moved: EIP is where CS should be, and CS where EFLAGS should be. -/
lemma scene_some {w : UInt32} (herr : errorCode v cause = some w) :
    (frameAt (handlerCall k.irqHandle (delivered k v cause s)).mem
      (delivered k v cause s).esp).scene = (w, s.eip.toUInt16, .of s.cs.toUInt32) := by
  have hstack := (argument_delivered k v cause s).2
  rw [herr] at hstack
  exact scene_of_holds hstack

/-- The delivery and the call keep the general registers. -/
lemma sameGeneral_delivered :
    SameGeneral (handlerCall k.irqHandle (delivered k v cause s)).toRegs s.toRegs := by
  refine (sameGeneral_handlerCall _ _).trans ?_
  rw [delivered]
  exact s.sameGeneral_deliver _ _

/-- Without an error code the three words that `iret` takes are all there are, and the stack is
where it was. -/
lemma esp_delivered_none (herr : errorCode v cause = none) :
    (delivered k v cause s).esp + 12 = s.esp := by
  rw [delivered, herr]
  exact s.esp_deliver_none _

/-- With an error code one word is left on it, and the stack is not where it was. -/
lemma esp_delivered {w : UInt32} (herr : errorCode v cause = some w) :
    (delivered k v cause s).esp + 12 ≠ s.esp := by
  intro h
  have hesp := s.esp_deliver_some (Gate.decode ((initIdt k.idt k.entry).idt v).bits) w
  rw [delivered, herr] at h
  grind

/-- **Without an error code** a handler that keeps its frame ends in an `iret` to the interrupted
scene, with `eax`, `ecx` and `edx` as the handler has left them. -/
lemma interrupt_none (herr : errorCode v cause = none) (hf : Cdecl (function k.irqHandle))
    (hring : k.isCode s.cs = true) {c : Cpu}
    (hc : c = handlerCall k.irqHandle (delivered k v cause s))
    (hframe : (frameAt (function k.irqHandle c).mem (argument c)).scene
      = (frameAt c.mem (argument c)).scene) :
    ∃ t, interrupt k function v cause s = some t ∧ t.toRegs = { s.toRegs with
      eax := (function k.irqHandle c).eax
      ecx := (function k.irqHandle c).ecx
      edx := (function k.irqHandle c).edx } := by
  have hregs : SameGeneral c.toRegs s.toRegs := hc ▸ sameGeneral_delivered
  have hargument : argument c = (delivered k v cause s).esp :=
    hc ▸ (argument_delivered k v cause s).1
  have hscene : (frameAt c.mem (delivered k v cause s).esp).scene = (s.eip, s.cs, s.eflags) :=
    hc ▸ scene_none herr
  rw [hargument, hscene] at hframe
  rw [interrupt_eq hf, ← hc, iret_eq, hframe, if_pos hring]
  refine ⟨_, rfl, Regs.ext rfl rfl rfl ?_ ?_ ?_ ?_ ?_ rfl rfl rfl⟩
  · exact (hf.ebx c).trans hregs.ebx
  · exact esp_delivered_none herr
  · exact (hf.ebp c).trans hregs.ebp
  · exact (hf.esi c).trans hregs.esi
  · exact (hf.edi c).trans hregs.edi

/-- **After an error code** the interrupted code is not resumed: a handler that keeps its frame ends
in an `iret` to the error code, where EIP names a code segment, and in a fault everywhere else. -/
lemma interrupt_some {w : UInt32} (herr : errorCode v cause = some w)
    (hf : Cdecl (function k.irqHandle)) {c : Cpu}
    (hc : c = handlerCall k.irqHandle (delivered k v cause s))
    (hframe : (frameAt (function k.irqHandle c).mem (argument c)).scene
      = (frameAt c.mem (argument c)).scene) :
    (interrupt k function v cause s).map (fun t => (t.eip, t.cs, t.eflags))
      = if s.eip.toUInt16 = 8 then some (w, 8, .of s.cs.toUInt32) else none := by
  have hargument : argument c = (delivered k v cause s).esp :=
    hc ▸ (argument_delivered k v cause s).1
  have hscene : (frameAt c.mem (delivered k v cause s).esp).scene
      = (w, s.eip.toUInt16, .of s.cs.toUInt32) := hc ▸ scene_some herr
  rw [hargument, hscene] at hframe
  rw [interrupt_eq hf, ← hc, iret_eq, hframe]
  by_cases hcode : s.eip.toUInt16 = 8
  · rw [if_pos hcode, if_pos ((isCode_iff k _).mpr hcode), hcode]
    rfl
  · rw [if_neg hcode, if_neg fun h => hcode ((isCode_iff k _).mp h)]
    rfl

end Transparent

/-- **When interrupts are transparent.**  The stub ends in an `iret` that restores EIP, CS, EFLAGS,
ESP and the eight general registers if and only if no error code was pushed and the handler leaves
`eax`, `ecx`, `edx` and what `iret` reads of its frame as it finds them. -/
theorem transparent_iff (k : Symbols) (function : UInt32 → Cpu → Cpu)
    (hf : Cdecl (function k.irqHandle)) (v : Fin 48) (cause : Cause) (s : Cpu)
    (hring : k.isCode s.cs = true) :
    (∃ t, interrupt k function v cause s = some t ∧ t.toRegs = s.toRegs)
      ↔ errorCode v cause = none ∧
        LeavesScene (function k.irqHandle) (handlerCall k.irqHandle (delivered k v cause s)) := by
  set c := handlerCall k.irqHandle (delivered k v cause s) with hc
  have hregs : SameGeneral c.toRegs s.toRegs := sameGeneral_delivered
  have hargument : argument c = (delivered k v cause s).esp :=
    (argument_delivered k v cause s).1
  constructor
  · rintro ⟨t, hok, ht⟩
    rw [interrupt_eq hf, ← hc, iret_eq] at hok
    split at hok
    · rw [← Option.some.inj hok] at ht
      cases herr : errorCode v cause with
      | some w => exact absurd (congrArg Regs.esp ht) (esp_delivered herr)
      | none =>
          refine ⟨rfl, ?_, ?_, ?_, ?_⟩
          · exact (congrArg Regs.eax ht).trans hregs.eax.symm
          · exact (congrArg Regs.ecx ht).trans hregs.ecx.symm
          · exact (congrArg Regs.edx ht).trans hregs.edx.symm
          · rw [hargument, scene_none herr]
            exact Prod.ext (congrArg Regs.eip ht)
              (Prod.ext (congrArg Regs.cs ht) (congrArg Regs.eflags ht))
    · cases hok
  · rintro ⟨herr, hleaves⟩
    obtain ⟨t, hok, ht⟩ := interrupt_none herr hf hring hc hleaves.frame
    rw [hleaves.eax, hleaves.ecx, hleaves.edx, hregs.eax, hregs.ecx, hregs.edx] at ht
    exact ⟨t, hok, ht⟩

/-- Addresses as they may be in a kernel that is linked at one megabyte. -/
def linked : Symbols := ⟨0x109000, 0x109020, 0x109100, 0x100100, 0x100200⟩

/-- A processor in the middle of the kernel. -/
def interrupted : Cpu where
  eax := 7
  ecx := 0
  edx := 0
  ebx := 0
  esp := 0x7c00
  ebp := 0
  esi := 0
  edi := 0
  eip := 0x100008
  cs := 8
  eflags := .of 0x202
  mem := fun _ => 0

/-- `int $0x0`, which `main` tries out, comes back. -/
theorem transparent_int_zero :
    ∃ t, interrupt linked (fun _ => irqHandle) 0 .interrupt interrupted = some t ∧
      t.toRegs = interrupted.toRegs :=
  (transparent_iff linked (fun _ => irqHandle) cdecl_irqHandle 0 .interrupt interrupted
    ((isCode_iff linked 8).mpr rfl)).mpr ⟨rfl, leavesScene_irqHandle _⟩

/-- A handler that returns a number. -/
def irqHandleZero (c : Cpu) : Cpu := { irqHandle c with eax := 0 }

/-- The number that a handler returns is left in the interrupted code's `eax`; and after a page
fault at `0x100008` the processor goes on at 0, its error code. -/
theorem transparent_fails :
    (Cdecl irqHandleZero ∧
      ∃ t, interrupt linked (fun _ => irqHandleZero) 0 .interrupt interrupted = some t ∧
        t.eax ≠ interrupted.eax) ∧
    ∃ t, interrupt linked (fun _ => irqHandle) 14 (.exception 0) interrupted = some t ∧
      t.eip ≠ interrupted.eip := by
  have hcdecl : Cdecl irqHandleZero :=
    ⟨fun _ => rfl, fun _ => rfl, fun _ => rfl, fun _ => rfl, fun _ => rfl, fun _ => rfl,
      fun _ => rfl⟩
  have hcode : linked.isCode interrupted.cs = true := (isCode_iff linked 8).mpr rfl
  have hnone : errorCode (0 : Fin 48) .interrupt = none := rfl
  have hsome : errorCode (14 : Fin 48) (.exception 0) = some 0 := rfl
  refine ⟨⟨hcdecl, ?_⟩, ?_⟩
  · have hleaves (c : Cpu) : (frameAt (irqHandleZero c).mem (argument c)).scene
        = (frameAt c.mem (argument c)).scene := rfl
    have hreturn : ∃ t, interrupt linked (fun _ => irqHandleZero) 0 .interrupt interrupted
        = some t ∧ t.toRegs = _ := interrupt_none hnone hcdecl hcode rfl (hleaves _)
    rcases hreturn with ⟨t, hok, ht⟩
    refine ⟨t, hok, ?_⟩
    rw [ht]
    show (0 : UInt32) ≠ 7
    decide
  · have hfault : (interrupt linked (fun _ => irqHandle) 14 (.exception 0) interrupted).map _ = _ :=
      interrupt_some hsome cdecl_irqHandle rfl (leavesScene_irqHandle _).frame
    rw [if_pos (by decide)] at hfault
    rcases Option.map_eq_some_iff.mp hfault with ⟨t, hok, ht⟩
    refine ⟨t, hok, ?_⟩
    rw [(Prod.mk.inj ht).1]
    decide

end ScratchOs
