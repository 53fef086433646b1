import ScratchOs.Lib.Arguments

/-!
# The serial line

`kernel/serial.c` and `kernel/print.c`, through which the kernel logs.  The device is a UART whose
first two ports are its data and interrupt registers, or its divisor, by the highest bit of its line
control register.  What the line status register will say is given as a list, and a call that does
not return on it has no result.

* **`initSerial_state`** — whatever state the device was in, characters go to the line afterwards.
* `PrintCall.run_cases` — a call returns exactly when the line is ready often enough.
* **`runCalls_initSerial`** — then the characters of all calls have been sent, in order, none of
  them too early, and each call has returned how many its own were.

**What is assumed.**  A `PrintCall` is a format with arguments that match it and with no more than
`INT_MAX` characters to print, since otherwise the call is not defined; `hexCall`, which prints one
number in hexadecimal, is such a call.  Nothing is assumed about the line: a device that is never
ready makes the first call wait for ever, and this is one of the two cases.
-/

namespace ScratchOs

open Lib

/-! ## The device

As much of a UART as the driver can tell: what is written to a port is kept in the register that is
there, and the data port sends.
-/

/-- A UART: its registers, the bytes it has been given to send, and two notes on how this was
done. -/
structure Uart where
  interruptEnable : UInt8
  fifoControl : UInt8
  lineControl : UInt8
  modemControl : UInt8
  divisorLow : UInt8
  divisorHigh : UInt8
  /-- What the line status register will say. -/
  lineStatus : List UInt8
  sent : List UInt8
  /-- The last thing that was done was to see that there is room for a byte. -/
  seenEmpty : Bool
  /-- A byte was sent when that had not been seen. -/
  overrun : Bool

/-- The divisor is at the first two ports, and what is written to them is not sent. -/
def Uart.Dlab (u : Uart) : Prop := u.lineControl &&& 0x80 ≠ 0

instance (u : Uart) : Decidable u.Dlab := inferInstanceAs (Decidable (_ ≠ _))

/-- `outb(port + reg, val)`, by the state of the line control register. -/
def Uart.outb (u : Uart) (reg : ℕ) (val : UInt8) : Uart :=
  match reg with
  | 0 =>
      if u.Dlab then { u with divisorLow := val }
      else { u with sent := u.sent ++ [val], seenEmpty := false,
                    overrun := u.overrun || !u.seenEmpty }
  | 1 => if u.Dlab then { u with divisorHigh := val } else { u with interruptEnable := val }
  | 2 => { u with fifoControl := val }
  | 3 => { u with lineControl := val }
  | 4 => { u with modemControl := val }
  | _ => u

/-- There is room for a byte, by what the line status register says. -/
def transmitEmpty (status : UInt8) : Bool := status &&& 0x20 ≠ 0

/-- `inb(port + 5)`, when the register says something.  The driver reads no other port. -/
def Uart.status (u : Uart) (val : UInt8) (rest : List UInt8) : Uart :=
  { u with lineStatus := rest, seenEmpty := transmitEmpty val }

/-! ## The driver

The functions of `kernel/serial.c`, and the `putchar` that `kernel/print.c` passes to `vprintfmt`.
-/

/-- `init_serial_com`, write for write. -/
def initSerialCom (u : Uart) : Uart :=
  let u := u.outb 1 0x00
  let u := u.outb 3 0x80
  let u := u.outb 0 0x03
  let u := u.outb 1 0x00
  let u := u.outb 3 0x03
  let u := u.outb 2 0xC7
  u.outb 4 0x0B

/-- `init_serial`, which sets up the first line only. -/
def initSerial (u : Uart) : Uart := initSerialCom u

/-- The loop of `write_serial`, over `is_transmit_empty`.  Where the list ends the loop does not. -/
def waitTransmit (u : Uart) : List UInt8 → Option Uart
  | [] => none
  | val :: rest =>
      if transmitEmpty val then some (u.status val rest) else waitTransmit (u.status val rest) rest

/-- `write_serial`, which waits and then writes to the data port. -/
def writeSerial (ch : UInt8) (u : Uart) : Option Uart :=
  (waitTransmit u u.lineStatus).map fun u => u.outb 0 ch

/-- `serial_putchar`, which is `write_serial` under another name. -/
def serialPutchar (ch : UInt8) (u : Uart) : Option Uart := writeSerial ch u

/-- `putchar` of `print.c`, which also counts. -/
def putchar (ch : UInt32) (x : Uart × ℤ) : Option (Uart × ℤ) := do
  let u ← serialPutchar ch.toUInt8 x.1
  let count ← Lib.int (x.2 + 1)
  some (u, count)

/-- `serial_printf`: the device, and what the call returns. -/
def serialPrintf (fmt : List UInt8) (ap : List Arg) (u : Uart) : Option (Uart × ℤ) :=
  vprintfmt putchar fmt ap (u, 0)

/-! ## Sending

The driver sends a byte only when it has just seen that there is room.  The lemmas count how often
the line is ready, which decides whether a call returns at all.
-/

/-- How often the line will be ready, and so how many characters can be sent. -/
def Uart.room (u : Uart) : ℕ := u.lineStatus.countP transmitEmpty

/-- What `init_serial_com` writes behind its first write. -/
lemma initSerial_rest (u : Uart) :
    (((((u.outb 3 0x80).outb 0 0x03).outb 1 0x00).outb 3 0x03).outb 2 0xC7).outb 4 0x0B
      = { u with
          lineControl := 0x03, divisorLow := 3, divisorHigh := 0, fifoControl := 0xC7,
          modemControl := 0x0B } := by
  have hdlab : (0x80 : UInt8) &&& 0x80 ≠ 0 := by decide
  have hcontrol : u.outb 3 0x80 = { u with lineControl := 0x80 } := rfl
  have hlow : ({ u with lineControl := 0x80 } : Uart).outb 0 0x03
      = { u with lineControl := 0x80, divisorLow := 3 } := if_pos hdlab
  have hhigh : ({ u with lineControl := 0x80, divisorLow := 3 } : Uart).outb 1 0x00
      = { u with lineControl := 0x80, divisorLow := 3, divisorHigh := 0 } := if_pos hdlab
  rw [hcontrol, hlow, hhigh]
  rfl

/-- **After `init_serial`** characters go to the line, whatever state the device was in.  Its
interrupts are off, too, unless the first write went to the divisor. -/
lemma initSerial_state (u : Uart) : ¬ (initSerial u).Dlab
    ∧ (initSerial u).divisorLow = 3 ∧ (initSerial u).divisorHigh = 0
    ∧ (initSerial u).interruptEnable = (if u.Dlab then u.interruptEnable else 0)
    ∧ (initSerial u).sent = u.sent ∧ (initSerial u).overrun = u.overrun
    ∧ (initSerial u).room = u.room := by
  have hline : ¬ ((0x03 : UInt8) &&& 0x80 ≠ 0) := by decide
  by_cases h : u.Dlab
  · have hfirst : u.outb 1 0x00 = { u with divisorHigh := 0 } := if_pos h
    rw [initSerial, initSerialCom, hfirst, initSerial_rest, if_pos h]
    exact ⟨hline, rfl, rfl, rfl, rfl, rfl, rfl⟩
  · have hfirst : u.outb 1 0x00 = { u with interruptEnable := 0 } := if_neg h
    rw [initSerial, initSerialCom, hfirst, initSerial_rest, if_neg h]
    exact ⟨hline, rfl, rfl, rfl, rfl, rfl, rfl⟩

/-- The loop ends at the first time that the line is ready. -/
lemma waitTransmit_cases (u : Uart) (l : List UInt8) :
    (l.countP transmitEmpty = 0 ∧ waitTransmit u l = none)
      ∨ ∃ val rest, transmitEmpty val = true ∧ l.countP transmitEmpty = rest.countP transmitEmpty + 1
        ∧ waitTransmit u l = some (u.status val rest) := by
  induction l generalizing u with
  | nil => exact Or.inl ⟨rfl, rfl⟩
  | cons val rest ih =>
      by_cases hready : transmitEmpty val = true
      · refine Or.inr ⟨val, rest, hready, ?_, ?_⟩
        · rw [List.countP_cons_of_pos hready]
        · rw [waitTransmit, if_pos hready]
      · rw [List.countP_cons_of_neg hready, waitTransmit, if_neg hready]
        exact ih (u.status val rest)

/-- A character is sent when the line is ready, and not before. -/
lemma serialPutchar_cases {u : Uart} (hu : ¬ u.Dlab) (ch : UInt8) :
    (u.room = 0 ∧ serialPutchar ch u = none)
      ∨ ∃ u', serialPutchar ch u = some u' ∧ u.room = u'.room + 1 ∧ ¬ u'.Dlab
        ∧ u'.sent = u.sent ++ [ch] ∧ u'.overrun = u.overrun := by
  rcases waitTransmit_cases u u.lineStatus with ⟨hroom, hnone⟩ | ⟨val, rest, hready, hroom, hsome⟩
  · refine Or.inl ⟨hroom, ?_⟩
    rw [serialPutchar, writeSerial, hnone]
    rfl
  · refine Or.inr ⟨(u.status val rest).outb 0 ch, ?_, ?_⟩
    · rw [serialPutchar, writeSerial, hsome]
      rfl
    · have hline : ¬ (u.status val rest).Dlab := hu
      have hout : (u.status val rest).outb 0 ch
          = { u.status val rest with
              sent := u.sent ++ [ch], seenEmpty := false, overrun := u.overrun || !transmitEmpty val } :=
        if_neg hline
      rw [hout]
      refine ⟨hroom, hu, rfl, ?_⟩
      show (u.overrun || !transmitEmpty val) = u.overrun
      rw [hready, Bool.not_true, Bool.or_false]

/-- **Characters are sent** one after the other, for as long as the line is ready. -/
lemma emit_putchar (out : List UInt32) {u : Uart} (hu : ¬ u.Dlab) {count : ℤ} (hlo : 0 ≤ count)
    (hhi : count + out.length ≤ 2147483647) :
    (u.room < out.length ∧ emit putchar out (u, count) = none)
      ∨ ∃ u', emit putchar out (u, count) = some (u', count + out.length)
        ∧ u.room = u'.room + out.length ∧ ¬ u'.Dlab ∧ u'.sent = u.sent ++ outBytes out
        ∧ u'.overrun = u.overrun := by
  induction out generalizing u count with
  | nil => exact Or.inr ⟨u, by simp, rfl, hu, (List.append_nil _).symm, rfl⟩
  | cons c out ih =>
      rw [List.length_cons] at hhi ⊢
      rcases serialPutchar_cases hu c.toUInt8 with ⟨hroom, hnone⟩ | ⟨u₁, hsome, hroom, hu₁, hsent, hover⟩
      · refine Or.inl ⟨by omega, ?_⟩
        rw [emit_cons, putchar, hnone]
        rfl
      · have hint : Lib.int (count + 1) = some (count + 1) := int_of_le (by omega) (by omega)
        have hput : putchar c (u, count) = some (u₁, count + 1) := by
          rw [putchar, hsome, Option.bind_eq_bind, Option.bind_some, hint]
          rfl
        rw [emit_cons, hput, Option.bind_some]
        rcases ih hu₁ (by omega : 0 ≤ count + 1) (by omega) with
          ⟨hfull, hnone⟩ | ⟨u₂, hrest, hroom₂, hu₂, hsent₂, hover₂⟩
        · exact Or.inl ⟨by omega, hnone⟩
        · refine Or.inr ⟨u₂, ?_, by omega, hu₂, ?_, hover₂.trans hover⟩
          · rw [hrest]
            congr 2
            omega
          · rw [hsent₂, hsent, outBytes_cons, List.append_assoc]
            rfl

/-! ## Calls

What `vprintfmt` gives to its `putch` is known from `Lib/Printfmt`.  Here it arrives on the line.
-/

/-- A call of `serial_printf` that is defined, and what it prints. -/
structure PrintCall where
  fmt : FormatString
  wf : fmt.WF
  ap : List Arg
  out : List UInt32
  render : fmt.render ap = some out
  short : out.length ≤ 2147483647

/-- The part of a `LOG_EXPR` that prints its value, as a call of its own:
`serial_printf("0x%x", v)`. -/
def hexCall (v : UInt32) : PrintCall where
  fmt := hexFormat
  wf := hexFormat_wf
  ap := [.int v]
  out := (ascii "0x" ++ numeralBytes 16 v.toNat).map ofChar
  render := hexFormat_render v
  short := by
    have hlen := length_numeralBytes_le (Nat.lt_trans v.toNat_lt (by decide)) .sixteen
    have hbase : Base.sixteen.val = 16 := rfl
    have hascii : (ascii "0x").length = 2 := by decide
    rw [hbase] at hlen
    rw [List.length_map, List.length_append]
    omega

/-- What the call does: the device after it, and what it returns. -/
def PrintCall.run (c : PrintCall) (u : Uart) : Option (Uart × ℤ) :=
  serialPrintf (c.fmt.text ++ [0]) c.ap u

/-- **One call** returns exactly when the line is ready often enough. -/
lemma PrintCall.run_cases (c : PrintCall) {u : Uart} (hu : ¬ u.Dlab) :
    (u.room < c.out.length ∧ c.run u = none)
      ∨ ∃ u', c.run u = some (u', (c.out.length : ℤ)) ∧ u.room = u'.room + c.out.length ∧ ¬ u'.Dlab
        ∧ u'.sent = u.sent ++ outBytes c.out ∧ u'.overrun = u.overrun := by
  have hshort := c.short
  have hprint : c.run u = emit putchar c.out (u, 0) := by
    rw [PrintCall.run, serialPrintf, vprintfmt_render c.wf, c.render, Option.bind_some]
  have h := emit_putchar c.out hu (Int.le_refl 0) (by omega)
  rw [Int.zero_add] at h
  rw [hprint]
  exact h

/-- Calls one after the other: the device, and what each of them returns. -/
def runCalls : List PrintCall → Uart → Option (Uart × List ℤ)
  | [], u => some (u, [])
  | c :: cs, u => do
      let (u, n) ← c.run u
      let (u, ns) ← runCalls cs u
      some (u, n :: ns)

/-- How many characters calls print. -/
def totalOut (cs : List PrintCall) : ℕ := (cs.map fun c => c.out.length).sum

lemma runCalls_cases (cs : List PrintCall) {u : Uart} (hu : ¬ u.Dlab) :
    (u.room < totalOut cs ∧ runCalls cs u = none)
      ∨ ∃ u', runCalls cs u = some (u', cs.map fun c => (c.out.length : ℤ))
        ∧ u.room = u'.room + totalOut cs ∧ u'.sent = u.sent ++ cs.flatMap (fun c => outBytes c.out)
        ∧ u'.overrun = u.overrun := by
  induction cs generalizing u with
  | nil => exact Or.inr ⟨u, rfl, rfl, (List.append_nil _).symm, rfl⟩
  | cons c cs ih =>
      have htotal : totalOut (c :: cs) = c.out.length + totalOut cs := rfl
      rcases c.run_cases hu with ⟨hroom, hnone⟩ | ⟨u₁, hsome, hroom, hu₁, hsent, hover⟩
      · refine Or.inl ⟨by omega, ?_⟩
        rw [runCalls, hnone]
        rfl
      · have hcalls : runCalls (c :: cs) u = (runCalls cs u₁).bind fun x =>
            some (x.1, (c.out.length : ℤ) :: x.2) := by
          rw [runCalls, hsome]
          rfl
        rw [hcalls]
        rcases ih hu₁ with ⟨hfull, hnone⟩ | ⟨u₂, hrest, hroom₂, hsent₂, hover₂⟩
        · refine Or.inl ⟨by omega, ?_⟩
          rw [hnone]
          rfl
        · refine Or.inr ⟨u₂, ?_, by omega, ?_, hover₂.trans hover⟩
          · rw [hrest]
            rfl
          · rw [hsent₂, hsent, List.append_assoc]
            rfl

/-- **After `init_serial`, from whatever state,** calls of `serial_printf` return exactly when the
line is ready as often as they print a character.  Then the characters of all of them have been
sent, in order, no byte was sent before the line was seen to be ready, and each call has returned
how many characters it printed. -/
theorem runCalls_initSerial (cs : List PrintCall) (u : Uart) :
    ((∃ x, runCalls cs (initSerial u) = some x) ↔ totalOut cs ≤ u.room)
      ∧ ∀ u' ns, runCalls cs (initSerial u) = some (u', ns) →
        ns = cs.map (fun c => (c.out.length : ℤ))
          ∧ u'.sent = u.sent ++ cs.flatMap (fun c => outBytes c.out) ∧ u'.overrun = u.overrun := by
  obtain ⟨hline, -, -, -, hsent, hover, hroom⟩ := initSerial_state u
  rcases runCalls_cases cs hline with ⟨hfull, hnone⟩ | ⟨u₁, hsome, hroom₁, hsent₁, hover₁⟩
  · rw [hnone]
    refine ⟨iff_of_false (fun ⟨x, hx⟩ => ?_) (by omega), fun u' ns h => ?_⟩
    · cases hx
    · cases h
  · rw [hsome]
    refine ⟨iff_of_true ⟨_, rfl⟩ (by omega), fun u' ns h => ?_⟩
    cases h
    exact ⟨rfl, by rw [hsent₁, hsent], by rw [hover₁, hover]⟩

/-- A device that has sent nothing yet and is ready after every second look. -/
def slowUart : Uart where
  interruptEnable := 1
  fifoControl := 0
  lineControl := 0x80
  modemControl := 0
  divisorLow := 12
  divisorHigh := 0
  lineStatus := (List.replicate 8 [0x00, 0x60]).flatten
  sent := []
  seenEmpty := false
  overrun := false

/-- Two values are printed on it. -/
theorem runCalls_initSerial_hex :
    ∃ u', runCalls [hexCall 42, hexCall 255] (initSerial slowUart) = some (u', [4, 4])
      ∧ u'.sent = ascii "0x2a0xff" ∧ u'.overrun = false := by
  have hout42 : (hexCall 42).out = (ascii "0x2a").map ofChar := by
    have hrender := hexFormat_render_byte 42 (by decide) (by decide)
    exact (Option.some.inj ((hexCall 42).render.symm.trans hrender)).trans (by decide)
  have hout255 : (hexCall 255).out = (ascii "0xff").map ofChar := by
    have hrender := hexFormat_render_byte 255 (by decide) (by decide)
    exact (Option.some.inj ((hexCall 255).render.symm.trans hrender)).trans (by decide)
  obtain ⟨hreturns, hall⟩ := runCalls_initSerial [hexCall 42, hexCall 255] slowUart
  obtain ⟨⟨u', ns⟩, hrun⟩ := hreturns.mpr <| by
    simp only [totalOut, List.map_cons, List.map_nil, hout42, hout255]
    decide
  obtain ⟨rfl, hsent, hover⟩ := hall u' ns hrun
  refine ⟨u', ?_, ?_, hover⟩
  · rw [hrun]
    simp only [List.map_cons, List.map_nil, hout42, hout255]
    rfl
  · rw [hsent]
    simp only [List.flatMap_cons, List.flatMap_nil, hout42, hout255]
    decide

end ScratchOs
