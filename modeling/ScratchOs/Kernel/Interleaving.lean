import ScratchOs.Core.Runs
import ScratchOs.Kernel.Interrupt

/-!
# Programs that are interrupted

What the interrupts of `kernel/interrupt/` mean for the code that runs while they come: at whatever
points of a run devices ask for one.  The stub is not interrupted itself, since the gates clear IF
and `sti` lets nothing in before the `iret` behind it.

An interrupt writes its frame and the frames of the handler below the stack pointer of the code that
it interrupts.  Correct code does not notice, because the bytes below its stack pointer mean nothing
to it; but it takes some care to say so.  When a function makes room for its locals these bytes come
to lie above the stack pointer again, with whatever the last interrupt has left there, and they
still mean nothing until the function has written them.  So a run of the code comes with the set of
bytes that are **junk** at each of its moments, which contains the bytes below the stack pointer and
may contain others.

* `Alike` — two states that differ in nothing but junk.
* `Heedless` — a run of code that never counts on junk.
* `interrupt_alike` — one interrupt changes nothing but bytes below the stack pointer.
* **`interrupts_invisible`** — so a heedless run ends as if there had been no interrupts.
* `Alike.movlToTop`, `Alike.load`, `Alike.lealEsp`, `Alike.ret` — what the instructions of a
  function do to the junk.  With them `heedless_leaf` shows that a function with locals, one of
  which it never writes, is heedless from its first instruction to its `ret`.
* **`game_uninterrupted`** — and `main` enters the game so that it gets no interrupt at all.

**What is assumed** of the handler is that it is quiet: it keeps all registers and writes to nothing
but its own stack.  As to the registers less would not do, by `transparent_iff` of
`Kernel/Interrupt`; the handler of the source keeps all of them and is quiet.
-/

namespace ScratchOs

open Bytes Memory X86 Runs

/-! ## Requests

What it takes for code not to notice an interrupt, and for an interrupt not to be noticed.
-/

/-- A device asks for an interrupt, which it gets if IF is set; otherwise nothing happens. -/
def request (k : Symbols) (function : UInt32 → Cpu → Cpu) (v : Fin 48) (c : Cpu) : Option Cpu :=
  if c.eflags.val &&& flagIF ≠ 0 then interrupt k function v .interrupt c else some c

/-- The stack ends at `limit`, and the byte is one below the stack pointer: the next push may
overwrite it. -/
def Dead (limit esp a : UInt32) : Prop := Within limit (esp - limit).toNat a

/-- The states have the same registers, and differ in no byte of memory that is not junk. -/
structure Alike (junk : Set UInt32) (c c' : Cpu) : Prop where
  regs : c.toRegs = c'.toRegs
  mem : ∀ a ∉ junk, c.mem a = c'.mem a

/-- **Code that does not count on junk**, for the first `count` steps of its run from `s`.  After
`n` steps `junk n` is what the code has not written since it was last below the stack pointer: all
that lies below it now, and the locals that have not been written yet.  The condition is about the
states of this run only, and the code is free to move its stack pointer and to return: if junk had
other values, it would do the same, up to what is junk then. -/
structure Heedless (limit : UInt32) (step : Cpu → Cpu) (s : Cpu) (count : ℕ)
    (junk : ℕ → Set UInt32) : Prop where
  dead : ∀ n ≤ count, ∀ a, Dead limit (step^[n] s).esp a → a ∈ junk n
  step : ∀ n < count, ∀ c, Alike (junk n) c (step^[n] s) →
    Alike (junk (n + 1)) (step c) (step (step^[n] s))

/-- A handler that keeps all registers, and writes to nothing but `depth` bytes of stack. -/
structure Quiet (depth : ℕ) (f : Cpu → Cpu) : Prop extends Cdecl f where
  eax : ∀ c, (f c).eax = c.eax
  ecx : ∀ c, (f c).ecx = c.ecx
  edx : ∀ c, (f c).edx = c.edx
  mem : ∀ c a, ¬ Within (c.esp - UInt32.ofNat depth) depth a → (f c).mem a = c.mem a

lemma quiet_irqHandle : Quiet 0 irqHandle :=
  { cdecl_irqHandle with
    eax := fun _ => rfl
    ecx := fun _ => rfl
    edx := fun _ => rfl
    mem := fun _ _ _ => rfl }

/-- A state in which the code can be interrupted: it is in ring 0, and there is room on its stack
for the stub and the handler. -/
structure Interruptible (k : Symbols) (limit : UInt32) (depth : ℕ) (c : Cpu) : Prop where
  ring : k.isCode c.cs = true
  room : 20 + depth ≤ (c.esp - limit).toNat

/-! ## Pushing

The words that the delivery, the stub and the handler push go below the stack pointer of the
interrupted code, and nothing else in memory changes.
-/

/-- The second state is the first after `n` bytes have been pushed. -/
structure Pushed (limit : UInt32) (n : ℕ) (c c' : Cpu) : Prop where
  esp : (c'.esp - limit).toNat + n = (c.esp - limit).toNat
  mem : ∀ a, ¬ Dead limit c.esp a → c'.mem a = c.mem a

section Pushed

variable {limit : UInt32} {n m : ℕ} {c c' c'' : Cpu} {a : UInt32}

/-- Live bytes are not among those that are pushed next. -/
lemma not_within_of_not_dead {esp : UInt32} (h : ¬ Dead limit esp a) {n : ℕ}
    (hroom : n ≤ (esp - limit).toNat) : ¬ Within (esp - UInt32.ofNat n) n a := by
  intro hin
  have hlt := (esp - limit).toNat_lt
  have hrest : (esp - limit - UInt32.ofNat n).toNat = (esp - limit).toNat - n := by
    rw [UInt32.toNat_sub, UInt32.toNat_ofNat']
    omega
  have hdist : a - limit = (a - (esp - UInt32.ofNat n)) + (esp - limit - UInt32.ofNat n) := by grind
  refine h ?_
  rw [Within] at hin
  rw [Dead, Within, hdist, UInt32.toNat_add, hrest]
  omega

lemma Pushed.not_dead (h : Pushed limit n c c') (ha : ¬ Dead limit c.esp a) :
    ¬ Dead limit c'.esp a := by
  have hesp := h.esp
  rw [Dead, Within] at ha ⊢
  omega

lemma pushed_refl (limit : UInt32) (c : Cpu) : Pushed limit 0 c c := ⟨rfl, fun _ _ => rfl⟩

/-- One word more is pushed. -/
lemma Pushed.push (h : Pushed limit n c c') (w : UInt32) (hroom : n + 4 ≤ (c.esp - limit).toNat) :
    Pushed limit (n + 4) c (c'.push w) := by
  have hesp := h.esp
  refine ⟨?_, fun a ha => ?_⟩
  · have hlt := (c'.esp - limit).toNat_lt
    have hdist : (c'.push w).esp - limit = c'.esp - limit - 4 := by
      show c'.esp - 4 - limit = c'.esp - limit - 4
      grind
    have hfour : (4 : UInt32).toNat = 4 := rfl
    rw [hdist, UInt32.toNat_sub, hfour]
    omega
  · have hword := not_within_of_not_dead (h.not_dead ha) (n := 4) (by omega)
    exact (store32_of_not_within _ _ hword).trans (h.mem a ha)

/-- The delivery and the call together push five words. -/
lemma pushed_handlerCall (k : Symbols) (v : Fin 48) (s : Cpu)
    (hroom : 20 ≤ (s.esp - limit).toNat) :
    Pushed limit 20 s (handlerCall k.irqHandle (delivered k v .interrupt s)) := by
  have hflags := (pushed_refl limit s).push s.eflags.val (by omega)
  have hcs := hflags.push s.cs.toUInt32 (by omega)
  have heip := hcs.push s.eip (by omega)
  have hdelivered : Pushed limit 12 s (delivered k v .interrupt s) := ⟨heip.esp, heip.mem⟩
  have hpointer := hdelivered.push (delivered k v .interrupt s).esp (by omega)
  have hreturn := hpointer.push ((delivered k v .interrupt s).eip + 1 + 1 + 5) (by omega)
  exact ⟨hreturn.esp, hreturn.mem⟩

end Pushed

/-! ## One interrupt

The stub runs from its delivery to its `iret` as a whole.  Afterwards the registers are back, and
the junk has other values.
-/

section Alike

variable {k : Symbols} {function : UInt32 → Cpu → Cpu} {limit : UInt32} {depth : ℕ} {v : Fin 48}
  {s : Cpu}

/-- `iret` only loads, and stores nothing. -/
lemma mem_of_iret {isCode : UInt16 → Bool} {c t : Cpu} (h : c.iret isCode = some t) :
    t.mem = c.mem := by
  rw [Cpu.iret] at h
  split at h
  · rw [← Option.some.inj h]
  · cases h

/-- A quiet handler leaves the frame that it is given. -/
lemma Quiet.frame {f : Cpu → Cpu} (hf : Quiet depth f) {c : Cpu} (hroom : depth + 20 ≤ 4294967296)
    (hargument : argument c = c.esp + 8) :
    frameAt (f c).mem (argument c) = frameAt c.mem (argument c) := by
  have hload : ∀ j ≤ 16, load32 (f c).mem (c.esp + UInt32.ofNat j)
      = load32 c.mem (c.esp + UInt32.ofNat j) := by
    intro j hj
    refine load32_congr fun i hi => hf.mem c _ ?_
    have hdist : c.esp + UInt32.ofNat j + UInt32.ofNat i - (c.esp - UInt32.ofNat depth)
        = UInt32.ofNat (depth + j + i) := by
      rw [UInt32.ofNat_add, UInt32.ofNat_add]
      grind
    rw [Within, hdist, UInt32.toNat_ofNat', Nat.mod_eq_of_lt (by omega)]
    omega
  have hsecond : c.esp + 8 + 4 = c.esp + UInt32.ofNat 12 := by grind
  have hthird : c.esp + 8 + 4 + 4 = c.esp + UInt32.ofNat 16 := by grind
  rw [frameAt, frameAt, hargument, hthird, hsecond, hload 12 (by omega), hload 16 (by omega)]
  rw [show c.esp + 8 = c.esp + UInt32.ofNat 8 from rfl, hload 8 (by omega)]

/-- **One interrupt** leaves the registers, and all bytes but those below the stack pointer.
This is where transparency is used. -/
lemma interrupt_alike (hf : Quiet depth (function k.irqHandle))
    (hs : Interruptible k limit depth s) :
    ∃ t, interrupt k function v .interrupt s = some t ∧ Alike {a | Dead limit s.esp a} t s := by
  have hroom := hs.room
  have hlt := (s.esp - limit).toNat_lt
  set c := handlerCall k.irqHandle (delivered k v .interrupt s) with hc
  have hpushed : Pushed limit 20 s c := pushed_handlerCall k v s (by omega)
  have hregs : SameGeneral c.toRegs s.toRegs := sameGeneral_delivered
  have hargument : argument c = c.esp + 8 := by
    have hdelivered : c.esp + 4 + 4 = (delivered k v .interrupt s).esp := esp_handlerCall
    have hpointer : argument c = (delivered k v .interrupt s).esp :=
      (argument_delivered k v .interrupt s).1
    rw [hpointer, ← hdelivered]
    grind
  have hframe := congrArg StackFrame.scene (hf.frame (by omega) hargument)
  have herr : errorCode v .interrupt = none := rfl
  obtain ⟨t, hok, ht⟩ := interrupt_none herr hf.toCdecl hs.ring hc hframe
  rw [hf.eax, hf.ecx, hf.edx, hregs.eax, hregs.ecx, hregs.edx] at ht
  refine ⟨t, hok, ht, fun a ha => ?_⟩
  rw [interrupt_eq hf.toCdecl, ← hc] at hok
  rw [mem_of_iret hok]
  have hesp := hpushed.esp
  exact (hf.mem c a (not_within_of_not_dead (hpushed.not_dead ha) (by omega))).trans
    (hpushed.mem a ha)

/-- **A request** is not noticed: a state that differs in nothing but junk from one that can be
interrupted still does so afterwards. -/
lemma request_alike {junk : Set UInt32} (hf : Quiet depth (function k.irqHandle)) {c : Cpu}
    (hc : Interruptible k limit depth c) (hdead : ∀ a, Dead limit c.esp a → a ∈ junk)
    (h : Alike junk s c) : ∃ t, request k function v s = some t ∧ Alike junk t c := by
  rw [request]
  by_cases hif : s.eflags.val &&& flagIF ≠ 0
  · have hcs : s.cs = c.cs := congrArg Regs.cs h.regs
    have hesp : s.esp = c.esp := congrArg Regs.esp h.regs
    have hs : Interruptible k limit depth s := ⟨hcs ▸ hc.ring, hesp ▸ hc.room⟩
    obtain ⟨t, hok, ht⟩ := interrupt_alike (v := v) hf hs
    rw [if_pos hif]
    refine ⟨t, hok, ht.regs.trans h.regs, fun a ha => ?_⟩
    have hlive : ¬ Dead limit s.esp a := fun hin => ha (hdead a (hesp ▸ hin))
    exact (ht.mem a hlive).trans (h.mem a ha)
  · rw [if_neg hif]
    exact ⟨s, rfl, h⟩

end Alike

/-! ## Whole runs

The run lemma: what one request keeps, all of them keep, with steps of the code in between.  The
induction is on the turns that the code and the devices take.
-/

/-- **Interrupts are invisible**, at whatever points of a run they come.  Where code that does not
count on junk can be interrupted all the way when it runs alone, it is always resumed when devices
ask for interrupts in between, and it ends with the registers, and up to junk with the memory, that
it ends with alone. -/
theorem interrupts_invisible (k : Symbols) (function : UInt32 → Cpu → Cpu) {limit : UInt32}
    {depth : ℕ} (hf : Quiet depth (function k.irqHandle)) {step : Cpu → Cpu}
    (turns : List (Turn (Fin 48))) (s : Cpu) {junk : ℕ → Set UInt32}
    (hcode : Heedless limit step s (ownSteps turns) junk)
    (hs : ∀ n ≤ ownSteps turns, Interruptible k limit depth (step^[n] s)) :
    ∃ t, interleaved step (request k function) turns s = some t
      ∧ Alike (junk (ownSteps turns)) t (step^[ownSteps turns] s) := by
  refine interleaved_invariant turns (R := fun n c => Alike (junk n) c (step^[n] s)) ?_ ?_
    ⟨rfl, fun _ _ => rfl⟩
  · intro n hn c hc
    rw [Function.iterate_succ_apply']
    exact hcode.step n hn c hc
  · intro n hn v c hc
    exact request_alike hf (hs n hn) (hcode.dead n hn) hc

/-! ## Code with locals

That the condition on the code is one that compiled functions meet.  Each instruction says what it
does to the junk, and a function is the instructions one after the other.
-/

section Junk

variable {junk junk' : Set UInt32} {c c' : Cpu}

/-- More may be junk than before, as it is when the stack pointer goes up. -/
lemma Alike.mono (h : Alike junk c c') (hsub : junk ⊆ junk') : Alike junk' c c' :=
  ⟨h.regs, fun a ha => h.mem a fun hin => ha (hsub hin)⟩

/-- Moving the stack pointer does not look at any byte. -/
lemma Alike.lealEsp (h : Alike junk c c') (n : UInt32) :
    Alike junk (c.lealEsp n) (c'.lealEsp n) := by
  refine ⟨?_, h.mem⟩
  show ({ c.toRegs with eip := c.eip + 4, esp := c.esp + n } : Regs)
    = { c'.toRegs with eip := c'.eip + 4, esp := c'.esp + n }
  rw [h.regs]

/-- **A word that is loaded** must not be junk. -/
lemma Alike.load (h : Alike junk c c') (hword : ∀ i < 4, c'.esp + UInt32.ofNat i ∉ junk) :
    load32 c.mem c.esp = load32 c'.mem c'.esp := by
  rw [h.regs]
  exact load32_congr fun i hi => h.mem _ (hword i hi)

lemma Alike.movlFromTop (h : Alike junk c c') (hword : ∀ i < 4, c'.esp + UInt32.ofNat i ∉ junk) :
    Alike junk c.movlFromTop c'.movlFromTop := by
  refine ⟨?_, h.mem⟩
  show ({ c.toRegs with eip := c.eip + 3, ecx := load32 c.mem c.esp } : Regs)
    = { c'.toRegs with eip := c'.eip + 3, ecx := load32 c'.mem c'.esp }
  rw [h.load hword, h.regs]

lemma Alike.ret (h : Alike junk c c') (hword : ∀ i < 4, c'.esp + UInt32.ofNat i ∉ junk) :
    Alike junk c.ret c'.ret := by
  refine ⟨?_, h.mem⟩
  show ({ c.toRegs with eip := load32 c.mem c.esp, esp := c.esp + 4 } : Regs)
    = { c'.toRegs with eip := load32 c'.mem c'.esp, esp := c'.esp + 4 }
  rw [h.load hword, h.regs]

/-- **A word that is stored** is not junk any more. -/
lemma Alike.movlToTop (h : Alike junk c c') (hsub : ∀ a ∈ junk, ¬ Within c'.esp 4 a → a ∈ junk') :
    Alike junk' c.movlToTop c'.movlToTop := by
  refine ⟨?_, fun a ha => ?_⟩
  · show ({ c.toRegs with eip := c.eip + 3 } : Regs) = { c'.toRegs with eip := c'.eip + 3 }
    rw [h.regs]
  · show store32 c.mem c.esp c.eax a = store32 c'.mem c'.esp c'.eax a
    rw [h.regs]
    by_cases hin : Within c'.esp 4 a
    · rw [store32, store32, copy_of_within _ _ hin, copy_of_within _ _ hin,
        byteAt_write _ _ _ hin, byteAt_write _ _ _ hin]
      exact (if_pos ⟨Nat.zero_le _, hin⟩).trans (if_pos ⟨Nat.zero_le _, hin⟩).symm
    · rw [store32_of_not_within _ _ hin, store32_of_not_within _ _ hin]
      exact h.mem a fun hjunk => ha (hsub a hjunk hin)

end Junk

/-- A function with two locals.  It writes the lower one and reads it back; the other is never
written. -/
def leaf (c : Cpu) : Cpu :=
  if c.eip = 0x100008 then c.lealEsp (-8)
  else if c.eip = 0x10000c then c.movlToTop
  else if c.eip = 0x10000f then c.movlFromTop
  else if c.eip = 0x100012 then c.lealEsp 8
  else c.ret

/-- What is junk while it runs: the bytes below the stack pointer of its caller, but for its first
local from where it is written until its room is given back; and in the end the return address too,
which has been popped. -/
def leafJunk : ℕ → Set UInt32
  | 0 => {a | Dead 0x7000 0x7c00 a}
  | 1 => {a | Dead 0x7000 0x7c00 a}
  | 2 => {a | Dead 0x7000 0x7c00 a ∧ ¬ Within 0x7bf8 4 a}
  | 3 => {a | Dead 0x7000 0x7c00 a ∧ ¬ Within 0x7bf8 4 a}
  | 4 => {a | Dead 0x7000 0x7c00 a}
  | _ => {a | Dead 0x7000 0x7c04 a}

/-- The address of a byte on the stack, from `limit` on. -/
lemma toNat_sub_limit (a : UInt32) (k : ℕ) (hk : k < 4294967296) :
    (a - (0x7000 + UInt32.ofNat k)).toNat = ((a - 0x7000).toNat + (4294967296 - k)) % 4294967296 := by
  have hsub : a - (0x7000 + UInt32.ofNat k) = a - 0x7000 - UInt32.ofNat k := by grind
  rw [hsub, UInt32.toNat_sub, UInt32.toNat_ofNat', Nat.mod_eq_of_lt hk, Nat.add_comm]

lemma heedless_leaf : Heedless 0x7000 leaf interrupted 5 leafJunk where
  dead n hn a ha := by
    have hlt := (a - 0x7000).toNat_lt
    -- below both locals
    have hlow : Dead 0x7000 0x7bf8 a → Dead 0x7000 0x7c00 a ∧ ¬ Within 0x7bf8 4 a := by
      intro h
      have hbelow : (a - 0x7000).toNat < 0xbf8 := h
      have hdist := toNat_sub_limit a 0xbf8 (by decide)
      refine ⟨show (a - 0x7000).toNat < 0xc00 by omega, ?_⟩
      show ¬ (a - (0x7000 + UInt32.ofNat 0xbf8)).toNat < 4
      omega
    match n, hn with
    | 0, _ => exact ha
    | 1, _ => exact (hlow ha).1
    | 2, _ => exact hlow ha
    | 3, _ => exact hlow ha
    | 4, _ => exact ha
    | 5, _ => exact ha
  step n hn c hc := by
    have heip : c.eip = (leaf^[n] interrupted).eip := congrArg Regs.eip hc.regs
    match n, hn with
    | 0, _ =>
        have hpc : c.eip = 0x100008 := heip
        rw [leaf, if_pos hpc]
        exact hc.lealEsp (-8)
    | 1, _ =>
        have hpc : c.eip = 0x10000c := heip
        rw [leaf, if_neg (by rw [hpc]; decide), if_pos hpc]
        exact hc.movlToTop fun a ha hout => ⟨ha, hout⟩
    | 2, _ =>
        -- the local has been written, so it is not junk
        have hpc : c.eip = 0x10000f := heip
        rw [leaf, if_neg (by rw [hpc]; decide), if_neg (by rw [hpc]; decide), if_pos hpc]
        refine hc.movlFromTop fun i hi hjunk => hjunk.2 ?_
        show Within 0x7bf8 4 (0x7bf8 + UInt32.ofNat i)
        rw [Within, toNat_add_sub _ (by omega)]
        exact hi
    | 3, _ =>
        have hpc : c.eip = 0x100012 := heip
        rw [leaf, if_neg (by rw [hpc]; decide), if_neg (by rw [hpc]; decide),
          if_neg (by rw [hpc]; decide), if_pos hpc]
        exact (hc.lealEsp 8).mono fun a ha => ha.1
    | 4, _ =>
        -- the return address is above the stack pointer
        have hpc : c.eip = 0x100016 := heip
        rw [leaf, if_neg (by rw [hpc]; decide), if_neg (by rw [hpc]; decide),
          if_neg (by rw [hpc]; decide), if_neg (by rw [hpc]; decide)]
        refine (hc.ret fun i hi hjunk => ?_).mono fun a ha => ?_
        · have hbelow : (0x7000 + UInt32.ofNat (0xc00 + i) - 0x7000).toNat < 0xc00 := by
            have hsum : (0x7c00 : UInt32) + UInt32.ofNat i = 0x7000 + UInt32.ofNat (0xc00 + i) := by
              rw [UInt32.ofNat_add, ← UInt32.add_assoc]
              rfl
            rw [← hsum]
            exact hjunk
          rw [toNat_add_sub _ (by omega)] at hbelow
          omega
        · have hbelow : (a - 0x7000).toNat < 0xc00 := ha
          show (a - 0x7000).toNat < 0xc04
          omega

/-- Interrupts before, inside of and behind a function with locals, which returns to its caller as
if there had been none. -/
theorem interrupts_invisible_leaf :
    ∃ t, interleaved leaf (request linked fun _ => irqHandle) [.other 0, .step, .other 1, .step,
        .step, .other 0, .step, .other 1, .step, .other 0] interrupted = some t
      ∧ Alike (leafJunk 5) t (leaf^[5] interrupted) := by
  refine interrupts_invisible linked (fun _ => irqHandle) quiet_irqHandle
    [.other 0, .step, .other 1, .step, .step, .other 0, .step, .other 1, .step, .other 0] interrupted
    heedless_leaf fun n hn => ?_
  have hring : linked.isCode 8 = true := (isCode_iff linked 8).mpr rfl
  match n, hn with
  | 0, _ => exact ⟨hring, by decide⟩
  | 1, _ => exact ⟨hring, by decide⟩
  | 2, _ => exact ⟨hring, by decide⟩
  | 3, _ => exact ⟨hring, by decide⟩
  | 4, _ => exact ⟨hring, by decide⟩
  | 5, _ => exact ⟨hring, by decide⟩

/-! ## Entering the game

`main` builds a frame by hand and ends in an `iret` from it, which is how the game comes to run with
the flags of that frame.  IF is not among them, and nothing in the game sets it.
-/

/-- A frame put into memory. -/
def storeFrame (mem : Mem) (a : UInt32) (f : StackFrame) : Mem :=
  store32 (store32 (store32 mem a f.eip) (a + 4) f.cs) (a + 4 + 4) f.eflags

/-- `thread_task` of `main`: the frame that the game is entered through. -/
def threadTask (gameMainloop : UInt32) : StackFrame where
  eip := gameMainloop
  cs := 0x8
  eflags := 0x2

/-- The end of `main`, where `frame` is the address of `thread_task`. -/
def enterGame (k : Symbols) (gameMainloop frame : UInt32) (c : Cpu) : Option Cpu :=
  let c := { c with mem := storeFrame c.mem frame (threadTask gameMainloop) }
  -- `mov %0, %%eax; mov %%eax, %%esp; iret`
  let c := { c with eax := frame }
  let c := { c with esp := c.eax }
  c.iret k.isCode

/-- A frame is read as it was put there. -/
lemma frameAt_storeFrame (mem : Mem) (a : UInt32) (f : StackFrame) :
    frameAt (storeFrame mem a f) a = f := by
  have hfirst : a - (a + 4) = 4294967292 := by grind
  have hthird : a - (a + 4 + 4) = 4294967288 := by grind
  have hsecond : a + 4 - (a + 4 + 4) = 4294967292 := by grind
  rw [frameAt, storeFrame, load32_store32_of_apart _ _ (by rw [hthird]; decide),
    load32_store32_of_apart _ _ (by rw [hfirst]; decide), load32_store32,
    load32_store32_of_apart _ _ (by rw [hsecond]; decide), load32_store32, load32_store32]

/-- The state in which the game begins. -/
def entered (gameMainloop frame : UInt32) (c : Cpu) : Cpu :=
  { c with
    eax := frame
    esp := frame + 12
    eip := gameMainloop
    cs := 0x8
    eflags := .of 0x2
    mem := storeFrame c.mem frame (threadTask gameMainloop) }

/-- **`main` enters the game.**  The selector in the frame is the one of the kernel's code. -/
lemma enterGame_eq (k : Symbols) (gameMainloop frame : UInt32) (c : Cpu) :
    enterGame k gameMainloop frame c = some (entered gameMainloop frame c) := by
  have hcode : k.isCode 0x8 = true := (isCode_iff k 8).mpr rfl
  have hframe := frameAt_storeFrame c.mem frame (threadTask gameMainloop)
  rw [enterGame]
  refine (iret_eq { c with
    mem := storeFrame c.mem frame (threadTask gameMainloop), eax := frame } frame).trans ?_
  rw [hframe]
  exact if_pos hcode

/-- **The game is not interrupted.**  Whatever devices ask for and whenever, `main` enters
`game_mainloop` with the stack pointer behind the frame, and code that does not set IF runs from
there as it runs alone. -/
theorem game_uninterrupted (k : Symbols) (function : UInt32 → Cpu → Cpu)
    (gameMainloop frame : UInt32) (c : Cpu) {step : Cpu → Cpu}
    (hstep : ∀ s, s.eflags.val &&& flagIF = 0 → (step s).eflags.val &&& flagIF = 0)
    (turns : List (Turn (Fin 48))) :
    ∃ s, enterGame k gameMainloop frame c = some s
      ∧ s.eip = gameMainloop ∧ s.cs = 0x8 ∧ s.esp = frame + 12
      ∧ interleaved step (request k function) turns s = some (step^[ownSteps turns] s) := by
  refine ⟨_, enterGame_eq k gameMainloop frame c, rfl, rfl, rfl, ?_⟩
  have hoff : (entered gameMainloop frame c).eflags.val &&& flagIF = 0 := by
    show flagsOf 0x2 &&& flagIF = 0
    decide
  -- the state is the one that the code reaches alone, and IF is clear in it
  let alone (n : ℕ) (s : Cpu) : Prop :=
    s = step^[n] (entered gameMainloop frame c) ∧ s.eflags.val &&& flagIF = 0
  have hown : ∀ n < ownSteps turns, ∀ s, alone n s → alone (n + 1) (step s) :=
    fun n _ s h => ⟨by rw [Function.iterate_succ_apply', h.1], hstep s h.2⟩
  have hother : ∀ n ≤ ownSteps turns, ∀ v s, alone n s →
      ∃ s', request k function v s = some s' ∧ alone n s' :=
    fun n _ v s h => ⟨s, by rw [request, if_neg (not_not.mpr h.2)], h⟩
  obtain ⟨t, hrun, rfl, -⟩ := interleaved_invariant turns hown hother ⟨rfl, hoff⟩
  exact hrun

/-- Code that counts in `eax`. -/
def counting (c : Cpu) : Cpu := { c with eax := c.eax + 1 }

/-- A game that counts, and a device that does not get its interrupt. -/
theorem game_uninterrupted_counting :
    ∃ s, enterGame linked 0x100300 0x7bf0 interrupted = some s
      ∧ s.eip = 0x100300 ∧ s.cs = 0x8 ∧ s.esp = 0x7bf0 + 12
      ∧ interleaved counting (request linked fun _ => irqHandle) [.step, .other 1, .step] s
        = some (counting (counting s)) := by
  have hcounting : ∀ s : Cpu, s.eflags.val &&& flagIF = 0 →
      (counting s).eflags.val &&& flagIF = 0 := fun _ h => h
  exact game_uninterrupted linked (fun _ => irqHandle) 0x100300 0x7bf0 interrupted hcounting
    [.step, .other 1, .step]

end ScratchOs
