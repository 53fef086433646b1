import Mathlib.Data.List.TakeWhile
import ScratchOs.Core.Runs
import ScratchOs.Core.Words

/-!
# The keyboard

`get_key` of `kernel/keyboard.c` on the bytes that successive reads of port `0x60` give.  A call
reads as many bytes as it needs; one that never returns reads all there are.  So the bytes are a
list, and a call that does not return on it has no result.

* `Event` — a press or a release, of one byte or of two.
* `pollUntil_events` — the loops of `get_key` go from event to event.
* **`getKey_served`** — what one call returns, and how far it reads.
* **`get_key_decodes`** — the same for successive calls.

**What is assumed** is that every byte the keyboard sends is read once, as if each of them were
new.  This is how the loops are meant; what becomes of the keys when bytes are read again is in
`Kernel/Polling`.  No assumption is made about the events themselves: keys may be held down, repeat,
and be released in any order.
-/

namespace ScratchOs

open Runs Words

/-! ## The program

The polling is in the two loops, which differ in what they wait for.  They are one function with the
condition as a parameter.
-/

/-- The two loops of `get_key`: read a scancode of one byte, or of two if the first is `0xE0`, until
one meets the condition of the loop. -/
def pollUntil (stop : UInt32 → Bool) : List UInt8 → Option (UInt32 × List UInt8)
  | [] => none
  | byte :: reads =>
      if byte = 0xE0 then
        match reads with
        | [] => none
        | byte' :: reads =>
            let scancode := (byte.toUInt32 <<< 8) ||| byte'.toUInt32
            if stop scancode then some (scancode, reads) else pollUntil stop reads
      else
        let scancode := byte.toUInt32
        if stop scancode then some (scancode, reads) else pollUntil stop reads

/-- What ends the first loop: bit 7 of the scancode is clear. -/
def isPress (scancode : UInt32) : Bool := scancode &&& 0x80 = 0

/-- What ends the second loop: the scancode of the press with bit 7 set. -/
def isRelease (scancode esccode : UInt32) : Bool := esccode = scancode ||| 0x80

/-- `get_key`, with the bytes that it has not read. -/
def getKey (reads : List UInt8) : Option (UInt32 × List UInt8) := do
  let (scancode, reads) ← pollUntil isPress reads
  let (_, reads) ← pollUntil (isRelease scancode) reads
  some (scancode, reads)

/-- Successive calls of `get_key`, each on the bytes that the one before has not read. -/
def getKeys : ℕ → List UInt8 → Option (List UInt32 × List UInt8)
  | 0, reads => some ([], reads)
  | n + 1, reads => do
      let (scancode, reads) ← getKey reads
      let (scancodes, reads) ← getKeys n reads
      some (scancode :: scancodes, reads)

/-! ## Events

A stream of bytes that a keyboard sends, cut into events.  The first byte `0xE0` is the mark of a
second one and never an event by itself.
-/

/-- An event of a key: one byte that is not `0xE0`, or any byte after `0xE0`. -/
structure Event where
  extended : Bool
  byte : UInt8
  plain : extended = false → byte ≠ 0xE0
  deriving DecidableEq

/-- The scancode of a byte after `0xE0`, as the code puts the two together. -/
def extendedCode (byte : UInt8) : UInt32 := ((0xE0 : UInt8).toUInt32 <<< 8) ||| byte.toUInt32

namespace Event

/-- The bytes that the port gives for an event. -/
def bytes (e : Event) : List UInt8 := if e.extended then [0xE0, e.byte] else [e.byte]

/-- The scancode that `get_key` makes of an event. -/
def code (e : Event) : UInt32 :=
  if e.extended then extendedCode e.byte else e.byte.toUInt32

/-- An event is a press, or else a release. -/
def IsPress (e : Event) : Prop := e.byte < 0x80

/-- A release of the key that another event presses. -/
def Releases (r p : Event) : Prop := r.extended = p.extended ∧ r.byte = p.byte ||| 0x80

instance (e : Event) : Decidable e.IsPress := inferInstanceAs (Decidable (_ < _))

instance (r p : Event) : Decidable (r.Releases p) := inferInstanceAs (Decidable (_ ∧ _))

end Event

/-- The bytes that the port gives for events. -/
def bytesOf (es : List Event) : List UInt8 := es.flatMap Event.bytes

@[simp] lemma bytesOf_nil : bytesOf [] = [] := rfl

@[simp] lemma bytesOf_cons (e : Event) (es : List Event) :
    bytesOf (e :: es) = e.bytes ++ bytesOf es := List.flatMap_cons

/-! ## Scancodes

The tests of `get_key` are about scancodes; here they are said of events.  Bit 7 is the same in a
byte and in the scancode that ends with it.
-/

/-- The two bytes as digits: the first one counts 256 times. -/
lemma toNat_extendedCode (b : UInt8) : (extendedCode b).toNat = 57344 + b.toNat := by
  have hb : b.toUInt32.toNat = b.toNat := UInt8.toNat_toUInt32 b
  have hlt : b.toNat < 256 := b.toNat_lt
  rw [extendedCode, toNat_shl_or _ _ _ (by decide) (by rw [hb]; exact hlt), hb]
  rfl

lemma toNat_code (e : Event) :
    e.code.toNat = (if e.extended then 57344 else 0) + e.byte.toNat := by
  rw [Event.code]
  cases e.extended with
  | false => simp
  | true => simpa using toNat_extendedCode e.byte

/-- Bit 7 of a scancode is bit 7 of its last byte. -/
lemma isPress_code_iff (e : Event) : isPress e.code ↔ e.IsPress := by
  have hall : ∀ b : Fin 256, ((57344 + b.val) &&& 128 = 0 ↔ b.val < 128) ∧
      (b.val &&& 128 = 0 ↔ b.val < 128) := by decide +kernel
  have hbyte := hall ⟨e.byte.toNat, e.byte.toNat_lt⟩
  have hmask : (0x80 : UInt32).toNat = 128 := rfl
  have hlimit : (0x80 : UInt8).toNat = 128 := rfl
  rw [isPress, decide_eq_true_eq, ← UInt32.toNat_inj, UInt32.toNat_and, toNat_code, hmask,
    Event.IsPress, UInt8.lt_iff_toNat_lt, hlimit]
  cases e.extended with
  | false => simpa using hbyte.2
  | true => simpa using hbyte.1

/-- The number of the scancode that `get_key` waits for after a press. -/
lemma toNat_code_or {p : Event} (h : p.IsPress) :
    (p.code ||| 0x80).toNat = (if p.extended then 57344 else 0) + (p.byte.toNat + 128) := by
  have hall : ∀ b : Fin 256, b.val < 128 → (57344 + b.val) ||| 128 = 57344 + (b.val + 128) ∧
      b.val ||| 128 = b.val + 128 := by decide +kernel
  have hbyte := hall ⟨p.byte.toNat, p.byte.toNat_lt⟩ (UInt8.lt_iff_toNat_lt.mp h)
  have hmask : (0x80 : UInt32).toNat = 128 := rfl
  rw [UInt32.toNat_or, toNat_code, hmask]
  cases p.extended with
  | false => simpa using hbyte.2
  | true => simpa using hbyte.1

/-- The byte that releases a key, as a number. -/
lemma toNat_byte_or {b : UInt8} (h : b < 0x80) : (b ||| 0x80).toNat = b.toNat + 128 := by
  have hall : ∀ n : Fin 256, n.val < 128 → n.val ||| 128 = n.val + 128 := by decide +kernel
  rw [UInt8.toNat_or]
  exact hall ⟨b.toNat, b.toNat_lt⟩ (UInt8.lt_iff_toNat_lt.mp h)

/-- **`get_key` waits for the release** of the key that was pressed. -/
lemma isRelease_code_iff {p r : Event} (h : p.IsPress) :
    isRelease p.code r.code ↔ r.Releases p := by
  have hp := UInt8.lt_iff_toNat_lt.mp h
  have hr := r.byte.toNat_lt
  have hlimit : (0x80 : UInt8).toNat = 128 := rfl
  rw [isRelease, decide_eq_true_eq, ← UInt32.toNat_inj, toNat_code, toNat_code_or h,
    Event.Releases, ← UInt8.toNat_inj, toNat_byte_or h]
  cases r.extended <;> cases p.extended <;> simp <;> omega

/-! ## The loops

On the bytes of events a loop is always between two of them, which makes the second byte of an event
no scancode of its own.
-/

@[simp] lemma pollUntil_nil (stop : UInt32 → Bool) : pollUntil stop [] = none := rfl

/-- The loop on a scancode of one byte. -/
lemma pollUntil_plain (stop : UInt32 → Bool) {b : UInt8} (hb : b ≠ 0xE0) (reads : List UInt8) :
    pollUntil stop (b :: reads)
      = if stop b.toUInt32 then some (b.toUInt32, reads) else pollUntil stop reads := by
  conv_lhs => unfold pollUntil
  rw [if_neg hb]

/-- The loop on a scancode of two bytes. -/
lemma pollUntil_pair (stop : UInt32 → Bool) (b : UInt8) (reads : List UInt8) :
    pollUntil stop (0xE0 :: b :: reads)
      = if stop (extendedCode b) then some (extendedCode b, reads) else pollUntil stop reads := by
  conv_lhs => unfold pollUntil
  rw [if_pos rfl]
  rfl

/-- **A loop that has ended** has passed some bytes by and stopped at an event behind them, whatever
comes after it. -/
lemma pollUntil_stops {stop : UInt32 → Bool} {reads rest : List UInt8} {c : UInt32}
    (h : pollUntil stop reads = some (c, rest)) :
    ∃ (passed : List UInt8) (e : Event), reads = passed ++ (e.bytes ++ rest) ∧ c = e.code ∧
      stop e.code ∧ ∀ more, pollUntil stop (passed ++ (e.bytes ++ more)) = some (c, more) := by
  fun_induction pollUntil stop reads with
  | case1 => cases h
  | case2 => cases h
  | case3 b reads scancode hstop =>
      rcases Prod.mk.inj (Option.some.inj h) with ⟨rfl, rfl⟩
      refine ⟨[], ⟨true, b, nofun⟩, rfl, rfl, hstop, fun more => ?_⟩
      exact (pollUntil_pair stop b more).trans (if_pos hstop)
  | case4 b reads scancode hstop ih =>
      obtain ⟨passed, e, rfl, hc, he, hmore⟩ := ih h
      refine ⟨0xE0 :: b :: passed, e, rfl, hc, he, fun more => ?_⟩
      exact (pollUntil_pair stop b _).trans ((if_neg hstop).trans (hmore more))
  | case5 b reads hplain scancode hstop =>
      rcases Prod.mk.inj (Option.some.inj h) with ⟨rfl, rfl⟩
      refine ⟨[], ⟨false, b, fun _ => hplain⟩, rfl, rfl, hstop, fun more => ?_⟩
      exact (pollUntil_plain stop hplain more).trans (if_pos hstop)
  | case6 b reads hplain scancode hstop ih =>
      obtain ⟨passed, e, rfl, hc, he, hmore⟩ := ih h
      refine ⟨b :: passed, e, rfl, hc, he, fun more => ?_⟩
      exact (pollUntil_plain stop hplain _).trans ((if_neg hstop).trans (hmore more))

lemma pollUntil_event (stop : UInt32 → Bool) (e : Event) (reads : List UInt8) :
    pollUntil stop (e.bytes ++ reads)
      = if stop e.code then some (e.code, reads) else pollUntil stop reads := by
  rw [Event.bytes, Event.code]
  cases hext : e.extended with
  | false => simpa using pollUntil_plain stop (e.plain hext) reads
  | true => simpa using pollUntil_pair stop e.byte reads

/-- **The loops go from event to event.** -/
lemma pollUntil_events {stop : UInt32 → Bool} {es : List Event} {c : UInt32} {rest : List UInt8} :
    pollUntil stop (bytesOf es) = some (c, rest) ↔
      ∃ before e after, es = before ++ e :: after ∧ (∀ x ∈ before, ¬ stop x.code) ∧
        stop e.code ∧ c = e.code ∧ rest = bytesOf after := by
  induction es with
  | nil => simp
  | cons e es ih =>
      rw [bytesOf_cons, pollUntil_event]
      by_cases hstop : stop e.code
      · rw [if_pos hstop, Option.some.injEq, Prod.mk.injEq]
        constructor
        · rintro ⟨rfl, rfl⟩
          exact ⟨[], e, es, rfl, by simp, hstop, rfl, rfl⟩
        · rintro ⟨before, f, after, hes, hbefore, -, rfl, rfl⟩
          cases before with
          | nil =>
              rw [List.nil_append, List.cons.injEq] at hes
              rw [hes.1, hes.2]
              exact ⟨rfl, rfl⟩
          | cons g before =>
              rw [List.cons_append, List.cons.injEq] at hes
              exact absurd hstop (hes.1 ▸ hbefore g List.mem_cons_self)
      · rw [if_neg hstop, ih]
        constructor
        · rintro ⟨before, f, after, rfl, hbefore, hf, rfl, rfl⟩
          refine ⟨e :: before, f, after, rfl, ?_, hf, rfl, rfl⟩
          intro x hx
          rcases List.mem_cons.mp hx with rfl | hx
          · exact hstop
          · exact hbefore x hx
        · rintro ⟨before, f, after, hes, hbefore, hf, rfl, rfl⟩
          cases before with
          | nil =>
              rw [List.nil_append, List.cons.injEq] at hes
              exact absurd hf (hes.1 ▸ hstop)
          | cons g before =>
              rw [List.cons_append, List.cons.injEq] at hes
              exact ⟨before, f, after, hes.2, fun x hx => hbefore x (List.mem_cons_of_mem _ hx),
                hf, rfl, rfl⟩

/-! ## Calls

The two loops together.  The first finds a press, the second the release that belongs to it.
-/

/-- A call serves a press: the first press there is, up to the first release of its key. -/
def Served (es : List Event) (p : Event) (rest : List Event) : Prop :=
  ∃ before middle r, es = before ++ p :: (middle ++ r :: rest) ∧
    (∀ e ∈ before, ¬ e.IsPress) ∧ p.IsPress ∧ (∀ e ∈ middle, ¬ e.Releases p) ∧ r.Releases p

/-- **One call of `get_key`** returns on the bytes of events exactly if there is a press with a
later release of its key, and then it returns the code of the first press and reads up to that
release.  What happens between the two is lost. -/
theorem getKey_served {es : List Event} {c : UInt32} {rest : List UInt8} :
    getKey (bytesOf es) = some (c, rest) ↔
      ∃ p es', Served es p es' ∧ c = p.code ∧ rest = bytesOf es' := by
  simp only [getKey, Option.bind_eq_bind, Option.bind_eq_some_iff, Prod.exists, pollUntil_events,
    isPress_code_iff]
  constructor
  · rintro ⟨c₁, r₁, ⟨before, p, after, rfl, hbefore, hp, rfl, rfl⟩, c₂, r₂, hrelease, hsome⟩
    rw [Option.some.injEq, Prod.mk.injEq] at hsome
    rcases hsome with ⟨rfl, rfl⟩
    rcases pollUntil_events.mp hrelease with ⟨middle, r, es', rfl, hmiddle, hr, -, rfl⟩
    simp only [isRelease_code_iff hp] at hmiddle hr
    exact ⟨p, es', ⟨before, middle, r, rfl, hbefore, hp, hmiddle, hr⟩, rfl, rfl⟩
  · rintro ⟨p, es', ⟨before, middle, r, rfl, hbefore, hp, hmiddle, hr⟩, rfl, rfl⟩
    refine ⟨_, _, ⟨before, p, _, rfl, hbefore, hp, rfl, rfl⟩, r.code, _, ?_, rfl⟩
    refine pollUntil_events.mpr ⟨middle, r, es', rfl, ?_, ?_, rfl, rfl⟩
    · simpa only [isRelease_code_iff hp] using hmiddle
    · simpa only [isRelease_code_iff hp] using hr

/-! ## Successive calls

A run of calls is a run in the sense of `Core/Runs`, whose states are the events not yet read.
-/

/-- **Successive calls** serve one press after the other. -/
lemma getKeys_served {n : ℕ} {es : List Event} {codes : List UInt32} {rest : List UInt8} :
    getKeys n (bytesOf es) = some (codes, rest) ↔
      ∃ keys es', keys.length = n ∧ Run Served es keys es' ∧ codes = keys.map Event.code ∧
        rest = bytesOf es' := by
  induction n generalizing es codes with
  | zero =>
      rw [getKeys, Option.some.injEq, Prod.mk.injEq]
      constructor
      · rintro ⟨rfl, rfl⟩
        exact ⟨[], es, rfl, Run.nil es, rfl, rfl⟩
      · rintro ⟨keys, es', hlen, hrun, rfl, rfl⟩
        obtain rfl := List.length_eq_zero_iff.mp hlen
        rw [run_nil.mp hrun]
        exact ⟨rfl, rfl⟩
  | succ n ih =>
      simp only [getKeys, Option.bind_eq_bind, Option.bind_eq_some_iff, Prod.exists, getKey_served]
      constructor
      · rintro ⟨c, r₁, ⟨p, es₁, hserved, rfl, rfl⟩, codes', r₂, hrest, hsome⟩
        rw [Option.some.injEq, Prod.mk.injEq] at hsome
        rcases hsome with ⟨rfl, rfl⟩
        rcases ih.mp hrest with ⟨keys, es', rfl, hrun, rfl, rfl⟩
        exact ⟨p :: keys, es', rfl, Run.cons hserved hrun, rfl, rfl⟩
      · rintro ⟨keys, es', hlen, hrun, rfl, rfl⟩
        cases keys with
        | nil => cases hlen
        | cons p keys =>
            rcases run_cons.mp hrun with ⟨es₁, hserved, hrun⟩
            have hrest := ih.mpr ⟨keys, es', Nat.succ.inj hlen, hrun, rfl, rfl⟩
            exact ⟨_, _, ⟨p, es₁, hserved, rfl, rfl⟩, _, _, hrest, rfl⟩

/-- The presses that calls serve are presses of the stream, each of them behind the one before. -/
lemma served_positions {es es' keys : List Event} (hrun : Run Served es keys es') :
    ∃ positions : List ℕ, positions.Pairwise (· < ·) ∧
      positions.map (es[·]?) = keys.map some := by
  induction hrun with
  | nil => exact ⟨[], List.Pairwise.nil, rfl⟩
  | @cons es es₁ es' p keys hserved hrun ih =>
      rcases ih with ⟨positions, hsorted, hevents⟩
      rcases hserved with ⟨before, middle, r, rfl, -⟩
      have hshift : ∀ i, (before ++ p :: (middle ++ r :: es₁))[i + (before.length
          + middle.length + 2)]? = es₁[i]? := by
        intro i
        have hbefore : i + (before.length + middle.length + 2) - before.length
            = i + middle.length + 1 + 1 := by omega
        have hmiddle : i + middle.length + 1 - middle.length = i + 1 := by omega
        rw [List.getElem?_append_right (by omega), hbefore, List.getElem?_cons_succ,
          List.getElem?_append_right (by omega), hmiddle, List.getElem?_cons_succ]
      refine ⟨before.length :: positions.map (· + (before.length + middle.length + 2)), ?_, ?_⟩
      · rw [List.pairwise_cons, List.pairwise_map]
        constructor
        · intro i hi
          rcases List.mem_map.mp hi with ⟨j, -, rfl⟩
          omega
        · exact hsorted.imp fun hij => by omega
      · rw [List.map_cons, List.map_cons, List.map_map, ← hevents]
        congr 1
        · rw [List.getElem?_append_right le_rfl, Nat.sub_self, List.getElem?_cons_zero]
        · exact List.map_congr_left fun i _ => hshift i

/-- **Overlapping key events are decoded in their place.**  Successive calls of `get_key` return if
and only if each of them finds a press with a later release of its key.  Each returns the code of
the first press it finds unread, and leaves unread what follows the first release of that key; the
presses they return are different events of the stream, in its order. -/
theorem get_key_decodes (es : List Event) (n : ℕ) (codes : List UInt32) (rest : List UInt8) :
    getKeys n (bytesOf es) = some (codes, rest) ↔
      ∃ (keys es' : List Event) (positions : List ℕ), keys.length = n ∧ Run Served es keys es' ∧
        codes = keys.map Event.code ∧ rest = bytesOf es' ∧ positions.Pairwise (· < ·) ∧
          positions.map (es[·]?) = keys.map some := by
  rw [getKeys_served]
  constructor
  · rintro ⟨keys, es', hlen, hrun, hcodes, hrest⟩
    rcases served_positions hrun with ⟨positions, hsorted, hevents⟩
    exact ⟨keys, es', positions, hlen, hrun, hcodes, hrest, hsorted, hevents⟩
  · rintro ⟨keys, es', positions, hlen, hrun, hcodes, hrest, -⟩
    exact ⟨keys, es', hlen, hrun, hcodes, hrest⟩

/-- Two keys held at once: space goes down, the cursor key goes down, repeats and goes up, then
space goes up.  The call returns space, and what it has not read is the press that follows. -/
example : getKey [0x39, 0xE0, 0x48, 0xE0, 0x48, 0xE0, 0xC8, 0xB9, 0xE0, 0x50]
    = some (0x39, [0xE0, 0x50]) := by decide

end ScratchOs
