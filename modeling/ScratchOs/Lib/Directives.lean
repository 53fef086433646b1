import ScratchOs.Core.Runs
import ScratchOs.Lib.Printfmt

/-!
# What a format prints

The parts that `vprintfmt` is made of, each with the characters that it prints.  A program that
prints is a fold over `putch`; the lemmas here replace it by the list of characters, which can be
reasoned about without a `putch`.

* `emit` — the characters of a list, handed to `putch` one after the other.
* **`printnum_eq`**, **`printString_eq`** — a number and a string in their fields, as lists.
* `Item` — what an escape sequence may hold in front of its last character; **`reswitch_items`** —
  the code reads the characters of some items as these items.

**What may fail.**  A `putch` that fails at some character leaves no result, and with it the whole
call has none.  And a field so wide that a computation with `int` overflows is undefined, in the
source and in the lists.

**The notation of a format** has one ambiguity.  A 0 in front of a number is a flag, and digits that
follow each other are one number.  So the items of an escape sequence are assumed to be `Separate`,
and `Lib/FormatStrings` shows that every string is written by such items.
-/

namespace ScratchOs.Lib

open Numerals

/-! ## Characters one after the other

The list of what is printed, and the same list handed to a `putch`.
-/

/-- The bytes that characters are stored as, or sent as. -/
def outBytes (out : List UInt32) : List UInt8 := out.map UInt32.toUInt8

lemma outBytes_cons (c : UInt32) (out : List UInt32) :
    outBytes (c :: out) = c.toUInt8 :: outBytes out := rfl

section Emit

variable {σ : Type} (putch : UInt32 → σ → Option σ)

/-- The characters of a list, one after the other. -/
def emit (out : List UInt32) (d : σ) : Option σ := out.foldlM (fun d c => putch c d) d

@[simp] lemma emit_nil (d : σ) : emit putch [] d = some d := rfl

@[simp] lemma emit_cons (c : UInt32) (out : List UInt32) (d : σ) :
    emit putch (c :: out) d = (putch c d).bind (emit putch out) := rfl

@[simp] lemma emit_singleton (c : UInt32) (d : σ) : emit putch [c] d = putch c d :=
  Option.bind_fun_some (putch c d)

lemma emit_append (out out' : List UInt32) (d : σ) :
    emit putch (out ++ out') d = (emit putch out d).bind (emit putch out') := by
  rw [emit, List.foldlM_append]
  rfl

lemma emit_concat (out : List UInt32) (c : UInt32) (d : σ) :
    emit putch (out ++ [c]) d = (emit putch out d).bind (putch c) := by
  rw [emit_append]
  congr 1
  funext d
  exact emit_singleton putch c d

lemma pads_eq (c : UInt32) (n : ℕ) (d : σ) :
    pads putch c n d = emit putch (List.replicate n c) d := by
  induction n generalizing d with
  | zero => rfl
  | succ n ih =>
      rw [pads, List.replicate_succ, emit_cons, Option.bind_eq_bind]
      congr 1
      funext d
      exact ih d

end Emit

/-! ## Numbers

`printnum` prints the digits from the last one on, but as it calls itself first they come out in the
right order.  The padding comes out of the innermost call.
-/

/-- The byte of a digit, as the table of the code has it. -/
def digitByte (i : ℕ) : UInt8 := UInt8.ofNat (if i < 10 then 48 + i else 87 + i)

/-- The table of the digits, by place. -/
lemma digit_table {i : ℕ} (hi : i < 16) :
    (ascii "0123456789abcdef")[i]? = some (digitByte i) := by
  have hall : ∀ i : Fin 16, (ascii "0123456789abcdef")[i.val]? = some (digitByte i) := by decide
  exact hall ⟨i, hi⟩

/-- The digits of a number as bytes, first digit first. -/
def numeralBytes (b n : ℕ) : List UInt8 := (numeral b n).map digitByte

lemma numeralBytes_of_lt {b n : ℕ} (h : n < b) : numeralBytes b n = [digitByte n] := by
  rw [numeralBytes, numeral_of_lt h]
  rfl

lemma numeralBytes_of_le {b n : ℕ} (hb : 2 ≤ b) (h : b ≤ n) :
    numeralBytes b n = numeralBytes b (n / b) ++ [digitByte (n % b)] := by
  rw [numeralBytes, numeral_of_le hb h, List.map_append]
  rfl

/-- A number in its field: the padding is in front.  What the width is counted down to is an
`int`. -/
def numText (num : ℕ) (base : Base) (width : ℤ) (padc : UInt8) : Option (List UInt32) :=
  let text := numeralBytes base.val num
  (int (width - text.length)).map fun left =>
    List.replicate left.toNat (ofChar padc) ++ text.map ofChar

lemma int_of_le {z : ℤ} (hlo : -2147483648 ≤ z) (hhi : z ≤ 2147483647) : int z = some z :=
  if_pos ⟨hlo, hhi⟩

lemma int_of_lt {z : ℤ} (h : z < -2147483648) : int z = none :=
  if_neg fun hz => Int.not_le.mpr h hz.1

lemma int_of_gt {z : ℤ} (h : 2147483647 < z) : int z = none :=
  if_neg fun hz => Int.not_le.mpr h hz.2

lemma int_eq_some {z v : ℤ} (h : int z = some v) : v = z := by
  rw [int] at h
  split at h
  · exact (Option.some.inj h).symm
  · cases h

section Printnum

variable {σ : Type} (putch : UInt32 → σ → Option σ) {num : ℕ} {base : Base} (width : ℤ)
  (padc : UInt8) (d : σ)

/-- The last digit of a number. -/
lemma last_digit (num : ℕ) (base : Base) :
    (ascii "0123456789abcdef")[num % base.val]? = some (digitByte (num % base.val)) := by
  have hb := base.two_le
  exact digit_table (Nat.lt_of_lt_of_le (Nat.mod_lt _ (by omega)) base.le)

lemma printnum_of_lt (h : num < base.val) :
    printnum putch num base width padc d
      = (int (width - 1)).bind fun left => emit putch
          (List.replicate left.toNat (ofChar padc) ++ [ofChar (digitByte num)]) d := by
  rw [printnum, last_digit, Nat.mod_eq_of_lt h]
  simp only [Nat.not_le.mpr h, if_false, pads_eq, emit_concat]
  rfl

lemma printnum_of_le (h : base.val ≤ num) :
    printnum putch num base width padc d
      = (int (width - 1)).bind fun left => (printnum putch (num / base.val) base left padc d).bind
          (putch (ofChar (digitByte (num % base.val)))) := by
  rw [printnum, last_digit]
  simp only [h, if_true]
  rfl

/-- **`printnum` prints the numeral**, in its field. -/
theorem printnum_eq (num : ℕ) (base : Base) (hwidth : width ≤ 2147483647) :
    printnum putch num base width padc d
      = (numText num base width padc).bind fun out => emit putch out d := by
  revert width hwidth
  refine numeral_induction base.two_le (fun n h width _ => ?_) (fun n h ih width hwidth => ?_) num
  · rw [printnum_of_lt putch width padc d h, numText, numeralBytes_of_lt h]
    cases int (width - 1) with
    | none => rfl
    | some left => rfl
  · have hlen : ((numeralBytes base.val n).length : ℤ)
        = (numeralBytes base.val (n / base.val)).length + 1 := by
      rw [numeralBytes_of_le base.two_le h, List.length_append]
      rfl
    rw [printnum_of_le putch width padc d h, numText]
    by_cases hlow : -2147483648 ≤ width - 1
    · have hrest : width - (numeralBytes base.val n).length
          = width - 1 - (numeralBytes base.val (n / base.val)).length := by omega
      rw [int_of_le hlow (by omega), Option.bind_some, ih (width - 1) (by omega), numText, hrest,
        numeralBytes_of_le base.two_le h]
      cases int (width - 1 - (numeralBytes base.val (n / base.val)).length) with
      | none => rfl
      | some left =>
          simp only [Option.map_some, Option.bind_some, List.map_append, ← List.append_assoc]
          exact (emit_concat putch _ _ d).symm
    · rw [int_of_lt (by omega), int_of_lt (by omega)]
      rfl

end Printnum

/-! ## Strings

`%s` with its width and its precision.  The length is measured first if there is padding in front,
and the string is then read again.
-/

/-- The locals of an escape sequence are of type `int`. -/
structure Spec.Fits (st : Spec) : Prop where
  width_ge : -2147483648 ≤ st.width
  width_le : st.width ≤ 2147483647
  precision_ge : -2147483648 ≤ st.precision
  precision_le : st.precision ≤ 2147483647

/-- How many characters of a string are printed: those in front of the 0, and not more than the
precision, if there is one. -/
def charCount (p : List UInt8) (precision : ℤ) : ℕ :=
  if precision < 0 then p.idxOf 0 else min (p.idxOf 0) precision.toNat

/-- A string in its field.  The byte behind the characters that are printed is read too. -/
def stringText (st : Spec) (addr : UInt32) (obj : List UInt8) : Option (List UInt32) :=
  let p := if addr = 0 then ascii "(null)" ++ [0] else obj
  let n := charCount p st.precision
  let text := (p.take n).map (shown st.altflag)
  if n < p.length then
    if 0 < st.width ∧ st.padc ≠ '-'.toUInt8 then
      (int n).bind fun _ => (int (min (st.width - n) 0 - n)).map fun _ =>
        List.replicate (st.width - n).toNat (ofChar st.padc) ++ text
    else
      (int (st.width - n)).map fun left =>
        text ++ List.replicate left.toNat (ofChar ' '.toUInt8)
  else none

lemma charCount_stop {c : UInt8} {p : List UInt8} {precision : ℤ} (h : c = 0 ∨ precision = 0) :
    charCount (c :: p) precision = 0 := by
  rcases h with hc | hprecision
  · simp [charCount, hc]
  · simp [charCount, hprecision]

lemma idxOf_cons_of_ne {c : UInt8} (hc : c ≠ 0) (p : List UInt8) :
    (c :: p).idxOf 0 = p.idxOf 0 + 1 := by
  rw [List.idxOf_cons, beq_false_of_ne hc, cond_false]

lemma strnlenOf_eq (p : List UInt8) (size : ℕ) :
    strnlenOf p size
      = if p.idxOf 0 < p.length ∨ size ≤ p.length then some (min (p.idxOf 0) size) else none := by
  induction p generalizing size with
  | nil =>
      cases size with
      | zero => rfl
      | succ size => rfl
  | cons c p ih =>
      cases size with
      | zero => simp [strnlenOf]
      | succ size =>
          by_cases hc : c = 0
          · simp [strnlenOf, hc]
          · rw [strnlenOf, if_pos hc, ih, idxOf_cons_of_ne hc, List.length_cons]
            simp only [Nat.add_lt_add_iff_right, Nat.add_le_add_iff_right, Nat.add_min_add_right]
            split <;> rfl

section PrintString

variable {σ : Type} (putch : UInt32 → σ → Option σ)

/-- The loop stops at a 0, and where the precision is used up. -/
lemma printChars_stop {altflag : Bool} {c : UInt8} {p : List UInt8} {width precision : ℤ} (d : σ)
    (h : c = 0 ∨ precision = 0) :
    printChars putch altflag (c :: p) width precision d = some (d, width) := by
  rcases h with hc | hprecision
  · rw [printChars, if_pos hc]
  · simp [printChars, hprecision]

/-- Otherwise it prints one more character of the string, and takes it from the width and the
precision. -/
lemma printChars_more {altflag : Bool} {c : UInt8} {p : List UInt8} {width precision : ℤ} (d : σ)
    (hc : c ≠ 0) (hprecision : precision ≠ 0) :
    printChars putch altflag (c :: p) width precision d
      = (putch (shown altflag c) d).bind fun d => (int (width - 1)).bind fun width =>
          printChars putch altflag p width (if precision < 0 then precision else precision - 1) d := by
  rw [printChars, if_neg hc]
  by_cases hneg : precision < 0
  · simp only [hneg, if_true]
    rfl
  · have hmore : 0 ≤ precision - 1 := by omega
    simp only [hneg, hmore, if_true, if_false]
    rfl

lemma charCount_more {c : UInt8} {p : List UInt8} {precision : ℤ} (hc : c ≠ 0)
    (hprecision : precision ≠ 0) : charCount (c :: p) precision
      = charCount p (if precision < 0 then precision else precision - 1) + 1 := by
  rw [charCount, charCount, idxOf_cons_of_ne hc]
  by_cases hneg : precision < 0
  · simp [hneg]
  · have hmore : ¬ precision - 1 < 0 := by omega
    simp only [hneg, hmore, if_false]
    omega

lemma printChars_eq (altflag : Bool) (p : List UInt8) {width : ℤ} (precision : ℤ) (d : σ)
    (hlo : -2147483648 ≤ width) (hhi : width ≤ 2147483647) :
    printChars putch altflag p width precision d
      = if charCount p precision < p.length then
          (int (width - charCount p precision)).bind fun left =>
            (emit putch ((p.take (charCount p precision)).map (shown altflag)) d).map fun d =>
              (d, left)
        else none := by
  induction p generalizing width precision d with
  | nil => simp [printChars, charCount]
  | cons c p ih =>
      by_cases hstop : c = 0 ∨ precision = 0
      · rw [charCount_stop hstop, printChars_stop putch d hstop]
        simp [int_of_le hlo hhi]
      · rw [not_or] at hstop
        rw [printChars_more putch d hstop.1 hstop.2, charCount_more hstop.1 hstop.2,
          List.length_cons]
        simp only [Nat.add_lt_add_iff_right]
        generalize (if precision < 0 then precision else precision - 1) = precision'
        by_cases hlow : -2147483648 ≤ width - 1
        · have hleft : width - (charCount p precision' + 1 : ℕ)
              = width - 1 - charCount p precision' := by omega
          simp only [int_of_le hlow (by omega), Option.bind_some, ih precision' _ hlow (by omega),
            hleft, List.take_succ_cons, List.map_cons, emit_cons]
          by_cases hend : charCount p precision' < p.length
          · rw [if_pos hend]
            cases int (width - 1 - charCount p precision') with
            | none => cases putch (shown altflag c) d <;> simp
            | some left => cases putch (shown altflag c) d <;> simp [hend]
          · cases putch (shown altflag c) d <;> simp [hend]
        · rw [int_of_lt (by omega), int_of_lt (by omega)]
          cases putch (shown altflag c) d <;> simp

/-- What `strnlen` measures is what is printed, as far as it is an `int`. -/
lemma strnlenOf_charCount (p : List UInt8) {precision : ℤ} (hlo : -2147483648 ≤ precision)
    (hhi : precision ≤ 2147483647) (hend : charCount p precision < p.length) :
    (strnlenOf p (ofInt precision).toNat).bind (fun n => int n) = int (charCount p precision) := by
  have hval : (ofInt precision).toNat
      = if precision < 0 then (precision + 4294967296).toNat else precision.toNat := by
    rw [ofInt, UInt32.toNat_ofBitVec, BitVec.toNat_ofInt]
    split <;> omega
  rw [strnlenOf_eq, hval]
  by_cases hneg : precision < 0
  · have hcount : charCount p precision = p.idxOf 0 := if_pos hneg
    rw [hcount] at hend ⊢
    rw [if_pos hneg, if_pos (Or.inl hend), Option.bind_some]
    by_cases hshort : p.idxOf 0 ≤ 2147483647
    · rw [Nat.min_eq_left (by omega)]
    · rw [int, int, if_neg (by omega), if_neg (by omega)]
  · have hcount : charCount p precision = min (p.idxOf 0) precision.toNat := if_neg hneg
    rw [hcount] at hend ⊢
    rw [if_neg hneg, if_pos (by omega), Option.bind_some]

/-- The width that the characters have left is printed as padding behind them. -/
lemma printChars_pads (altflag : Bool) (p : List UInt8) {width : ℤ} (precision : ℤ) (d : σ)
    (hlo : -2147483648 ≤ width) (hhi : width ≤ 2147483647) :
    (printChars putch altflag p width precision d).bind
        (fun x => pads putch (ofChar ' '.toUInt8) x.2.toNat x.1)
      = (if charCount p precision < p.length then
          (int (width - charCount p precision)).map fun left =>
            (p.take (charCount p precision)).map (shown altflag)
              ++ List.replicate left.toNat (ofChar ' '.toUInt8)
        else none).bind fun out => emit putch out d := by
  rw [printChars_eq putch altflag p precision d hlo hhi]
  by_cases hend : charCount p precision < p.length
  · rw [if_pos hend, if_pos hend]
    cases int (width - charCount p precision) with
    | none => rfl
    | some left =>
        simp only [Option.bind_some, Option.map_some, emit_append, Option.bind_map]
        congr 1
        funext d
        exact pads_eq putch _ _ d
  · rw [if_neg hend, if_neg hend]
    rfl

/-- **A string is printed** in its field. -/
theorem printString_eq {st : Spec} (hst : st.Fits) (addr : UInt32) (obj : List UInt8) (d : σ) :
    printString putch st addr obj d
      = (stringText st addr obj).bind fun out => emit putch out d := by
  have hlo := hst.width_ge
  have hhi := hst.width_le
  rw [printString, stringText]
  generalize (if addr = 0 then ascii "(null)" ++ [0] else obj) = p
  by_cases hleft : 0 < st.width ∧ st.padc ≠ '-'.toUInt8
  · have hpos := hleft.1
    rw [padLeft, if_pos hleft, if_pos hleft]
    cases hn : strnlenOf p (ofInt st.precision).toNat with
    | none =>
        by_cases hend : charCount p st.precision < p.length
        · have hlen := strnlenOf_charCount p hst.precision_ge hst.precision_le hend
          rw [hn, Option.bind_none] at hlen
          rw [if_pos hend, ← hlen]
          rfl
        · rw [if_neg hend]
          rfl
    | some n =>
        by_cases hshort : (n : ℤ) ≤ 2147483647
        · have hint : int n = some (n : ℤ) := int_of_le (by omega) hshort
          have hwidth : int (st.width - n) = some (st.width - n) :=
            int_of_le (by omega) (by omega)
          have hlow : -2147483648 ≤ min (st.width - n) 0 := by omega
          have hhigh : min (st.width - n) 0 ≤ 2147483647 := by omega
          have hchars := fun d => printChars_pads putch st.altflag p st.precision d hlow hhigh
          simp only [Option.bind_eq_bind, Option.bind_some, hint, hwidth, Option.bind_assoc]
          simp only [hchars]
          simp only [pads_eq]
          by_cases hend : charCount p st.precision < p.length
          · have hlen := strnlenOf_charCount p hst.precision_ge hst.precision_le hend
            rw [hn, Option.bind_some, hint] at hlen
            have hcount : (charCount p st.precision : ℤ) = n := (int_eq_some hlen.symm).symm
            simp only [if_pos hend, hcount, hint, Option.bind_some]
            -- nothing is left of the width
            cases hrest : int (min (st.width - n) 0 - n) with
            | none => simp
            | some left =>
                have hnone : left.toNat = 0 := by
                  have hleft := int_eq_some hrest
                  omega
                simp only [Option.map_some, Option.bind_some, emit_append, hnone,
                  List.replicate_zero, List.append_nil]
          · simp [hend]
        · have hint : int n = none := int_of_gt (by omega)
          by_cases hend : charCount p st.precision < p.length
          · have hlen := strnlenOf_charCount p hst.precision_ge hst.precision_le hend
            rw [hn, Option.bind_some, hint] at hlen
            simp [hint, ← hlen]
          · simp [hint, hend]
  · rw [padLeft, if_neg hleft, if_neg hleft]
    exact printChars_pads putch st.altflag p st.precision d hlo hhi

end PrintString

/-! ## Escape sequences

What is between a `%` and the character that ends an escape sequence, as a list of flags and
numbers.
-/

/-- What an escape sequence may hold in front of its last character. -/
inductive Item
  | minus | zero | num (n : ℕ) | star | dot | sharp | long

/-- The characters that an item is written as. -/
def Item.text : Item → List UInt8
  | .minus => ['-'.toUInt8]
  | .zero => ['0'.toUInt8]
  | .num n => numeralBytes 10 n
  | .star => ['*'.toUInt8]
  | .dot => ['.'.toUInt8]
  | .sharp => ['#'.toUInt8]
  | .long => ['l'.toUInt8]

/-- What an item does to the locals, and to the arguments.  Before the last digit of a number is
counted, its character is. -/
def Item.apply : Item → Spec × List Arg → Option (Spec × List Arg)
  | .minus, (st, ap) => some ({ st with padc := '-'.toUInt8 }, ap)
  | .zero, (st, ap) => some ({ st with padc := '0'.toUInt8 }, ap)
  | .num n, (st, ap) => (int (n + 48)).map fun _ => (st.processPrecision n, ap)
  | .star, (st, ap) => (vaInt ap).map fun x => (st.processPrecision (toInt x.1), x.2)
  | .dot, (st, ap) => some ({ st with width := if st.width < 0 then 0 else st.width }, ap)
  | .sharp, (st, ap) => some ({ st with altflag := true }, ap)
  | .long, (st, ap) => some ({ st with lflag := st.lflag + 1 }, ap)

/-- A decimal digit. -/
def IsDigit (c : UInt8) : Prop := '0'.toUInt8 ≤ c ∧ c ≤ '9'.toUInt8

instance (c : UInt8) : Decidable (IsDigit c) := inferInstanceAs (Decidable (_ ∧ _))

/-- A number ends where no digit follows. -/
def Item.EndsBefore : Item → UInt8 → Prop
  | .num n, c => n ≠ 0 ∧ ¬ IsDigit c
  | _, _ => True

/-- Digits are not the end of an escape sequence. -/
lemma IsDigit.key_inl {c : UInt8} (h : IsDigit c) : ∃ f, key c = .inl f := by
  have hall : ∀ k : Fin 256, '0'.toUInt8 ≤ UInt8.ofNat k → UInt8.ofNat k ≤ '9'.toUInt8 →
      (key (UInt8.ofNat k)).isLeft = true := by
    decide +kernel
  have hc : UInt8.ofNat c.toNat = c := UInt8.ofNat_toNat
  have hleft := hall ⟨c.toNat, c.toNat_lt⟩
  simp only [hc] at hleft
  exact Sum.isLeft_iff.mp (hleft h.1 h.2)

lemma toNat_digitByte {i : ℕ} (hi : i < 10) : (digitByte i).toNat = 48 + i := by
  rw [digitByte, if_pos hi, UInt8.toNat_ofNat']
  omega

lemma isDigit_digitByte {i : ℕ} (hi : i < 10) : IsDigit (digitByte i) := by
  have hval := toNat_digitByte hi
  refine ⟨?_, ?_⟩
  · rw [UInt8.le_iff_toNat_le, hval]
    exact Nat.le_add_right 48 i
  · rw [UInt8.le_iff_toNat_le, hval]
    show 48 + i ≤ 57
    omega

/-- The digits that have been read, and the position behind them, without the bound that the loop
carries. -/
def digitsRead (precision : ℤ) (ch : UInt8) (before fmt : List UInt8) :
    Option (ℤ × List UInt8 × List UInt8) :=
  (digits precision ch before fmt).map fun x => (x.1, x.2.1, x.2.2.val)

/-- Reading one digit. -/
lemma digitsRead_cons (precision : ℤ) (ch c : UInt8) (before fmt : List UInt8) :
    digitsRead precision ch before (c :: fmt)
      = (int (precision * 10 + ch.toNat)).bind fun sum =>
          if IsDigit c then digitsRead (sum - 48) c (c :: before) fmt
          else some (sum - 48, before, c :: fmt) := by
  rw [digitsRead, digits]
  cases int (precision * 10 + ch.toNat) with
  | none => rfl
  | some sum =>
      have hiff : c < '0'.toUInt8 ∨ '9'.toUInt8 < c ↔ ¬ IsDigit c := by
        rw [IsDigit, Decidable.not_and_iff_or_not, UInt8.not_le, UInt8.not_le]
      have hzero : (('0'.toUInt8.toNat : ℕ) : ℤ) = 48 := rfl
      by_cases hd : IsDigit c
      · simp only [Option.bind_eq_bind, Option.bind_some, if_pos hd,
          if_neg (fun h => hiff.mp h hd)]
        rw [digitsRead, hzero]
        cases digits (sum - 48) c (c :: before) fmt <;> rfl
      · simp only [Option.bind_eq_bind, Option.bind_some, if_neg hd, if_pos (hiff.mpr hd)]
        rfl

/-- Reading the digits of a number to its end. -/
lemma digitsRead_digits {e : ℕ} {ds : List ℕ} (he : e < 10) (hds : ∀ d ∈ ds, d < 10) (p : ℕ)
    {c : UInt8} (hc : ¬ IsDigit c) (before fmt : List UInt8) :
    digitsRead p (digitByte e) before (ds.map digitByte ++ c :: fmt)
      = (int (((e :: ds).foldl (fun v d => v * 10 + d) p : ℕ) + 48)).map fun _ =>
          ((((e :: ds).foldl (fun v d => v * 10 + d) p : ℕ) : ℤ),
            (ds.map digitByte).reverse ++ before, c :: fmt) := by
  have hsum : ((p : ℤ) * 10 + (digitByte e).toNat) = ((p * 10 + e : ℕ) : ℤ) + 48 := by
    rw [toNat_digitByte he]
    omega
  induction ds generalizing e p before with
  | nil =>
      rw [List.map_nil, List.nil_append, digitsRead_cons, hsum]
      simp only [if_neg hc, List.foldl_cons, List.foldl_nil]
      cases hint : int (((p * 10 + e : ℕ) : ℤ) + 48) with
      | none => rfl
      | some sum =>
          rw [int_eq_some hint]
          simp
  | cons d ds ih =>
      have hd : d < 10 := hds d List.mem_cons_self
      have hrest := fun before => ih hd (fun x hx => hds x (List.mem_cons_of_mem _ hx))
        (p * 10 + e) before (by rw [toNat_digitByte hd]; omega)
      have hle := le_foldl (b := 10) (by decide) ds ((p * 10 + e) * 10 + d)
      rw [List.map_cons, List.cons_append, digitsRead_cons, hsum]
      simp only [if_pos (isDigit_digitByte hd), List.foldl_cons, List.reverse_cons,
        List.append_assoc, List.singleton_append] at hrest ⊢
      by_cases hfits : ((p * 10 + e : ℕ) : ℤ) + 48 ≤ 2147483647
      · rw [int_of_le (by omega) hfits, Option.bind_some, Int.add_sub_cancel, hrest]
      · rw [int, int, if_neg (by omega), if_neg (by omega)]
        rfl

/-- The first digit of a number is not taken for a flag. -/
lemma key_digitByte {e : ℕ} (hpos : e ≠ 0) (he : e < 10) : key (digitByte e) = .inl .digit := by
  have hall : ∀ k : Fin 10, k.val ≠ 0 → key (digitByte k) = .inl .digit := by decide
  exact hall ⟨e, he⟩ hpos

/-- A width field is read to its end. -/
lemma reswitch_digit {ch : UInt8} (hch : key ch = .inl .digit) (st : Spec)
    (before fmt : List UInt8) (ap : List Arg) :
    reswitch st before (ch :: fmt) ap
      = (digitsRead 0 ch (ch :: before) fmt).bind fun x =>
          reswitch (st.processPrecision x.1) x.2.1 x.2.2 ap := by
  rw [reswitch, hch, digitsRead, Option.bind_map]
  rfl

/-- **An item is read** as such, and does what it does.  The cases are the items; only a number
is more than one character. -/
lemma reswitch_item (it : Item) {c : UInt8} (hc : it.EndsBefore c) (st : Spec)
    (before fmt : List UInt8) (ap : List Arg) :
    reswitch st before (it.text ++ c :: fmt) ap
      = (it.apply (st, ap)).bind fun x =>
          reswitch x.1 (it.text.reverse ++ before) (c :: fmt) x.2 := by
  cases it with
  | num n =>
      have hvalue := value_numeral (b := 10) (by decide) n
      have hlt := lt_of_mem_numeral (b := 10) (by decide) n
      have hhead := head_numeral (b := 10) (by decide) n hc.1
      rw [Item.text, numeralBytes]
      cases hn : numeral 10 n with
      | nil => exact absurd hn (numeral_ne_nil (by decide) n)
      | cons e ds =>
          rw [hn] at hvalue hlt hhead
          have he : e < 10 := hlt e List.mem_cons_self
          have hfold : (e :: ds).foldl (fun v d => v * 10 + d) 0 = n := hvalue
          have hread := digitsRead_digits he (fun d hd => hlt d (List.mem_cons_of_mem _ hd)) 0 hc.2
            (digitByte e :: before) fmt
          rw [hfold] at hread
          rw [List.map_cons, List.cons_append, reswitch_digit (key_digitByte (hhead e rfl) he)]
          change (digitsRead ((0 : ℕ) : ℤ) _ _ _).bind _ = _
          rw [hread, Item.apply, Option.bind_map, Option.bind_map, List.reverse_cons,
            List.append_assoc]
          rfl
  | star =>
      rw [Item.text, List.singleton_append, reswitch, Item.apply, Option.bind_map]
      rfl
  | _ =>
      rw [Item.text, List.singleton_append, reswitch]
      rfl

/-! ## Items one after the other

From one item to all of them.  What one item ends before is the first character of the next.
-/

/-- The characters that some items are written as. -/
def itemsText (items : List Item) : List UInt8 := items.flatMap Item.text

/-- What some items do, one after the other. -/
def applyItems (items : List Item) (x : Spec × List Arg) : Option (Spec × List Arg) :=
  items.foldlM (fun x it => it.apply x) x

/-- The item starts with a digit. -/
def Item.Digit : Item → Prop
  | .zero | .num _ => True
  | _ => False

/-- No number has a superfluous 0, or runs into another one. -/
def Separate : List Item → Prop
  | [] => True
  | .num n :: items => n ≠ 0 ∧ (∀ it ∈ items.head?, ¬ it.Digit) ∧ Separate items
  | _ :: items => Separate items

lemma Separate.tail {it : Item} {items : List Item} (h : Separate (it :: items)) :
    Separate items := by
  cases it with
  | num n => exact h.2.2
  | _ => exact h

/-- Every item has a first character, which is a digit only if the item starts with one. -/
lemma Item.text_cons (it : Item) : ∃ c l, it.text = c :: l ∧ (IsDigit c → it.Digit) := by
  have hno : ∀ c : UInt8, ¬ IsDigit c → IsDigit c → False := fun _ h => h
  cases it with
  | num n =>
      rw [Item.text, numeralBytes]
      cases hn : numeral 10 n with
      | nil => exact absurd hn (numeral_ne_nil (by decide) n)
      | cons e ds => exact ⟨digitByte e, ds.map digitByte, rfl, fun _ => trivial⟩
  | zero => exact ⟨_, [], rfl, fun _ => trivial⟩
  | _ => exact ⟨_, [], rfl, hno _ (by decide)⟩

/-- An item ends in front of the items that follow it. -/
lemma Separate.ends {it : Item} {items : List Item} (h : Separate (it :: items)) {c : UInt8}
    (hc : ¬ IsDigit c) (fmt : List UInt8) :
    ∃ c' fmt', itemsText items ++ c :: fmt = c' :: fmt' ∧ it.EndsBefore c' := by
  cases items with
  | nil =>
      refine ⟨c, fmt, rfl, ?_⟩
      cases it with
      | num n => exact ⟨h.1, hc⟩
      | _ => trivial
  | cons it' items =>
      obtain ⟨c', l, htext, hdigit⟩ := it'.text_cons
      refine ⟨c', l ++ (itemsText items ++ c :: fmt), ?_, ?_⟩
      · rw [itemsText, List.flatMap_cons, htext, List.append_assoc]
        rfl
      · cases it with
        | num n => exact ⟨h.1, fun hc' => h.2.1 it' rfl (hdigit hc')⟩
        | _ => trivial

/-- **Items are read** one after the other. -/
lemma reswitch_items {items : List Item} (h : Separate items) {c : UInt8} (hc : ¬ IsDigit c)
    (st : Spec) (before fmt : List UInt8) (ap : List Arg) :
    reswitch st before (itemsText items ++ c :: fmt) ap
      = (applyItems items (st, ap)).bind fun x =>
          reswitch x.1 ((itemsText items).reverse ++ before) (c :: fmt) x.2 := by
  induction items generalizing st before ap with
  | nil => rfl
  | cons it items ih =>
      obtain ⟨c', fmt', hnext, hends⟩ := h.ends hc fmt
      have htext : itemsText (it :: items) = it.text ++ itemsText items := rfl
      rw [htext, List.append_assoc, hnext, reswitch_item it hends, ← hnext, applyItems,
        List.foldlM_cons, Option.bind_eq_bind, Option.bind_assoc]
      congr 1
      funext x
      rw [ih h.tail, List.reverse_append, List.append_assoc]
      rfl

/-- The character that ends an escape sequence, and ends the reading. -/
lemma reswitch_conv {ch : UInt8} {conv : Conv} (h : key ch = .inr conv) (st : Spec)
    (before fmt : List UInt8) (ap : List Arg) :
    reswitch st before (ch :: fmt) ap = some ⟨st, conv, ch :: before, fmt, ap⟩ := by
  rw [reswitch, h]

/-- The characters of items are printed as they are. -/
lemma plain_of_mem_itemsText {items : List Item} {c : UInt8} (h : c ∈ itemsText items) :
    c ≠ 0 ∧ c ≠ '%'.toUInt8 := by
  rcases List.mem_flatMap.mp h with ⟨it, _, hc⟩
  cases it with
  | num n =>
      rcases List.mem_map.mp hc with ⟨d, hd, rfl⟩
      have hlt := lt_of_mem_numeral (b := 10) (by decide) n d hd
      have hall : ∀ d : Fin 10, digitByte d ≠ 0 ∧ digitByte d ≠ '%'.toUInt8 := by decide
      exact hall ⟨d, hlt⟩
  | _ =>
      rw [List.mem_singleton.mp hc]
      decide

section Fits

lemma toInt_bounds (v : UInt32) : -2147483648 ≤ toInt v ∧ toInt v ≤ 2147483647 := by
  have hlo := v.toBitVec.le_toInt
  have hhi := v.toBitVec.toInt_lt
  rw [toInt]
  omega

lemma minus_one_fits : -2147483648 ≤ (-1 : ℤ) ∧ (-1 : ℤ) ≤ 2147483647 := by decide

lemma Spec.Fits.processPrecision {st : Spec} (h : st.Fits) {precision : ℤ}
    (hlo : -2147483648 ≤ precision) (hhi : precision ≤ 2147483647) :
    (st.processPrecision precision).Fits := by
  rw [Spec.processPrecision]
  split
  · exact ⟨hlo, hhi, minus_one_fits.1, minus_one_fits.2⟩
  · exact ⟨h.width_ge, h.width_le, hlo, hhi⟩

/-- The locals stay of type `int`, whatever items are read. -/
lemma Item.apply_fits {it : Item} {x y : Spec × List Arg} (h : x.1.Fits)
    (hy : it.apply x = some y) : y.1.Fits := by
  obtain ⟨st, ap⟩ := x
  cases it with
  | num n =>
      rw [Item.apply] at hy
      rcases Option.map_eq_some_iff.mp hy with ⟨sum, hsum, rfl⟩
      have hbound : (n : ℤ) + 48 ≤ 2147483647 := by
        by_contra hbig
        have hnone : int ((n : ℤ) + 48) = none := int_of_gt (by omega)
        rw [hnone] at hsum
        exact absurd hsum (by simp)
      have hfits : (st.processPrecision n).Fits := h.processPrecision (by omega) (by omega)
      exact hfits
  | star =>
      rw [Item.apply] at hy
      rcases Option.map_eq_some_iff.mp hy with ⟨v, _, rfl⟩
      exact h.processPrecision (toInt_bounds v.1).1 (toInt_bounds v.1).2
  | dot =>
      cases hy
      refine ⟨?_, ?_, h.precision_ge, h.precision_le⟩
      · show -2147483648 ≤ if st.width < 0 then 0 else st.width
        have hge : -2147483648 ≤ st.width := h.width_ge
        split <;> omega
      · show (if st.width < 0 then 0 else st.width) ≤ 2147483647
        have hle : st.width ≤ 2147483647 := h.width_le
        split <;> omega
  | _ =>
      cases hy
      exact ⟨h.width_ge, h.width_le, h.precision_ge, h.precision_le⟩

lemma applyItems_fits {items : List Item} {ap : List Arg} {x : Spec × List Arg}
    (h : applyItems items ({}, ap) = some x) : x.1.Fits := by
  refine Runs.foldlM_invariant (I := fun x => x.1.Fits) (fun x it y hx hy => ?_) ?_ h
  · exact it.apply_fits hx hy
  · exact ⟨minus_one_fits.1, minus_one_fits.2, minus_one_fits.1, minus_one_fits.2⟩

end Fits

end ScratchOs.Lib
