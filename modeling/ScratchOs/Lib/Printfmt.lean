import Mathlib.Data.Int.Notation
import ScratchOs.Core.Numerals

/-!
# Formatted output

`lib/printfmt.c` up to `printfmt`.  What a pointer points to is the list of the bytes from there to
the end of the object, and reading past that is undefined, which is `none`, as are a signed result
that does not fit, an argument of another type, and `putch` where it fails.  An `int` that is handed
to `putch` is its 32 bits.

A position in the format is the bytes in front of it, last first, and the bytes from it on.  The
code needs both, because it goes back: an escape sequence that it does not recognize is printed from
its `%` on.

**What `putch` does** is a parameter, with a state of any type that is passed through all of its
calls.  The log of the kernel gives it the serial line, and `snprintf` a buffer.

**The module is the program only.**  It keeps the words of the source and its order of things: the
flags are collected by the same `switch`, and the character in `fmt[-1]` is looked at where the
source looks at it.  What all this prints is worked out in `Lib/Directives` for a single escape
sequence and in `Lib/FormatStrings` for whole formats.
-/

namespace ScratchOs.Lib

/-! ## Numbers and characters

The types of C that the code computes with.  Where C leaves a result undefined there is none.
-/

/-- A result of type `int`, which is undefined if it does not fit. -/
def int (z : ℤ) : Option ℤ := if -2147483648 ≤ z ∧ z ≤ 2147483647 then some z else none

/-- A result of type `long long`, which is undefined if it does not fit. -/
def longlong (z : ℤ) : Option ℤ :=
  if -9223372036854775808 ≤ z ∧ z ≤ 9223372036854775807 then some z else none

/-- 32 bits read as an `int`. -/
def toInt (v : UInt32) : ℤ := v.toBitVec.toInt

/-- An `int` as its 32 bits. -/
def ofInt (z : ℤ) : UInt32 := UInt32.ofBitVec (BitVec.ofInt 32 z)

/-- A `char`, which is signed, as an `int`. -/
def ofChar (c : UInt8) : UInt32 := ofInt c.toBitVec.toInt

/-- The bytes of a string literal, without its 0. -/
def ascii (s : String) : List UInt8 := s.toList.map Char.toUInt8

/-! ## Arguments

What `va_arg` takes depends on the type that it is asked for.  An argument of another type is
undefined.
-/

/-- An argument.  `long` has the size of `int`. -/
inductive Arg
  /-- `int`, `long`, or one of them unsigned. -/
  | int (v : UInt32)
  /-- `long long`, or `unsigned long long`. -/
  | longlong (v : UInt64)
  /-- A pointer, and what is there. -/
  | ptr (addr : UInt32) (obj : List UInt8)

/-- `va_arg(ap, int)` -/
def vaInt : List Arg → Option (UInt32 × List Arg)
  | .int v :: ap => some (v, ap)
  | _ => none

/-- `va_arg(ap, long long)` -/
def vaLongLong : List Arg → Option (UInt64 × List Arg)
  | .longlong v :: ap => some (v, ap)
  | _ => none

/-- `va_arg(ap, char *)` -/
def vaPtr : List Arg → Option ((UInt32 × List UInt8) × List Arg)
  | .ptr addr obj :: ap => some ((addr, obj), ap)
  | _ => none

/-- `getuint`, which takes 64 bits from two `l` on. -/
def getuint (ap : List Arg) (lflag : ℕ) : Option (ℕ × List Arg) :=
  if 2 ≤ lflag then (vaLongLong ap).map fun (v, ap) => (v.toNat, ap)
  else (vaInt ap).map fun (v, ap) => (v.toNat, ap)

/-- `getint`, which takes 64 bits from two `l` on. -/
def getint (ap : List Arg) (lflag : ℕ) : Option (ℤ × List Arg) :=
  if 2 ≤ lflag then (vaLongLong ap).map fun (v, ap) => (v.toBitVec.toInt, ap)
  else (vaInt ap).map fun (v, ap) => (toInt v, ap)

/-! ## Numbers

`printnum` prints the higher digits by a call of itself, and pads in front of the first one.
-/

/-- A base that `printnum` is for: one with at least two digits, for all of which it has
characters. -/
structure Base where
  val : ℕ
  two_le : 2 ≤ val
  le : val ≤ 16

/-- Base 10. -/
def Base.ten : Base := ⟨10, by decide, by decide⟩

/-- Base 16. -/
def Base.sixteen : Base := ⟨16, by decide, by decide⟩

section Sink

variable {σ : Type} (putch : UInt32 → σ → Option σ)

/-- The loops that do nothing but print one character again and again. -/
def pads (c : UInt32) : ℕ → σ → Option σ
  | 0, d => some d
  | n + 1, d => do
      let d ← putch c d
      pads c n d

/-- `printnum`; `while (--width > 0)` makes `width - 1` rounds. -/
def printnum (num : ℕ) (base : Base) (width : ℤ) (padc : UInt8) (d : σ) : Option σ := do
  let width ← int (width - 1)
  let d ←
    if base.val ≤ num then printnum (num / base.val) base width padc d
    else pads putch (ofChar padc) width.toNat d
  let c ← (ascii "0123456789abcdef")[num % base.val]?
  putch (ofChar c) d
  termination_by num
  decreasing_by
    have h₂ := base.two_le
    exact Nat.div_lt_self (by omega) (by omega)

end Sink

/-! ## Escape sequences

The `switch` goes back to its beginning after a flag, so that flags may come in any order and
number.  They are read here before anything is printed.
-/

/-- The locals that an escape sequence sets. -/
structure Spec where
  padc : UInt8 := ' '.toUInt8
  width : ℤ := -1
  precision : ℤ := -1
  lflag : ℕ := 0
  altflag : Bool := false

/-- From `process_precision` on. -/
def Spec.processPrecision (st : Spec) (precision : ℤ) : Spec :=
  if st.width < 0 then { st with width := precision, precision := -1 }
  else { st with precision := precision }

/-- The cases of the `switch` that go back to it. -/
inductive Flag
  | minus | zero | digit | star | dot | sharp | long
  deriving DecidableEq

/-- The cases that end an escape sequence. -/
inductive Conv
  | char | error | string | decimal | unsigned | octal | pointer | hex | percent | other
  deriving DecidableEq

/-- The case of a character. -/
def key (ch : UInt8) : Flag ⊕ Conv :=
  if ch = '-'.toUInt8 then .inl .minus
  else if ch = '0'.toUInt8 then .inl .zero
  else if '1'.toUInt8 ≤ ch ∧ ch ≤ '9'.toUInt8 then .inl .digit
  else if ch = '*'.toUInt8 then .inl .star
  else if ch = '.'.toUInt8 then .inl .dot
  else if ch = '#'.toUInt8 then .inl .sharp
  else if ch = 'l'.toUInt8 then .inl .long
  else if ch = 'c'.toUInt8 then .inr .char
  else if ch = 'e'.toUInt8 then .inr .error
  else if ch = 's'.toUInt8 then .inr .string
  else if ch = 'd'.toUInt8 then .inr .decimal
  else if ch = 'u'.toUInt8 then .inr .unsigned
  else if ch = 'o'.toUInt8 then .inr .octal
  else if ch = 'p'.toUInt8 then .inr .pointer
  else if ch = 'x'.toUInt8 then .inr .hex
  else if ch = '%'.toUInt8 then .inr .percent
  else .inr .other

/-- The loop of a width field: the number, and the position behind it.  The sum is computed with
the character and corrected afterwards, and either may overflow. -/
def digits (precision : ℤ) (ch : UInt8) (before : List UInt8) :
    (fmt : List UInt8) → Option (ℤ × List UInt8 × { rest : List UInt8 // rest.length ≤ fmt.length })
  | [] => none
  | c :: fmt => do
      let sum ← int (precision * 10 + ch.toNat)
      let precision := sum - '0'.toUInt8.toNat
      if c < '0'.toUInt8 ∨ '9'.toUInt8 < c then some (precision, before, ⟨c :: fmt, Nat.le_refl _⟩)
      else do
        let (precision, before, ⟨rest, h⟩) ← digits precision c (c :: before) fmt
        some (precision, before, ⟨rest, Nat.le_succ_of_le h⟩)

/-- An escape sequence: its locals, the case that ends it, the position behind it, and the
arguments that are left. -/
structure Found where
  st : Spec
  conv : Conv
  before : List UInt8
  fmt : List UInt8
  ap : List Arg

/-- From `reswitch` on, as far as the case that ends the escape sequence.  The format gets
shorter with every character. -/
def reswitch (st : Spec) (before fmt : List UInt8) (ap : List Arg) : Option Found :=
  match fmt with
  | [] => none
  | ch :: fmt =>
      match key ch with
      | .inl .minus => reswitch { st with padc := '-'.toUInt8 } (ch :: before) fmt ap
      | .inl .zero => reswitch { st with padc := '0'.toUInt8 } (ch :: before) fmt ap
      | .inl .digit => do
          let (precision, before, ⟨rest, _⟩) ← digits 0 ch (ch :: before) fmt
          reswitch (st.processPrecision precision) before rest ap
      | .inl .star => do
          let (v, ap) ← vaInt ap
          reswitch (st.processPrecision (toInt v)) (ch :: before) fmt ap
      | .inl .dot =>
          reswitch { st with width := if st.width < 0 then 0 else st.width } (ch :: before) fmt ap
      | .inl .sharp => reswitch { st with altflag := true } (ch :: before) fmt ap
      | .inl .long => reswitch { st with lflag := st.lflag + 1 } (ch :: before) fmt ap
      | .inr conv => some ⟨st, conv, ch :: before, fmt, ap⟩
  termination_by fmt.length

/-- `for (; fmt[-1] != '%'; fmt--)`, which goes back to the `%` of the escape sequence. -/
def rewind : List UInt8 → List UInt8 → Option (List UInt8 × List UInt8)
  | [], _ => none
  | c :: before, fmt =>
      if c ≠ '%'.toUInt8 then rewind before (c :: fmt) else some (c :: before, fmt)

/-! ## Conversions

The cases that print something.  `%e` looks for a message and calls `printfmt`, which is why there
is a nested printer.
-/

/-- `error_string`, whose length is `MAXERROR`. -/
def errorString : List (Option (List UInt8)) :=
  [none, some (ascii "unspecified error"), some (ascii "bad environment"),
    some (ascii "invalid parameter"), some (ascii "out of memory"),
    some (ascii "out of environments"), some (ascii "segmentation fault"), none]

/-- A pointer to a string literal.  Of its address only that it is not null matters. -/
def literal (s : List UInt8) : Arg := .ptr 1 (s ++ [0])

/-- `strnlen` of the string at a pointer. -/
def strnlenOf : List UInt8 → ℕ → Option ℕ
  | _, 0 => some 0
  | [], _ + 1 => none
  | c :: s, size + 1 => if c ≠ 0 then (strnlenOf s size).map (· + 1) else some 0

section Sink

variable {σ : Type} (putch : UInt32 → σ → Option σ)

/-- What a character of a string is printed as. -/
def shown (altflag : Bool) (c : UInt8) : UInt32 :=
  let ch := ofChar c
  if altflag ∧ (toInt ch < toInt (ofChar ' '.toUInt8) ∨ toInt (ofChar '~'.toUInt8) < toInt ch) then
    ofChar '?'.toUInt8
  else ch

/-- The loop over the characters of a string, which stops at a 0 or when the precision is used
up. -/
def printChars (altflag : Bool) : List UInt8 → ℤ → ℤ → σ → Option (σ × ℤ)
  | [], _, _, _ => none
  | c :: p, width, precision, d =>
      if c = 0 then some (d, width)
      else if precision < 0 then do
        let d ← putch (shown altflag c) d
        let width ← int (width - 1)
        printChars altflag p width precision d
      else if 0 ≤ precision - 1 then do
        let d ← putch (shown altflag c) d
        let width ← int (width - 1)
        printChars altflag p width (precision - 1) d
      else some (d, width)

/-- What is printed in front of a string, and the width that is left. -/
def padLeft (st : Spec) (p : List UInt8) (d : σ) : Option (σ × ℤ) :=
  if 0 < st.width ∧ st.padc ≠ '-'.toUInt8 then do
    let n ← strnlenOf p (ofInt st.precision).toNat
    let n ← int n
    let width ← int (st.width - n)
    let d ← pads putch (ofChar st.padc) width.toNat d
    some (d, min width 0)
  else some (d, st.width)

/-- Case `'s'`: the padding in front, the characters, the padding behind. -/
def printString (st : Spec) (addr : UInt32) (obj : List UInt8) (d : σ) : Option σ := do
  let p := if addr = 0 then ascii "(null)" ++ [0] else obj
  let (d, width) ← padLeft putch st p d
  let (d, width) ← printChars putch st.altflag p width st.precision d
  pads putch (ofChar ' '.toUInt8) width.toNat d

/-- `if (err < 0) err = -err;` -/
def errorNumber (err : ℤ) : Option ℤ := if err < 0 then int (-err) else some err

/-- Case `'e'`; `nested` is `printfmt`. -/
def printError (nested : List UInt8 → List Arg → σ → Option σ) (v : UInt32) (d : σ) : Option σ := do
  let err ← errorNumber (toInt v)
  if errorString.length ≤ err then nested (ascii "error %d" ++ [0]) [.int (ofInt err)] d
  else
    match ← errorString[err.toNat]? with
    | none => nested (ascii "error %d" ++ [0]) [.int (ofInt err)] d
    | some p => nested (ascii "%s" ++ [0]) [literal p] d

/-- Case `'d'`, as far as `number`. -/
def printSigned (st : Spec) (z : ℤ) (d : σ) : Option σ :=
  if z < 0 then do
    let d ← putch (ofChar '-'.toUInt8) d
    let num ← longlong (-z)
    printnum putch num.toNat .ten st.width st.padc d
  else printnum putch z.toNat .ten st.width st.padc d

/-- The case that ends an escape sequence: what has been printed, the position from which the format
is read on, and the arguments that are left. -/
def convert (nested : List UInt8 → List Arg → σ → Option σ) (f : Found) (d : σ) :
    Option (σ × List UInt8 × List UInt8 × List Arg) :=
  match f.conv with
  | .char => do
      let (v, ap) ← vaInt f.ap
      let d ← putch v d
      some (d, f.before, f.fmt, ap)
  | .error => do
      let (v, ap) ← vaInt f.ap
      let d ← printError nested v d
      some (d, f.before, f.fmt, ap)
  | .string => do
      let ((addr, obj), ap) ← vaPtr f.ap
      let d ← printString putch f.st addr obj d
      some (d, f.before, f.fmt, ap)
  | .decimal => do
      let (z, ap) ← getint f.ap f.st.lflag
      let d ← printSigned putch f.st z d
      some (d, f.before, f.fmt, ap)
  | .unsigned => do
      let (num, ap) ← getuint f.ap f.st.lflag
      let d ← printnum putch num .ten f.st.width f.st.padc d
      some (d, f.before, f.fmt, ap)
  | .octal => do
      let d ← putch (ofChar 'X'.toUInt8) d
      let d ← putch (ofChar 'X'.toUInt8) d
      let d ← putch (ofChar 'X'.toUInt8) d
      some (d, f.before, f.fmt, f.ap)
  | .pointer => do
      let d ← putch (ofChar '0'.toUInt8) d
      let d ← putch (ofChar 'x'.toUInt8) d
      let ((addr, _), ap) ← vaPtr f.ap
      let d ← printnum putch addr.toNat .sixteen f.st.width f.st.padc d
      some (d, f.before, f.fmt, ap)
  | .hex => do
      let (num, ap) ← getuint f.ap f.st.lflag
      let d ← printnum putch num .sixteen f.st.width f.st.padc d
      some (d, f.before, f.fmt, ap)
  | .percent => do
      let d ← putch (ofChar '%'.toUInt8) d
      some (d, f.before, f.fmt, f.ap)
  | .other => do
      let d ← putch (ofChar '%'.toUInt8) d
      match f.before with
      | [] => none
      | c :: before =>
          let (before, fmt) ← rewind before (c :: f.fmt)
          some (d, before, fmt, f.ap)

/-- The rounds of `vprintfmt`: one for each character that is printed as it is, and one for each
escape sequence. -/
def vprintfmtFrom (nested : List UInt8 → List Arg → σ → Option σ) :
    ℕ → List UInt8 → List UInt8 → List Arg → σ → Option σ
  | 0, _, _, _, _ => none
  | _ + 1, _, [], _, _ => none
  | fuel + 1, before, ch :: fmt, ap, d =>
      if ch ≠ '%'.toUInt8 then
        if ch = 0 then some d
        else do
          let d ← putch ch.toUInt32 d
          vprintfmtFrom nested fuel (ch :: before) fmt ap d
      else do
        let f ← reswitch {} (ch :: before) fmt ap
        let (d, before, fmt, ap) ← convert putch nested f d
        vprintfmtFrom nested fuel before fmt ap d

/-- `vprintfmt`, with what it calls for an error message.  A round moves on by a character at
least. -/
def vprintfmtWith (nested : List UInt8 → List Arg → σ → Option σ) (fmt : List UInt8)
    (ap : List Arg) (d : σ) : Option σ :=
  vprintfmtFrom putch nested fmt.length [] fmt ap d

/-- `vprintfmt`.  The formats of its own calls have no error messages in them. -/
def vprintfmt (fmt : List UInt8) (ap : List Arg) (d : σ) : Option σ :=
  vprintfmtWith putch (vprintfmtWith putch fun _ _ _ => none) fmt ap d

/-- `printfmt`, which is `vprintfmt` with its arguments in a list. -/
def printfmt (fmt : List UInt8) (ap : List Arg) (d : σ) : Option σ := vprintfmt putch fmt ap d

end Sink

end ScratchOs.Lib
