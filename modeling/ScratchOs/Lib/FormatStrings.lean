import Mathlib.Data.List.TakeWhile
import ScratchOs.Lib.Directives

/-!
# What a format string means

A format string is taken apart into characters that are printed as they are and escape sequences;
what it prints is what its parts print.  This gives `vprintfmt` a meaning that can be read off a
format without following the code through it.

* `convText` — what an escape sequence prints, for each of the cases that end one.
* `FormatString`, `FormatString.text`, `FormatString.render` — the parts, the characters they are
  written as, and what they print.
* **`vprintfmt_render`** — `vprintfmt` on the characters prints what the parts print, through
  whatever `putch`, and fails where that fails.
* `exists_formatString` — every string without a 0 is written by some parts, so
  **`vprintfmt_means`** covers every call.

**Two corners** need care, and have their own parts.  An escape sequence that the code does not
recognize prints its own characters: the `%` in one round, and what follows it in later ones.  And a
string that ends inside of an escape sequence is followed by its 0, which is not recognized either.

**Error messages** are printed by a nested call.  It is a call of the same function, but its format
has no error messages, so that the result is proved for such formats first and then used for the
others.
-/

namespace ScratchOs.Lib

open Numerals

/-! ## Conversions

Each of the ten cases, with what it takes from the arguments.  The proof is one about the cases, and
each of them is a lemma of `Lib/Directives`.
-/

/-- An error message: the text that the number has, or `error` and the number if it has none. -/
def errorText (v : UInt32) : Option (List UInt32) :=
  (errorNumber (toInt v)).map fun err =>
    match (errorString[err.toNat]?).join with
    | some p => p.map ofChar
    | none => (ascii "error " ++ numeralBytes 10 err.toNat).map ofChar

/-- A signed number.  The sign is in front of the field. -/
def signedText (st : Spec) (z : ℤ) : Option (List UInt32) :=
  if z < 0 then
    (longlong (-z)).bind fun num =>
      (numText num.toNat .ten st.width st.padc).map (ofChar '-'.toUInt8 :: ·)
  else numText z.toNat .ten st.width st.padc

/-- What an escape sequence prints, and the arguments that are left.  One that is not recognized
prints its own characters. -/
def convText (text : List UInt8) (st : Spec) (conv : Conv) (ap : List Arg) :
    Option (List UInt32 × List Arg) :=
  match conv with
  | .char => (vaInt ap).map fun x => ([x.1], x.2)
  | .error => (vaInt ap).bind fun x => (errorText x.1).map (·, x.2)
  | .string => (vaPtr ap).bind fun x => (stringText st x.1.1 x.1.2).map (·, x.2)
  | .decimal => (getint ap st.lflag).bind fun x => (signedText st x.1).map (·, x.2)
  | .unsigned => (getuint ap st.lflag).bind fun x =>
      (numText x.1 .ten st.width st.padc).map (·, x.2)
  | .octal => some ((ascii "XXX").map ofChar, ap)
  | .pointer => (vaPtr ap).bind fun x => ((numText x.1.1.toNat .sixteen st.width st.padc).map
      ((ascii "0x").map ofChar ++ ·)).map (·, x.2)
  | .hex => (getuint ap st.lflag).bind fun x =>
      (numText x.1 .sixteen st.width st.padc).map (·, x.2)
  | .percent => some ([ofChar '%'.toUInt8], ap)
  | .other => some (text.map UInt8.toUInt32, ap)

section Convert

variable {σ : Type} (putch : UInt32 → σ → Option σ)

/-- A signed number is printed. -/
lemma printSigned_eq {st : Spec} (hst : st.Fits) (z : ℤ) (d : σ) :
    printSigned putch st z d = (signedText st z).bind fun out => emit putch out d := by
  rw [printSigned, signedText]
  by_cases hneg : z < 0
  · rw [if_pos hneg, if_pos hneg]
    cases longlong (-z) with
    | none => cases putch (ofChar '-'.toUInt8) d <;> rfl
    | some num =>
        simp only [Option.bind_eq_bind, Option.bind_some, Option.bind_map,
          printnum_eq putch st.width st.padc _ _ _ hst.width_le]
        cases numText num.toNat .ten st.width st.padc with
        | none => cases putch (ofChar '-'.toUInt8) d <;> rfl
        | some out => rfl
  · rw [if_neg hneg, if_neg hneg]
    exact printnum_eq putch st.width st.padc d _ _ hst.width_le

/-- An argument is taken, and printed; with no argument there is no result. -/
lemma take_emit {α : Type} {print : α → σ → Option σ} {text : α → Option (List UInt32)}
    (h : ∀ a d, print a d = (text a).bind fun out => emit putch out d)
    (taken : Option (α × List Arg)) (before fmt : List UInt8) (d : σ) :
    (taken.bind fun x => (print x.1 d).bind fun d => some (d, before, fmt, x.2))
      = (taken.bind fun x => (text x.1).map (·, x.2)).bind fun x =>
          (emit putch x.1 d).map fun d => (d, before, fmt, x.2) := by
  cases taken with
  | none => rfl
  | some x =>
      simp only [Option.bind_some, h]
      cases text x.1 with
      | none => rfl
      | some out => exact (Option.map_eq_bind).symm

/-- An escape sequence that is recognized, when error messages are printed as they should. -/
lemma convert_eq {nested : List UInt8 → List Arg → σ → Option σ} {f : Found} (hst : f.st.Fits)
    (hnested : f.conv = .error → ∀ v d,
      printError nested v d = (errorText v).bind fun out => emit putch out d)
    (hconv : f.conv ≠ .other) (text : List UInt8) (d : σ) :
    convert putch nested f d
      = (convText text f.st f.conv f.ap).bind fun x =>
          (emit putch x.1 d).map fun d => (d, f.before, f.fmt, x.2) := by
  obtain ⟨st, conv, before, fmt, ap⟩ := f
  have hnum : ∀ num base d, printnum putch num base st.width st.padc d
      = (numText num base st.width st.padc).bind fun out => emit putch out d :=
    fun num base d => printnum_eq putch st.width st.padc d num base hst.width_le
  cases conv with
  | char =>
      have hputch : ∀ v d, putch v d = (some [v]).bind fun out => emit putch out d :=
        fun v d => (Option.bind_fun_some (putch v d)).symm
      have h := take_emit putch hputch (vaInt ap) before fmt d
      simpa [convert, convText, Option.map_eq_bind, Function.comp_def] using h
  | error => exact take_emit putch (hnested rfl) (vaInt ap) before fmt d
  | string =>
      exact take_emit putch (fun x d => printString_eq putch hst x.1 x.2 d) (vaPtr ap) before fmt d
  | decimal =>
      exact take_emit putch (fun z d => printSigned_eq putch hst z d) (getint ap st.lflag) before
        fmt d
  | unsigned => exact take_emit putch (fun num d => hnum num .ten d) (getuint ap st.lflag) before fmt d
  | octal =>
      have htext : (ascii "XXX").map ofChar
          = [ofChar 'X'.toUInt8, ofChar 'X'.toUInt8, ofChar 'X'.toUInt8] := rfl
      simp [convert, convText, htext, Option.map_eq_bind, Option.bind_assoc]
  | pointer =>
      have htext : (ascii "0x").map ofChar = [ofChar '0'.toUInt8, ofChar 'x'.toUInt8] := rfl
      simp only [convert, convText, htext]
      cases vaPtr ap with
      | none => simp
      | some x =>
          simp only [hnum]
          cases hn : numText x.1.1.toNat .sixteen st.width st.padc with
          | none => simp [hn]
          | some out => simp [hn, Option.map_eq_bind, Option.bind_assoc]
  | hex => exact take_emit putch (fun num d => hnum num .sixteen d) (getuint ap st.lflag) before fmt d
  | percent => simp [convert, convText, Option.map_eq_bind, -emit_cons]
  | other => exact absurd rfl hconv

end Convert

/-! ## The parts of a format string

The parts, what they are written as, and what they print.  None of the three says anything about how
the code reads them.
-/

/-- A part of a format string. -/
inductive Piece
  /-- A character that is printed as it is. -/
  | lit (c : UInt8)
  /-- An escape sequence, with its last character. -/
  | escape (items : List Item) (ch : UInt8)

/-- The characters that a part is written as. -/
def Piece.text : Piece → List UInt8
  | .lit c => [c]
  | .escape items ch => '%'.toUInt8 :: (itemsText items ++ [ch])

/-- The part can be read as such. -/
def Piece.WF : Piece → Prop
  | .lit c => c ≠ 0 ∧ c ≠ '%'.toUInt8
  | .escape items ch => Separate items ∧ ch ≠ 0 ∧ ∃ conv, key ch = .inr conv

/-- What a part prints, and the arguments that are left for the others. -/
def Piece.render : Piece → List Arg → Option (List UInt32 × List Arg)
  | .lit c, ap => some ([c.toUInt32], ap)
  | .escape items ch, ap => (applyItems items ({}, ap)).bind fun x =>
      match key ch with
      | .inr conv => convText (Piece.escape items ch).text x.1 conv x.2
      | .inl _ => none

lemma Piece.render_escape {ch : UInt8} {conv : Conv} (hch : key ch = .inr conv) (items : List Item)
    (ap : List Arg) : (Piece.escape items ch).render ap
      = (applyItems items ({}, ap)).bind fun x =>
          convText (Piece.escape items ch).text x.1 conv x.2 := by
  simp only [Piece.render, hch]

/-- What parts print, one after the other, and the arguments that are left. -/
def renderPieces : List Piece → List Arg → Option (List UInt32 × List Arg)
  | [], ap => some ([], ap)
  | p :: ps, ap => (p.render ap).bind fun x =>
      (renderPieces ps x.2).map fun y => (x.1 ++ y.1, y.2)

lemma renderPieces_cons (p : Piece) (ps : List Piece) (ap : List Arg) :
    renderPieces (p :: ps) ap = (p.render ap).bind fun x =>
      (renderPieces ps x.2).map fun y => (x.1 ++ y.1, y.2) := rfl

/-- A format string: its parts, and what is left behind the last of them. -/
structure FormatString where
  pieces : List Piece
  /-- What follows a `%` for which the string has no last character. -/
  unended : Option (List Item)

/-- The parts can be read as such, and so can the end. -/
structure FormatString.WF (f : FormatString) : Prop where
  pieces : ∀ p ∈ f.pieces, p.WF
  unended : ∀ items ∈ f.unended, Separate items

/-- The characters behind the last part. -/
def endText : Option (List Item) → List UInt8
  | none => []
  | some items => '%'.toUInt8 :: itemsText items

/-- What they print, when the arguments are taken that they name. -/
def renderEnd : Option (List Item) → List Arg → Option (List UInt32)
  | none, _ => some []
  | some items, ap =>
      (applyItems items ({}, ap)).map fun _ => (endText (some items)).map UInt8.toUInt32

/-- The characters that a format string is written as. -/
def FormatString.text (f : FormatString) : List UInt8 :=
  f.pieces.flatMap Piece.text ++ endText f.unended

/-- What a format string prints for some arguments. -/
def FormatString.render (f : FormatString) (ap : List Arg) : Option (List UInt32) :=
  (renderPieces f.pieces ap).bind fun x => (renderEnd f.unended x.2).map (x.1 ++ ·)

/-! ## Printing the parts

`PrintsFrom` says of a position in the format that the code does from there what it should.  The
lemmas put one more part in front of such a position, from the end of the format to its beginning.
-/

section Print

variable {σ : Type} (putch : UInt32 → σ → Option σ)
  (nested : List UInt8 → List Arg → σ → Option σ)

/-- `vprintfmt` prints what it should from a position on, with as many rounds as that takes or
more. -/
def PrintsFrom (k : ℕ) (fmt : List UInt8) (print : List Arg → σ → Option σ) : Prop :=
  ∀ fuel, k ≤ fuel → ∀ before ap d, vprintfmtFrom putch nested fuel before fmt ap d = print ap d

variable {putch nested} {k : ℕ} {rest : List UInt8} {print : List Arg → σ → Option σ}

lemma PrintsFrom.congr {print' : List Arg → σ → Option σ} (h : PrintsFrom putch nested k rest print)
    (heq : ∀ ap d, print ap d = print' ap d) : PrintsFrom putch nested k rest print' :=
  fun fuel hfuel before ap d => (h fuel hfuel before ap d).trans (heq ap d)

lemma printsFrom_succ {fmt : List UInt8}
    (h : ∀ fuel, k ≤ fuel → ∀ before ap d,
      vprintfmtFrom putch nested (fuel + 1) before fmt ap d = print ap d) :
    PrintsFrom putch nested (k + 1) fmt print := by
  intro fuel hfuel before ap d
  obtain ⟨fuel, rfl⟩ := Nat.exists_eq_add_of_le' (Nat.le_of_add_left_le hfuel)
  exact h fuel (by omega) before ap d

/-- The end of the format prints nothing. -/
lemma printsFrom_end (junk : List UInt8) : PrintsFrom putch nested 1 (0 :: junk) fun _ d => some d := by
  exact printsFrom_succ (k := 0) fun fuel _ before ap d => rfl

/-- A character that is printed as it is takes one round. -/
lemma PrintsFrom.cons (h : PrintsFrom putch nested k rest print) {c : UInt8} (hzero : c ≠ 0)
    (hpercent : c ≠ '%'.toUInt8) :
    PrintsFrom putch nested (k + 1) (c :: rest) fun ap d => (putch c.toUInt32 d).bind (print ap) := by
  refine printsFrom_succ fun fuel hfuel before ap d => ?_
  rw [vprintfmtFrom, if_pos hpercent, if_neg hzero, Option.bind_eq_bind]
  congr 1
  funext d
  exact h fuel hfuel _ ap d

/-- Characters that are printed as they are take a round each. -/
lemma PrintsFrom.append (h : PrintsFrom putch nested k rest print) {l : List UInt8}
    (hl : ∀ c ∈ l, c ≠ 0 ∧ c ≠ '%'.toUInt8) :
    PrintsFrom putch nested (k + l.length) (l ++ rest) fun ap d =>
      (emit putch (l.map UInt8.toUInt32) d).bind (print ap) := by
  induction l with
  | nil => exact h
  | cons c l ih =>
      have hc := hl c List.mem_cons_self
      refine ((ih fun c hc => hl c (List.mem_cons_of_mem _ hc)).cons hc.1 hc.2).congr fun ap d => ?_
      rw [List.map_cons, emit_cons, Option.bind_assoc]

/-- Back to the beginning of an escape sequence. -/
lemma rewind_append (l before fmt : List UInt8) (hl : ∀ c ∈ l, c ≠ '%'.toUInt8) :
    rewind (l ++ '%'.toUInt8 :: before) fmt = some ('%'.toUInt8 :: before, l.reverse ++ fmt) := by
  induction l generalizing fmt with
  | nil => rw [List.nil_append, rewind, if_neg (not_not_intro rfl)]; rfl
  | cons c l ih =>
      rw [List.cons_append, rewind, if_pos (hl c List.mem_cons_self),
        ih _ fun c hc => hl c (List.mem_cons_of_mem _ hc), List.reverse_cons, List.append_assoc]
      rfl

/-- A round for an escape sequence. -/
lemma vprintfmtFrom_percent (fuel : ℕ) (before fmt : List UInt8) (ap : List Arg) (d : σ) :
    vprintfmtFrom putch nested (fuel + 1) before ('%'.toUInt8 :: fmt) ap d
      = (reswitch {} ('%'.toUInt8 :: before) fmt ap).bind fun f =>
          (convert putch nested f d).bind fun y =>
            vprintfmtFrom putch nested fuel y.2.1 y.2.2.1 y.2.2.2 y.1 := by
  rw [vprintfmtFrom, if_neg (not_not_intro rfl)]
  rfl

/-- The last character of an escape sequence is not a digit. -/
lemma not_isDigit_of_key {ch : UInt8} {conv : Conv} (hch : key ch = .inr conv) : ¬ IsDigit ch := by
  intro h
  obtain ⟨f, hf⟩ := h.key_inl
  rw [hch] at hf
  cases hf

/-- An escape sequence that is not recognized: its `%` is printed, and what follows it is read once
more. -/
lemma PrintsFrom.unrecognized {items : List Item} (hsep : Separate items) {ch : UInt8}
    (hch : key ch = .inr .other)
    (h : PrintsFrom putch nested k (itemsText items ++ ch :: rest) print) :
    PrintsFrom putch nested (k + 1) ('%'.toUInt8 :: (itemsText items ++ ch :: rest)) fun ap d =>
      (applyItems items ({}, ap)).bind fun x =>
        (putch (ofChar '%'.toUInt8) d).bind (print x.2) := by
  refine printsFrom_succ fun fuel hfuel before ap d => ?_
  rw [vprintfmtFrom_percent, reswitch_items hsep (not_isDigit_of_key hch), Option.bind_assoc]
  congr 1
  funext x
  have hback := rewind_append (itemsText items).reverse before (ch :: rest) fun c hc =>
    (plain_of_mem_itemsText (List.mem_reverse.mp hc)).2
  rw [List.reverse_reverse] at hback
  simp only [reswitch_conv hch, Option.bind_some, convert, hback, Option.bind_eq_bind,
    Option.bind_assoc]
  congr 1
  funext d
  exact h fuel hfuel _ x.2 d

/-- An escape sequence that is recognized. -/
lemma PrintsFrom.recognized (h : PrintsFrom putch nested k rest print) {items : List Item}
    (hsep : Separate items) {ch : UInt8} {conv : Conv} (hch : key ch = .inr conv)
    (hconv : conv ≠ .other)
    (hnested : conv = .error → ∀ v d,
      printError nested v d = (errorText v).bind fun out => emit putch out d) :
    PrintsFrom putch nested (k + 1) ('%'.toUInt8 :: (itemsText items ++ ch :: rest)) fun ap d =>
      ((Piece.escape items ch).render ap).bind fun x => (emit putch x.1 d).bind (print x.2) := by
  refine printsFrom_succ fun fuel hfuel before ap d => ?_
  rw [vprintfmtFrom_percent, reswitch_items hsep (not_isDigit_of_key hch),
    Piece.render_escape hch]
  cases happly : applyItems items ({}, ap) with
  | none => rfl
  | some x =>
      have hfound := convert_eq putch
        (f := ⟨x.1, conv, ch :: ((itemsText items).reverse ++ '%'.toUInt8 :: before), rest, x.2⟩)
        (applyItems_fits happly) hnested hconv (Piece.escape items ch).text d
      simp only [reswitch_conv hch, Option.bind_some, hfound]
      cases convText (Piece.escape items ch).text x.1 conv x.2 with
      | none => rfl
      | some y =>
          simp only [Option.bind_some]
          cases emit putch y.1 d with
          | none => rfl
          | some d => exact h fuel hfuel _ y.2 d

/-- **A part** in front of the others prints what it prints, and the others go on with the
arguments that are left. -/
lemma PrintsFrom.piece (h : PrintsFrom putch nested k rest print) {p : Piece} (hp : p.WF)
    (hnested : ∀ items ch, p = .escape items ch → key ch = .inr .error → ∀ v d,
      printError nested v d = (errorText v).bind fun out => emit putch out d) :
    PrintsFrom putch nested (k + p.text.length) (p.text ++ rest) fun ap d =>
      (p.render ap).bind fun x => (emit putch x.1 d).bind (print x.2) := by
  cases p with
  | lit c =>
      refine (h.cons hp.1 hp.2).congr fun ap d => ?_
      simp [Piece.render, -emit_cons]
  | escape items ch =>
      obtain ⟨hsep, hzero, conv, hch⟩ := hp
      have htext : (Piece.escape items ch).text ++ rest
          = '%'.toUInt8 :: (itemsText items ++ ch :: rest) := by
        rw [Piece.text, List.cons_append, List.append_assoc]
        rfl
      rw [htext]
      by_cases hconv : conv = .other
      · -- it is printed as it is
        subst hconv
        have hplain : ∀ c ∈ itemsText items ++ [ch], c ≠ 0 ∧ c ≠ '%'.toUInt8 := by
          intro c hc
          rcases List.mem_append.mp hc with hc | hc
          · exact plain_of_mem_itemsText hc
          · rw [List.mem_singleton.mp hc]
            refine ⟨hzero, ?_⟩
            rintro rfl
            exact absurd hch (by decide)
        have hrest := h.append hplain
        rw [List.append_assoc] at hrest
        refine (PrintsFrom.unrecognized hsep hch hrest).congr fun ap d => ?_
        have hpercent : ofChar '%'.toUInt8 = '%'.toUInt8.toUInt32 := by decide
        rw [Piece.render_escape hch, Option.bind_assoc]
        congr 1
        funext x
        rw [convText, Option.bind_some, Piece.text, List.map_cons, emit_cons, Option.bind_assoc,
          hpercent]
      · intro fuel hfuel
        refine h.recognized hsep hch hconv (fun herror => ?_) fuel ?_
        · exact hnested items ch rfl (by rw [hch, herror])
        · rw [Piece.text, List.length_cons] at hfuel
          omega

/-- **The parts** in front of what follows them.  The induction is on the parts. -/
lemma PrintsFrom.pieces (h : PrintsFrom putch nested k rest print) {ps : List Piece}
    (hps : ∀ p ∈ ps, p.WF)
    (hnested : ∀ items ch, .escape items ch ∈ ps → key ch = .inr .error → ∀ v d,
      printError nested v d = (errorText v).bind fun out => emit putch out d) :
    PrintsFrom putch nested (k + (ps.flatMap Piece.text).length) (ps.flatMap Piece.text ++ rest)
      fun ap d => (renderPieces ps ap).bind fun x => (emit putch x.1 d).bind (print x.2) := by
  induction ps with
  | nil => exact h
  | cons p ps ih =>
      have hrest := (ih (fun p hp => hps p (List.mem_cons_of_mem _ hp)) fun items ch hmem =>
        hnested items ch (List.mem_cons_of_mem _ hmem)).piece (hps p List.mem_cons_self)
          fun items ch heq => hnested items ch (by rw [heq]; exact List.mem_cons_self)
      have hcount : k + ((p :: ps).flatMap Piece.text).length
          = k + (ps.flatMap Piece.text).length + p.text.length := by
        rw [List.flatMap_cons, List.length_append]
        omega
      rw [hcount, List.flatMap_cons, List.append_assoc]
      refine hrest.congr fun ap d => ?_
      rw [renderPieces_cons, Option.bind_assoc]
      congr 1
      funext x
      cases renderPieces ps x.2 with
      | none => simp
      | some y => simp [emit_append, Option.bind_assoc]

/-- The end of a format string: nothing, or an escape sequence that the 0 cuts off. -/
lemma printsFrom_endText {u : Option (List Item)} (hu : ∀ items ∈ u, Separate items)
    (junk : List UInt8) :
    PrintsFrom putch nested (1 + (endText u).length) (endText u ++ 0 :: junk) fun ap d =>
      (renderEnd u ap).bind fun out => emit putch out d := by
  cases u with
  | none => exact printsFrom_end junk
  | some items =>
      have hrest := (printsFrom_end junk : PrintsFrom putch nested 1 (0 :: junk) _).append
        fun c (hc : c ∈ itemsText items) => plain_of_mem_itemsText hc
      have hpercent : ofChar '%'.toUInt8 = '%'.toUInt8.toUInt32 := by decide
      refine (PrintsFrom.unrecognized (hu items rfl) (by decide) hrest).congr fun ap d => ?_
      rw [renderEnd, Option.bind_map]
      congr 1
      funext x
      simp [endText, hpercent, Option.bind_fun_some]

/-- **A format string prints what its parts print.** -/
lemma vprintfmtWith_render {f : FormatString} (hf : f.WF)
    (hnested : ∀ items ch, .escape items ch ∈ f.pieces → key ch = .inr .error → ∀ v d,
      printError nested v d = (errorText v).bind fun out => emit putch out d)
    (junk : List UInt8) (ap : List Arg) (d : σ) :
    vprintfmtWith putch nested (f.text ++ 0 :: junk) ap d
      = (f.render ap).bind fun out => emit putch out d := by
  have hparts := (printsFrom_endText hf.unended junk).pieces hf.pieces hnested
  have h := hparts.congr fun ap d => by
    show _ = (f.render ap).bind fun out => emit putch out d
    rw [FormatString.render, Option.bind_assoc]
    congr 1
    funext x
    cases renderEnd f.unended x.2 with
    | none => simp
    | some out => simp [emit_append]
  rw [vprintfmtWith, FormatString.text, List.append_assoc]
  refine h _ ?_ [] ap d
  simp only [List.length_append, List.length_cons]
  omega

end Print

/-! ## Error messages

The two formats of the nested calls, and with them the case that was left open: a format with error
messages.
-/

/-- A number of 64 bits has at most 64 digits, in any base. -/
lemma length_numeralBytes_le {num : ℕ} (hnum : num < 18446744073709551616) (base : Base) :
    (numeralBytes base.val num).length ≤ 64 := by
  have hpow : 2 ^ 64 ≤ base.val ^ 64 := Nat.pow_le_pow_left base.two_le 64
  rw [numeralBytes, List.length_map]
  exact length_numeral_le base.two_le (by decide) (Nat.lt_of_lt_of_le hnum hpow)

/-- A number without a field is its digits. -/
lemma numText_plain {num : ℕ} {base : Base} (hnum : num < 18446744073709551616) (padc : UInt8) :
    numText num base (-1) padc = some ((numeralBytes base.val num).map ofChar) := by
  have hlen := length_numeralBytes_le hnum base
  have hint : int (-1 - ((numeralBytes base.val num).length : ℤ))
      = some (-1 - ((numeralBytes base.val num).length : ℤ)) := int_of_le (by omega) (by omega)
  have hzero : (-1 - ((numeralBytes base.val num).length : ℤ)).toNat = 0 := by omega
  rw [numText]
  simp only [hint, Option.map_some, hzero, List.replicate_zero, List.nil_append]

lemma shown_false : shown false = ofChar := by
  funext c
  simp [shown]

/-- The first 0 is the one behind the string. -/
lemma idxOf_append_zero {s : List UInt8} (hs : ∀ c ∈ s, c ≠ 0) (junk : List UInt8) :
    (s ++ 0 :: junk).idxOf 0 = s.length := by
  have hnot : (0 : UInt8) ∉ s := fun h => hs 0 h rfl
  rw [List.idxOf_append_of_notMem hnot, List.idxOf_cons_self, Nat.add_zero]

/-- A string without a field is its characters. -/
lemma stringText_plain {addr : UInt32} (haddr : addr ≠ 0) {s : List UInt8} (hs : ∀ c ∈ s, c ≠ 0)
    (hlen : s.length < 2147483648) (junk : List UInt8) :
    stringText {} addr (s ++ 0 :: junk) = some (s.map ofChar) := by
  have hcount : charCount (s ++ 0 :: junk) ({} : Spec).precision = s.length := by
    rw [charCount, if_pos (by decide), idxOf_append_zero hs]
  have hend : s.length < (s ++ 0 :: junk).length := by
    rw [List.length_append, List.length_cons]
    omega
  have hleft : ¬ (0 < ({} : Spec).width ∧ ({} : Spec).padc ≠ '-'.toUInt8) :=
    fun h => absurd h.1 (by decide)
  have hint : int (({} : Spec).width - s.length) = some (-1 - (s.length : ℤ)) :=
    int_of_le (z := -1 - (s.length : ℤ)) (by omega) (by omega)
  have hzero : (-1 - (s.length : ℤ)).toNat = 0 := by omega
  simp only [stringText, if_neg haddr, hcount, if_pos hend, if_neg hleft, hint, Option.map_some,
    hzero, List.take_left, List.replicate_zero, List.append_nil]
  rw [← shown_false]

/-- Characters that are printed as they are. -/
lemma renderPieces_lits (l : List UInt8) (ps : List Piece) (ap : List Arg) :
    renderPieces (l.map Piece.lit ++ ps) ap
      = (renderPieces ps ap).map fun y => (l.map UInt8.toUInt32 ++ y.1, y.2) := by
  induction l with
  | nil => simp
  | cons c l ih =>
      rw [List.map_cons, List.cons_append, renderPieces_cons, Piece.render, Option.bind_some, ih]
      cases renderPieces ps ap <;> rfl

section Errors

variable {σ : Type} (putch : UInt32 → σ → Option σ)
  (nested : List UInt8 → List Arg → σ → Option σ)

/-- Some characters, and an escape sequence that has nothing but its last one. -/
lemma print_simple {l : List UInt8} (hl : ∀ c ∈ l, c ≠ 0 ∧ c ≠ '%'.toUInt8) {ch : UInt8}
    {conv : Conv} (hzero : ch ≠ 0) (hch : key ch = .inr conv) (hconv : conv ≠ .error)
    (ap : List Arg) (d : σ) :
    vprintfmtWith putch nested (l ++ '%'.toUInt8 :: ch :: 0 :: []) ap d
      = (convText ['%'.toUInt8, ch] {} conv ap).bind fun x =>
          emit putch (l.map UInt8.toUInt32 ++ x.1) d := by
  have hf : FormatString.WF ⟨l.map .lit ++ [.escape [] ch], none⟩ := by
    refine ⟨fun p hp => ?_, fun items h => by cases h⟩
    rcases List.mem_append.mp hp with hp | hp
    · rcases List.mem_map.mp hp with ⟨c, hc, rfl⟩
      exact hl c hc
    · rw [List.mem_singleton.mp hp]
      exact ⟨trivial, hzero, conv, hch⟩
  have htext : FormatString.text ⟨l.map .lit ++ [.escape [] ch], none⟩ = l ++ ['%'.toUInt8, ch] := by
    simp [FormatString.text, endText, Piece.text, itemsText, List.flatMap_map]
  have hnested : ∀ items c, .escape items c ∈ l.map Piece.lit ++ [.escape [] ch] →
      key c = .inr .error → ∀ v d,
      printError nested v d = (errorText v).bind fun out => emit putch out d := by
    intro items c hmem hc
    rcases List.mem_append.mp hmem with hmem | hmem
    · rcases List.mem_map.mp hmem with ⟨_, _, heq⟩
      cases heq
    · cases List.mem_singleton.mp hmem
      rw [hch] at hc
      exact absurd (Sum.inr.inj hc) hconv
  have h := vprintfmtWith_render hf hnested [] ap d
  rw [htext, List.append_assoc] at h
  rw [show l ++ '%'.toUInt8 :: ch :: 0 :: [] = l ++ (['%'.toUInt8, ch] ++ [0]) from rfl, h,
    FormatString.render, renderPieces_lits, renderPieces_cons, Piece.render_escape hch]
  have happly : applyItems [] (({} : Spec), ap) = some ({}, ap) := rfl
  have hescape : (Piece.escape [] ch).text = ['%'.toUInt8, ch] := rfl
  rw [happly, Option.bind_some, hescape]
  cases convText ['%'.toUInt8, ch] {} conv ap with
  | none => rfl
  | some x => simp [renderPieces, renderEnd]

/-- `printfmt(putch, putdat, "error %d", err)` -/
lemma print_errorNumber {err : ℤ} (hlo : 0 ≤ err) (hhi : err ≤ 2147483647) (d : σ) :
    vprintfmtWith putch nested (ascii "error %d" ++ [0]) [.int (ofInt err)] d
      = emit putch ((ascii "error " ++ numeralBytes 10 err.toNat).map ofChar) d := by
  have h := print_simple putch nested (l := ascii "error ") (by decide +kernel)
    (show 'd'.toUInt8 ≠ 0 by decide) rfl (by decide) [.int (ofInt err)] d
  have hval : toInt (ofInt err) = err := by
    rw [toInt, ofInt, UInt32.toBitVec_ofBitVec, BitVec.toInt_ofInt_eq_self (by decide)] <;> omega
  have hnum : numText err.toNat .ten (-1) ' '.toUInt8
      = some ((numeralBytes 10 err.toNat).map ofChar) := numText_plain (by omega) _
  have hsigned : signedText {} err = some ((numeralBytes 10 err.toNat).map ofChar) := by
    rw [signedText, if_neg (by omega)]
    exact hnum
  have hconv : convText ['%'.toUInt8, 'd'.toUInt8] {} .decimal [.int (ofInt err)]
      = some ((numeralBytes 10 err.toNat).map ofChar, []) := by
    show ((signedText {} (toInt (ofInt err))).map (·, ([] : List Arg))) = _
    rw [hval, hsigned]
    rfl
  have hascii : (ascii "error ").map UInt8.toUInt32 = (ascii "error ").map ofChar := by decide
  rw [hconv, Option.bind_some, hascii, ← List.map_append] at h
  exact h

/-- `printfmt(putch, putdat, "%s", p)` -/
lemma print_literal {p : List UInt8} (hp : ∀ c ∈ p, c ≠ 0) (hlen : p.length < 2147483648) (d : σ) :
    vprintfmtWith putch nested (ascii "%s" ++ [0]) [literal p] d = emit putch (p.map ofChar) d := by
  have h := print_simple putch nested (l := []) (by simp)
    (show 's'.toUInt8 ≠ 0 by decide) rfl (by decide) [literal p] d
  have hstring := stringText_plain (show (1 : UInt32) ≠ 0 by decide) hp hlen []
  have hconv : convText ['%'.toUInt8, 's'.toUInt8] {} .string [literal p]
      = some (p.map ofChar, []) := by
    show ((stringText {} 1 (p ++ [0])).map (·, ([] : List Arg))) = _
    rw [hstring]
    rfl
  rw [hconv, Option.bind_some] at h
  exact h

/-- The messages are strings, and short enough to be measured. -/
lemma errorString_plain {i : ℕ} {p : List UInt8} (h : errorString[i]? = some (some p)) :
    (∀ c ∈ p, c ≠ 0) ∧ p.length < 2147483648 := by
  have hall : ∀ o ∈ errorString, ∀ p ∈ o, (∀ c ∈ p, c ≠ 0) ∧ p.length < 100 := by decide +kernel
  obtain ⟨hne, hlen⟩ := hall _ (List.mem_of_getElem? h) p rfl
  exact ⟨hne, by omega⟩

/-- The number of an error is not negative when its message is looked for. -/
lemma errorNumber_bounds {v : UInt32} {err : ℤ} (h : errorNumber (toInt v) = some err) :
    0 ≤ err ∧ err ≤ 2147483647 := by
  have hbounds := toInt_bounds v
  rw [errorNumber] at h
  split at h
  · rw [int] at h
    split at h
    · cases h
      omega
    · cases h
  · cases h
    omega

/-- **An error message** is printed as one. -/
lemma printError_eq (v : UInt32) (d : σ) :
    printError (vprintfmtWith putch nested) v d
      = (errorText v).bind fun out => emit putch out d := by
  rw [printError, errorText]
  cases herr : errorNumber (toInt v) with
  | none => rfl
  | some err =>
      obtain ⟨hlo, hhi⟩ := errorNumber_bounds herr
      rw [Option.map_some, Option.bind_some, Option.bind_eq_bind, Option.bind_some]
      by_cases hlarge : (errorString.length : ℤ) ≤ err
      · have hnone : errorString[err.toNat]? = none := List.getElem?_eq_none (by omega)
        rw [if_pos hlarge, hnone]
        exact print_errorNumber putch nested hlo hhi d
      · have hsome : errorString[err.toNat]? = some errorString[err.toNat] :=
          List.getElem?_eq_getElem (by omega)
        rw [if_neg hlarge, hsome, Option.bind_eq_bind, Option.bind_some]
        cases hp : errorString[err.toNat] with
        | none => exact print_errorNumber putch nested hlo hhi d
        | some p =>
            obtain ⟨hne, hlen⟩ := errorString_plain (by rw [hsome, hp])
            exact print_literal putch nested hne hlen d

end Errors

/-- **`vprintfmt` prints what the parts of its format print**, one character after the other,
through whatever `putch`, and what is behind the format does not matter. -/
theorem vprintfmt_render {f : FormatString} (hf : f.WF) {σ : Type} (putch : UInt32 → σ → Option σ)
    (junk : List UInt8) (ap : List Arg) (d : σ) :
    vprintfmt putch (f.text ++ 0 :: junk) ap d
      = (f.render ap).bind fun out => emit putch out d :=
  vprintfmtWith_render hf (fun _ _ _ _ v d => printError_eq putch _ v d) junk ap d

/-! ## Taking a string apart

The other direction.  A string is read from its beginning: up to a `%` the characters are printed as
they are, and behind it items are taken for as long as there are some.
-/

/-- The item that a single character is. -/
def Flag.item : Flag → Item
  | .minus => .minus
  | .zero => .zero
  | .digit => .num 0
  | .star => .star
  | .dot => .dot
  | .sharp => .sharp
  | .long => .long

/-- A character that is an item. -/
lemma item_text {c : UInt8} {f : Flag} (h : key c = .inl f) (hf : f ≠ .digit) :
    f.item.text = [c] := by
  have hall : ∀ k : Fin 256, (key (UInt8.ofNat k)).elim
      (fun f => f == .digit || f.item.text == [UInt8.ofNat k]) (fun _ => true) = true := by
    decide +kernel
  have hc : UInt8.ofNat c.toNat = c := UInt8.ofNat_toNat
  have hkey := hall ⟨c.toNat, c.toNat_lt⟩
  simp only [hc, h, Sum.elim_inl, Bool.or_eq_true, beq_iff_eq, hf, false_or] at hkey
  exact hkey

/-- A character that starts a width field. -/
lemma isDigit_of_key {c : UInt8} (h : key c = .inl .digit) : IsDigit c ∧ c ≠ '0'.toUInt8 := by
  have hall : ∀ k : Fin 256, key (UInt8.ofNat k) = .inl .digit →
      IsDigit (UInt8.ofNat k) ∧ UInt8.ofNat k ≠ '0'.toUInt8 := by
    decide +kernel
  have hc : UInt8.ofNat c.toNat = c := UInt8.ofNat_toNat
  have hkey := hall ⟨c.toNat, c.toNat_lt⟩
  simp only [hc] at hkey
  exact hkey h

/-- The digit that a character is. -/
lemma digitByte_sub {c : UInt8} (h : IsDigit c) :
    c.toNat - 48 < 10 ∧ digitByte (c.toNat - 48) = c := by
  have hlo : 48 ≤ c.toNat := UInt8.le_iff_toNat_le.mp h.1
  have hhi : c.toNat ≤ 57 := UInt8.le_iff_toNat_le.mp h.2
  have hlt : c.toNat - 48 < 10 := by omega
  refine ⟨hlt, UInt8.toNat_inj.mp ?_⟩
  rw [toNat_digitByte hlt]
  omega

/-- Digits of which the first is not 0 are the numeral of some number. -/
lemma exists_number {c : UInt8} (hc : c ≠ '0'.toUInt8) {l : List UInt8}
    (hl : ∀ x ∈ c :: l, IsDigit x) : ∃ n, n ≠ 0 ∧ numeralBytes 10 n = c :: l := by
  have hmap : ∀ l : List UInt8, (∀ x ∈ l, IsDigit x) →
      (l.map fun x => x.toNat - 48).map digitByte = l := by
    intro l hl
    rw [List.map_map]
    exact (List.map_congr_left fun x hx => (digitByte_sub (hl x hx)).2).trans (List.map_id _)
  have hfirst : c.toNat - 48 ≠ 0 := by
    intro hzero
    have hback := (digitByte_sub (hl c List.mem_cons_self)).2
    rw [hzero] at hback
    exact hc (hback.symm.trans (by decide))
  have hnumeral := numeral_value (b := 10) (by decide) (l := (c :: l).map fun x => x.toNat - 48)
    (by simp) (fun d hd => ?_) (fun d hd => ?_)
  · refine ⟨value 10 ((c :: l).map fun x => x.toNat - 48), fun hzero => ?_, ?_⟩
    · rw [hzero, numeral_of_lt (by decide), List.map_cons] at hnumeral
      exact hfirst (List.cons.inj hnumeral).1.symm
    · rw [numeralBytes, hnumeral, hmap _ hl]
  · rcases List.mem_map.mp hd with ⟨x, hx, rfl⟩
    exact (digitByte_sub (hl x hx)).1
  · cases hd
    exact hfirst

/-- An item that starts with a digit does. -/
lemma Item.Digit.text_cons {it : Item} (h : it.Digit) : ∃ c l, it.text = c :: l ∧ IsDigit c := by
  cases it with
  | num n =>
      have hlt := lt_of_mem_numeral (b := 10) (by decide) n
      rw [Item.text, numeralBytes]
      cases hn : numeral 10 n with
      | nil => exact absurd hn (numeral_ne_nil (by decide) n)
      | cons e ds =>
          rw [hn] at hlt
          exact ⟨digitByte e, ds.map digitByte, rfl, isDigit_digitByte (hlt e List.mem_cons_self)⟩
  | zero => exact ⟨_, [], rfl, by decide⟩
  | _ => exact h.elim

/-- **Items are found** in front of what ends an escape sequence, or the string. -/
lemma exists_items (s : List UInt8) : ∃ items rest, Separate items ∧ s = itemsText items ++ rest ∧
    ∀ c ∈ rest.head?, ∃ conv, key c = .inr conv := by
  induction hn : s.length using Nat.strongRecOn generalizing s with
  | ind n ih =>
      cases s with
      | nil => exact ⟨[], [], trivial, rfl, fun c h => by cases h⟩
      | cons c s =>
          rw [List.length_cons] at hn
          cases hkey : key c with
          | inr conv =>
              refine ⟨[], c :: s, trivial, rfl, fun c' h => ?_⟩
              cases h
              exact ⟨conv, hkey⟩
          | inl f =>
              by_cases hf : f = .digit
              · -- as many digits as there are
                subst hf
                obtain ⟨hdigit, hzero⟩ := isDigit_of_key hkey
                have hrun : ∀ x ∈ c :: s.takeWhile (IsDigit ·), IsDigit x := by
                  intro x hx
                  rcases List.mem_cons.mp hx with rfl | hx
                  · exact hdigit
                  · simpa using List.mem_takeWhile_imp hx
                obtain ⟨m, hm, htext⟩ := exists_number hzero hrun
                have hshort : (s.dropWhile (IsDigit ·)).length < n := by
                  have hle := (List.dropWhile_sublist (p := (IsDigit ·)) (l := s)).length_le
                  omega
                obtain ⟨items, rest, hsep, hrest, hend⟩ := ih _ hshort (s.dropWhile (IsDigit ·)) rfl
                refine ⟨.num m :: items, rest, ⟨hm, fun it hit hdig => ?_, hsep⟩, ?_, hend⟩
                · have hnot := List.head?_dropWhile_not (IsDigit ·) s
                  obtain ⟨x, l, hx, hxdigit⟩ := hdig.text_cons
                  cases items with
                  | nil => cases hit
                  | cons it' items =>
                      cases hit
                      rw [hrest, itemsText, List.flatMap_cons, hx] at hnot
                      exact absurd hxdigit (of_decide_eq_false hnot)
                · have hsplit : s = s.takeWhile (IsDigit ·) ++ s.dropWhile (IsDigit ·) :=
                    List.takeWhile_append_dropWhile.symm
                  have hcons : itemsText (.num m :: items) = numeralBytes 10 m ++ itemsText items :=
                    rfl
                  rw [hcons, htext, List.append_assoc, ← hrest, List.cons_append, ← hsplit]
              · obtain ⟨items, rest, hsep, hrest, hend⟩ := ih s.length (by omega) s rfl
                refine ⟨f.item :: items, rest, ?_, ?_, hend⟩
                · cases f with
                  | digit => exact absurd rfl hf
                  | _ => exact hsep
                · have hcons : itemsText (f.item :: items) = f.item.text ++ itemsText items := rfl
                  rw [hcons, item_text hkey hf, List.append_assoc, ← hrest]
                  rfl

/-- **Every string is a format string.** -/
theorem exists_formatString {s : List UInt8} (hs : ∀ c ∈ s, c ≠ 0) :
    ∃ f : FormatString, f.WF ∧ f.text = s := by
  induction hn : s.length using Nat.strongRecOn generalizing s with
  | ind n ih =>
      cases s with
      | nil => exact ⟨⟨[], none⟩, ⟨by simp, by simp⟩, rfl⟩
      | cons c s =>
          rw [List.length_cons] at hn
          by_cases hpercent : c = '%'.toUInt8
          · subst hpercent
            obtain ⟨items, rest, hsep, hrest, hend⟩ := exists_items s
            cases rest with
            | nil =>
                refine ⟨⟨[], some items⟩, ⟨by simp, by simpa using hsep⟩, ?_⟩
                rw [hrest, List.append_nil]
                rfl
            | cons ch rest =>
                obtain ⟨conv, hconv⟩ := hend ch rfl
                have hmem : ∀ x ∈ ch :: rest, x ≠ 0 := fun x hx =>
                  hs x (List.mem_cons_of_mem _ (by rw [hrest]; exact List.mem_append_right _ hx))
                have hlen : rest.length < n := by
                  rw [hrest, List.length_append, List.length_cons] at hn
                  omega
                obtain ⟨f, hf, htext⟩ := ih _ hlen
                  (fun x hx => hmem x (List.mem_cons_of_mem _ hx)) rfl
                refine ⟨⟨.escape items ch :: f.pieces, f.unended⟩, ⟨?_, hf.unended⟩, ?_⟩
                · intro p hp
                  rcases List.mem_cons.mp hp with rfl | hp
                  · exact ⟨hsep, hmem ch List.mem_cons_self, conv, hconv⟩
                  · exact hf.pieces p hp
                · rw [FormatString.text] at htext ⊢
                  rw [List.flatMap_cons, List.append_assoc, htext, Piece.text, hrest]
                  simp
          · obtain ⟨f, hf, htext⟩ := ih s.length (by omega)
              (fun x hx => hs x (List.mem_cons_of_mem _ hx)) rfl
            refine ⟨⟨.lit c :: f.pieces, f.unended⟩, ⟨?_, hf.unended⟩, ?_⟩
            · intro p hp
              rcases List.mem_cons.mp hp with rfl | hp
              · exact ⟨hs c List.mem_cons_self, hpercent⟩
              · exact hf.pieces p hp
            · rw [FormatString.text] at htext ⊢
              rw [List.flatMap_cons, List.append_assoc, htext]
              rfl

/-- **What any call prints.**  A string up to its 0 stands for a list of parts, and `vprintfmt` on
it prints what the parts print for the arguments, through whatever `putch`; where a part has no
meaning, because an argument is missing or a number overflows, the call is undefined. -/
theorem vprintfmt_means {s : List UInt8} (hs : ∀ c ∈ s, c ≠ 0) :
    ∃ f : FormatString, f.WF ∧ f.text = s ∧
      ∀ (σ : Type) (putch : UInt32 → σ → Option σ) (junk : List UInt8) (ap : List Arg) (d : σ),
        vprintfmt putch (s ++ 0 :: junk) ap d
          = (f.render ap).bind fun out => emit putch out d := by
  obtain ⟨f, hf, htext⟩ := exists_formatString hs
  refine ⟨f, hf, htext, fun σ putch junk ap d => ?_⟩
  rw [← htext]
  exact vprintfmt_render hf putch junk ap d

/-- A format that ends inside of an escape sequence. -/
theorem vprintfmt_means_unended :
    ∃ f : FormatString, f.WF ∧ f.text = ascii "100%5" ∧
      ∀ (σ : Type) (putch : UInt32 → σ → Option σ) (junk : List UInt8) (ap : List Arg) (d : σ),
        vprintfmt putch (ascii "100%5" ++ 0 :: junk) ap d
          = (f.render ap).bind fun out => emit putch out d :=
  vprintfmt_means (by decide +kernel)

end ScratchOs.Lib
