import Mathlib.Data.List.Forall2
import ScratchOs.Lib.FormatStrings

/-!
# Arguments that match a format

What a format takes from the arguments, and that a call whose arguments are of these kinds is
defined: it reads no byte behind the end of the format or of a string, no argument that is not
there, and no number overflows.

* `FormatString.kinds` — the kinds of the arguments that a format takes, in order.
* **`vprintfmt_of_match`** — a matching call prints some characters, the same ones through whatever
  `putch`.

**The kinds** are narrower than the types of C where the code computes with an argument.  The
absolute value of an error number must be an `int`, that of a `long long` a `long long`; a width
must not be too far to the left; and a string must end.  The numbers in the format itself are
bounded too (`FormatString.Small`), since the code adds a character to each of them before it
subtracts 48.

With these bounds every sum in the code fits, which is all that a caller has to know: a call that
matches is as good as the list of characters that it prints.  The results on `snprintf` and on the
serial line start from here.
-/

namespace ScratchOs.Lib

/-- What an argument has to be. -/
inductive Kind
  /-- A width or a precision. -/
  | star
  /-- Any `int`, or `unsigned`. -/
  | int
  /-- An error number, whose absolute value is an `int`. -/
  | error
  /-- A `long long` whose absolute value is one. -/
  | signedLong
  /-- Any `unsigned long long`. -/
  | unsignedLong
  /-- A string. -/
  | string
  /-- Any pointer. -/
  | pointer

/-- The argument is of the kind.  Strings end, and fields to the left are not too wide. -/
def Arg.Is : Arg → Kind → Prop
  | .int v, .star => -1073741824 ≤ toInt v
  | .int _, .int => True
  | .int v, .error => toInt v ≠ -2147483648
  | .longlong v, .signedLong => v.toBitVec.toInt ≠ -9223372036854775808
  | .longlong _, .unsignedLong => True
  | .ptr addr obj, .string => addr = 0 ∨ obj.idxOf 0 < obj.length ∧ obj.idxOf 0 < 1073741824
  | .ptr _ _, .pointer => True
  | _, _ => False

/-- The arguments are of the kinds, one by one. -/
def Match (args : List Arg) (kinds : List Kind) : Prop := List.Forall₂ Arg.Is args kinds

/-- The arguments that an item takes: a `*` takes one. -/
def Item.kinds : Item → List Kind
  | .star => [.star]
  | _ => []

/-- The arguments that some items take. -/
def itemsKinds (items : List Item) : List Kind := items.flatMap Item.kinds

/-- How long the items make a number: the number of `l` among them. -/
def longs : List Item → ℕ
  | [] => 0
  | .long :: items => longs items + 1
  | _ :: items => longs items

/-- The arguments that the end of an escape sequence takes. -/
def Conv.kinds (lflag : ℕ) : Conv → List Kind
  | .char => [.int]
  | .error => [.error]
  | .string => [.string]
  | .decimal => if 2 ≤ lflag then [.signedLong] else [.int]
  | .unsigned | .hex => if 2 ≤ lflag then [.unsignedLong] else [.int]
  | .pointer => [.pointer]
  | .octal | .percent | .other => []

/-- The arguments that a part takes. -/
def Piece.kinds : Piece → List Kind
  | .lit _ => []
  | .escape items ch => itemsKinds items ++ (key ch).elim (fun _ => []) (Conv.kinds (longs items))

/-- The arguments that a format takes, in the order of its parts. -/
def FormatString.kinds (f : FormatString) : List Kind :=
  f.pieces.flatMap Piece.kinds ++ (f.unended.map itemsKinds).getD []

/-- The numbers in the items are of type `int`. -/
def SmallItems (items : List Item) : Prop := ∀ n : ℕ, .num n ∈ items → (n : ℤ) + 48 ≤ 2147483647

/-- The numbers in the format are of type `int`. -/
structure FormatString.Small (f : FormatString) : Prop where
  pieces : ∀ items ch, .escape items ch ∈ f.pieces → SmallItems items
  unended : ∀ items ∈ f.unended, SmallItems items

/-! ## Items

The flags and numbers of an escape sequence.  Only `*` takes an argument.
-/

/-- Arguments of some kinds and of others are split between the two. -/
lemma Match.append_left {args : List Arg} {k₁ k₂ : List Kind} (h : Match args (k₁ ++ k₂)) :
    ∃ a₁ a₂, args = a₁ ++ a₂ ∧ Match a₁ k₁ ∧ Match a₂ k₂ :=
  ⟨args.take k₁.length, args.drop k₁.length, (List.take_append_drop _ _).symm,
    List.forall₂_take_append _ _ _ h, List.forall₂_drop_append _ _ _ h⟩

/-- A single argument of the right kind. -/
lemma Match.single {args : List Arg} {k : Kind} (h : Match args [k]) :
    ∃ a, args = [a] ∧ a.Is k := by
  rcases h with _ | ⟨hfirst, hrest⟩
  cases hrest
  exact ⟨_, rfl, hfirst⟩

/-- The width field is not too far to the left. -/
def Spec.NotWide (st : Spec) : Prop := -1073741824 ≤ st.width

lemma notWide_default : ({} : Spec).NotWide := by
  show -1073741824 ≤ (-1 : ℤ)
  decide

lemma Spec.NotWide.processPrecision {st : Spec} (h : st.NotWide) {precision : ℤ}
    (hlo : -1073741824 ≤ precision) : (st.processPrecision precision).NotWide := by
  rw [Spec.processPrecision]
  split
  · exact hlo
  · exact h

/-- **An item takes its arguments.** -/
lemma Item.apply_match {it : Item} (hsmall : ∀ n : ℕ, it = .num n → (n : ℤ) + 48 ≤ 2147483647)
    {args : List Arg} (hargs : Match args it.kinds) {st : Spec} (hwide : st.NotWide)
    (extra : List Arg) :
    ∃ st', it.apply (st, args ++ extra) = some (st', extra)
      ∧ st'.lflag = st.lflag + longs [it] ∧ st'.NotWide := by
  cases it with
  | num n =>
      have hint : int ((n : ℤ) + 48) = some ((n : ℤ) + 48) := int_of_le (by omega) (hsmall n rfl)
      cases hargs
      refine ⟨st.processPrecision n, ?_, ?_, hwide.processPrecision (by omega)⟩
      · rw [Item.apply, hint]
        rfl
      · rw [Spec.processPrecision]
        split <;> rfl
  | star =>
      obtain ⟨a, rfl, ha⟩ := Match.single hargs
      cases a with
      | int v =>
          refine ⟨st.processPrecision (toInt v), rfl, ?_, hwide.processPrecision ha⟩
          rw [Spec.processPrecision]
          split <;> rfl
      | longlong v => exact ha.elim
      | ptr addr obj => exact ha.elim
  | dot =>
      cases hargs
      refine ⟨_, rfl, rfl, ?_⟩
      show -1073741824 ≤ if st.width < 0 then 0 else st.width
      have hge : -1073741824 ≤ st.width := hwide
      split <;> omega
  | _ =>
      cases hargs
      exact ⟨_, rfl, rfl, hwide⟩

/-- **Items take their arguments.** -/
lemma applyItems_match {items : List Item} (hsmall : SmallItems items) {args : List Arg}
    (hargs : Match args (itemsKinds items)) {st : Spec} (hwide : st.NotWide) (extra : List Arg) :
    ∃ st', applyItems items (st, args ++ extra) = some (st', extra)
      ∧ st'.lflag = st.lflag + longs items ∧ st'.NotWide := by
  induction items generalizing args st with
  | nil =>
      cases hargs
      exact ⟨st, rfl, rfl, hwide⟩
  | cons it items ih =>
      obtain ⟨first, rest, rfl, hfirst, hrest⟩ := Match.append_left hargs
      obtain ⟨st₁, happly, hflag, hwide₁⟩ := Item.apply_match
        (fun n h => hsmall n (by rw [h]; exact List.mem_cons_self)) hfirst hwide (rest ++ extra)
      obtain ⟨st₂, happly', hflag', hwide₂⟩ := ih
        (fun n h => hsmall n (List.mem_cons_of_mem _ h)) hrest hwide₁
      refine ⟨st₂, ?_, ?_, hwide₂⟩
      · rw [applyItems, List.foldlM_cons, List.append_assoc, happly]
        exact happly'
      · have hlongs : longs (it :: items) = longs [it] + longs items := by
          cases it <;> simp [longs, Nat.add_comm]
        omega

/-! ## Ends of escape sequences

Each of the cases that print.  Where a case computes with `int`, the bounds on its argument are what
keeps the result in range.
-/

/-- A number is printed in a field that is not too far to the left. -/
lemma numText_isSome {num : ℕ} (hnum : num < 18446744073709551616) (base : Base) {width : ℤ}
    (hlo : -1073741824 ≤ width) (hhi : width ≤ 2147483647) (padc : UInt8) :
    ∃ out, numText num base width padc = some out := by
  have hlen := length_numeralBytes_le hnum base
  have hint : int (width - ((numeralBytes base.val num).length : ℤ))
      = some (width - ((numeralBytes base.val num).length : ℤ)) := int_of_le (by omega) (by omega)
  rw [numText]
  simp only [hint]
  exact ⟨_, rfl⟩

/-- A string that ends is printed. -/
lemma stringText_isSome {st : Spec} (hst : st.Fits) (hwide : st.NotWide) {addr : UInt32}
    {obj : List UInt8}
    (h : addr = 0 ∨ obj.idxOf 0 < obj.length ∧ obj.idxOf 0 < 1073741824) :
    ∃ out, stringText st addr obj = some out := by
  have hlo : -1073741824 ≤ st.width := hwide
  have hhi := hst.width_le
  rw [stringText]
  -- the string that is printed ends, too
  have hends : (if addr = 0 then ascii "(null)" ++ [0] else obj).idxOf 0
        < (if addr = 0 then ascii "(null)" ++ [0] else obj).length
      ∧ (if addr = 0 then ascii "(null)" ++ [0] else obj).idxOf 0 < 1073741824 := by
    by_cases hnull : addr = 0
    · rw [if_pos hnull]
      decide
    · rw [if_neg hnull]
      exact h.resolve_left hnull
  revert hends
  generalize (if addr = 0 then ascii "(null)" ++ [0] else obj) = p
  intro hends
  have hcount : charCount p st.precision ≤ p.idxOf 0 := by
    rw [charCount]
    split
    · exact Nat.le_refl _
    · exact Nat.min_le_left _ _
  have hint : int (charCount p st.precision : ℤ) = some (charCount p st.precision : ℤ) :=
    int_of_le (by omega) (by omega)
  simp only [if_pos (Nat.lt_of_le_of_lt hcount hends.1), hint, Option.bind_some]
  by_cases hleft : 0 < st.width ∧ st.padc ≠ '-'.toUInt8
  · have hrest : int (min (st.width - charCount p st.precision) 0 - charCount p st.precision)
        = some (min (st.width - charCount p st.precision) 0 - charCount p st.precision) := by
      have hpos := hleft.1
      exact int_of_le (by omega) (by omega)
    rw [if_pos hleft, hrest]
    exact ⟨_, rfl⟩
  · have hrest : int (st.width - charCount p st.precision)
        = some (st.width - charCount p st.precision) := int_of_le (by omega) (by omega)
    rw [if_neg hleft, hrest]
    exact ⟨_, rfl⟩

/-- A signed number is printed. -/
lemma signedText_isSome {st : Spec} (hst : st.Fits) (hwide : st.NotWide) {z : ℤ}
    (hlo : -9223372036854775808 < z) (hhi : z ≤ 9223372036854775807) :
    ∃ out, signedText st z = some out := by
  rw [signedText]
  by_cases hneg : z < 0
  · have hlong : longlong (-z) = some (-z) := if_pos ⟨by omega, by omega⟩
    have hnum : (-z).toNat < 18446744073709551616 := by omega
    obtain ⟨out, hout⟩ := numText_isSome hnum .ten hwide hst.width_le st.padc
    rw [if_pos hneg, hlong, Option.bind_some, hout]
    exact ⟨_, rfl⟩
  · rw [if_neg hneg]
    exact numText_isSome (by omega) .ten hwide hst.width_le st.padc

/-- An error message is printed. -/
lemma errorText_isSome {v : UInt32} (hv : toInt v ≠ -2147483648) :
    ∃ out, errorText v = some out := by
  have hbounds := toInt_bounds v
  have hnumber : errorNumber (toInt v) = some ((toInt v).natAbs : ℤ) := by
    rw [errorNumber]
    split
    · have habs : ((toInt v).natAbs : ℤ) = -toInt v := by omega
      rw [habs]
      exact int_of_le (by omega) (by omega)
    · congr 1
      omega
  rw [errorText, hnumber]
  exact ⟨_, rfl⟩

section Conv

variable {st : Spec} {args : List Arg} (extra : List Arg)

/-- An unsigned number is there to be taken, and has 64 bits. -/
lemma getuint_match
    (hargs : Match args (if 2 ≤ st.lflag then [.unsignedLong] else [.int])) :
    ∃ num < 18446744073709551616, getuint (args ++ extra) st.lflag = some (num, extra) := by
  rw [getuint]
  by_cases hlong : 2 ≤ st.lflag
  · rw [if_pos hlong] at hargs
    obtain ⟨a, rfl, ha⟩ := Match.single hargs
    rw [if_pos hlong]
    cases a with
    | longlong v => exact ⟨v.toNat, v.toNat_lt, rfl⟩
    | int v => exact ha.elim
    | ptr addr obj => exact ha.elim
  · rw [if_neg hlong] at hargs
    obtain ⟨a, rfl, ha⟩ := Match.single hargs
    rw [if_neg hlong]
    cases a with
    | int v => exact ⟨v.toNat, Nat.lt_trans v.toNat_lt (by decide), rfl⟩
    | longlong v => exact ha.elim
    | ptr addr obj => exact ha.elim

/-- A signed number is there to be taken, and is not the least one. -/
lemma getint_match (hargs : Match args (if 2 ≤ st.lflag then [.signedLong] else [.int])) :
    ∃ z, (-9223372036854775808 < z ∧ z ≤ 9223372036854775807)
      ∧ getint (args ++ extra) st.lflag = some (z, extra) := by
  rw [getint]
  by_cases hlong : 2 ≤ st.lflag
  · rw [if_pos hlong] at hargs
    obtain ⟨a, rfl, ha⟩ := Match.single hargs
    rw [if_pos hlong]
    cases a with
    | longlong v =>
        have hlo := v.toBitVec.le_toInt
        have hhi := v.toBitVec.toInt_lt
        have hne : v.toBitVec.toInt ≠ -9223372036854775808 := ha
        exact ⟨v.toBitVec.toInt, by omega, rfl⟩
    | int v => exact ha.elim
    | ptr addr obj => exact ha.elim
  · rw [if_neg hlong] at hargs
    obtain ⟨a, rfl, ha⟩ := Match.single hargs
    rw [if_neg hlong]
    cases a with
    | int v =>
        have hbounds := toInt_bounds v
        exact ⟨toInt v, by omega, rfl⟩
    | longlong v => exact ha.elim
    | ptr addr obj => exact ha.elim

/-- **The end of an escape sequence takes its arguments**, and prints. -/
lemma convText_match (hst : st.Fits) (hwide : st.NotWide) {conv : Conv}
    (hargs : Match args (conv.kinds st.lflag)) (text : List UInt8) :
    ∃ out, convText text st conv (args ++ extra) = some (out, extra) := by
  cases conv with
  | char =>
      obtain ⟨a, rfl, ha⟩ := Match.single hargs
      cases a with
      | int v => exact ⟨_, rfl⟩
      | longlong v => exact ha.elim
      | ptr addr obj => exact ha.elim
  | error =>
      obtain ⟨a, rfl, ha⟩ := Match.single hargs
      cases a with
      | int v =>
          obtain ⟨out, hout⟩ := errorText_isSome ha
          exact ⟨out, by show (errorText v).map _ = _; rw [hout]; rfl⟩
      | longlong v => exact ha.elim
      | ptr addr obj => exact ha.elim
  | string =>
      obtain ⟨a, rfl, ha⟩ := Match.single hargs
      cases a with
      | ptr addr obj =>
          obtain ⟨out, hout⟩ := stringText_isSome hst hwide ha
          exact ⟨out, by show (stringText st addr obj).map _ = _; rw [hout]; rfl⟩
      | int v => exact ha.elim
      | longlong v => exact ha.elim
  | decimal =>
      obtain ⟨z, hz, hget⟩ := getint_match extra hargs
      obtain ⟨out, hout⟩ := signedText_isSome hst hwide hz.1 hz.2
      exact ⟨out, by rw [convText, hget, Option.bind_some, hout]; rfl⟩
  | unsigned =>
      obtain ⟨num, hnum, hget⟩ := getuint_match extra hargs
      obtain ⟨out, hout⟩ := numText_isSome hnum .ten hwide hst.width_le st.padc
      exact ⟨out, by rw [convText, hget, Option.bind_some, hout]; rfl⟩
  | hex =>
      obtain ⟨num, hnum, hget⟩ := getuint_match extra hargs
      obtain ⟨out, hout⟩ := numText_isSome hnum .sixteen hwide hst.width_le st.padc
      exact ⟨out, by rw [convText, hget, Option.bind_some, hout]; rfl⟩
  | pointer =>
      obtain ⟨a, rfl, ha⟩ := Match.single hargs
      cases a with
      | ptr addr obj =>
          have hnum : addr.toNat < 18446744073709551616 := Nat.lt_trans addr.toNat_lt (by decide)
          obtain ⟨out, hout⟩ := numText_isSome hnum .sixteen hwide hst.width_le st.padc
          refine ⟨(ascii "0x").map ofChar ++ out, ?_⟩
          show ((numText addr.toNat .sixteen st.width st.padc).map _).map _ = _
          rw [hout]
          rfl
      | int v => exact ha.elim
      | longlong v => exact ha.elim
  | _ =>
      cases hargs
      exact ⟨_, rfl⟩

end Conv

/-! ## Formats

From the parts to the whole format, with the arguments that are left passed on.
-/

/-- **A part takes its arguments**, and prints. -/
lemma Piece.render_match {p : Piece} (hp : p.WF)
    (hsmall : ∀ items ch, p = .escape items ch → SmallItems items) {args : List Arg}
    (hargs : Match args p.kinds) (extra : List Arg) :
    ∃ out, p.render (args ++ extra) = some (out, extra) := by
  cases p with
  | lit c =>
      cases hargs
      exact ⟨_, rfl⟩
  | escape items ch =>
      obtain ⟨-, -, conv, hch⟩ := hp
      rw [Piece.kinds, hch] at hargs
      obtain ⟨stars, rest, rfl, hstars, hrest⟩ := Match.append_left hargs
      obtain ⟨st, happly, hflag, hwide⟩ := applyItems_match (hsmall items ch rfl) hstars
        notWide_default (rest ++ extra)
      have hlflag : st.lflag = longs items := hflag.trans (Nat.zero_add _)
      have hconv : Match rest (conv.kinds st.lflag) := by
        rw [hlflag]
        exact hrest
      obtain ⟨out, hout⟩ := convText_match extra (applyItems_fits happly) hwide hconv
        (Piece.escape items ch).text
      refine ⟨out, ?_⟩
      rw [Piece.render_escape hch, List.append_assoc, happly]
      exact hout

/-- The parts take their arguments. -/
lemma renderPieces_match {ps : List Piece} (hps : ∀ p ∈ ps, p.WF)
    (hsmall : ∀ items ch, .escape items ch ∈ ps → SmallItems items) {args : List Arg}
    (hargs : Match args (ps.flatMap Piece.kinds)) (extra : List Arg) :
    ∃ out, renderPieces ps (args ++ extra) = some (out, extra) := by
  induction ps generalizing args with
  | nil =>
      cases hargs
      exact ⟨[], rfl⟩
  | cons p ps ih =>
      obtain ⟨first, rest, rfl, hfirst, hrest⟩ := Match.append_left hargs
      obtain ⟨out, hout⟩ := Piece.render_match (hps p List.mem_cons_self)
        (fun items ch h => hsmall items ch (by rw [← h]; exact List.mem_cons_self)) hfirst
        (rest ++ extra)
      obtain ⟨outs, houts⟩ := ih (fun p hp => hps p (List.mem_cons_of_mem _ hp))
        (fun items ch h => hsmall items ch (List.mem_cons_of_mem _ h)) hrest
      refine ⟨out ++ outs, ?_⟩
      rw [renderPieces_cons, List.append_assoc, hout, Option.bind_some, houts]
      rfl

/-- Matching arguments are there for everything that the format prints. -/
lemma FormatString.render_match {f : FormatString} (hf : f.WF) (hsmall : f.Small) {args : List Arg}
    (hargs : Match args f.kinds) (extra : List Arg) :
    ∃ out, f.render (args ++ extra) = some out := by
  obtain ⟨first, rest, rfl, hfirst, hrest⟩ := Match.append_left hargs
  obtain ⟨out, hout⟩ := renderPieces_match hf.pieces hsmall.pieces hfirst (rest ++ extra)
  have hend : ∃ tail, renderEnd f.unended (rest ++ extra) = some tail := by
    cases hu : f.unended with
    | none => exact ⟨[], rfl⟩
    | some items =>
        rw [hu] at hrest
        obtain ⟨st, happly, -⟩ := applyItems_match (hsmall.unended items hu) hrest
          notWide_default extra
        refine ⟨(endText (some items)).map UInt8.toUInt32, ?_⟩
        rw [renderEnd, happly]
        rfl
  obtain ⟨tail, htail⟩ := hend
  refine ⟨out ++ tail, ?_⟩
  rw [FormatString.render, List.append_assoc, hout, Option.bind_some, htail]
  rfl

/-- **A call whose arguments match its format is defined**, with further arguments or without: it
prints some characters, whatever they are handed to and whatever is behind the format. -/
theorem vprintfmt_of_match {f : FormatString} (hf : f.WF) (hsmall : f.Small) {args : List Arg}
    (hargs : Match args f.kinds) (extra : List Arg) :
    ∃ out, ∀ (σ : Type) (putch : UInt32 → σ → Option σ) (junk : List UInt8) (d : σ),
      vprintfmt putch (f.text ++ 0 :: junk) (args ++ extra) d = emit putch out d := by
  obtain ⟨out, hout⟩ := FormatString.render_match hf hsmall hargs extra
  refine ⟨out, fun σ putch junk d => ?_⟩
  rw [vprintfmt_render hf, hout, Option.bind_some]

/-- `"0x%x"`, as it is in `LOG_EXPR`. -/
def hexFormat : FormatString :=
  ⟨[.lit '0'.toUInt8, .lit 'x'.toUInt8, .escape [] 'x'.toUInt8], none⟩

lemma hexFormat_wf : hexFormat.WF := by
  refine ⟨fun p hp => ?_, fun items h => by cases h⟩
  simp only [hexFormat, List.mem_cons, List.not_mem_nil, or_false] at hp
  rcases hp with rfl | rfl | rfl
  · exact ⟨by decide, by decide⟩
  · exact ⟨by decide, by decide⟩
  · exact ⟨trivial, by decide, .hex, by decide⟩

lemma hexFormat_small : hexFormat.Small :=
  ⟨fun items ch h n hn => by simp_all [hexFormat], fun items h => by cases h⟩

lemma hexFormat_match (v : UInt32) : Match [.int v] hexFormat.kinds :=
  List.Forall₂.cons trivial List.Forall₂.nil

/-- What it prints: the prefix, and the digits of the number. -/
lemma hexFormat_render (v : UInt32) : hexFormat.render [.int v]
    = some ((ascii "0x" ++ numeralBytes 16 v.toNat).map ofChar) := by
  have hnum : numText v.toNat .sixteen (-1) ' '.toUInt8 = some ((numeralBytes 16 v.toNat).map ofChar) :=
    numText_plain (Nat.lt_trans v.toNat_lt (by decide)) _
  have hconv : (Piece.escape [] 'x'.toUInt8).render [.int v]
      = some ((numeralBytes 16 v.toNat).map ofChar, []) := by
    show ((numText v.toNat .sixteen (-1) ' '.toUInt8).map fun out => (out, ([] : List Arg))) = _
    rw [hnum]
    rfl
  have hpieces : renderPieces hexFormat.pieces [.int v]
      = some ((ascii "0x" ++ numeralBytes 16 v.toNat).map ofChar, []) := by
    rw [hexFormat, renderPieces_cons, Piece.render, Option.bind_some, renderPieces_cons,
      Piece.render, Option.bind_some, renderPieces_cons, hconv]
    simp only [Option.bind_some, renderPieces, Option.map_some, List.append_nil, List.map_append]
    rfl
  rw [FormatString.render, hpieces, Option.bind_some]
  simp [hexFormat, renderEnd]

/-- A number of one byte is printed as two digits, if it has two. -/
lemma hexFormat_render_byte (v : UInt32) (hlo : 16 ≤ v.toNat) (hhi : v.toNat < 256) :
    hexFormat.render [.int v] = some
      ((ascii "0x" ++ [digitByte (v.toNat / 16), digitByte (v.toNat % 16)]).map ofChar) := by
  rw [hexFormat_render, numeralBytes_of_le (by decide) hlo, numeralBytes_of_lt (by omega)]
  rfl

theorem vprintfmt_of_match_hex :
    ∃ out, ∀ (σ : Type) (putch : UInt32 → σ → Option σ) (junk : List UInt8) (d : σ),
      vprintfmt putch (hexFormat.text ++ 0 :: junk) ([.int 42] ++ []) d = emit putch out d :=
  vprintfmt_of_match hexFormat_wf hexFormat_small (hexFormat_match 42) []

end ScratchOs.Lib
