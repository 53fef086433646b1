import ScratchOs.Lib.Arguments
import ScratchOs.Lib.Strtol

/-!
# Formatting into a buffer, and reading numbers

`snprintf` of `lib/printfmt.c`, and `strtol` of `lib/string.c`.  The format, and the strings among
the arguments, are not in the buffer.

* `vsnprintf_eq` — the buffer gets what fits in front of a 0; the result counts all of it.
* **`vsnprintf_bounded`** — so for arguments that match the format nothing is written outside.
* **`strtol_snprintf_iff`** — a number that was printed with `%d`, in a field or not, is read back
  exactly when it is not the least `int`, and no padding has come behind its sign.

**What is assumed** of the buffer is that it is there: its address is not null, it has at least one
byte, and it ends inside of the address space.  The count is an `int` in the code, so that a text of
more than `INT_MAX` characters is undefined, whatever the size of the buffer.

**Reading back.**  `snprintf` prints the sign of a number in front of its field, and pads between
the sign and the digits; `strtol` does not look over blanks behind a sign.  So the two agree on
numbers that are not negative in any field, and on negative ones only if their digits fill the
field.
-/

namespace ScratchOs.Lib

open Memory Numerals

/-! ## `snprintf`

The buffer as a `putch`, and what is in it after a call.  The last byte is kept for the 0.
-/

/-- `struct sprintbuf`, and the memory that the buffer is in. -/
structure SprintBuf where
  mem : Mem
  buf : UInt32
  ebuf : UInt32
  cnt : ℤ

/-- `sprintputch`, which counts every character and stores those that fit. -/
def sprintputch (ch : UInt32) (b : SprintBuf) : Option SprintBuf := do
  let cnt ← int (b.cnt + 1)
  let b := { b with cnt }
  if b.buf < b.ebuf then
    some { b with mem := Function.update b.mem b.buf ch.toUInt8, buf := b.buf + 1 }
  else some b

/-- `vsnprintf`: the memory after it, and what it returns. -/
def vsnprintf (mem : Mem) (buf : UInt32) (n : ℤ) (fmt : List UInt8) (ap : List Arg) :
    Option (Mem × ℤ) :=
  let b : SprintBuf := ⟨mem, buf, buf + ofInt n - 1, 0⟩
  if buf = 0 ∨ n < 1 then some (mem, -3)
  else do
    let b ← vprintfmt sprintputch fmt ap b
    some (Function.update b.mem b.buf 0, b.cnt)

/-- `snprintf`, which is `vsnprintf` with its arguments in a list. -/
def snprintf (mem : Mem) (buf : UInt32) (n : ℤ) (fmt : List UInt8) (ap : List Arg) :
    Option (Mem × ℤ) :=
  vsnprintf mem buf n fmt ap

section Sprintputch

variable (mem : Mem) {buf ebuf : UInt32} {cnt : ℤ}

/-- A character that fits is stored and counted. -/
lemma sprintputch_of_lt (c : UInt32) (h : buf < ebuf) :
    sprintputch c ⟨mem, buf, ebuf, cnt⟩ = (int (cnt + 1)).map fun cnt =>
      ⟨Function.update mem buf c.toUInt8, buf + 1, ebuf, cnt⟩ := by
  rw [sprintputch]
  cases int (cnt + 1) with
  | none => rfl
  | some cnt => exact if_pos h

/-- A character that does not fit is only counted. -/
lemma sprintputch_of_ge (c : UInt32) (h : ¬ buf < ebuf) :
    sprintputch c ⟨mem, buf, ebuf, cnt⟩ = (int (cnt + 1)).map fun cnt => ⟨mem, buf, ebuf, cnt⟩ := by
  rw [sprintputch]
  cases int (cnt + 1) with
  | none => rfl
  | some cnt => exact if_neg h

/-- Characters are stored for as long as there is room, and counted. -/
lemma emit_sprintputch (out : List UInt32) {room : ℕ} (hroom : buf.toNat + room = ebuf.toNat)
    (hlo : 0 ≤ cnt) (hhi : cnt ≤ 2147483647) :
    emit sprintputch out ⟨mem, buf, ebuf, cnt⟩
      = (int (cnt + out.length)).map fun cnt =>
          ⟨put mem buf (outBytes (out.take room)), buf + UInt32.ofNat (min room out.length), ebuf,
            cnt⟩ := by
  induction out generalizing mem buf cnt room with
  | nil =>
      have hint : int (cnt + (0 : ℕ)) = some cnt := by
        rw [Int.natCast_zero, Int.add_zero]
        exact int_of_le (by omega) hhi
      rw [List.length_nil, hint]
      simp [outBytes, put_nil]
  | cons c out ih =>
      have hlt := ebuf.toNat_lt
      have hcnt : cnt + ((c :: out).length : ℤ) = cnt + 1 + out.length := by
        rw [List.length_cons]
        omega
      rw [emit_cons, hcnt]
      by_cases hfull : cnt + 1 ≤ 2147483647
      · have hint : int (cnt + 1) = some (cnt + 1) := int_of_le (by omega) hfull
        cases room with
        | zero =>
            -- the buffer is full
            have hge : ¬ buf < ebuf := by
              rw [UInt32.lt_iff_toNat_lt]
              omega
            rw [sprintputch_of_ge mem c hge, hint, Option.map_some, Option.bind_some,
              ih mem hroom (by omega) hfull]
            simp
        | succ room =>
            have hroom' : buf < ebuf := by
              rw [UInt32.lt_iff_toNat_lt]
              omega
            have hnext : (buf + 1).toNat = buf.toNat + 1 := by
              rw [UInt32.toNat_add]
              show (buf.toNat + 1) % 4294967296 = _
              omega
            have hrest : (buf + 1).toNat + room = ebuf.toNat := by omega
            have hlen : (outBytes (out.take room)).length < 4294967296 := by
              rw [outBytes, List.length_map, List.length_take]
              omega
            rw [sprintputch_of_lt mem c hroom', hint, Option.map_some, Option.bind_some,
              ih _ hrest (by omega) hfull, List.take_succ_cons, List.length_cons,
              Nat.add_min_add_right, add_ofNat_succ]
            rw [outBytes_cons, put_cons _ _ _ _ hlen]
      · have hnone : int (cnt + 1) = none := int_of_gt (by omega)
        have hnone' : int (cnt + 1 + out.length) = none := int_of_gt (by omega)
        rw [hnone', sprintputch, hnone]
        rfl

end Sprintputch

/-- **What fits in front of a 0** is stored, and all of it is counted. -/
theorem vsnprintf_eq {f : FormatString} (hf : f.WF) (mem : Mem) {buf : UInt32} {n : ℤ}
    (hbuf : buf ≠ 0) (hn : 1 ≤ n) (hend : (buf.toNat : ℤ) + n ≤ 4294967296) (hint : n ≤ 2147483647)
    (junk : List UInt8) (ap : List Arg) :
    vsnprintf mem buf n (f.text ++ 0 :: junk) ap
      = (f.render ap).bind fun out => (int out.length).map fun cnt =>
          (put mem buf (outBytes (out.take (n.toNat - 1)) ++ [0]), cnt) := by
  have hguard : ¬ (buf = 0 ∨ n < 1) := by
    rw [not_or]
    exact ⟨hbuf, by omega⟩
  have hval : (ofInt n).toNat = n.toNat := by
    rw [ofInt, UInt32.toNat_ofBitVec, BitVec.toNat_ofInt]
    omega
  have hroom : buf.toNat + (n.toNat - 1) = (buf + ofInt n - 1).toNat := by
    have hone : (1 : UInt32).toNat = 1 := rfl
    rw [UInt32.toNat_sub, UInt32.toNat_add, hval, hone]
    omega
  rw [vsnprintf]
  simp only [if_neg hguard, vprintfmt_render hf, Option.bind_eq_bind, Option.bind_assoc]
  congr 1
  funext out
  rw [emit_sprintputch mem out hroom (Int.le_refl 0) (by omega), Int.zero_add]
  cases hcnt : int out.length with
  | none => rfl
  | some cnt =>
      have hlen : (outBytes (out.take (n.toNat - 1))).length = min (n.toNat - 1) out.length := by
        rw [outBytes, List.length_map, List.length_take]
      have hshort : (outBytes (out.take (n.toNat - 1))).length < 4294967296 := by omega
      rw [Option.map_some, Option.map_some, Option.bind_some, put_concat _ _ _ _ hshort, hlen]

/-- **A bounded print** with matching arguments: the bytes that fit are stored, a 0 ends them,
nothing outside of the buffer changes, and all characters are counted, those that do not fit too. -/
theorem vsnprintf_bounded {f : FormatString} (hf : f.WF) (hsmall : f.Small) {args : List Arg}
    (hargs : Match args f.kinds) (extra : List Arg) (mem : Mem) {buf : UInt32} {n : ℤ}
    (hbuf : buf ≠ 0) (hn : 1 ≤ n) (hend : (buf.toNat : ℤ) + n ≤ 4294967296)
    (hint : n ≤ 2147483647) (junk : List UInt8) :
    ∃ out, f.render (args ++ extra) = some out ∧ (out.length ≤ 2147483647 →
      ∃ mem', vsnprintf mem buf n (f.text ++ 0 :: junk) (args ++ extra)
          = some (mem', (out.length : ℤ))
        ∧ (∀ i < n.toNat - 1, ∀ c, out[i]? = some c → mem' (buf + UInt32.ofNat i) = c.toUInt8)
        ∧ mem' (buf + UInt32.ofNat (min (n.toNat - 1) out.length)) = 0
        ∧ ∀ a, ¬ Within buf n.toNat a → mem' a = mem a) := by
  obtain ⟨out, hout⟩ := FormatString.render_match hf hsmall hargs extra
  refine ⟨out, hout, fun hshort => ?_⟩
  have hlen : (outBytes (out.take (n.toNat - 1))).length = min (n.toNat - 1) out.length := by
    rw [outBytes, List.length_map, List.length_take]
  have htext : (outBytes (out.take (n.toNat - 1)) ++ [0]).length
      = min (n.toNat - 1) out.length + 1 := by
    rw [List.length_append, hlen, List.length_singleton]
  have hcnt : int (out.length : ℤ) = some (out.length : ℤ) := int_of_le (by omega) (by omega)
  refine ⟨put mem buf (outBytes (out.take (n.toNat - 1)) ++ [0]), ?_, fun i hi c hc => ?_, ?_,
    fun a ha => ?_⟩
  · rw [vsnprintf_eq hf mem hbuf hn hend hint, hout, Option.bind_some, hcnt, Option.map_some]
  · obtain ⟨hlt, hget⟩ := List.getElem?_eq_some_iff.mp hc
    have hout : i < (outBytes (out.take (n.toNat - 1))).length := by
      rw [hlen]
      omega
    rw [put_at mem buf (by omega) (by omega), List.getElem_append_left hout]
    simp [outBytes, hget]
  · rw [put_at mem buf (by omega) (by omega), List.getElem_append_right (by omega)]
    simp
  · refine put_of_not_within mem fun hin => ha ?_
    rw [htext] at hin
    exact Nat.lt_of_lt_of_le hin (by omega)

/-- Of `0x2a` a buffer of three bytes gets the first two characters, and all four are counted. -/
theorem vsnprintf_bounded_hex :
    ∃ mem', vsnprintf (fun _ => 255) 0x1000 3 (hexFormat.text ++ 0 :: []) ([.int 42] ++ [])
        = some (mem', 4)
      ∧ mem' 0x1000 = '0'.toUInt8 ∧ mem' 0x1001 = 'x'.toUInt8 ∧ mem' 0x1002 = 0
      ∧ ∀ a, ¬ Within 0x1000 3 a → mem' a = 255 := by
  obtain ⟨out, hout, hall⟩ := vsnprintf_bounded hexFormat_wf hexFormat_small (hexFormat_match 42) []
    (fun _ => 255) (show (0x1000 : UInt32) ≠ 0 by decide) (show (1 : ℤ) ≤ 3 by decide) (by decide)
    (by decide) []
  obtain rfl : out = (ascii "0x2a").map ofChar := by
    have hrender := hexFormat_render_byte 42 (by decide) (by decide)
    rw [List.append_nil, hrender] at hout
    exact (Option.some.inj hout).symm.trans (by decide)
  obtain ⟨mem', hcall, hbytes, hend, hkept⟩ := hall (by decide)
  exact ⟨mem', hcall, hbytes 0 (by decide) _ rfl, hbytes 1 (by decide) _ rfl, hend, hkept⟩

/-! ## Reading back what was printed

What `%d` prints, and what `strtol` makes of it.  The format is one of the well-formed ones, so that
the bytes are known without following the code.
-/

/-- `"%d"`, or `"%<w>d"` for a field of `w` characters. -/
def decimalFormat (w : ℕ) : FormatString :=
  ⟨[.escape (if w = 0 then [] else [.num w]) 'd'.toUInt8], none⟩

lemma decimalFormat_wf (w : ℕ) : (decimalFormat w).WF := by
  refine ⟨fun p hp => ?_, fun items h => by cases h⟩
  rw [List.mem_singleton.mp hp]
  refine ⟨?_, by decide, .decimal, by decide⟩
  by_cases hw : w = 0
  · rw [if_pos hw]
    trivial
  · rw [if_neg hw]
    exact ⟨hw, by simp, trivial⟩

/-- The digits of an `int`, without its sign. -/
def absDigits (v : UInt32) : List UInt8 := numeralBytes 10 (toInt v).natAbs

/-- The blanks that come between the sign and the digits in a field. -/
def blanks (w : ℕ) (v : UInt32) : List UInt8 :=
  List.replicate (w - (absDigits v).length) ' '.toUInt8

/-- The bytes that a decimal is printed as. -/
def decimalBytes (w : ℕ) (v : UInt32) : List UInt8 :=
  (if toInt v < 0 then ['-'.toUInt8] else []) ++ (blanks w v ++ absDigits v)

lemma length_absDigits (v : UInt32) : (absDigits v).length ≤ 10 := by
  have hbounds := toInt_bounds v
  rw [absDigits, numeralBytes, List.length_map]
  refine length_numeral_le (by decide) (by decide) ?_
  show _ < 10000000000
  omega

/-- **A decimal is printed**, in its field. -/
lemma render_decimalFormat {w : ℕ} (hw : (w : ℤ) + 48 ≤ 2147483647) (v : UInt32) :
    (decimalFormat w).render [.int v] = some ((decimalBytes w v).map ofChar) := by
  have hlen := length_absDigits v
  have hbounds := toInt_bounds v
  -- the field
  obtain ⟨st, happly, hwidth, hpadc, hlflag⟩ : ∃ st : Spec,
      applyItems (if w = 0 then [] else [.num w]) (({} : Spec), [.int v]) = some (st, [.int v])
        ∧ st.width = (if w = 0 then -1 else (w : ℤ)) ∧ st.padc = ' '.toUInt8 ∧ st.lflag = 0 := by
    by_cases hzero : w = 0
    · exact ⟨{}, by rw [if_pos hzero]; rfl, by rw [if_pos hzero], rfl, rfl⟩
    · refine ⟨({} : Spec).processPrecision w, ?_, by rw [if_neg hzero]; rfl, rfl, rfl⟩
      have hint : int ((w : ℤ) + 48) = some ((w : ℤ) + 48) := int_of_le (by omega) hw
      rw [if_neg hzero, applyItems, List.foldlM_cons, Item.apply, hint]
      rfl
  have htext : numText (toInt v).natAbs .ten st.width st.padc
      = some ((blanks w v ++ absDigits v).map ofChar) := by
    have hnat : (st.width - ((absDigits v).length : ℤ)).toNat = w - (absDigits v).length := by
      rw [hwidth]
      split <;> omega
    have hint : int (st.width - ((absDigits v).length : ℤ))
        = some (st.width - ((absDigits v).length : ℤ)) := by
      rw [hwidth]
      split <;> exact int_of_le (by omega) (by omega)
    have hdigits : numeralBytes Base.ten.val (toInt v).natAbs = absDigits v := rfl
    rw [numText]
    simp only [hdigits, hint, Option.map_some, hnat, hpadc, blanks, List.map_append,
      List.map_replicate]
  have hsigned : signedText st (toInt v) = some ((decimalBytes w v).map ofChar) := by
    rw [signedText, decimalBytes]
    by_cases hneg : toInt v < 0
    · have hlong : longlong (-toInt v) = some (-toInt v) := if_pos ⟨by omega, by omega⟩
      have habs : (-toInt v).toNat = (toInt v).natAbs := by omega
      rw [if_pos hneg, if_pos hneg, hlong, Option.bind_some, habs, htext]
      simp
    · have habs : (toInt v).toNat = (toInt v).natAbs := by omega
      rw [if_neg hneg, if_neg hneg, habs, htext]
      rfl
  have hconv : convText (Piece.escape (if w = 0 then [] else [.num w]) 'd'.toUInt8).text st .decimal
      [.int v] = some ((decimalBytes w v).map ofChar, []) := by
    have hget : getint [.int v] st.lflag = some (toInt v, []) := by
      rw [hlflag]
      rfl
    rw [convText, hget, Option.bind_some, hsigned]
    rfl
  have hkey : key 'd'.toUInt8 = .inr .decimal := rfl
  rw [decimalFormat, FormatString.render, renderPieces_cons, Piece.render_escape hkey, happly,
    Option.bind_some, hconv]
  simp [renderPieces, renderEnd]

/-- A `char` that is printed is stored as the byte that it is. -/
lemma toUInt8_ofChar (c : UInt8) : (ofChar c).toUInt8 = c := by
  have hall : ∀ k : Fin 256, (ofChar (UInt8.ofNat k)).toUInt8 = UInt8.ofNat k := by decide +kernel
  have hc : UInt8.ofNat c.toNat = c := UInt8.ofNat_toNat
  have h := hall ⟨c.toNat, c.toNat_lt⟩
  rwa [hc] at h

/-- No byte of a decimal is 0. -/
lemma decimalBytes_ne_zero (w : ℕ) (v : UInt32) : ∀ c ∈ decimalBytes w v, c ≠ 0 := by
  intro c hc
  rw [decimalBytes, List.mem_append, List.mem_append] at hc
  rcases hc with hsign | hblank | hdigit
  · split at hsign
    · rw [List.mem_singleton.mp hsign]
      decide
    · cases hsign
  · rw [(List.mem_replicate.mp hblank).2]
    decide
  · rcases List.mem_map.mp hdigit with ⟨d, hd, rfl⟩
    have hlt := lt_of_mem_numeral (b := 10) (by decide) _ d hd
    have hall : ∀ d : Fin 10, digitByte d ≠ 0 := by decide
    exact hall ⟨d, hlt⟩

/-- **What `%d` printed is read back** exactly when it is not the least `int`, whose digits `strtol`
cannot hold, and no blanks are between its sign and its digits. -/
theorem strtol_snprintf_iff (mem : Mem) {buf : UInt32} {n : ℤ} (hbuf : buf ≠ 0) (hn : 1 ≤ n)
    (hend : (buf.toNat : ℤ) + n ≤ 4294967296) (hint : n ≤ 2147483647) {w : ℕ}
    (hw : (w : ℤ) + 48 ≤ 2147483647) (v : UInt32) :
    ∃ mem' cnt, snprintf mem buf n ((decimalFormat w).text ++ [0]) [.int v] = some (mem', cnt)
      ∧ (cnt < n → (strtol mem' buf 10 = some (buf + ofInt cnt, toInt v)
          ↔ toInt v ≠ -2147483648 ∧ (0 ≤ toInt v ∨ w ≤ (absDigits v).length))) := by
  have hlen := length_absDigits v
  have hbounds := toInt_bounds v
  have hlength : (decimalBytes w v).length
      = (if toInt v < 0 then 1 else 0) + max w (absDigits v).length := by
    rw [decimalBytes, List.length_append, List.length_append, blanks, List.length_replicate]
    split <;> simp <;> omega
  have hcnt : int ((decimalBytes w v).length : ℤ) = some ((decimalBytes w v).length : ℤ) := by
    rw [hlength]
    split <;> exact int_of_le (by omega) (by omega)
  have hprint := vsnprintf_eq (decimalFormat_wf w) mem hbuf hn hend hint [] [.int v]
  rw [render_decimalFormat hw, Option.bind_some, List.length_map, hcnt, Option.map_some] at hprint
  refine ⟨_, _, hprint, fun hfits => ?_⟩
  -- all of it is in the buffer
  have htake : ((decimalBytes w v).map ofChar).take (n.toNat - 1) = (decimalBytes w v).map ofChar :=
    List.take_of_length_le (by rw [List.length_map]; omega)
  have hbytes : outBytes ((decimalBytes w v).map ofChar) = decimalBytes w v := by
    rw [outBytes, List.map_map]
    exact (List.map_congr_left fun c _ => toUInt8_ofChar c).trans (List.map_id _)
  rw [htake, hbytes]
  have hstr := StrAt.put mem buf (decimalBytes_ne_zero w v) (by omega)
  have hptr : ofInt ((decimalBytes w v).length : ℤ) = UInt32.ofNat (decimalBytes w v).length := by
    rw [ofInt, BitVec.ofInt_natCast]
    rfl
  rw [hptr]
  revert hstr
  generalize put mem buf (decimalBytes w v ++ [0]) = mem'
  intro hstr
  by_cases hneg : toInt v < 0
  · have hbytes : decimalBytes w v = '-'.toUInt8 :: (blanks w v ++ absDigits v) := by
      rw [decimalBytes, if_pos hneg]
      rfl
    rw [hbytes] at hstr ⊢
    by_cases hblank : w ≤ (absDigits v).length
    · -- the sign is in front of the digits
      have hnone : blanks w v = [] := by
        rw [blanks, Nat.sub_eq_zero_of_le hblank, List.replicate_zero]
      rw [hnone, List.nil_append] at hstr ⊢
      have hread := strtol_negative (b := 10) (by decide) (by decide) hstr
      change strtol mem' buf 10 = _ at hread
      rw [hread, List.length_cons, add_ofNat_succ]
      by_cases hleast : toInt v = -2147483648
      · have hint : int ((toInt v).natAbs : ℤ) = none := int_of_gt (by omega)
        rw [hint]
        simp [hleast]
      · have hint : int ((toInt v).natAbs : ℤ) = some ((toInt v).natAbs : ℤ) :=
          int_of_le (by omega) (by omega)
        have habs : -((toInt v).natAbs : ℤ) = toInt v := by omega
        have hnext : buf + UInt32.ofNat (absDigits v).length + 1
            = buf + 1 + UInt32.ofNat (absDigits v).length := by grind
        rw [hint, Option.map_some, habs]
        simp only [hleast, hblank, ne_eq, not_false_eq_true, or_true, and_self, iff_true]
        rw [← hnext]
        rfl
    · -- a blank is behind the sign
      obtain ⟨k, hk⟩ := Nat.exists_eq_succ_of_ne_zero (by omega : w - (absDigits v).length ≠ 0)
      rw [blanks, hk, List.replicate_succ, List.cons_append] at hstr
      have hread := strtol_blank (b := 10) (by decide) hstr
      change strtol mem' buf 10 = _ at hread
      rw [hread]
      refine iff_of_false (fun h => ?_) fun h => ?_
      · have hzero := (Prod.mk.inj (Option.some.inj h)).2
        omega
      · rcases h.2 with h | h
        · omega
        · exact hblank h
  · have hbytes : decimalBytes w v = blanks w v ++ absDigits v := by
      rw [decimalBytes, if_neg hneg]
      rfl
    rw [hbytes] at hstr ⊢
    have hread := strtol_number (b := 10) (by decide) (by decide) hstr
    change strtol mem' buf 10 = _ at hread
    have hint : int ((toInt v).natAbs : ℤ) = some ((toInt v).natAbs : ℤ) :=
      int_of_le (by omega) (by omega)
    have habs : ((toInt v).natAbs : ℤ) = toInt v := by omega
    rw [hread, hint, Option.map_some, habs, List.length_append, blanks, List.length_replicate,
      UInt32.ofNat_add, ← UInt32.add_assoc]
    refine iff_of_true rfl ⟨by omega, Or.inl (by omega)⟩

/-- 42, without a field: it is read back. -/
theorem strtol_snprintf_iff_plain :
    ∃ mem' cnt, snprintf (fun _ => 255) 0x1000 16 ((decimalFormat 0).text ++ [0]) [.int 42]
        = some (mem', cnt)
      ∧ (cnt < 16 → (strtol mem' 0x1000 10 = some (0x1000 + ofInt cnt, toInt 42)
          ↔ toInt 42 ≠ -2147483648 ∧ (0 ≤ toInt 42 ∨ 0 ≤ (absDigits 42).length))) :=
  strtol_snprintf_iff (fun _ => 255) (by decide) (by decide) (by decide) (by decide) (by decide) 42

end ScratchOs.Lib
