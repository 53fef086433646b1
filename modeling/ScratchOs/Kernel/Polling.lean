import ScratchOs.Core.Rises
import ScratchOs.Kernel.Keyboard

/-!
# Reading a byte again

`get_key` reads port `0x60` without asking the controller whether there is a new byte, and until the
next byte arrives the port gives the last one again.  So the bytes it reads are the bytes of the
keys, each of them once or several times.  How often depends on the speed of the machine, and so
nothing is assumed about it.

* `Stroke` — a key that is pressed and released, and how often each of its bytes is read again.
* `decodes_plain`, `decodes_extended` — what the calls make of the first stroke.
* `Aligned` — no `0xE0` is left to be taken for the second byte after another one.
* **`get_key_rereads_iff`** — for which strokes the calls return the codes of the keys.

**The proof** goes stroke by stroke, with the one bit that a stroke hands to the next: whether a
byte `0xE0` is left over.  That the condition is necessary needs one thing more.  A call that misses
the release of its key may find one in a later stroke, and it has to be shown that the calls then
run out of keys: every call passes a rise from a low byte to a high one, and there are no more rises
than strokes (`rises_missed`).
-/

namespace ScratchOs

open Rises

/-! ## Strokes

A key comes with the number of extra reads of each of its bytes, so that a list of strokes is any
key sequence at any speed.
-/

/-- The byte that the keyboard sends for a key that is pressed, where bit 7 is clear. -/
abbrev KeyByte := {b : UInt8 // b < 0x80}

/-- The byte that it sends when the key is released. -/
def KeyByte.release (key : KeyByte) : UInt8 := key.val ||| 0x80

/-- A key that is pressed and then released, with how often each byte is read again. -/
inductive Stroke
  | plain (key : KeyByte) (press release : ℕ)
  | extended (key : KeyByte) (first press second release : ℕ)

namespace Stroke

/-- The bytes that `get_key` reads of a stroke. -/
def reads : Stroke → List UInt8
  | plain key press release =>
      List.replicate (press + 1) key.val ++ List.replicate (release + 1) key.release
  | extended key first press second release =>
      List.replicate (first + 1) 0xE0 ++ (List.replicate (press + 1) key.val ++
        (List.replicate (second + 1) 0xE0 ++ List.replicate (release + 1) key.release))

/-- The code that the call should return for it. -/
def code : Stroke → UInt32
  | plain key _ _ => key.val.toUInt32
  | extended key _ _ _ _ => extendedCode key.val

end Stroke

/-- The bytes that `get_key` reads of strokes, one after the other. -/
def readsOf (strokes : List Stroke) : List UInt8 := strokes.flatMap Stroke.reads

lemma readsOf_cons (s : Stroke) (strokes : List Stroke) :
    readsOf (s :: strokes) = s.reads ++ readsOf strokes := List.flatMap_cons

/-- Successive calls return the codes, and no call returns after them. -/
def Decodes (reads : List UInt8) (codes : List UInt32) : Prop :=
  ∃ rest, getKeys codes.length reads = some (codes, rest) ∧ getKey rest = none

/-- The bytes `0xE0` before a stroke pair up: those of a plain key are none, and an extended key is
behind an odd number of them.  `odd` is how many the stroke before has left over. -/
def Aligned : ℕ → List Stroke → Prop
  | _, [] => True
  | odd, .plain key _ _ :: strokes => odd = 0 ∧ key.val ≠ 0x60 ∧ Aligned 0 strokes
  | odd, .extended key first _ second release :: strokes =>
      (odd + first) % 2 = 0 ∧
        if key.val = 0x60 then Aligned ((second + release) % 2) strokes
        else second % 2 = 0 ∧ Aligned 0 strokes

/-! ## Keys

The scancodes of a key and of its release, and which of them ends which loop.
-/

section Key

variable (key : KeyByte)

lemma KeyByte.toNat_lt : key.val.toNat < 128 := UInt8.lt_iff_toNat_lt.mp key.property

lemma KeyByte.toNat_release : key.release.toNat = key.val.toNat + 128 := toNat_byte_or key.property

lemma KeyByte.ne_escape : key.val ≠ 0xE0 := by
  intro h
  have hlt := key.toNat_lt
  rw [h] at hlt
  exact absurd hlt (by decide)

lemma KeyByte.release_high : ¬ key.release < 0x80 := by
  rw [UInt8.lt_iff_toNat_lt, key.toNat_release]
  exact Nat.not_lt_of_le (Nat.le_add_left _ _)

lemma KeyByte.release_eq_iff : key.release = 0xE0 ↔ key.val = 0x60 := by
  rw [← UInt8.toNat_inj, key.toNat_release, ← UInt8.toNat_inj]
  show key.val.toNat + 128 = 224 ↔ key.val.toNat = 96
  omega

/-- A byte by itself as an event. -/
def plainEvent (b : UInt8) (h : b ≠ 0xE0) : Event := ⟨false, b, fun _ => h⟩

/-- A byte behind `0xE0` as an event. -/
def extendedEvent (b : UInt8) : Event := ⟨true, b, fun h => nomatch h⟩

/-- The first loop stops at the key and at nothing else of its stroke. -/
lemma isPress_key : isPress key.val.toUInt32 ∧ isPress (extendedCode key.val) ∧
    ¬ isPress (extendedCode 0xE0) ∧ (key.release ≠ 0xE0 → ¬ isPress key.release.toUInt32) := by
  have hplain := isPress_code_iff (plainEvent key.val key.ne_escape)
  have hextended := isPress_code_iff (extendedEvent key.val)
  have hescape := isPress_code_iff (extendedEvent 0xE0)
  refine ⟨hplain.mpr key.property, hextended.mpr key.property, ?_, fun hne => ?_⟩
  · exact fun h => absurd (hescape.mp h) (by decide)
  · exact fun h => key.release_high ((isPress_code_iff (plainEvent key.release hne)).mp h)

/-- After a plain key the second loop stops at its release. -/
lemma isRelease_plain (hne : key.release ≠ 0xE0) :
    isRelease key.val.toUInt32 key.release.toUInt32 ∧
      ¬ isRelease key.val.toUInt32 key.val.toUInt32 := by
  have hiff := fun r => @isRelease_code_iff (plainEvent key.val key.ne_escape) r key.property
  refine ⟨(hiff (plainEvent key.release hne)).mpr ⟨rfl, rfl⟩, fun h => ?_⟩
  have hsame : key.val = key.release := ((hiff (plainEvent key.val key.ne_escape)).mp h).2
  exact key.release_high (hsame ▸ key.property)

/-- After an extended key the second loop stops at its release, which has to be behind `0xE0`. -/
lemma isRelease_extended :
    isRelease (extendedCode key.val) (extendedCode key.release) ∧
      ¬ isRelease (extendedCode key.val) key.val.toUInt32 ∧
      (isRelease (extendedCode key.val) (extendedCode 0xE0) ↔ key.release = 0xE0) ∧
      (key.release ≠ 0xE0 → ¬ isRelease (extendedCode key.val) key.release.toUInt32) := by
  have hiff := fun r => @isRelease_code_iff (extendedEvent key.val) r key.property
  refine ⟨(hiff (extendedEvent key.release)).mpr ⟨rfl, rfl⟩, fun h => ?_, ?_, fun hne h => ?_⟩
  · exact Bool.noConfusion ((hiff (plainEvent key.val key.ne_escape)).mp h).1
  · constructor
    · intro h
      exact ((hiff (extendedEvent 0xE0)).mp h).2.symm
    · intro h
      exact (hiff (extendedEvent 0xE0)).mpr ⟨rfl, h.symm⟩
  · exact Bool.noConfusion ((hiff (plainEvent key.release hne)).mp h).1

/-- The codes of a plain key and of an extended one are different. -/
lemma extendedCode_ne : extendedCode key.val ≠ key.val.toUInt32 := by
  intro h
  have hnat := congrArg UInt32.toNat h
  rw [toNat_extendedCode, UInt8.toNat_toUInt32] at hnat
  omega

end Key

/-! ## Bytes that are read again

A byte that does not end the loop can be read as often as it likes, but for `0xE0`, which goes with
the byte behind it.
-/

section Skip

variable {stop : UInt32 → Bool}

/-- A byte that does not end the loop may be read any number of times. -/
lemma pollUntil_skip {x : UInt8} (hx : x ≠ 0xE0) (hstop : ¬ stop x.toUInt32) (n : ℕ)
    (reads : List UInt8) : pollUntil stop (List.replicate n x ++ reads) = pollUntil stop reads := by
  induction n with
  | zero => rfl
  | succ n ih =>
      rw [List.replicate_succ, List.cons_append, pollUntil_plain stop hx, if_neg hstop, ih]

/-- Of the bytes `0xE0` two at a time are taken for a scancode. -/
lemma pollUntil_skip_pairs (hstop : ¬ stop (extendedCode 0xE0)) (n : ℕ) (reads : List UInt8) :
    pollUntil stop (List.replicate (2 * n) 0xE0 ++ reads) = pollUntil stop reads := by
  induction n with
  | zero => rfl
  | succ n ih =>
      rw [Nat.mul_succ, List.replicate_succ, List.replicate_succ, List.cons_append,
        List.cons_append, pollUntil_pair, if_neg hstop, ih]

/-- So a run of bytes `0xE0` is like one of them, or like none. -/
lemma pollUntil_escapes (hstop : ¬ stop (extendedCode 0xE0)) (n : ℕ) (reads : List UInt8) :
    pollUntil stop (List.replicate n 0xE0 ++ reads)
      = pollUntil stop (List.replicate (n % 2) 0xE0 ++ reads) := by
  have hsplit : List.replicate n (0xE0 : UInt8)
      = List.replicate (2 * (n / 2)) 0xE0 ++ List.replicate (n % 2) 0xE0 := by
    rw [List.replicate_append_replicate, Nat.div_add_mod]
  rw [hsplit, List.append_assoc, pollUntil_skip_pairs hstop]

/-- A loop ends behind the last byte of the scancode that it stops at. -/
lemma pollUntil_split {reads rest : List UInt8} {c : UInt32}
    (h : pollUntil stop reads = some (c, rest)) :
    ∃ (seg : List UInt8) (e : Event), reads = seg ++ e.byte :: rest ∧ c = e.code ∧ stop e.code := by
  obtain ⟨passed, e, rfl, hc, he, -⟩ := pollUntil_stops h
  rw [Event.bytes]
  cases e.extended with
  | false => exact ⟨passed, e, rfl, hc, he⟩
  | true => exact ⟨passed ++ [0xE0], e, by simp, hc, he⟩

/-- What the second loop does decides what a call returns. -/
lemma getKey_of_press {reads reads' : List UInt8} {scancode : UInt32}
    (h : pollUntil isPress reads = some (scancode, reads')) :
    getKey reads = (pollUntil (isRelease scancode) reads').map fun r => (scancode, r.2) := by
  rw [getKey, h]
  simp only [Option.bind_eq_bind, Option.bind_some]
  cases pollUntil (isRelease scancode) reads' <;> rfl

/-- A call does not see what the first loop skips. -/
lemma getKey_congr {reads reads' : List UInt8}
    (h : pollUntil isPress reads = pollUntil isPress reads') : getKey reads = getKey reads' := by
  rw [getKey, getKey, h]

end Skip

/-! ## Successive calls

A property of the calls on a stream, taken apart at the first of them.
-/

section Decodes

variable {reads reads' rest : List UInt8} {c : UInt32} {cs : List UInt32}

lemma decodes_nil : Decodes reads [] ↔ getKey reads = none := by
  simp [Decodes, getKeys]

lemma decodes_cons :
    Decodes reads (c :: cs) ↔ ∃ rest, getKey reads = some (c, rest) ∧ Decodes rest cs := by
  simp only [Decodes, List.length_cons, getKeys, Option.bind_eq_bind, Option.bind_eq_some_iff,
    Prod.exists]
  constructor
  · rintro ⟨r, ⟨c', r₁, hkey, cs', r₂, hkeys, hsome⟩, hnone⟩
    simp only [Option.some.injEq, Prod.mk.injEq, List.cons.injEq] at hsome
    rcases hsome with ⟨⟨rfl, rfl⟩, rfl⟩
    exact ⟨r₁, hkey, r₂, hkeys, hnone⟩
  · rintro ⟨r₁, hkey, r₂, hkeys, hnone⟩
    exact ⟨r₂, ⟨c, r₁, hkey, cs, r₂, hkeys, rfl⟩, hnone⟩

lemma decodes_congr (h : getKey reads = getKey reads') : Decodes reads cs ↔ Decodes reads' cs := by
  cases cs with
  | nil => rw [decodes_nil, decodes_nil, h]
  | cons c cs => rw [decodes_cons, decodes_cons, h]

/-- When the first call is known, what is left is about the calls after it. -/
lemma decodes_cons_of_eq (h : getKey reads = some (c, rest)) :
    Decodes reads (c :: cs) ↔ Decodes rest cs := by
  rw [decodes_cons, h]
  constructor
  · rintro ⟨r, hsome, hrest⟩
    rcases Prod.mk.inj (Option.some.inj hsome) with ⟨-, rfl⟩
    exact hrest
  · intro hrest
    exact ⟨rest, rfl, hrest⟩

/-- A call that takes a wrong key cannot be made good by later ones. -/
lemma not_decodes_of_press {scancode : UInt32} (h : pollUntil isPress reads = some (scancode, rest))
    (hne : scancode ≠ c) : ¬ Decodes reads (c :: cs) := by
  rw [decodes_cons, getKey_of_press h]
  rintro ⟨r, hsome, -⟩
  rcases Option.map_eq_some_iff.mp hsome with ⟨q, -, heq⟩
  exact hne (congrArg Prod.fst heq)

end Decodes

/-! ## A plain key

A plain key is harmless: wherever its bytes are read again, both loops skip them.
-/

section Stroke

variable (key : KeyByte) (reads : List UInt8) (cs : List UInt32)

/-- The release of the plain key `0x60` is the byte `0xE0`, which is never a scancode. -/
lemma pollUntil_release_none (h : key.val = 0x60) :
    pollUntil (isRelease key.val.toUInt32) reads = none := by
  cases hpoll : pollUntil (isRelease key.val.toUInt32) reads with
  | none => rfl
  | some q =>
      obtain ⟨seg, e, -, -, hstop⟩ := pollUntil_split hpoll
      have hrelease :=
        (@isRelease_code_iff (plainEvent key.val key.ne_escape) e key.property).mp hstop
      have hbyte : e.byte = 0xE0 := hrelease.2.trans (key.release_eq_iff.mpr h)
      exact absurd hbyte (e.plain hrelease.1)

/-- A byte of a release that is read again is skipped by the next call. -/
lemma getKey_skip_release (hne : key.release ≠ 0xE0) (n : ℕ) :
    getKey (List.replicate n key.release ++ reads) = getKey reads :=
  getKey_congr (pollUntil_skip hne ((isPress_key key).2.2.2 hne) n reads)

/-- **A plain key** is decoded when nothing is left over before it, however often its bytes are
read.  The one exception is the key `0x60`, whose release is the byte `0xE0` itself. -/
lemma decodes_plain (press release : ℕ) :
    Decodes ((Stroke.plain key press release).reads ++ reads) (key.val.toUInt32 :: cs)
      ↔ key.val ≠ 0x60 ∧ Decodes reads cs := by
  have hfirst : pollUntil isPress ((Stroke.plain key press release).reads ++ reads)
      = some (key.val.toUInt32,
          List.replicate press key.val ++ (List.replicate (release + 1) key.release ++ reads)) := by
    rw [Stroke.reads, List.append_assoc, List.replicate_succ, List.cons_append,
      pollUntil_plain _ key.ne_escape, if_pos (isPress_key key).1]
  by_cases h60 : key.val = 0x60
  · have hnone := pollUntil_release_none key
      (List.replicate press key.val ++ (List.replicate (release + 1) key.release ++ reads)) h60
    rw [decodes_cons, getKey_of_press hfirst, hnone]
    refine iff_of_false ?_ fun h => h.1 h60
    rintro ⟨rest, hsome, -⟩
    cases hsome
  · have hne : key.release ≠ 0xE0 := fun h => h60 (key.release_eq_iff.mp h)
    obtain ⟨hrelease, hkey⟩ := isRelease_plain key hne
    have hcall : getKey ((Stroke.plain key press release).reads ++ reads)
        = some (key.val.toUInt32, List.replicate release key.release ++ reads) := by
      rw [getKey_of_press hfirst, pollUntil_skip key.ne_escape hkey, List.replicate_succ,
        List.cons_append, pollUntil_plain _ hne, if_pos hrelease]
      rfl
    rw [decodes_cons_of_eq hcall, decodes_congr (getKey_skip_release key reads hne release)]
    exact (and_iff_right h60).symm

/-- Behind a byte `0xE0` that was left over a plain key is taken for an extended one. -/
lemma not_decodes_plain (press release : ℕ) :
    ¬ Decodes (0xE0 :: ((Stroke.plain key press release).reads ++ reads))
      (key.val.toUInt32 :: cs) := by
  have hfirst : pollUntil isPress (0xE0 :: ((Stroke.plain key press release).reads ++ reads))
      = some (extendedCode key.val,
          List.replicate press key.val ++ (List.replicate (release + 1) key.release ++ reads)) := by
    rw [Stroke.reads, List.append_assoc, List.replicate_succ, List.cons_append, pollUntil_pair,
      if_pos (isPress_key key).2.1]
  exact not_decodes_of_press hfirst (extendedCode_ne key)

/-! ## An extended key

An extended key has two runs of the byte `0xE0`, before its press and before its release.  Each of
them has to be of odd length to be taken for the mark it is.
-/

variable (press second release : ℕ)

/-- What follows the bytes `0xE0` before an extended key: its press, and then its release. -/
def extendedTail : List UInt8 :=
  List.replicate (press + 1) key.val ++
    (List.replicate (second + 1) 0xE0 ++ (List.replicate (release + 1) key.release ++ reads))

lemma extended_reads_append (first : ℕ) :
    (Stroke.extended key first press second release).reads ++ reads
      = List.replicate (first + 1) 0xE0 ++ extendedTail key reads press second release := by
  rw [Stroke.reads, extendedTail, List.append_assoc, List.append_assoc, List.append_assoc]

/-- Behind an even number of bytes `0xE0` an extended key is taken for a plain one. -/
lemma not_decodes_extended {n : ℕ} (hn : n % 2 = 0) :
    ¬ Decodes (List.replicate n 0xE0 ++ extendedTail key reads press second release)
      (extendedCode key.val :: cs) := by
  obtain ⟨hplain, -, hescape, -⟩ := isPress_key key
  have hfirst : pollUntil isPress
      (List.replicate n 0xE0 ++ extendedTail key reads press second release)
        = some (key.val.toUInt32, List.replicate press key.val ++
          (List.replicate (second + 1) 0xE0 ++
            (List.replicate (release + 1) key.release ++ reads))) := by
    rw [pollUntil_escapes hescape, hn, List.replicate_zero, List.nil_append, extendedTail,
      List.replicate_succ, List.cons_append, pollUntil_plain _ key.ne_escape, if_pos hplain]
  exact not_decodes_of_press hfirst (extendedCode_ne key).symm

/-- Behind an odd number it is taken for what it is, and the second loop is entered. -/
lemma getKey_extended {n : ℕ} (hn : n % 2 = 1) :
    getKey (List.replicate n 0xE0 ++ extendedTail key reads press second release)
      = (pollUntil (isRelease (extendedCode key.val)) (List.replicate (second + 1) 0xE0 ++
          (List.replicate (release + 1) key.release ++ reads))).map
            fun r => (extendedCode key.val, r.2) := by
  obtain ⟨-, hextended, hescape, -⟩ := isPress_key key
  have hfirst : pollUntil isPress
      (List.replicate n 0xE0 ++ extendedTail key reads press second release)
        = some (extendedCode key.val, List.replicate press key.val ++
          (List.replicate (second + 1) 0xE0 ++
            (List.replicate (release + 1) key.release ++ reads))) := by
    rw [pollUntil_escapes hescape, hn, List.replicate_one, List.singleton_append, extendedTail,
      List.replicate_succ, List.cons_append, pollUntil_pair, if_pos hextended]
  rw [getKey_of_press hfirst, pollUntil_skip key.ne_escape (isRelease_extended key).2.1]

/-- The key `0x60` behind `0xE0`: the byte of its release is `0xE0` as well, and the second loop
ends at the second of them. -/
lemma getKey_extended_escape {n : ℕ} (hn : n % 2 = 1) (h60 : key.val = 0x60) :
    getKey (List.replicate n 0xE0 ++ extendedTail key reads press second release)
      = some (extendedCode key.val, List.replicate (second + release) 0xE0 ++ reads) := by
  have hrelease : key.release = 0xE0 := key.release_eq_iff.mpr h60
  have hstop := (isRelease_extended key).2.2.1.mpr hrelease
  have hrun : List.replicate (second + 1) (0xE0 : UInt8) ++
      (List.replicate (release + 1) 0xE0 ++ reads)
        = 0xE0 :: 0xE0 :: (List.replicate (second + release) 0xE0 ++ reads) := by
    rw [← List.append_assoc, List.replicate_append_replicate,
      show second + 1 + (release + 1) = second + release + 1 + 1 by omega, List.replicate_succ,
      List.replicate_succ, List.cons_append, List.cons_append]
  rw [getKey_extended key reads press second release hn, hrelease, hrun, pollUntil_pair,
    if_pos hstop]
  rfl

/-- The second loop on a release whose `0xE0` is read an odd number of times.  It ends at the
release, whose further copies are left over. -/
lemma getKey_extended_odd {n : ℕ} (hn : n % 2 = 1) (hne : key.release ≠ 0xE0)
    (hsecond : (second + 1) % 2 = 1) :
    getKey (List.replicate n 0xE0 ++ extendedTail key reads press second release)
      = some (extendedCode key.val, List.replicate release key.release ++ reads) := by
  obtain ⟨hstop, -, hescape, -⟩ := isRelease_extended key
  rw [getKey_extended key reads press second release hn,
    pollUntil_escapes (fun h => hne (hescape.mp h)), hsecond, List.replicate_one,
    List.singleton_append, List.replicate_succ, List.cons_append, pollUntil_pair, if_pos hstop]
  rfl

/-- An even number of times: the release is missed, and waited for in what follows. -/
lemma getKey_extended_even {n : ℕ} (hn : n % 2 = 1) (hne : key.release ≠ 0xE0)
    (hsecond : (second + 1) % 2 = 0) :
    getKey (List.replicate n 0xE0 ++ extendedTail key reads press second release)
      = (pollUntil (isRelease (extendedCode key.val)) reads).map
          fun r => (extendedCode key.val, r.2) := by
  obtain ⟨-, -, hescape, hplain⟩ := isRelease_extended key
  rw [getKey_extended key reads press second release hn,
    pollUntil_escapes (fun h => hne (hescape.mp h)), hsecond, List.replicate_zero, List.nil_append,
    pollUntil_skip hne (hplain hne)]

end Stroke

/-! ## How many keys there are to return

Every call needs a press and a later release, which makes a rise in what it reads, where the low
bytes come before the high ones.  Counting the rises bounds the number of calls that return.
-/

/-- A byte of a key that is pressed, as opposed to one of a release. -/
def isLow (b : UInt8) : Bool := b < 0x80

/-- **A call that returns** passes a rise: the byte of a press, and later the byte of a release. -/
lemma rises_getKey {reads rest : List UInt8} {c : UInt32} (h : getKey reads = some (c, rest))
    (was : Bool) : 1 + rises isLow false rest ≤ rises isLow was reads := by
  simp only [getKey, Option.bind_eq_bind, Option.bind_eq_some_iff, Prod.exists] at h
  rcases h with ⟨c₁, r₁, hfirst, c₂, r₂, hsecond, hsome⟩
  rcases Prod.mk.inj (Option.some.inj hsome) with ⟨rfl, rfl⟩
  obtain ⟨seg, p, rfl, rfl, hp⟩ := pollUntil_split hfirst
  obtain ⟨seg', r, rfl, -, hr⟩ := pollUntil_split hsecond
  have hpress : p.IsPress := (isPress_code_iff p).mp hp
  have hlow : isLow p.byte = true := decide_eq_true hpress
  have hhigh : isLow r.byte = false := by
    rw [((isRelease_code_iff hpress).mp hr).2]
    exact decide_eq_false (KeyByte.release_high ⟨p.byte, hpress⟩)
  have hrise := rises_concat_high seg' hhigh
  rw [rises_split, hlow, rises_split seg', hhigh]
  omega

/-- There are no more codes than rises. -/
lemma length_le_of_decodes {reads : List UInt8} {cs : List UInt32} (h : Decodes reads cs) :
    cs.length ≤ rises isLow false reads := by
  induction cs generalizing reads with
  | nil => exact Nat.zero_le _
  | cons c cs ih =>
      rcases decodes_cons.mp h with ⟨rest, hkey, hrest⟩
      have hpassed := rises_getKey hkey false
      have hleft := ih hrest
      rw [List.length_cons]
      omega

/-- A stroke has one rise. -/
lemma rises_readsOf (strokes : List Stroke) :
    rises isLow false (readsOf strokes) = strokes.length := by
  induction strokes with
  | nil => rfl
  | cons s strokes ih =>
      have hescape : isLow 0xE0 = false := by decide
      have hbytes : ∀ key : KeyByte, isLow key.val = true ∧ isLow key.release = false :=
        fun key => ⟨decide_eq_true key.property, decide_eq_false key.release_high⟩
      rw [readsOf_cons, List.length_cons]
      cases s with
      | plain key press release =>
          simp [Stroke.reads, rises_replicate, hbytes key, ih, Nat.add_comm]
      | extended key first press second release =>
          simp [Stroke.reads, rises_replicate, hbytes key, hescape, ih, Nat.add_comm]

/-- Before the first byte of a release in a stroke there is the byte of its press. -/
lemma rise_before {n : ℕ} {k h : UInt8} {reads seg rest : List UInt8} (hk : isLow k = true)
    (hh : isLow h = false) (hne : h ≠ 0xE0)
    (heq : List.replicate n 0xE0 ++ k :: reads = seg ++ h :: rest) :
    1 ≤ rises isLow false (seg ++ [h]) := by
  induction n generalizing seg with
  | zero =>
      cases seg with
      | nil =>
          rw [(List.cons.inj heq).1, hh] at hk
          cases hk
      | cons x seg =>
          obtain rfl : k = x := (List.cons.inj heq).1
          have hrise := rises_concat_high seg hh
          rw [List.cons_append, rises_cons, hk]
          simpa using hrise
  | succ n ih =>
      cases seg with
      | nil => exact absurd (List.cons.inj heq).1.symm hne
      | cons x seg =>
          rcases List.cons.inj heq with ⟨rfl, hrest⟩
          have hrise := ih hrest
          have hescape : isLow 0xE0 = false := by decide
          rw [List.cons_append, rises_cons, hescape]
          simpa using hrise

/-- Strokes start with the byte of a press, but for bytes `0xE0`. -/
lemma readsOf_starts (s : Stroke) (strokes : List Stroke) :
    ∃ n k reads, isLow k = true ∧
      readsOf (s :: strokes) = List.replicate n 0xE0 ++ k :: reads := by
  rw [readsOf_cons]
  cases s with
  | plain key press release =>
      exact ⟨0, key.val, _, decide_eq_true key.property, rfl⟩
  | extended key first press second release =>
      rw [extended_reads_append]
      exact ⟨first + 1, key.val, _, decide_eq_true key.property, rfl⟩

/-- **A release that was missed** is found in a later stroke only, which is lost with it. -/
lemma rises_missed {key : KeyByte} (hne : key.release ≠ 0xE0) {strokes : List Stroke} {c : UInt32}
    {rest : List UInt8}
    (h : pollUntil (isRelease (extendedCode key.val)) (readsOf strokes) = some (c, rest)) :
    rises isLow false rest < strokes.length := by
  obtain ⟨seg, e, hsplit, -, hstop⟩ := pollUntil_split h
  have hrelease := (@isRelease_code_iff (extendedEvent key.val) e key.property).mp hstop
  have hbyte : e.byte = key.release := hrelease.2
  have hhigh : isLow e.byte = false := by
    rw [hbyte]
    exact decide_eq_false key.release_high
  have hcount := rises_readsOf strokes
  cases strokes with
  | nil => cases seg <;> cases hsplit
  | cons s strokes =>
      obtain ⟨n, k, reads, hlow, hstart⟩ := readsOf_starts s strokes
      have hrise := rise_before hlow hhigh (hbyte ▸ hne) (hstart.symm.trans hsplit)
      rw [hsplit, rises_split, hhigh] at hcount
      omega

/-! ## All of them

The strokes one after the other, with the bit that each of them hands on.
-/

/-- **Strokes** behind what the one before has left over are decoded exactly if they are aligned
with it.  The induction is on the strokes, and every case of it is one of the lemmas on the first
stroke. -/
lemma decodes_iff_aligned (strokes : List Stroke) {odd : ℕ} (hodd : odd < 2) :
    Decodes (List.replicate odd 0xE0 ++ readsOf strokes) (strokes.map Stroke.code)
      ↔ Aligned odd strokes := by
  induction strokes generalizing odd with
  | nil =>
      have hnone : getKey (List.replicate odd 0xE0 ++ readsOf []) = none := by
        rcases show odd = 0 ∨ odd = 1 by omega with rfl | rfl <;> rfl
      exact iff_of_true (decodes_nil.mpr hnone) trivial
  | cons s strokes ih =>
      have hclean : Decodes (readsOf strokes) (strokes.map Stroke.code) ↔ Aligned 0 strokes :=
        @ih 0 (by omega)
      rw [readsOf_cons, List.map_cons]
      cases s with
      | plain key press release =>
          rw [Stroke.code, Aligned]
          rcases show odd = 0 ∨ odd = 1 by omega with rfl | rfl
          · rw [List.replicate_zero, List.nil_append, decodes_plain, hclean, and_iff_right rfl]
          · exact iff_of_false (not_decodes_plain key _ _ press release) fun h => by cases h.1
      | extended key first press second release =>
          have hstart : List.replicate odd 0xE0
              ++ ((Stroke.extended key first press second release).reads ++ readsOf strokes)
                = List.replicate (odd + first + 1) 0xE0
                  ++ extendedTail key (readsOf strokes) press second release := by
            rw [extended_reads_append, ← List.append_assoc, List.replicate_append_replicate,
              Nat.add_assoc]
          rw [Stroke.code, Aligned, hstart]
          by_cases hfirst : (odd + first) % 2 = 0
          · have hn : (odd + first + 1) % 2 = 1 := by omega
            rw [and_iff_right hfirst]
            by_cases h60 : key.val = 0x60
            · have hescape := (isPress_key key).2.2.1
              rw [if_pos h60, decodes_cons_of_eq (getKey_extended_escape key _ _ _ _ hn h60),
                decodes_congr (getKey_congr (pollUntil_escapes hescape _ _)),
                ih (Nat.mod_lt _ (by omega))]
            · have hne : key.release ≠ 0xE0 := fun h => h60 (key.release_eq_iff.mp h)
              rw [if_neg h60]
              by_cases hsecond : second % 2 = 0
              · rw [decodes_cons_of_eq (getKey_extended_odd key _ _ _ _ hn hne (by omega)),
                  decodes_congr (getKey_skip_release key _ hne release), hclean,
                  and_iff_right hsecond]
              · -- the call returns in a later stroke, and then there are too few of them left
                refine iff_of_false ?_ fun h => hsecond h.1
                rw [decodes_cons, getKey_extended_even key _ _ _ _ hn hne (by omega)]
                rintro ⟨rest, hsome, hrest⟩
                rcases Option.map_eq_some_iff.mp hsome with ⟨⟨c, r⟩, hpoll, heq⟩
                obtain rfl : r = rest := congrArg Prod.snd heq
                have hlost := rises_missed hne hpoll
                have hleft := length_le_of_decodes hrest
                rw [List.length_map] at hleft
                omega
          · refine iff_of_false ?_ fun h => hfirst h.1
            exact not_decodes_extended key _ _ _ _ _ (by omega)

/-- **Reading a byte again.**  The calls of `get_key` return the codes of the keys, in order and
once each, if and only if the bytes `0xE0` do not go astray: those of a press, with one that was
left over, are an odd number, and so are those of a release. -/
theorem get_key_rereads_iff (strokes : List Stroke) :
    (∃ rest, getKeys strokes.length (readsOf strokes) = some (strokes.map Stroke.code, rest) ∧
      getKey rest = none) ↔ Aligned 0 strokes := by
  have hall := decodes_iff_aligned strokes (show 0 < 2 by omega)
  rw [Decodes, List.length_map] at hall
  exact hall

/-- The cursor key `KEY_UP`, with the first `0xE0` read twice and the last byte too: the call
returns the code of another key. -/
theorem get_key_rereads_fails :
    getKeys 1 (readsOf [.extended ⟨0x48, by decide⟩ 1 0 0 1]) = some ([0x48], []) ∧
      [Stroke.extended ⟨0x48, by decide⟩ 1 0 0 1].map Stroke.code = [0xE048] := by
  decide

end ScratchOs
