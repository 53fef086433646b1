import ScratchOs.Core.Runs
import ScratchOs.Kernel.AddrSpace

/-!
# Calls of `mm_continous_map`

The effect of one call as a function of its arguments, and of a sequence of calls on one directory.
From here on the loops are not looked at any more: a statement about mappings is arithmetic on the
numbers of a `MapCall`.

* `MapCall` — the arguments, with the numbers the code computes from them: the slots it rebuilds
  (`dirBeg`, `rounds`), the first page it maps (`base`), the entries it fills (`filled mapEnd`).
* **`mmContinousMap_spec`** — a call with enough free pages returns, and the address space
  afterwards is `MapCall.after` of the one before.
* `MapCall.upTo_apply` — whatever the range, page `base - 1024 · dirBeg` further is where an address
  of a rebuilt slot goes: the slots come from the physical address and the pages from the virtual
  one.
* `walkAddr_rebuilt`, `walkAddr_kept` — the same for the two-level walk of an address.

No alignment is assumed and no agreement of the physical and the virtual address.  Where the two
differ, the code maps pages to places that nobody asked for, and the closed form says to which.
-/

namespace ScratchOs

open Radix Runs Words

/-- The arguments of `mm_continous_map`, its directory apart. -/
structure MapCall where
  paddr : UInt32
  vaddr : UInt32
  size : UInt32
  deriving DecidableEq

namespace MapCall

/-- The end of the range, rounded down, as `map_end` has it.  The sum is taken in 32 bits. -/
def mapEnd (c : MapCall) : UInt32 := rounddown (roundup c.paddr + c.size)

/-- The first slot, `map_beg.dir_idx`, which comes from the physical address. -/
def dirBeg (c : MapCall) : ℕ := (roundup c.paddr).toNat / 4194304

/-- How many rounds the outer loop makes, up to and with the slot of `map_end`. -/
def rounds (c : MapCall) : ℕ := c.mapEnd.toNat / 4194304 + 1 - c.dirBeg

/-- The page of `vaddr`, where the mapped pages start. -/
def base (c : MapCall) : ℕ := (roundup c.vaddr).toNat / 4096

/-- The call rebuilds the slot. -/
abbrev Touches (c : MapCall) (d : Idx) : Prop := c.dirBeg ≤ d.val ∧ d.val < c.dirBeg + c.rounds

/-- What the first `n` rounds of the call make of an address space. -/
def upTo (c : MapCall) (n : ℕ) (A : AddrSpace) : AddrSpace :=
  A.rebuild c.base (filled c.mapEnd) c.dirBeg n

/-- What the whole call makes of an address space. -/
def after (c : MapCall) (A : AddrSpace) : AddrSpace := c.upTo c.rounds A

end MapCall

/-- A run of the call on a directory. -/
def MapCall.run (c : MapCall) (k : Kernel) (pgdir : Frame) : Except Panic Unit × Kernel :=
  mmContinousMap k pgdir c.paddr c.vaddr c.size

section Spec

variable {k : Kernel} {pgdir : Frame} {l : List (Fin nrPage)} (c : MapCall)

lemma MapCall.run_eq (k : Kernel) (pgdir : Frame) :
    c.run k pgdir = mapDirs pgdir ⟨c.mapEnd⟩ k ⟨roundup c.vaddr⟩ c.dirBeg := by
  rw [MapCall.run, mmContinousMap, MapCall.dirBeg, ← LinearAddr.toNat_dirIdx ⟨roundup c.paddr⟩]
  rfl

lemma MapCall.rounds_eq : (LinearAddr.mk c.mapEnd).dirIdx.toNat + 1 - c.dirBeg = c.rounds := by
  rw [LinearAddr.toNat_dirIdx]
  rfl

/-- **One call.**  With a free page for each round it returns and its directory translates as
`MapCall.after` says. -/
theorem mmContinousMap_spec (h : Directory k pgdir l) (hlen : c.rounds ≤ l.length) :
    ∃ k', c.run k pgdir = (.ok (), k') ∧ Directory k' pgdir (l.drop c.rounds) ∧ SameRegs k k' ∧
      translate k'.mem pgdir = c.after (translate k.mem pgdir) := by
  rw [c.run_eq]
  have hspec := mapDirs_spec pgdir ⟨c.mapEnd⟩ c.rounds k ⟨roundup c.vaddr⟩ c.dirBeg l c.rounds_eq
    h hlen
  rw [page_val] at hspec
  exact hspec

/-- A call that returns had a free page for each round. -/
lemma rounds_le_of_ok {k' : Kernel} (h : Directory k pgdir l) (hok : c.run k pgdir = (.ok (), k')) :
    c.rounds ≤ l.length := by
  by_contra hlen
  have hpanic := mapDirs_panic pgdir ⟨c.mapEnd⟩ c.rounds k ⟨roundup c.vaddr⟩ c.dirBeg l c.rounds_eq
    h (by omega)
  rw [← c.run_eq, hok] at hpanic
  cases hpanic

/-- A call that returns has left a directory, and the address space that `MapCall.after` says. -/
lemma mmContinousMap_of_ok {k' : Kernel} (h : Directory k pgdir l)
    (hok : c.run k pgdir = (.ok (), k')) :
    Directory k' pgdir (l.drop c.rounds) ∧ SameRegs k k' ∧
      translate k'.mem pgdir = c.after (translate k.mem pgdir) := by
  obtain ⟨k'', hok', hspec⟩ := mmContinousMap_spec c h (rounds_le_of_ok c h hok)
  obtain rfl : k' = k'' := congrArg Prod.snd (hok.symm.trans hok')
  exact hspec

end Spec

/-! ## Closed form

The rounds of a call as one formula.  It has two cases only, because a call that reaches past slot 0
fills all of its tables completely.
-/

namespace MapCall

variable (c : MapCall)

lemma toNat_mapEnd :
    c.mapEnd.toNat = ((roundup c.paddr).toNat + c.size.toNat) % 4294967296 / 4096 * 4096 := by
  rw [mapEnd, toNat_rounddown, UInt32.toNat_add]

/-- The entries a round fills: all of them once the range ends past the first slot. -/
lemma filled_mapEnd : filled c.mapEnd = min 1024 (c.mapEnd.toNat / 4096) := by
  have h := c.toNat_mapEnd
  rw [filled]
  omega

/-- **A rebuilt slot.**  Either every round fills its whole table, or there is only slot 0. -/
lemma upTo_apply {n : ℕ} (hn : n ≤ c.rounds) (A : AddrSpace) (d t : Idx) :
    c.upTo n A d t =
      if c.dirBeg ≤ d.val ∧ d.val < c.dirBeg + n then
        if t.val < filled c.mapEnd then
          some (pageNo (c.base + (d.val - c.dirBeg) * 1024 + t.val))
        else none
      else A d t := by
  unfold upTo AddrSpace.rebuild
  by_cases hd : c.dirBeg ≤ d.val ∧ d.val < c.dirBeg + n
  · rw [if_pos hd, if_pos hd, slotFrom]
    have hmul : (d.val - c.dirBeg) * filled c.mapEnd = (d.val - c.dirBeg) * 1024 := by
      obtain ⟨hlo, hhi⟩ := hd
      rw [rounds] at hn
      by_cases hfull : c.mapEnd.toNat / 4096 < 1024
      · rw [show d.val - c.dirBeg = 0 by omega, Nat.zero_mul, Nat.zero_mul]
      · rw [c.filled_mapEnd, Nat.min_eq_left (by omega)]
    rw [hmul]
  · rw [if_neg hd, if_neg hd]

lemma after_apply (A : AddrSpace) (d t : Idx) :
    c.after A d t =
      if c.Touches d then
        if t.val < filled c.mapEnd then
          some (pageNo (c.base + (d.val - c.dirBeg) * 1024 + t.val))
        else none
      else A d t :=
  c.upTo_apply le_rfl A d t

lemma after_kept {A : AddrSpace} {d : Idx} (h : ¬ c.Touches d) : c.after A d = A d := by
  funext t
  rw [after_apply, if_neg h]

end MapCall

/-! ## The walk of an address

From slots and indices to addresses, as the processor takes them apart.
-/

lemma dir_val (x : UInt32) : (LinearAddr.mk x).dir.val = x.toNat / 4194304 :=
  LinearAddr.toNat_dirIdx ⟨x⟩

lemma tab_val (x : UInt32) : (LinearAddr.mk x).tab.val = x.toNat / 4096 % 1024 :=
  LinearAddr.toNat_tabIdx ⟨x⟩

/-- The walk of an address is its translation with the offset put back. -/
lemma walkAddr_eq_some_iff {mem : PhysMem} {pgdir : Frame} {x y : UInt32} :
    walkAddr mem pgdir x = some y ↔
      x.toNat % 4096 = y.toNat % 4096 ∧
        translate mem pgdir (LinearAddr.mk x).dir (LinearAddr.mk x).tab
          = some (LinearAddr.mk y).page := by
  have hy := toNat_lt y
  rw [walkAddr, Option.map_eq_some_iff]
  have haddr : ∀ f : Frame, ((LinearAddr.mk x).withFrame (UInt32.ofNat f.val)).val = y ↔
      x.toNat % 4096 = y.toNat % 4096 ∧ f = (LinearAddr.mk y).page := by
    intro f
    have hf := f.isLt
    rw [← UInt32.toNat_inj, LinearAddr.toNat_withFrame, UInt32.toNat_ofNat', Fin.ext_iff, page_val]
    dsimp only
    omega
  constructor
  · rintro ⟨f, htrans, hf⟩
    obtain ⟨hoff, rfl⟩ := (haddr f).mp hf
    exact ⟨hoff, htrans⟩
  · rintro ⟨hoff, htrans⟩
    exact ⟨_, htrans, (haddr _).mpr ⟨hoff, rfl⟩⟩

lemma walkAddr_eq_none_iff {mem : PhysMem} {pgdir : Frame} {x : UInt32} :
    walkAddr mem pgdir x = none ↔
      translate mem pgdir (LinearAddr.mk x).dir (LinearAddr.mk x).tab = none := by
  rw [walkAddr, Option.map_eq_none_iff]

/-- Directories that translate a slot alike walk its addresses alike. -/
lemma walkAddr_congr {mem mem' : PhysMem} {pgdir : Frame} {x : UInt32}
    (h : translate mem' pgdir (LinearAddr.mk x).dir = translate mem pgdir (LinearAddr.mk x).dir) :
    walkAddr mem' pgdir x = walkAddr mem pgdir x := by
  rw [walkAddr, walkAddr, h]

/-- The call rebuilds the slot of the address. -/
abbrev MapCall.Rebuilds (c : MapCall) (x : UInt32) : Prop := c.Touches (LinearAddr.mk x).dir

section Walk

variable {mem mem' : PhysMem} {pgdir : Frame} {c : MapCall} {x : UInt32}

lemma walkAddr_kept (hspace : translate mem' pgdir = c.after (translate mem pgdir))
    (hx : ¬ c.Rebuilds x) : walkAddr mem' pgdir x = walkAddr mem pgdir x :=
  walkAddr_congr (by rw [hspace, c.after_kept hx])

variable {A : AddrSpace}

/-- **An address in a rebuilt slot.**  Its index must be one the inner loop reached; then it goes
`base` pages up from its place in the rebuilt slots. -/
lemma walkAddr_rebuilt (hspace : translate mem' pgdir = c.after A) (hx : c.Rebuilds x)
    (y : UInt32) :
    walkAddr mem' pgdir x = some y ↔
      x.toNat % 4096 = y.toNat % 4096 ∧ x.toNat / 4096 % 1024 < filled c.mapEnd ∧
        (c.base + x.toNat / 4096) % 1048576 = (y.toNat / 4096 + c.dirBeg * 1024) % 1048576 := by
  have hy := toNat_lt y
  have hlo := hx.1
  rw [dir_val] at hlo
  rw [walkAddr_eq_some_iff, hspace, c.after_apply, if_pos hx, tab_val, dir_val]
  by_cases ht : x.toNat / 4096 % 1024 < filled c.mapEnd
  · rw [if_pos ht, Option.some_inj, Fin.ext_iff, pageNo_val, page_val]
    simp only [ht, true_and]
    constructor
    · rintro ⟨hoff, hpage⟩
      exact ⟨hoff, by omega⟩
    · rintro ⟨hoff, hpage⟩
      exact ⟨hoff, by omega⟩
  · rw [if_neg ht]
    simp only [ht, reduceCtorEq, false_and, and_false]

lemma walkAddr_rebuilt_none (hspace : translate mem' pgdir = c.after A) (hx : c.Rebuilds x) :
    walkAddr mem' pgdir x = none ↔ ¬ x.toNat / 4096 % 1024 < filled c.mapEnd := by
  rw [walkAddr_eq_none_iff, hspace, c.after_apply, if_pos hx, tab_val]
  split_ifs with ht
  · simp [ht]
  · simp [ht]

end Walk

/-! ## Sequences of calls

Calls on one directory, one after the other, each of which returns.  Their order matters, since a
slot that is rebuilt loses what it had.
-/

/-- One call that returns, as a step between the states of the kernel. -/
def MapStep (pgdir : Frame) (k : Kernel) (c : MapCall) (k' : Kernel) : Prop :=
  c.run k pgdir = (.ok (), k')

/-- A sequence of calls that return leaves a directory, and pages taken only from its free list. -/
theorem directory_of_run {pgdir : Frame} {k k' : Kernel} {cs : List MapCall}
    {l : List (Fin nrPage)} (h : Directory k pgdir l) (hrun : Run (MapStep pgdir) k cs k') :
    ∃ l', Directory k' pgdir l' :=
  hrun.invariant (I := fun k => ∃ l, Directory k pgdir l) (C := fun _ => True)
    (fun _ c _ h _ hstep => by
      obtain ⟨l, hl⟩ := h
      exact ⟨_, (mmContinousMap_of_ok c hl hstep).1⟩)
    (fun _ _ => trivial) ⟨l, h⟩

end ScratchOs
