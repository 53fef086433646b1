import Mathlib.Data.Nat.ModEq
import ScratchOs.Kernel.Boot

/-!
# What a call maps and what it leaves

`mm_continous_map` is meant to map the virtual range `[v, v + size)` to the physical range
`[p, p + size)` and nothing else; this is what its comment says.  It rebuilds every slot from the
one of `p` to the one of `p + size`, that last slot included, and fills the tables with pages
counted from `v`; its slots come from one address and its pages from the other.

* **`map_range_iff`** — when the range is mapped as asked for.
* **`map_frame_iff`** — when an identity call changes nothing outside its range.

Both are equivalences, for a directory of any contents.  The conditions are on the arguments and on
what was mapped before, so that a caller can check them without running the loops.  The calls of the
kernel meet them for the range: `init_page` maps from 0 on, and the frame buffer starts at a slot.
They are not met by a page in the middle of a slot, which is the failing input of both.
-/

namespace ScratchOs

open Runs Words

/-- The address is in a slot that the call rebuilds, for a range of whole pages.  The end of the
range is a 32-bit sum: a range that ends at 4 GB ends in slot 0. -/
abbrev InSlots (p size x : UInt32) : Prop :=
  p.toNat / 4194304 ≤ x.toNat / 4194304 ∧
    x.toNat / 4194304 ≤ (p.toNat + size.toNat) % 4294967296 / 4194304

section Aligned

variable {p v size : UInt32}

/-- Whole pages are not rounded. -/
lemma toNat_roundup_of_aligned (hp : p.toNat % 4096 = 0) : (roundup p).toNat = p.toNat := by
  have h := toNat_lt p
  rw [toNat_roundup]
  omega

lemma toNat_mapEnd_of_aligned (hp : p.toNat % 4096 = 0) (hsize : size.toNat % 4096 = 0) :
    (MapCall.mk p v size).mapEnd.toNat = (p.toNat + size.toNat) % 4294967296 := by
  rw [MapCall.toNat_mapEnd]
  show ((roundup p).toNat + size.toNat) % 4294967296 / 4096 * 4096 = _
  rw [toNat_roundup_of_aligned hp]
  omega

lemma dirBeg_of_aligned (hp : p.toNat % 4096 = 0) :
    (MapCall.mk p v size).dirBeg = p.toNat / 4194304 := by
  show (roundup p).toNat / 4194304 = _
  rw [toNat_roundup_of_aligned hp]

lemma base_of_aligned (hv : v.toNat % 4096 = 0) :
    (MapCall.mk p v size).base = v.toNat / 4096 := by
  show (roundup v).toNat / 4096 = _
  rw [toNat_roundup_of_aligned hv]

lemma rebuilds_iff (hp : p.toNat % 4096 = 0) (hsize : size.toNat % 4096 = 0) (x : UInt32) :
    (MapCall.mk p v size).Rebuilds x ↔ InSlots p size x := by
  rw [MapCall.Rebuilds, MapCall.Touches, MapCall.rounds, dir_val, dirBeg_of_aligned hp,
    toNat_mapEnd_of_aligned hp hsize]
  omega

end Aligned

/-! ## Page numbers

The condition for one address is arithmetic modulo `2 ^ 20` on page numbers.  It turns out to be the
same for every page of the range.
-/

/-- An address in page numbers, from the first page of a range on. -/
lemma div_page {p : ℕ} (hp : p % 4096 = 0) (j : ℕ) : (p + j) / 4096 = p / 4096 + j / 4096 := by
  omega

lemma div_slot (p : ℕ) : p / 4194304 = p / 4096 / 1024 := by
  rw [Nat.div_div_eq_div_mul]

/-- Sums of whole pages agree as addresses if they agree as page numbers. -/
lemma mod_pages (a b : ℕ) :
    4096 * a % 4294967296 = 4096 * b % 4294967296 ↔ a % 1048576 = b % 1048576 := by
  rw [show 4294967296 = 4096 * 1048576 from rfl, Nat.mul_mod_mul_left, Nat.mul_mod_mul_left]
  omega

lemma add_right_mod (a b j : ℕ) :
    (a + j) % 1048576 = (b + j) % 1048576 ↔ a % 1048576 = b % 1048576 :=
  ⟨fun h => Nat.ModEq.add_right_cancel' j h, fun h => Nat.ModEq.add_right j h⟩

/-- The condition on page `J` of a range of `S` pages, where `V` is its first virtual page and `P`
its first physical one, does not depend on `J`. -/
lemma range_pages {P V S J : ℕ} (hJ : J < S) (hP : P + S ≤ 1048576)
    (hlo : P / 1024 ≤ (V + J) / 1024) (hhi : (V + J) / 1024 ≤ (P + S) % 1048576 / 1024) :
    (V + J) % 1024 < min 1024 ((P + S) % 1048576) ∧
        (V + (V + J)) % 1048576 = (P + J + P / 1024 * 1024) % 1048576
      ↔ P + S < 1048576 ∧ 2 * V % 1048576 = (P + P / 1024 * 1024) % 1048576 := by
  have hcancel : (V + (V + J)) % 1048576 = (P + J + P / 1024 * 1024) % 1048576 ↔
      2 * V % 1048576 = (P + P / 1024 * 1024) % 1048576 := by
    rw [← add_right_mod (2 * V) _ J, show V + (V + J) = 2 * V + J by omega,
      show P + J + P / 1024 * 1024 = P + P / 1024 * 1024 + J by omega]
  rw [hcancel]
  refine and_congr_left fun hsum => ?_
  by_cases hend : P + S < 1048576
  · simp only [hend, iff_true]
    rw [Nat.mod_eq_of_lt hend] at hhi ⊢
    by_cases hfull : 1024 ≤ P + S
    · rw [Nat.min_eq_left hfull]
      exact Nat.mod_lt _ (by decide)
    · omega
  · -- the range ends at 4 GB: `map_end` is 0, and the inner loop stops at once
    have hzero : (P + S) % 1048576 = 0 := by omega
    simp [hzero, hend]

/-! ## The range asked for

Two errors can cancel: the slots are taken from the physical address and the pages are counted from
the virtual one, so that the range is right where the second is twice as far on as the first.
-/

section Range

variable {k : Kernel} {mem : PhysMem} {pgdir : Frame} {A : AddrSpace} {p v size : UInt32}

/-- **An address of the range in a rebuilt slot** reaches its physical address if the range ends
below 4 GB and the two errors cancel: pages counted from `v`, slots from `p`. -/
lemma walkAddr_range (hp : p.toNat % 4096 = 0) (hv : v.toNat % 4096 = 0)
    (hsize : size.toNat % 4096 = 0) (hpend : p.toNat + size.toNat ≤ 4294967296)
    (hvend : v.toNat + size.toNat ≤ 4294967296)
    (hspace : translate mem pgdir = (MapCall.mk p v size).after A) {j : UInt32} (hj : j < size)
    (hx : InSlots p size (v + j)) :
    walkAddr mem pgdir (v + j) = some (p + j) ↔
      p.toNat + size.toNat < 4294967296 ∧
        2 * v.toNat % 4294967296 = (p.toNat + p.toNat / 4194304 * 4194304) % 4294967296 := by
  rw [UInt32.lt_iff_toNat_lt] at hj
  have hvj : (v + j).toNat = v.toNat + j.toNat := by
    rw [UInt32.toNat_add]
    exact Nat.mod_eq_of_lt (by omega)
  have hpj : (p + j).toNat = p.toNat + j.toNat := by
    rw [UInt32.toNat_add]
    exact Nat.mod_eq_of_lt (by omega)
  rw [walkAddr_rebuilt hspace ((rebuilds_iff hp hsize _).mpr hx), MapCall.filled_mapEnd,
    toNat_mapEnd_of_aligned hp hsize, base_of_aligned hv, dirBeg_of_aligned hp, hvj, hpj,
    div_page hv, div_page hp, div_slot p.toNat]
  obtain ⟨hlo, hhi⟩ := hx
  rw [hvj, div_slot, div_slot, div_page hv] at hlo
  rw [hvj, div_slot, div_slot, div_page hv] at hhi
  have hoff : (v.toNat + j.toNat) % 4096 = (p.toNat + j.toNat) % 4096 := by omega
  have hend : (p.toNat + size.toNat) % 4294967296 / 4096
      = (p.toNat / 4096 + size.toNat / 4096) % 1048576 := by omega
  have hlt : p.toNat + size.toNat < 4294967296 ↔ p.toNat / 4096 + size.toNat / 4096 < 1048576 := by
    omega
  have htwo : 2 * v.toNat = 4096 * (2 * (v.toNat / 4096)) := by omega
  have hdown : p.toNat + p.toNat / 4096 / 1024 * 4194304
      = 4096 * (p.toNat / 4096 + p.toNat / 4096 / 1024 * 1024) := by omega
  rw [hend] at hhi ⊢
  rw [hlt, htwo, hdown, mod_pages]
  simp only [hoff, true_and]
  exact range_pages (by omega) (by omega) hlo hhi

/-- **`mm_continous_map` as a map of ranges.**  With enough free pages it returns.  It maps
`[v, v + size)` to `[p, p + size)` if and only if each address of it that lies in a rebuilt slot
has the range end below 4 GB and `2 v = p + ⌊p⌋` up to 4 GB, where `⌊p⌋` is `p` rounded down to
4 MB, and each other one was mapped there before. -/
theorem map_range_iff {l : List (Fin nrPage)} (h : Directory k pgdir l) (p v size : UInt32)
    (hp : p.toNat % 4096 = 0) (hv : v.toNat % 4096 = 0) (hsize : size.toNat % 4096 = 0)
    (hpend : p.toNat + size.toNat ≤ 4294967296)
    (hvend : v.toNat + size.toNat ≤ 4294967296) (hlen : (MapCall.mk p v size).rounds ≤ l.length) :
    ∃ k', mmContinousMap k pgdir p v size = (.ok (), k') ∧
      ((∀ j, j < size → walkAddr k'.mem pgdir (v + j) = some (p + j))
        ↔ ∀ j, j < size →
            if InSlots p size (v + j) then
              p.toNat + size.toNat < 4294967296 ∧
                2 * v.toNat % 4294967296 = (p.toNat + p.toNat / 4194304 * 4194304) % 4294967296
            else
              walkAddr k.mem pgdir (v + j) = some (p + j)) := by
  obtain ⟨k', hok, -, -, hspace⟩ := mmContinousMap_spec (MapCall.mk p v size) h hlen
  refine ⟨k', hok, forall_congr' fun j => forall_congr' fun hj => ?_⟩
  by_cases hx : InSlots p size (v + j)
  · rw [if_pos hx, walkAddr_range hp hv hsize hpend hvend hspace hj hx]
  · rw [if_neg hx, walkAddr_kept hspace (mt (rebuilds_iff hp hsize _).mp hx)]

end Range

/-- A range of a whole slot is mapped to itself on the directory of the kernel. -/
theorem map_range_whole_slot :
    ∃ k, initPage Kernel.blank 0x100000 = some (.ok (), k) ∧
      ∃ k', mmContinousMap k k.kpgdir 0x400000 0x400000 0x400000 = (.ok (), k') ∧
        ∀ j, j < 0x400000 → walkAddr k'.mem k.kpgdir (0x400000 + j) = some (0x400000 + j) := by
  have hfour : (0x400000 : UInt32).toNat = 4194304 := rfl
  obtain ⟨k, hboot, -, hdirectory⟩ := booted_one_megabyte
  obtain ⟨k', hok, hiff⟩ := map_range_iff hdirectory 0x400000 0x400000 0x400000 (by decide)
    (by decide) (by decide) (by decide) (by decide) (by rw [length_freePages]; decide)
  refine ⟨k, hboot, k', hok, hiff.mpr fun j hj => ?_⟩
  rw [UInt32.lt_iff_toNat_lt, hfour] at hj
  have hsum : (0x400000 + j : UInt32).toNat = 4194304 + j.toNat := by
    rw [UInt32.toNat_add, hfour]
    omega
  have hslot : InSlots 0x400000 0x400000 (0x400000 + j) := by
    rw [InSlots, hsum, hfour]
    omega
  rw [if_pos hslot]
  decide

/-- The page at `0x1000`, asked for at `0x1000`, is mapped to the page after it. -/
theorem map_range_fails :
    ∃ k, initPage Kernel.blank 0x100000 = some (.ok (), k) ∧
      Directory k k.kpgdir (freePages 258) ∧
      ∃ k', mmContinousMap k k.kpgdir 0x1000 0x1000 0x1000 = (.ok (), k') ∧
        walkAddr k'.mem k.kpgdir 0x1000 = some 0x2000 := by
  obtain ⟨k, hboot, -, hdirectory⟩ := booted_one_megabyte
  obtain ⟨k', hok, -, -, hspace⟩ := mmContinousMap_spec (MapCall.mk 0x1000 0x1000 0x1000) hdirectory
    (by rw [length_freePages]; decide)
  exact ⟨k, hboot, hdirectory, k', hok,
    (walkAddr_rebuilt hspace (by decide) 0x2000).mpr (by decide)⟩

/-! ## Outside the range

Outside of its range an identity call leaves an address alone if it puts there what was there
before.  It puts something into every index of the slots it rebuilds.
-/

section Frame

variable {k k' : Kernel} {mem : PhysMem} {pgdir : Frame} {A : AddrSpace} {p size : UInt32}

/-- What an identity call puts in its slots: everything is moved up by the place of `p` in its
slot, and a range inside slot 0 leaves the slot empty from its end on. -/
def slotImage (p size x : UInt32) : Option UInt32 :=
  if p.toNat + size.toNat < 4194304 ∧ p.toNat + size.toNat ≤ x.toNat then none
  else some (x + UInt32.ofNat (p.toNat % 4194304))

lemma walkAddr_slotImage (hp : p.toNat % 4096 = 0) (hsize : size.toNat % 4096 = 0)
    (hpend : p.toNat + size.toNat < 4294967296)
    (hspace : translate mem pgdir = (MapCall.mk p p size).after A) {x : UInt32}
    (hx : InSlots p size x) : walkAddr mem pgdir x = slotImage p size x := by
  have hlt := toNat_lt x
  have hfilled : filled (MapCall.mk p p size).mapEnd
      = min 1024 (p.toNat / 4096 + size.toNat / 4096) := by
    rw [MapCall.filled_mapEnd, toNat_mapEnd_of_aligned hp hsize, Nat.mod_eq_of_lt hpend,
      div_page hp]
  have hbuilt := (rebuilds_iff (v := p) hp hsize x).mpr hx
  obtain ⟨hlo, hhi⟩ := hx
  rw [Nat.mod_eq_of_lt hpend, div_slot, div_slot (_ + _), div_page hp] at hhi
  rw [div_slot, div_slot x.toNat] at hlo
  rw [slotImage]
  split_ifs with hend
  · rw [walkAddr_rebuilt_none hspace hbuilt, hfilled]
    omega
  · have hsum : (x + UInt32.ofNat (p.toNat % 4194304)).toNat
        = (x.toNat + p.toNat % 4194304) % 4294967296 := by
      have hin : p.toNat % 4194304 % 2 ^ 32 = p.toNat % 4194304 := Nat.mod_eq_of_lt (by omega)
      rw [UInt32.toNat_add, UInt32.toNat_ofNat', hin]
    have hpage : (x.toNat + p.toNat % 4194304) % 4294967296 / 4096
        = (x.toNat / 4096 + p.toNat / 4096 % 1024) % 1048576 := by omega
    rw [walkAddr_rebuilt hspace hbuilt, hfilled, base_of_aligned hp, dirBeg_of_aligned hp, hsum,
      hpage, div_slot]
    refine ⟨by omega, ?_, by omega⟩
    by_cases hfull : 1024 ≤ p.toNat / 4096 + size.toNat / 4096
    · rw [Nat.min_eq_left hfull]
      exact Nat.mod_lt _ (by decide)
    · omega

/-- **An identity call and the rest of the space.**  On a directory that earlier calls have
built, the call changes no address outside `[p, p + size)` if and only if the addresses outside it
in the slots from the one of `p` to the one of `p + size` were mapped before as `slotImage` maps
them. -/
theorem map_frame_iff {k₀ : Kernel} {l : List (Fin nrPage)} {cs : List MapCall}
    (h : Directory k₀ pgdir l) (hrun : Run (MapStep pgdir) k₀ cs k) (p size : UInt32)
    (hp : p.toNat % 4096 = 0) (hsize : size.toNat % 4096 = 0)
    (hpend : p.toNat + size.toNat < 4294967296)
    (hok : mmContinousMap k pgdir p p size = (.ok (), k')) :
    (∀ x, ¬ (p ≤ x ∧ x < p + size) → walkAddr k'.mem pgdir x = walkAddr k.mem pgdir x)
      ↔ ∀ x, ¬ (p ≤ x ∧ x < p + size) → InSlots p size x →
          walkAddr k.mem pgdir x = slotImage p size x := by
  obtain ⟨l', hdirectory⟩ := directory_of_run h hrun
  obtain ⟨-, -, hspace⟩ := mmContinousMap_of_ok (MapCall.mk p p size) hdirectory hok
  refine forall_congr' fun x => forall_congr' fun _ => ?_
  by_cases hx : InSlots p size x
  · rw [walkAddr_slotImage hp hsize hpend hspace hx]
    exact ⟨fun heq _ => heq.symm, fun heq => (heq hx).symm⟩
  · rw [walkAddr_kept hspace (mt (rebuilds_iff hp hsize _).mp hx)]
    exact ⟨fun _ hin => absurd hin hx, fun _ => rfl⟩

end Frame

/-- The boot mapping, asked for once more, changes nothing. -/
theorem map_frame_again :
    ∃ k, initPage Kernel.blank 0x100000 = some (.ok (), k) ∧
      ∃ k', mmContinousMap k k.kpgdir 0 0 0x100000 = (.ok (), k') ∧
        ∀ x, ¬ ((0 : UInt32) ≤ x ∧ x < 0 + 0x100000) →
          walkAddr k'.mem k.kpgdir x = walkAddr k.mem k.kpgdir x := by
  obtain ⟨k, hok, hboot, hdirectory⟩ := booted_one_megabyte
  obtain ⟨k', hok', -, -, -⟩ := mmContinousMap_spec (MapCall.mk 0 0 0x100000) hdirectory
    (by rw [length_freePages]; decide)
  refine ⟨k, hok, k', hok', ?_⟩
  exact (map_frame_iff hdirectory (Run.nil k) 0 0x100000 (by decide) (by decide) (by decide)
    hok').mpr fun x _ hslot =>
      walkAddr_slotImage (by decide) (by decide) (by decide) hboot.space hslot

/-- The page at `0x1000`, mapped to itself on the directory of the kernel, takes the mapping of
the rest of the image away. -/
theorem map_frame_fails :
    ∃ k, initPage Kernel.blank 0x100000 = some (.ok (), k) ∧
      ∃ k', mmContinousMap k k.kpgdir 0x1000 0x1000 0x1000 = (.ok (), k') ∧
        walkAddr k.mem k.kpgdir 0x80000 = some 0x80000 ∧
        walkAddr k'.mem k.kpgdir 0x80000 = none := by
  obtain ⟨k, hok, hboot, hdirectory⟩ := booted_one_megabyte
  obtain ⟨k', hok', -, -, hspace⟩ :=
    mmContinousMap_spec (MapCall.mk 0x1000 0x1000 0x1000) hdirectory
    (by rw [length_freePages]; decide)
  refine ⟨k, hok, k', hok', (hboot.walk_self (by decide)).mpr (by decide), ?_⟩
  exact (walkAddr_rebuilt_none hspace (by decide)).mpr (by decide)

end ScratchOs
