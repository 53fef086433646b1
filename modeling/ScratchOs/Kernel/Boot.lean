import ScratchOs.Kernel.MapCall

/-!
# The kernel directory

`init_page` builds the free list, takes its first page as the directory, maps the image with one
call of `mm_continous_map` and switches paging on.  From that moment on the code that runs, its
stack and its data must be mapped, or the next instruction faults.

* `directory_of_list` — the cleared first page of the new list is a directory with nothing in it.
* **`initPage_spec`** — where there are pages enough, `init_page` returns, and what it leaves is
  `Booted`: the directory, the control registers, the pages still free, the address space.
* **`image_mapped_iff`** — which images are mapped completely when paging goes on.

The source says that all physical memory is mapped to itself.  It maps the image up to the last
whole page, or the slots the image reaches into completely once it is longer than 4 MB; that an
image below 4 MB loses its last partial page is the result of this file.
-/

namespace ScratchOs

open Radix Words

/-- The call of `mm_continous_map` in `init_page`: from 0 to the end of the image. -/
def bootCall (kernEnd : UInt32) : MapCall := ⟨0x0, 0x0, kernEnd⟩

/-- The page `init_page` takes for the directory. -/
def bootDir (kernEnd : UInt32) : Frame := pageNo (nrKernelPage kernEnd)

/-- The number of pages `init_page` has taken or skipped: the image, the directory, its tables. -/
def bootPages (kernEnd : UInt32) : ℕ := nrKernelPage kernEnd + 1 + (bootCall kernEnd).rounds

/-- What `init_page` leaves behind. -/
structure Booted (kernEnd : UInt32) (k : Kernel) : Prop where
  kpgdir : k.kpgdir = bootDir kernEnd
  cr3 : k.cr3 = k.kpgdir
  paging : k.paging = true
  stores : k.stores = []
  directory : Directory k k.kpgdir (freePages (bootPages kernEnd))
  space : translate k.mem k.kpgdir = (bootCall kernEnd).after fun _ _ => none

/-- An address space in which no entry of the directory is present has no page. -/
lemma translate_of_clear {mem : PhysMem} {pgdir : Frame}
    (h : ∀ d, (mem pgdir d).target = none) : translate mem pgdir = fun _ _ => none := by
  funext d t
  rw [translate, walk, h d]
  rfl

/-- **A new directory** is the first page of the list, cleared. -/
lemma directory_of_list {s : PageState} {n : ℕ} (hn : n < nrPage) (h : FreeList s (freePages n))
    (k : Kernel) :
    ∃ f q, allocPage s = .ok (f, q) ∧ ((⟨0⟩ : LinearAddr).withFrame f).page = pageNo n ∧
      ∀ k₀, k₀ = Kernel.clear { k with pages := q, kpgdir := pageNo n } (pageNo n) 0 →
        Directory k₀ (pageNo n) (freePages (n + 1)) ∧
          translate k₀.mem (pageNo n) = (fun _ _ => none) ∧ k₀.kpgdir = pageNo n := by
  rw [freePages_cons hn] at h
  obtain ⟨f, hf, hok, hfree⟩ := h.alloc_cons
  refine ⟨f, _, hok, by rw [page_withFrame, hf], ?_⟩
  rintro k₀ rfl
  have hstores := clear_storesTo
    { k with pages := s.pop ⟨n, hn⟩, kpgdir := pageNo n } (pageNo n) 0
  have hzero : ∀ d, ((Kernel.clear { k with pages := s.pop ⟨n, hn⟩, kpgdir := pageNo n }
      (pageNo n) 0).mem (pageNo n) d).target = none := by
    intro d
    rw [clear_mem, if_pos (Nat.zero_le _)]
    rfl
  have hnone : ∀ t, ¬ IsTable PTE.target (Kernel.clear
      { k with pages := s.pop ⟨n, hn⟩, kpgdir := pageNo n } (pageNo n) 0).mem (pageNo n) t := by
    rintro t ⟨d, hd⟩
    rw [hzero d] at hd
    cases hd
  refine ⟨⟨?_, ?_, hnone _, fun page _ => hnone _⟩, translate_of_clear hzero,
    hstores.sameRegs.kpgdir⟩
  · rw [hstores.pages]
    exact hfree
  · -- the free pages come after page `n`
    intro page hpage heq
    have hlt : n < 32768 := hn
    have hmem := mem_freePages.mp hpage
    have hval := congrArg Fin.val heq
    rw [pageFrame_val, pageNo_val] at hval
    omega

/-- **`init_page`** returns when there is a page for the directory and for each table. -/
theorem initPage_spec (k : Kernel) {kernEnd : UInt32} (h : bootPages kernEnd ≤ nrPage) :
    ∃ k', initPage k kernEnd = some (.ok (), k') ∧ Booted kernEnd k' := by
  have hn : nrKernelPage kernEnd < nrPage := by
    rw [bootPages] at h
    omega
  obtain ⟨s, hs, hfree⟩ := initFreeList_eq hn
  obtain ⟨f, q, hok, hpage, hdir⟩ := directory_of_list hn hfree k
  obtain ⟨hdirectory, hempty, hkpgdir⟩ := hdir _ rfl
  obtain ⟨k', hcall, hdirectory', hregs, hspace⟩ :=
    mmContinousMap_spec (bootCall kernEnd) hdirectory
    (by rw [length_freePages]; rw [bootPages] at h; omega)
  have hk' : k'.kpgdir = bootDir kernEnd := hregs.kpgdir.trans hkpgdir
  refine ⟨{ k' with cr3 := k'.kpgdir, paging := true, stores := [] },
    ?_, hk', rfl, rfl, rfl, ?_, ?_⟩
  · rw [MapCall.run] at hcall
    simp only [initPage, hs, Option.map_some, hok, hpage]
    rw [show mmContinousMap _ (pageNo (nrKernelPage kernEnd)) 0x0 0x0 kernEnd = _ from hcall]
  · rw [freePages, List.drop_drop] at hdirectory'
    show Directory _ k'.kpgdir (freePages (bootPages kernEnd))
    rw [hk', freePages, bootPages]
    exact ⟨hdirectory'.free, hdirectory'.root, hdirectory'.self, hdirectory'.fresh⟩
  · show translate k'.mem k'.kpgdir = _
    rw [hk', bootDir, hspace, hempty]

/-! ## The image

All images of interest start at one megabyte, where the boot loader puts the kernel, and leave room
for the tables.
-/

/-- The image ends above one megabyte, where it is loaded, and leaves the last 16 MB of the
machine free, which is more than `init_page` needs. -/
abbrev ImageFits (kernEnd : UInt32) : Prop := 0x100000 ≤ kernEnd ∧ kernEnd ≤ 0x7000000

section Image

variable {kernEnd : UInt32}

lemma ImageFits.toNat (h : ImageFits kernEnd) :
    1048576 ≤ kernEnd.toNat ∧ kernEnd.toNat ≤ 117440512 :=
  ⟨UInt32.le_iff_toNat_le.mp h.1, UInt32.le_iff_toNat_le.mp h.2⟩

lemma toNat_roundup_zero : (roundup 0x0).toNat = 0 := rfl

lemma bootCall_dirBeg : (bootCall kernEnd).dirBeg = 0 := by
  show (roundup 0x0).toNat / 4194304 = 0
  rw [toNat_roundup_zero, Nat.zero_div]

lemma bootCall_base : (bootCall kernEnd).base = 0 := by
  show (roundup 0x0).toNat / 4096 = 0
  rw [toNat_roundup_zero, Nat.zero_div]

lemma toNat_bootCall_mapEnd : (bootCall kernEnd).mapEnd.toNat = kernEnd.toNat / 4096 * 4096 := by
  have h := toNat_lt kernEnd
  rw [MapCall.toNat_mapEnd]
  show ((roundup 0x0).toNat + kernEnd.toNat) % 4294967296 / 4096 * 4096 = _
  rw [toNat_roundup_zero]
  omega

lemma bootCall_rounds : (bootCall kernEnd).rounds = kernEnd.toNat / 4194304 + 1 := by
  rw [MapCall.rounds, toNat_bootCall_mapEnd, bootCall_dirBeg]
  omega

lemma filled_bootCall : filled (bootCall kernEnd).mapEnd = min 1024 (kernEnd.toNat / 4096) := by
  rw [MapCall.filled_mapEnd, toNat_bootCall_mapEnd]
  omega

lemma ImageFits.nrKernelPage_eq (h : ImageFits kernEnd) :
    nrKernelPage kernEnd = (kernEnd.toNat + 4095) / 4096 := by
  have hnat := h.toNat
  rw [ScratchOs.nrKernelPage_eq]
  omega

/-- The pages up to the last table are in the pool. -/
lemma ImageFits.bootPages_le (h : ImageFits kernEnd) : bootPages kernEnd ≤ nrPage := by
  have hnat := h.toNat
  rw [bootPages, h.nrKernelPage_eq, bootCall_rounds]
  show _ ≤ 32768
  omega

/-- Below the slot after the image, an address is mapped to itself exactly if the inner loop
reached its index. -/
lemma Booted.walk_self {k : Kernel} (h : Booted kernEnd k) {x : UInt32}
    (hx : x.toNat / 4194304 ≤ kernEnd.toNat / 4194304) :
    walkAddr k.mem k.kpgdir x = some x ↔ x.toNat / 4096 % 1024 < kernEnd.toNat / 4096 := by
  have hlt := toNat_lt x
  have htouch : (bootCall kernEnd).Rebuilds x := by
    rw [MapCall.Rebuilds, MapCall.Touches, dir_val, bootCall_dirBeg, bootCall_rounds]
    omega
  rw [walkAddr_rebuilt h.space htouch, filled_bootCall, bootCall_base, bootCall_dirBeg]
  omega

/-- **The image when paging goes on.**  Every byte of it is mapped to itself if and only if the
image reaches past the first 4 MB or ends on a page boundary: below 4 MB the inner loop stops at
`end` rounded down. -/
theorem image_mapped_iff (k : Kernel) (kernEnd : UInt32) (h : ImageFits kernEnd) :
    ∃ k', initPage k kernEnd = some (.ok (), k') ∧
      ((∀ x, x < kernEnd → walkAddr k'.mem k'.kpgdir x = some x)
        ↔ 0x400000 ≤ kernEnd ∨ kernEnd.toNat % 4096 = 0) := by
  have hnat := h.toNat
  obtain ⟨k', hok, hboot⟩ := initPage_spec k h.bootPages_le
  refine ⟨k', hok, ?_⟩
  rw [UInt32.le_iff_toNat_le, show (0x400000 : UInt32).toNat = 4194304 from rfl]
  constructor
  · intro hall
    by_contra hcond
    -- the last byte of the image is in the page that was left out
    have hone : (1 : UInt32) ≤ kernEnd := by
      rw [UInt32.le_iff_toNat_le]
      show 1 ≤ kernEnd.toNat
      omega
    have hlast : (kernEnd - 1).toNat = kernEnd.toNat - 1 := UInt32.toNat_sub_of_le _ _ hone
    have hself := hall (kernEnd - 1) (by rw [UInt32.lt_iff_toNat_lt]; omega)
    rw [hboot.walk_self (by omega)] at hself
    omega
  · intro hcond x hx
    rw [UInt32.lt_iff_toNat_lt] at hx
    rw [hboot.walk_self (by omega)]
    omega

end Image

/-- A machine whose memory is all zero. -/
def Kernel.blank : Kernel :=
  ⟨⟨none, fun _ => ⟨0, 0, none⟩⟩, 0, fun _ _ => PTE.zero, 0, false, []⟩

/-- An image that ends at two megabytes is mapped completely. -/
theorem image_mapped_two_megabytes :
    ∃ k', initPage Kernel.blank 0x200000 = some (.ok (), k') ∧
      ∀ x, x < 0x200000 → walkAddr k'.mem k'.kpgdir x = some x := by
  obtain ⟨k', hok, hiff⟩ := image_mapped_iff Kernel.blank 0x200000 (by decide)
  exact ⟨k', hok, hiff.mpr (Or.inr (by decide))⟩

/-- An image that ends one byte later loses that byte. -/
theorem image_mapped_fails :
    ImageFits 0x200001 ∧ ∃ k', initPage Kernel.blank 0x200001 = some (.ok (), k') ∧
      walkAddr k'.mem k'.kpgdir 0x200000 ≠ some 0x200000 := by
  have hfits : ImageFits 0x200001 := by decide
  obtain ⟨k', hok, hboot⟩ := initPage_spec Kernel.blank hfits.bootPages_le
  refine ⟨hfits, k', hok, ?_⟩
  rw [Ne, hboot.walk_self (by decide)]
  decide

lemma bootPages_one_megabyte : bootPages 0x100000 = 258 := by
  have hfits : ImageFits 0x100000 := by decide
  rw [bootPages, hfits.nrKernelPage_eq, bootCall_rounds]
  rfl

/-- The directory `init_page` leaves for an image that ends at one megabyte. -/
lemma booted_one_megabyte :
    ∃ k, initPage Kernel.blank 0x100000 = some (.ok (), k) ∧ Booted 0x100000 k ∧
      Directory k k.kpgdir (freePages 258) := by
  have hfits : ImageFits 0x100000 := by decide
  obtain ⟨k, hok, hboot⟩ := initPage_spec Kernel.blank hfits.bootPages_le
  exact ⟨k, hok, hboot, bootPages_one_megabyte ▸ hboot.directory⟩

end ScratchOs
