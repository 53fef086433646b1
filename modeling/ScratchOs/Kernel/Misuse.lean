import ScratchOs.Kernel.Ownership
import ScratchOs.Kernel.Tables
import Mathlib.Algebra.Order.Interval.Set.SuccPred
import Mathlib.Data.Nat.SuccPred

/-!
# What a wrong release does to the allocator

Runs of `alloc_page` and `release_page` after `init_page`, in which a caller may release any frame
that `release_page` accepts: one that is free, one that was released before, a page of the kernel
image.  `release_page` only tests that the frame is in the pool.  So nothing about holders can be
assumed here, and the invariant is about the counts alone.

* `Counted used top s` — the pages from `top` on are free, and the pages in `used` have one
  reference, all others none.
* `Counted.pop`, `Counted.drop` — what an allocation and the release of a page in use make of it.
* `initPage_counted` — `init_page` leaves the directory and its tables in use, which are taken
  through `alloc_page` like any other page.
* **`counts_sound_iff`** — no count wraps and the test of `alloc_page` never fails if and only if
  every release is of a frame in use.
* `releasePage_of_zero`, `Counted.release_top` — any other release wraps a count, and when the page
  is the next one of the list, the next `alloc_page` stops.

**Why a half-line is enough**: `release_page` never puts a page back, so the free list only ever
loses its head, and what is free is always everything from some page on.
-/

namespace ScratchOs

open Chain Runs Set Words

/-- One call that returns, whoever makes it and whatever frame it names. -/
inductive PageState.Step : PageState → PageOp → PageState → Prop
  | alloc {s p : PageState} {f : UInt32} (h : allocPage s = .ok (f, p)) : Step s .alloc p
  | release {s p : PageState} {f : UInt32} (h : releasePage s f = .ok p) : Step s (.release f) p

/-- No free page is in use, so that the test of `alloc_page` holds of whichever page comes next. -/
structure PageState.Sound (s : PageState) : Prop where
  free : ∀ page, s.Free page → (s.pagePool page).refCount = 0
  test : allocPage s ≠ .error .inUsePage

/-- The call takes a reference from a page that has none, which makes a count of `0xffffffff`. -/
def PageState.Wraps (s : PageState) : PageOp → Prop
  | .alloc => False
  | .release f => ∃ h : f.toNat < nrPage, (s.pagePool ⟨f.toNat, h⟩).refCount = 0

/-- The pages from `top` on are free, and of the others those in `used` have one reference. -/
structure Counted (used : Set ℕ) (top : ℕ) (s : PageState) : Prop where
  free : FreeList s (freePages top)
  below : ∀ p ∈ used, p < top
  one : ∀ page : Fin nrPage, page.val ∈ used → (s.pagePool page).refCount = 1
  zero : ∀ page : Fin nrPage, page.val ∉ used → (s.pagePool page).refCount = 0

/-! ## The two calls

What each call does to a counted state, and what it does to a page that is not in use.
-/

section Calls

variable {used : Set ℕ} {top : ℕ} {s : PageState}

/-- An allocation takes page `top` into use. -/
lemma Counted.pop (h : Counted used top s) (htop : top < nrPage) :
    Counted (insert top used) (top + 1) (s.pop ⟨top, htop⟩) := by
  have hfree := h.free
  rw [freePages_cons htop] at hfree
  obtain ⟨-, -, -, hfree'⟩ := hfree.alloc_cons
  refine ⟨hfree', ?_, ?_, ?_⟩
  · rintro p (rfl | hp)
    · exact Nat.lt_succ_self p
    · exact Nat.lt_succ_of_lt (h.below p hp)
  · intro page hpage
    by_cases heq : page = ⟨top, htop⟩
    · rw [heq, PageState.pop_self]
    · have hused : page.val ∈ used := hpage.resolve_left fun e => heq (Fin.ext e)
      rw [s.pop_of_ne heq, h.one page hused]
  · intro page hpage
    have hne : page ≠ ⟨top, htop⟩ := fun e => hpage (Or.inl (congrArg Fin.val e))
    rw [s.pop_of_ne hne]
    exact h.zero page fun hused => hpage (Or.inr hused)

/-- The release of a page in use takes it out of use, and not back to the list. -/
lemma Counted.drop (h : Counted used top s) {page : Fin nrPage} (hpage : page.val ∈ used) :
    Counted (used \ {page.val}) top (s.drop page) := by
  refine ⟨h.free.congr rfl ?_, fun p hp => h.below p hp.1, ?_, ?_⟩
  · intro q hq
    refine s.drop_of_ne ?_
    rintro rfl
    exact absurd (h.below q.val hpage) (Nat.not_lt.mpr (mem_freePages.mp hq))
  · rintro q ⟨hq, hne⟩
    have hne' : q ≠ page := fun e => hne (congrArg Fin.val e)
    rw [s.drop_of_ne hne', h.one q hq]
  · intro q hq
    by_cases heq : q = page
    · rw [heq, PageState.drop_self]
    · rw [s.drop_of_ne heq]
      exact h.zero q fun hused => hq ⟨hused, fun e => heq (Fin.ext e)⟩

/-- `alloc_page` takes page `top`, or there is none. -/
lemma Counted.allocPage (h : Counted used top s) :
    (∃ htop : top < nrPage, ∃ f : UInt32, f.toNat = top ∧
      allocPage s = .ok (f, s.pop ⟨top, htop⟩)) ∨ allocPage s = .error .noFreePage := by
  have hfree := h.free
  by_cases htop : top < nrPage
  · rw [freePages_cons htop] at hfree
    obtain ⟨f, hf, hok, -⟩ := hfree.alloc_cons
    exact Or.inl ⟨htop, f, hf, hok⟩
  · rw [freePages_of_le (Nat.not_lt.mp htop)] at hfree
    exact Or.inr hfree.alloc_nil

/-- An allocation that returns has taken page `top` into use. -/
lemma Counted.of_alloc {p : PageState} {f : UInt32} (h : Counted used top s)
    (hok : ScratchOs.allocPage s = .ok (f, p)) : Counted (insert top used) (top + 1) p := by
  rcases h.allocPage with ⟨htop, f', -, hok'⟩ | hpanic
  · rcases Prod.mk.inj (Except.ok.inj (hok.symm.trans hok')) with ⟨-, rfl⟩
    exact h.pop htop
  · rw [hpanic] at hok
    cases hok

/-- The release of a page in use that returns has taken it out of use. -/
lemma Counted.of_release {p : PageState} {f : UInt32} (h : Counted used top s)
    (hf : f.toNat ∈ used) (hlt : f.toNat < nrPage) (hok : releasePage s f = .ok p) :
    Counted (used \ {f.toNat}) top p := by
  rw [releasePage_of_one hlt (h.one ⟨f.toNat, hlt⟩ hf)] at hok
  rw [← Except.ok.inj hok]
  have hpage : (⟨f.toNat, hlt⟩ : Fin nrPage).val ∈ used := hf
  exact h.drop hpage

/-- A counted state is sound. -/
lemma Counted.sound (h : Counted used top s) : s.Sound := by
  constructor
  · intro page hpage
    exact h.free.refCount page ((h.free.chain.onChain_iff page).mp hpage)
  · intro hpanic
    rcases h.allocPage with ⟨htop, f, -, hok⟩ | hpanic'
    · rw [hok] at hpanic
      cases hpanic
    · rw [hpanic'] at hpanic
      cases hpanic

/-- A call that returns on a frame had the frame in the pool. -/
lemma lt_of_releasePage {p : PageState} {f : UInt32} (hok : releasePage s f = .ok p) :
    f.toNat < nrPage := by
  by_contra h
  simp [releasePage, h] at hok

/-- **A release of a page that is not in use** wraps its count and does nothing else. -/
lemma releasePage_of_zero {f : UInt32} (hf : f.toNat < nrPage)
    (hzero : (s.pagePool ⟨f.toNat, hf⟩).refCount = 0) :
    releasePage s f
      = .ok (s.modify ⟨f.toNat, hf⟩ fun i => { i with refCount := 0xffffffff }) := by
  have hwrap : (0 : UInt32) - 1 = 0xffffffff := rfl
  have hne : (0xffffffff : UInt32) ≠ 0 := by decide
  simp [releasePage, hf, PageState.modify, hzero, hwrap, hne]

/-- **The release of the next free page** wraps its count and leaves it on the list, and the
`alloc_page` after it stops. -/
lemma Counted.release_top (h : Counted used top s) (htop : top < nrPage) {f : UInt32}
    (hf : f.toNat = top) :
    ∃ t, releasePage s f = .ok t ∧ t.Free ⟨top, htop⟩ ∧
      (t.pagePool ⟨top, htop⟩).refCount = 0xffffffff ∧
        ScratchOs.allocPage t = .error .inUsePage := by
  subst hf
  have hnot : f.toNat ∉ used := fun hused => absurd (h.below _ hused) (Nat.lt_irrefl _)
  have hrelease := releasePage_of_zero htop (h.zero ⟨f.toNat, htop⟩ hnot)
  have hfree := h.free
  rw [freePages_cons htop] at hfree
  have hhead : s.freePageList = some ⟨f.toNat, htop⟩ := hfree.head
  generalize hpage : (⟨f.toNat, htop⟩ : Fin nrPage) = page at hrelease hhead
  have hcount : ((s.modify page fun i => { i with refCount := 0xffffffff }).pagePool page).refCount
      = 0xffffffff := by
    simp [PageState.modify]
  refine ⟨_, hrelease, ?_, hcount, allocPage_inUse hhead ?_⟩
  · rw [PageState.Free, PageState.modify, hhead]
    exact OnChain.head page
  · rw [hcount]
    decide

end Calls

/-! ## What `init_page` leaves in use

The directory and the tables are pages of the pool.  A caller that releases one of them does nothing
wrong as far as the counts go, although the processor still walks it.
-/

section Boot

variable {k k' : Kernel} {kernEnd : UInt32}

/-- In the new pool every count is 0, so no page is in use. -/
lemma initFreeList_counted {s : PageState} (hs : initFreeList kernEnd = some s) :
    Counted ∅ (nrKernelPage kernEnd) s ∧ nrKernelPage kernEnd < nrPage := by
  by_cases hn : nrKernelPage kernEnd < nrPage
  · obtain ⟨s', hs', hfree⟩ := initFreeList_eq hn
    obtain rfl := Option.some.inj (hs.symm.trans hs')
    refine ⟨⟨hfree, fun p hp => absurd hp (notMem_empty p), fun page hpage =>
      absurd hpage (notMem_empty _), fun page _ => ?_⟩, hn⟩
    rw [initFreeList, dif_pos hn] at hs
    rw [← Option.some.inj hs]
    simp only [initPool_apply]
  · rw [initFreeList, dif_neg hn] at hs
    cases hs

/-- **The outer loop of `mm_continous_map`** takes a page into use for each round. -/
lemma mapDirs_counted (pgdir : Frame) (mapEnd : LinearAddr) (n : ℕ) (k : Kernel)
    (vaddr : LinearAddr) (dirIdx first top : ℕ) (hn : mapEnd.dirIdx.toNat + 1 - dirIdx = n)
    (h : Directory k pgdir (freePages top)) (hc : Counted (Ico first top) top k.pages)
    (hfirst : first ≤ top) (hlen : top + n ≤ nrPage) :
    Counted (Ico first (top + n)) (top + n) (mapDirs pgdir mapEnd k vaddr dirIdx).2.pages := by
  generalize hl : freePages top = l at h
  revert top
  refine mapDirs_rounds ?_ ?_ ?_ n k vaddr dirIdx l hn h
  · intro k vaddr dirIdx l h top hc hfirst hlen hl
    exact hc
  · intro n k vaddr dirIdx h top hc hfirst hlen hl
    rw [freePages_cons (by omega)] at hl
    cases hl
  · intro n k vaddr dirIdx page l res hdir h ih top hc hfirst hlen hl
    have htop : top < nrPage := by omega
    rw [freePages_cons htop] at hl
    obtain ⟨rfl, rfl⟩ := List.cons.inj hl
    have hpop := hc.pop htop
    rw [insert_Ico_right_eq_Ico_add_one hfirst] at hpop
    rw [← Nat.succ_add_eq_add_succ]
    refine ih (top + 1) ?_ (by omega) (by omega) rfl
    rw [mapDir_pages]
    exact hpop

/-- A call of `mm_continous_map` that returns has taken a page for each of its rounds. -/
lemma mmContinousMap_counted (c : MapCall) {pgdir : Frame} {first top : ℕ}
    (h : Directory k pgdir (freePages top)) (hc : Counted (Ico first top) top k.pages)
    (hfirst : first ≤ top) (htop : top ≤ nrPage) (hok : c.run k pgdir = (.ok (), k')) :
    Counted (Ico first (top + c.rounds)) (top + c.rounds) k'.pages := by
  have hlen := rounds_le_of_ok c h hok
  rw [length_freePages] at hlen
  have hcount := mapDirs_counted pgdir ⟨c.mapEnd⟩ c.rounds k ⟨roundup c.vaddr⟩ c.dirBeg first top
    c.rounds_eq h hc hfirst (by omega)
  rw [← c.run_eq, hok] at hcount
  exact hcount

/-- **`init_page`** leaves the directory and its tables in use, and nothing else: the page after
the kernel is the directory, and each round of its two calls takes the next one. -/
theorem initPage_counted (hok : initPage k kernEnd = some (.ok (), k')) :
    Counted (Ico (nrKernelPage kernEnd) (bootPages kernEnd)) (bootPages kernEnd) k'.pages := by
  cases hs : initFreeList kernEnd with
  | none => simp [initPage, hs] at hok
  | some s =>
      rcases initFreeList_counted hs with ⟨hc, hn⟩
      obtain ⟨f, q, halloc, hpage, hdir⟩ := directory_of_list hn hc.free k
      obtain ⟨hdirectory, -, -⟩ := hdir _ rfl
      have hstores := clear_storesTo { k with pages := q, kpgdir := pageNo (nrKernelPage kernEnd) }
        (pageNo (nrKernelPage kernEnd)) 0
      have hcount := hc.of_alloc halloc
      simp only [initPage, hs, Option.map_some, halloc, hpage] at hok
      generalize Kernel.clear { k with pages := q, kpgdir := pageNo (nrKernelPage kernEnd) }
        (pageNo (nrKernelPage kernEnd)) 0 = k₀ at hok hdirectory hstores
      have hpages : k₀.pages = q := hstores.pages
      rw [← hpages, ← Ico_self (nrKernelPage kernEnd),
        insert_Ico_right_eq_Ico_add_one (Nat.le_refl _)] at hcount
      -- `init_page` returns because its call of `mm_continous_map` does
      cases hcall : (bootCall kernEnd).run k₀ (pageNo (nrKernelPage kernEnd)) with
      | mk r k₁ =>
          rw [show mmContinousMap k₀ _ 0x0 0x0 kernEnd = _ from hcall] at hok
          cases r with
          | error e => cases hok
          | ok _ =>
              have hdone := mmContinousMap_counted (bootCall kernEnd) hdirectory hcount
                (Nat.le_succ _) hn hcall
              cases hok
              exact hdone

end Boot

/-! ## Runs

A frame is in use as far as the calls tell, without a look at the state.  The condition on a run is
then one on the sequence of calls, and the invariant says that the counts agree with it.
-/

/-- The first frame that is still free after the calls, when it was `taken` before them. -/
def firstFree (taken : ℕ) (ops : List PageOp) : ℕ := taken + ops.count .alloc

/-- The frames in use after the calls, as far as the calls tell: those from `first` on that were
taken before the calls or by an allocation, and that no call has released. -/
def inUse (first taken : ℕ) (ops : List PageOp) : Set ℕ :=
  {p | first ≤ p ∧ p < firstFree taken ops ∧ ∀ f, PageOp.release f ∈ ops → f.toNat ≠ p}

/-- A release is of a frame that the calls before it leave in use. -/
def OfFrameInUse (first taken : ℕ) (ops : List PageOp) : PageOp → Prop
  | .alloc => True
  | .release f => f.toNat ∈ inUse first taken ops

/-- What the calls keep, as long as every release is of a frame in use.  The pages in use are
then known from the calls alone. -/
structure Accounted (first taken : ℕ) (ops : List PageOp) (s : PageState) : Prop where
  counted : Counted (inUse first taken ops) (firstFree taken ops) s
  released : ∀ f, PageOp.release f ∈ ops → f.toNat < firstFree taken ops

section Run

variable {first taken : ℕ} {ops : List PageOp} {s t : PageState}

@[simp] lemma firstFree_alloc : firstFree taken (ops ++ [.alloc]) = firstFree taken ops + 1 := by
  simp [firstFree, Nat.add_assoc]

@[simp] lemma firstFree_release (f : UInt32) :
    firstFree taken (ops ++ [.release f]) = firstFree taken ops := by
  simp [firstFree]

lemma inUse_nil : inUse first taken [] = Ico first taken := by
  ext p
  simp [inUse, firstFree]

lemma inUse_alloc (hfirst : first ≤ firstFree taken ops)
    (h : ∀ f, PageOp.release f ∈ ops → f.toNat < firstFree taken ops) :
    inUse first taken (ops ++ [.alloc]) = insert (firstFree taken ops) (inUse first taken ops) := by
  ext p
  simp only [inUse, mem_insert_iff, mem_ofPred_eq, firstFree_alloc, List.mem_append,
    List.mem_singleton, reduceCtorEq, or_false]
  constructor
  · rintro ⟨hlo, hhi, hnot⟩
    rcases Nat.lt_succ_iff_lt_or_eq.mp hhi with hlt | heq
    · exact Or.inr ⟨hlo, hlt, hnot⟩
    · exact Or.inl heq
  · rintro (rfl | ⟨hlo, hhi, hnot⟩)
    · exact ⟨hfirst, Nat.lt_succ_self _, fun f hf => Nat.ne_of_lt (h f hf)⟩
    · exact ⟨hlo, Nat.lt_succ_of_lt hhi, hnot⟩

lemma inUse_release (f : UInt32) :
    inUse first taken (ops ++ [.release f]) = inUse first taken ops \ {f.toNat} := by
  ext p
  simp only [inUse, mem_sdiff, mem_singleton_iff, mem_ofPred_eq, firstFree_release, List.mem_append,
    List.mem_singleton, PageOp.release.injEq]
  constructor
  · rintro ⟨hlo, hhi, hnot⟩
    exact ⟨⟨hlo, hhi, fun g hg => hnot g (Or.inl hg)⟩, fun heq => hnot f (Or.inr rfl) heq.symm⟩
  · rintro ⟨⟨hlo, hhi, hnot⟩, hne⟩
    refine ⟨hlo, hhi, ?_⟩
    rintro g (hg | rfl)
    · exact hnot g hg
    · exact fun heq => hne heq.symm

/-- **Every call keeps the accounts**, if a release is of a frame in use. -/
lemma Accounted.step (hfirst : first ≤ taken) {op : PageOp} (h : Accounted first taken ops s)
    (hop : OfFrameInUse first taken ops op) (hstep : s.Step op t) :
    Accounted first taken (ops ++ [op]) t := by
  cases hstep with
  | alloc hok =>
      constructor
      · rw [firstFree_alloc, inUse_alloc (Nat.le_add_right_of_le hfirst) h.released]
        exact h.counted.of_alloc hok
      · intro f hf
        rw [firstFree_alloc]
        exact Nat.lt_succ_of_lt (h.released f (by simpa using hf))
  | release hok =>
      constructor
      · rw [firstFree_release, inUse_release]
        exact h.counted.of_release hop (lt_of_releasePage hok) hok
      · intro g hg
        rw [firstFree_release]
        rcases List.mem_append.mp hg with hg | hg
        · exact h.released g hg
        · cases List.mem_singleton.mp hg
          exact h.counted.below _ hop

/-- The release of a frame in use does not wrap. -/
lemma Accounted.not_wraps {op : PageOp} (h : Accounted first taken ops s)
    (hop : OfFrameInUse first taken ops op) : ¬ s.Wraps op := by
  cases op with
  | alloc => exact not_false
  | release f =>
      rintro ⟨hlt, hzero⟩
      rw [h.counted.one ⟨f.toNat, hlt⟩ hop] at hzero
      exact absurd hzero (by decide)

/-- A release that does not wrap is of a frame in use. -/
lemma Accounted.ofFrameInUse {op : PageOp} (h : Accounted first taken ops s) (hstep : s.Step op t)
    (hwraps : ¬ s.Wraps op) : OfFrameInUse first taken ops op := by
  cases hstep with
  | alloc hok => trivial
  | release hok =>
      by_contra hnot
      exact hwraps ⟨lt_of_releasePage hok, h.counted.zero ⟨_, lt_of_releasePage hok⟩ hnot⟩

end Run

/-- **When the counts are sound.**  After `init_page`, at every point of a run no free page is in
use, the test of `alloc_page` holds and the next call does not wrap a count, if and only if every
release is of a frame in use: one after the kernel image that `init_page` or an allocation has
taken, and that was not released before. -/
theorem counts_sound_iff (k k' : Kernel) (kernEnd : UInt32)
    (hboot : initPage k kernEnd = some (.ok (), k')) (ops : List PageOp) (s : PageState)
    (hrun : Run PageState.Step k'.pages ops s) :
    (∀ is js t, ops = is ++ js → Run PageState.Step k'.pages is t →
        t.Sound ∧ ∀ op ns, js = op :: ns → ¬ t.Wraps op)
      ↔ Along (OfFrameInUse (nrKernelPage kernEnd) (bootPages kernEnd)) ops := by
  have hfirst : nrKernelPage kernEnd ≤ bootPages kernEnd := by
    rw [bootPages]
    omega
  have hinit : Accounted (nrKernelPage kernEnd) (bootPages kernEnd) [] k'.pages := by
    refine ⟨?_, by simp⟩
    rw [inUse_nil]
    exact initPage_counted hboot
  have hstep : ∀ ms s op t, Accounted (nrKernelPage kernEnd) (bootPages kernEnd) ms s →
      OfFrameInUse (nrKernelPage kernEnd) (bootPages kernEnd) ms op → PageState.Step s op t →
      Accounted (nrKernelPage kernEnd) (bootPages kernEnd) (ms ++ [op]) t :=
    fun _ _ _ _ h => h.step hfirst
  have hiff := Run.along_iff (Q := fun s op => ¬ s.Wraps op) hstep
    (fun _ _ _ h => h.not_wraps) (fun _ _ _ _ h => h.ofFrameInUse) hrun hinit
  rw [← hiff]
  constructor
  · rintro hall is op js t heq ht
    exact (hall is (op :: js) t heq ht).2 op js rfl
  · rintro hall is js t rfl ht
    refine ⟨?_, fun op ns heq => hall is op ns t (by rw [heq]) ht⟩
    have hbefore : Along (OfFrameInUse (nrKernelPage kernEnd) (bootPages kernEnd)) is := by
      have hP := hiff.mp hall
      exact fun ms op ns heq => hP ms op (ns ++ js) (by simp [heq])
    exact (ht.history hstep hbefore hinit).counted.sound

/-- The state that `init_page` leaves for an image that ends at one megabyte: two pages in use. -/
lemma booted_counted :
    ∃ k, initPage Kernel.blank 0x100000 = some (.ok (), k) ∧ nrKernelPage 0x100000 = 256 ∧
      Counted (Ico 256 258) 258 k.pages := by
  have hfirst : nrKernelPage 0x100000 = 256 := by decide
  obtain ⟨k, hok, -, -⟩ := booted_one_megabyte
  have hcount := initPage_counted hok
  rw [hfirst, bootPages_one_megabyte] at hcount
  exact ⟨k, hok, hfirst, hcount⟩

/-- The directory itself can be released, once: it is in use. -/
theorem counts_sound_directory :
    ∃ k s, initPage Kernel.blank 0x100000 = some (.ok (), k) ∧
      Run PageState.Step k.pages [.release 256] s ∧ s.Sound := by
  obtain ⟨k, hok, hfirst, hcount⟩ := booted_counted
  have hin : (256 : UInt32).toNat ∈ Ico 256 258 := by decide
  have hlt : (256 : UInt32).toNat < nrPage := by decide
  have hrun : Run PageState.Step k.pages [.release 256] (k.pages.drop ⟨256, hlt⟩) :=
    run_single.mpr (PageState.Step.release (releasePage_of_one hlt (hcount.one ⟨256, hlt⟩ hin)))
  have hiff := counts_sound_iff Kernel.blank k 0x100000 hok _ _ hrun
  have hall := hiff.mpr <| by
    rw [hfirst, bootPages_one_megabyte]
    refine along_concat.mpr ⟨along_nil, ?_⟩
    rw [OfFrameInUse, inUse_nil]
    exact hin
  exact ⟨k, _, hok, hrun, (hall [.release 256] [] _ rfl hrun).1⟩

/-- Releasing page 258, which is free: its count wraps and the next `alloc_page` stops. -/
theorem counts_sound_fails :
    ∃ k s, initPage Kernel.blank 0x100000 = some (.ok (), k) ∧ k.pages.Wraps (.release 258) ∧
      Run PageState.Step k.pages [.release 258] s ∧ s.Free ⟨258, by decide⟩ ∧
        (s.pagePool ⟨258, by decide⟩).refCount = 0xffffffff ∧
          allocPage s = .error .inUsePage := by
  obtain ⟨k, hok, -, hcount⟩ := booted_counted
  have hlt : (258 : UInt32).toNat < nrPage := by decide
  obtain ⟨s, hrelease, hfree, hwrap, hpanic⟩ := hcount.release_top hlt (f := 258) rfl
  have hzero := hcount.zero ⟨258, hlt⟩ (by simp)
  exact ⟨k, s, hok, ⟨hlt, hzero⟩, run_single.mpr (PageState.Step.release hrelease), hfree, hwrap,
    hpanic⟩

end ScratchOs
