import ScratchOs.Core.Chain
import ScratchOs.Kernel.Address
import Mathlib.Data.List.FinRange

/-!
# The page frame allocator

The allocator half of `kernel/page.c`: the pool of `PageInfo` blocks, one for each of the 32768
physical pages, the free list threaded through it, `alloc_page`, `release_page` and the part of
`init_page` that builds the list.

A `PageInfo *` is `NULL` or a cell of `page_pool`, so it is an `Option (Fin nrPage)`.  A `PANIC`
prints its text and spins for ever: no state follows it, and the functions return the `Panic`
instead of one.

* `allocPage_cons` — on a well-formed list, `alloc_page` returns the head and pops it.
* `releasePage_of_one` — releasing a page with one reference clears the count and **leaves the free
  list as it was**: the page is linked to the list, but the head is then read back from the page
  instead of being set to it.
* `initFreeList_eq` — what `init_page` builds: every page from the end of the kernel on, in order.

What follows from these for whole runs of the allocator is in `Kernel/Ownership` and, for callers
that release what they do not hold, in `Kernel/Misuse`.  Both only use `FreeList` and the lemma of
each operation on it.
-/

namespace ScratchOs

open Chain Words

/-- `PHY_SIZE / PG_SIZE`, the number of physical pages. -/
def nrPage : ℕ := 0x8000000 / 0x1000

/-- `PageInfoBlock`: the number of the page, its references and the next free page. -/
@[ext]
structure PageInfo where
  frame : UInt32
  refCount : UInt32
  next : Option (Fin nrPage)

/-- The globals of the allocator: `free_page_list` and `page_pool`. -/
structure PageState where
  freePageList : Option (Fin nrPage)
  pagePool : Fin nrPage → PageInfo

/-- The ways the page code stops. -/
inductive Panic
  /-- `PANIC("No free page!")` -/
  | noFreePage
  /-- `TEST(page->ref_count == 0, "A in-use page is allocated from free list!")` -/
  | inUsePage
  /-- `TEST(frame < PHY_SIZE / PG_SIZE, "page frame exceeds limit!")` -/
  | frameLimit
  deriving DecidableEq, Repr

/-- The pool after the fields of one cell have been written. -/
def PageState.modify (s : PageState) (page : Fin nrPage) (f : PageInfo → PageInfo) : PageState :=
  { s with pagePool := Function.update s.pagePool page (f (s.pagePool page)) }

/-- `alloc_page`, which returns the number of the page it takes off the list. -/
def allocPage (s : PageState) : Except Panic (UInt32 × PageState) :=
  match s.freePageList with
  | none => .error .noFreePage
  | some page =>
      let s : PageState := { s with freePageList := (s.pagePool page).next }
      let s := s.modify page fun i => { i with next := none }
      if (s.pagePool page).refCount = 0 then
        let s := s.modify page fun i => { i with refCount := i.refCount + 1 }
        .ok ((s.pagePool page).frame, s)
      else
        .error .inUsePage

/-- `release_page`.  The last assignment reads the old head back from the page, where one would
expect the page to become the head. -/
def releasePage (s : PageState) (frame : UInt32) : Except Panic PageState :=
  if h : frame.toNat < nrPage then
    let page : Fin nrPage := ⟨frame.toNat, h⟩
    let s := s.modify page fun i => { i with refCount := i.refCount - 1 }
    if (s.pagePool page).refCount = 0 then
      let s := s.modify page fun i => { i with next := s.freePageList }
      .ok { s with freePageList := (s.pagePool page).next }
    else
      .ok s
  else
    .error .frameLimit

/-- The loop of `init_page` that links page `i` behind page `i - 1`. -/
def linkPool (pool : Fin nrPage → PageInfo) (i : ℕ) : Fin nrPage → PageInfo :=
  if h : i < nrPage then
    let page : Fin nrPage := ⟨i, h⟩
    let prev : Fin nrPage := ⟨i - 1, by omega⟩
    let pool := Function.update pool page { pool page with frame := UInt32.ofNat i }
    let pool := Function.update pool prev { pool prev with next := some page }
    linkPool pool (i + 1)
  else
    pool
  termination_by nrPage - i

/-- `nr_kernel_page`: the first page after the kernel image. -/
def nrKernelPage (kernEnd : UInt32) : ℕ := (roundup kernEnd / pgSize).toNat

/-- The pool `init_page` builds for a kernel of `n` pages: cleared, then linked. -/
def initPool (n : Fin nrPage) : Fin nrPage → PageInfo :=
  let zero : Fin nrPage → PageInfo := fun _ => ⟨0, 0, none⟩
  linkPool (Function.update zero n { zero n with frame := UInt32.ofNat n.val }) (n.val + 1)

/-- The list construction of `init_page`, from the linker symbol `end`.  A kernel that fills the
physical memory would index past the pool: there is no state after that. -/
def initFreeList (kernEnd : UInt32) : Option PageState :=
  if h : nrKernelPage kernEnd < nrPage then
    some ⟨some ⟨nrKernelPage kernEnd, h⟩, initPool ⟨nrKernelPage kernEnd, h⟩⟩
  else
    none

lemma nrKernelPage_eq (kernEnd : UInt32) :
    nrKernelPage kernEnd = (kernEnd.toNat + 4095) / 4096 % 1048576 := by
  have hpg : pgSize.toNat = 4096 := rfl
  rw [nrKernelPage, UInt32.toNat_div, toNat_roundup, hpg]
  omega

/-! ## One step of each operation

Each function as one state change.  The state after it is written down field by field, and the free
list of the one state gives that of the other.
-/

/-- The successor map the free list is threaded through. -/
def PageState.next (s : PageState) (page : Fin nrPage) : Option (Fin nrPage) :=
  (s.pagePool page).next

/-- The state after a page was popped: it is unlinked and has one reference. -/
def PageState.pop (s : PageState) (page : Fin nrPage) : PageState where
  freePageList := s.next page
  pagePool := Function.update s.pagePool page ⟨(s.pagePool page).frame, 1, none⟩

/-- The state after a page with one reference was released. -/
def PageState.drop (s : PageState) (page : Fin nrPage) : PageState where
  freePageList := s.freePageList
  pagePool := Function.update s.pagePool page ⟨(s.pagePool page).frame, 0, s.freePageList⟩

@[simp] lemma PageState.pop_self (s : PageState) (page : Fin nrPage) :
    (s.pop page).pagePool page = ⟨(s.pagePool page).frame, 1, none⟩ := by
  simp [PageState.pop]

lemma PageState.pop_of_ne (s : PageState) {page q : Fin nrPage} (h : q ≠ page) :
    (s.pop page).pagePool q = s.pagePool q := by
  simp [PageState.pop, h]

@[simp] lemma PageState.drop_self (s : PageState) (page : Fin nrPage) :
    (s.drop page).pagePool page = ⟨(s.pagePool page).frame, 0, s.freePageList⟩ := by
  simp [PageState.drop]

lemma PageState.drop_of_ne (s : PageState) {page q : Fin nrPage} (h : q ≠ page) :
    (s.drop page).pagePool q = s.pagePool q := by
  simp [PageState.drop, h]

lemma allocPage_nil {s : PageState} (h : s.freePageList = none) :
    allocPage s = .error .noFreePage := by
  simp [allocPage, h]

/-- `alloc_page` pops the head of the list when its count is 0. -/
lemma allocPage_cons {s : PageState} {page : Fin nrPage} (h : s.freePageList = some page)
    (href : (s.pagePool page).refCount = 0) :
    allocPage s = .ok ((s.pagePool page).frame, s.pop page) := by
  have hone : (0 : UInt32) + 1 = 1 := rfl
  simp [allocPage, h, PageState.modify, href, PageState.pop, PageState.next, hone]

/-- It stops at its `TEST` when the head of the list is in use. -/
lemma allocPage_inUse {s : PageState} {page : Fin nrPage} (h : s.freePageList = some page)
    (href : (s.pagePool page).refCount ≠ 0) : allocPage s = .error .inUsePage := by
  simp [allocPage, h, PageState.modify, href]

/-- **Releasing the last reference does not put the page back.**  The page now points to the
list, but the head of the list is unchanged. -/
lemma releasePage_of_one {s : PageState} {frame : UInt32} (h : frame.toNat < nrPage)
    (href : (s.pagePool ⟨frame.toNat, h⟩).refCount = 1) :
    releasePage s frame = .ok (s.drop ⟨frame.toNat, h⟩) := by
  simp [releasePage, h, PageState.modify, href, PageState.drop]

/-- The free list of a state: the pages in `l`, in order, none of them in use and each of them
numbered by its place in the pool.  The chain brings with it that the list ends and has no page
twice. -/
structure FreeList (s : PageState) (l : List (Fin nrPage)) : Prop where
  chain : IsChain s.next s.freePageList l
  refCount : ∀ page ∈ l, (s.pagePool page).refCount = 0
  frame : ∀ page ∈ l, (s.pagePool page).frame.toNat = page.val

lemma FreeList.nodup {s : PageState} {l : List (Fin nrPage)} (h : FreeList s l) : l.Nodup :=
  h.chain.nodup

lemma FreeList.unique {s : PageState} {l l' : List (Fin nrPage)} (h : FreeList s l)
    (h' : FreeList s l') : l = l' :=
  h.chain.unique h'.chain

lemma FreeList.head {s : PageState} {page : Fin nrPage} {l : List (Fin nrPage)}
    (h : FreeList s (page :: l)) : s.freePageList = some page :=
  h.chain.1

/-- The list only depends on its own cells, so that it survives what happens to pages outside of
it. -/
lemma FreeList.congr {s s' : PageState} {l : List (Fin nrPage)} (h : FreeList s l)
    (hhead : s'.freePageList = s.freePageList)
    (hcell : ∀ page ∈ l, s'.pagePool page = s.pagePool page) :
    FreeList s' l where
  chain := by
    rw [hhead]
    refine h.chain.congr fun page hpage => ?_
    rw [PageState.next, hcell page hpage]
    rfl
  refCount page hpage := by rw [hcell page hpage, h.refCount page hpage]
  frame page hpage := by rw [hcell page hpage, h.frame page hpage]

/-- An empty list stops `alloc_page`. -/
lemma FreeList.alloc_nil {s : PageState} (h : FreeList s []) :
    allocPage s = .error .noFreePage :=
  allocPage_nil h.chain

/-- **`alloc_page` on a well-formed list**: it returns the number of the first page and leaves the
rest of the list. -/
lemma FreeList.alloc_cons {s : PageState} {page : Fin nrPage} {l : List (Fin nrPage)}
    (h : FreeList s (page :: l)) :
    ∃ f : UInt32, f.toNat = page.val ∧ allocPage s = .ok (f, s.pop page) ∧
      FreeList (s.pop page) l := by
  have hmem : page ∈ page :: l := List.mem_cons_self
  refine ⟨_, h.frame page hmem, allocPage_cons h.head (h.refCount page hmem), ?_⟩
  have hcell : ∀ q ∈ l, (s.pop page).pagePool q = s.pagePool q := by
    intro q hq
    have hne : q ≠ page := fun e => (List.nodup_cons.mp h.nodup).1 (e ▸ hq)
    exact s.pop_of_ne hne
  constructor
  · refine h.chain.2.congr fun q hq => ?_
    rw [PageState.next, hcell q hq]
    rfl
  · intro q hq
    rw [hcell q hq, h.refCount q (List.mem_cons_of_mem _ hq)]
  · intro q hq
    rw [hcell q hq, h.frame q (List.mem_cons_of_mem _ hq)]

/-! ## What `init_page` builds

The loop writes to two cells in each round, the number of one and the link of the one before, so
that its invariant is about both.
-/

/-- **The linking loop**, cell by cell: from `i` on every cell gets its own number, and from the
cell before on every cell points to the next one. -/
lemma linkPool_apply (pool : Fin nrPage → PageInfo) (i : ℕ) (hi : 0 < i) (j : Fin nrPage) :
    linkPool pool i j =
      { frame := if i ≤ j.val then UInt32.ofNat j.val else (pool j).frame
        refCount := (pool j).refCount
        next :=
          if h : i ≤ j.val + 1 ∧ j.val + 1 < nrPage then some ⟨j.val + 1, h.2⟩
          else (pool j).next } := by
  induction pool, i using linkPool.induct with
  | case1 pool i h page prev pool₁ pool₂ ih =>
      have hne : page ≠ prev := Fin.ne_of_val_ne (by simp only [page, prev]; omega)
      rw [linkPool, dif_pos h, ih (by omega)]
      by_cases hpage : j = page
      · -- the cell that gets its number in this round; the next round links it
        subst hpage
        simp [pool₂, pool₁, page, hne]
      by_cases hprev : j = prev
      · -- the cell that is linked in this round
        obtain ⟨m, rfl⟩ := Nat.exists_eq_succ_of_ne_zero (Nat.ne_of_gt hi)
        subst hprev
        have hle : ¬ m + 1 ≤ m := by omega
        have hle' : ¬ m + 1 + 1 ≤ m := by omega
        simp [pool₂, pool₁, prev, page, h, hle, hle']
      · have h₁ : j.val ≠ i := fun e => hpage (Fin.ext e)
        have h₂ : j.val ≠ i - 1 := fun e => hprev (Fin.ext e)
        have h₃ : i + 1 ≤ j.val ↔ i ≤ j.val := by omega
        have h₄ : i ≤ j.val + 1 ↔ i ≤ j.val := by omega
        simp [pool₂, pool₁, hpage, hprev, h₃, h₄]
  | case2 pool i h =>
      have h₁ : ¬ i ≤ j.val := by omega
      have h₂ : ¬ (i ≤ j.val + 1 ∧ j.val + 1 < nrPage) := by omega
      rw [linkPool, dif_neg h, if_neg h₁, dif_neg h₂]

/-- Every cell of the pool that `init_page` builds, by its place. -/
lemma initPool_apply (n page : Fin nrPage) :
    initPool n page =
      { frame := if n ≤ page then UInt32.ofNat page.val else 0
        refCount := 0
        next :=
          if h : n ≤ page ∧ page.val + 1 < nrPage then some ⟨page.val + 1, h.2⟩ else none } := by
  rw [initPool, linkPool_apply _ _ (Nat.succ_pos _), Function.update_apply]
  by_cases heq : page = n
  · subst heq
    simp
  · have hle : n.val + 1 ≤ page.val ↔ n ≤ page := by
      have hval : page.val ≠ n.val := fun e => heq (Fin.ext e)
      rw [Fin.le_def]
      omega
    simp [heq, hle]

/-- The numbers below `N` from `n` on, by position.  It is stated for any `N`, so that nothing
computes the list for the number of pages. -/
lemma getElem?_drop_finRange (N n i : ℕ) :
    ((List.finRange N).drop n)[i]? = if h : n + i < N then some ⟨n + i, h⟩ else none := by
  rw [List.getElem?_drop]
  by_cases h : n + i < N
  · simp [h]
  · simp [h]

lemma drop_finRange_eq_cons {N n : ℕ} (h : n < N) :
    (List.finRange N).drop n = ⟨n, h⟩ :: (List.finRange N).drop (n + 1) := by
  rw [List.drop_eq_getElem_cons (by simpa using h)]
  simp

/-- The pages `init_page` puts on the free list: everything from page `n` on, in order. -/
def freePages (n : ℕ) : List (Fin nrPage) := (List.finRange nrPage).drop n

@[simp] lemma length_freePages (n : ℕ) : (freePages n).length = nrPage - n := by
  rw [freePages, List.length_drop, List.length_finRange]

lemma getElem?_freePages (n i : ℕ) :
    (freePages n)[i]? = if h : n + i < nrPage then some ⟨n + i, h⟩ else none :=
  getElem?_drop_finRange nrPage n i

lemma freePages_cons {n : ℕ} (h : n < nrPage) : freePages n = ⟨n, h⟩ :: freePages (n + 1) :=
  drop_finRange_eq_cons h

lemma freePages_of_le {n : ℕ} (h : nrPage ≤ n) : freePages n = [] := by
  rw [← List.length_eq_zero_iff, length_freePages, Nat.sub_eq_zero_of_le h]

lemma mem_freePages {n : ℕ} {page : Fin nrPage} : page ∈ freePages n ↔ n ≤ page.val := by
  rw [List.mem_iff_getElem?]
  constructor
  · rintro ⟨i, hi⟩
    rw [getElem?_freePages] at hi
    split_ifs at hi with h
    rw [← Option.some.inj hi]
    exact Nat.le_add_right n i
  · intro h
    refine ⟨page.val - n, ?_⟩
    have hval : n + (page.val - n) = page.val := by omega
    rw [getElem?_freePages, dif_pos (by rw [hval]; exact page.isLt)]
    simp only [hval]

/-- The links of the new pool thread exactly those pages. -/
lemma isChain_initPool (n : Fin nrPage) :
    IsChain (fun page => (initPool n page).next) (some n) (freePages n) := by
  have hhead : some n = (freePages n).head? := by
    rw [List.head?_eq_getElem?, getElem?_freePages]
    simp
  rw [hhead]
  refine isChain_of_links fun i hi => ?_
  have hlt : n.val + i < nrPage := by
    rw [length_freePages] at hi
    omega
  have hget : (freePages n).get ⟨i, hi⟩ = ⟨n.val + i, hlt⟩ := by
    rw [← Option.some_inj, List.get_eq_getElem, ← List.getElem?_eq_getElem, getElem?_freePages,
      dif_pos hlt]
  rw [hget, getElem?_freePages, initPool_apply]
  simp [Fin.le_def, Nat.add_assoc]

/-- **The list `init_page` builds** has every page from the end of the kernel on, in order, and
no page is in use yet. -/
theorem initFreeList_eq {kernEnd : UInt32} (h : nrKernelPage kernEnd < nrPage) :
    ∃ s, initFreeList kernEnd = some s ∧ FreeList s (freePages (nrKernelPage kernEnd)) := by
  refine ⟨⟨some ⟨_, h⟩, initPool ⟨_, h⟩⟩, by rw [initFreeList, dif_pos h],
    isChain_initPool ⟨_, h⟩, ?_, ?_⟩
  · intro page _
    simp only [initPool_apply]
  · intro page hpage
    have hlt : page.val < 32768 := page.isLt
    simp only [initPool_apply, Fin.le_def, mem_freePages.mp hpage, if_true]
    exact toNat_ofNat (by omega)

end ScratchOs
