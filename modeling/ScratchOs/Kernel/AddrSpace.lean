import ScratchOs.Kernel.Mapping

/-!
# Address spaces, and what `mm_continous_map` does to one

An address space is the translation of a directory with the tables forgotten: which page each slot
and index leads to.  A call of `mm_continous_map` rebuilds a range of slots and leaves the others,
and everything the rest of the development says about mappings is said about that.

* `AddrSpace.rebuild` — the abstract effect: `n` slots from `dir` on get `cnt` consecutive pages
  each, the other slots keep what they had.
* `Directory` — a directory page whose tables are neither free pages nor the directory itself.  This
  is what `mm_continous_map` builds, and what it needs in order not to write into a table that is in
  use.
* `Directory.round`, `mapDirs_round` — what one round of the outer loop does on a directory.
* `mapDirs_rounds` — the induction over the rounds, for everything that is said about the loop.
* **`mapDirs_spec`** — the code refines `rebuild`, and keeps `Directory`.
* **`mapDirs_good`** — the pages it writes are reachable through the directory if and only if the
  partly rebuilt space maps them to themselves at their turn.

The two results are about the same loop, once about what it leaves and once about what it does on
the way.  The second needs the first for every beginning of the loop, because a round may take away
the mapping that a later one needs.
-/

namespace ScratchOs

open Radix

/-- An address space: which page each slot and index leads to. -/
abbrev AddrSpace := Idx → Idx → Option Frame

/-- The slot and the index of the page with a number, seen as a virtual page. -/
def slotOf (f : Frame) : Idx := ⟨f.val / 1024, by omega⟩

/-- The index of that page in its slot. -/
def indexOf (f : Frame) : Idx := ⟨f.val % 1024, by omega⟩

lemma slotOf_val (f : Frame) : (slotOf f).val = f.val / 1024 := rfl

lemma indexOf_val (f : Frame) : (indexOf f).val = f.val % 1024 := rfl

/-- The page is mapped to itself, so that a store to its physical address reaches it. -/
def AddrSpace.Maps (A : AddrSpace) (f : Frame) : Prop := A (slotOf f) (indexOf f) = some f

/-- A slot with `cnt` consecutive pages from `base` on, and nothing behind them. -/
def slotFrom (base cnt : ℕ) : Idx → Option Frame :=
  fun t => if t.val < cnt then some (pageNo (base + t.val)) else none

/-- The address space after `n` slots from `dir` on have been rebuilt.  Each slot goes on with
the page at which the one before ended. -/
def AddrSpace.rebuild (A : AddrSpace) (base cnt dir n : ℕ) : AddrSpace :=
  fun d => if dir ≤ d.val ∧ d.val < dir + n then slotFrom (base + (d.val - dir) * cnt) cnt else A d

@[simp] lemma AddrSpace.rebuild_zero (A : AddrSpace) (base cnt dir : ℕ) :
    A.rebuild base cnt dir 0 = A := by
  funext d
  exact if_neg (by omega)

/-- Page numbers wrap at 20 bits, so a slot only depends on its base up to that. -/
lemma slotFrom_congr {base base' : ℕ} (cnt : ℕ) (h : base % 1048576 = base' % 1048576) :
    slotFrom base cnt = slotFrom base' cnt := by
  funext t
  have hpage : pageNo (base + t.val) = pageNo (base' + t.val) := by
    apply Fin.ext
    simp only [pageNo_val]
    omega
  rw [slotFrom, slotFrom, hpage]

/-- Rebuilding one slot and then the others is rebuilding all of them. -/
lemma AddrSpace.rebuild_succ (A : AddrSpace) (base cnt dir n : ℕ) (hdir : dir < 1024) :
    AddrSpace.rebuild (Function.update A (Fin.ofNat 1024 dir) (slotFrom base cnt))
        (pageNo (base + cnt)).val cnt (dir + 1) n
      = A.rebuild base cnt dir (n + 1) := by
  have hval : (Fin.ofNat 1024 dir).val = dir := Nat.mod_eq_of_lt hdir
  funext d
  unfold AddrSpace.rebuild
  by_cases hd : d = Fin.ofNat 1024 dir
  · subst hd
    rw [if_neg (by omega), Function.update_self, if_pos (by omega), hval, Nat.sub_self,
      Nat.zero_mul, Nat.add_zero]
  · have hne : d.val ≠ dir := fun e => hd (Fin.ext (e.trans hval.symm))
    rw [Function.update_of_ne hd]
    by_cases hin : dir + 1 ≤ d.val ∧ d.val < dir + 1 + n
    · rw [if_pos hin, if_pos (by omega)]
      refine slotFrom_congr cnt ?_
      have hmul : (d.val - dir) * cnt = cnt + (d.val - (dir + 1)) * cnt := by
        rw [show d.val - dir = d.val - (dir + 1) + 1 by omega, Nat.succ_mul, Nat.add_comm]
      rw [hmul, pageNo_val, Nat.mod_add_mod, Nat.add_assoc]
    · rw [if_neg hin, if_neg (by omega)]

/-- The store reached its page: that page was mapped to itself when it was made. -/
def Store.Good (pgdir : Frame) (w : Store) : Prop :=
  AddrSpace.Maps (translate w.before pgdir) w.page

/-! ## Directories

The invariant of the outer loop.  It is kept by every round, since a page that becomes a table
leaves the free list in the same round.
-/

/-- A page of the pool, as the number that an entry holds. -/
def pageFrame (page : Fin nrPage) : Frame := pageNo page.val

lemma pageFrame_val (page : Fin nrPage) : (pageFrame page).val = page.val := by
  have hlt : page.val < 32768 := page.isLt
  rw [pageFrame, pageNo_val, Nat.mod_eq_of_lt (by omega)]

lemma pageFrame_injective : Function.Injective pageFrame := by
  intro p q h
  have hval := congrArg Fin.val h
  rw [pageFrame_val, pageFrame_val] at hval
  exact Fin.ext hval

/-- A directory and the free list `l`: no free page is the directory or one of its tables, and the
directory is not a table of itself. -/
structure Directory (k : Kernel) (pgdir : Frame) (l : List (Fin nrPage)) : Prop where
  free : FreeList k.pages l
  root : ∀ page ∈ l, pageFrame page ≠ pgdir
  self : ¬ IsTable PTE.target k.mem pgdir pgdir
  fresh : ∀ page ∈ l, ¬ IsTable PTE.target k.mem pgdir (pageFrame page)

section Round

variable {k : Kernel} {pgdir pgtab : Frame} (mapEnd : UInt32) (vaddr : LinearAddr) {dirIdx : ℕ}

/-- The state of a round just before it writes the directory. -/
def tableFilled (pgtab : Frame) (mapEnd : UInt32) (k : Kernel) (vaddr : LinearAddr) (dirIdx : ℕ) :
    Kernel × LinearAddr :=
  let pgAddr := LinearAddr.pgAddr (UInt32.ofNat dirIdx)
  fillTable pgtab mapEnd (k.clear pgtab 0) vaddr pgAddr pgAddr.tabIdx.toNat

lemma mapDir_eq (pgdir pgtab : Frame) (k : Kernel) (dirIdx : ℕ) :
    mapDir pgdir pgtab mapEnd k vaddr dirIdx =
      ((tableFilled pgtab mapEnd k vaddr dirIdx).1.fillEntry pgdir (Fin.ofNat 1024 dirIdx) pgtab,
        (tableFilled pgtab mapEnd k vaddr dirIdx).2) := rfl

/-- The cursor of a round starts at address 0 and at index 0. -/
lemma pgAddr_start (d : UInt32) :
    (LinearAddr.pgAddr d).val.toNat = (LinearAddr.pgAddr d).tabIdx.toNat * 4096 ∧
      (LinearAddr.pgAddr d).tabIdx.toNat = 0 := by
  have h := LinearAddr.toNat_pgAddr d
  rw [LinearAddr.toNat_tabIdx, h]
  exact ⟨rfl, rfl⟩

lemma tableFilled_storesTo (pgtab : Frame) (k : Kernel) (dirIdx : ℕ) :
    StoresTo pgtab k (tableFilled pgtab mapEnd k vaddr dirIdx).1 :=
  (clear_storesTo k pgtab 0).trans (fillTable_storesTo ..)

/-- The new table maps consecutive pages from the page of `vaddr` on, and nothing more. -/
lemma tableFilled_target (pgtab : Frame) (k : Kernel) (dirIdx : ℕ) (t : Idx) :
    ((tableFilled pgtab mapEnd k vaddr dirIdx).1.mem pgtab t).target
      = slotFrom vaddr.page.val (filled mapEnd) t := by
  obtain ⟨hpg, htab⟩ := pgAddr_start (UInt32.ofNat dirIdx)
  rw [tableFilled, fillTable_mem pgtab mapEnd _ vaddr _ _ hpg, htab, clear_mem, slotFrom]
  by_cases ht : t.val < filled mapEnd
  · simp [ht, PTE.target]
  · simp [ht, PTE.target, PTE.zero]

lemma mapDir_page (pgdir pgtab : Frame) (k : Kernel) (dirIdx : ℕ) :
    (mapDir pgdir pgtab mapEnd k vaddr dirIdx).2.page
      = pageNo (vaddr.page.val + filled mapEnd) := by
  obtain ⟨hpg, htab⟩ := pgAddr_start (UInt32.ofNat dirIdx)
  rw [mapDir_eq, tableFilled, fillTable_page pgtab mapEnd _ vaddr _ _ hpg, htab, Nat.sub_zero]

lemma mapDir_sameRegs (pgdir pgtab : Frame) (k : Kernel) (dirIdx : ℕ) :
    SameRegs k (mapDir pgdir pgtab mapEnd k vaddr dirIdx).1 :=
  (tableFilled_storesTo mapEnd vaddr pgtab k dirIdx).sameRegs.trans
    (fillEntry_storesTo _ pgdir _ pgtab).sameRegs

lemma mapDir_pages (pgdir pgtab : Frame) (k : Kernel) (dirIdx : ℕ) :
    (mapDir pgdir pgtab mapEnd k vaddr dirIdx).1.pages = k.pages :=
  (fillEntry_storesTo _ pgdir _ pgtab).pages.trans
    (tableFilled_storesTo mapEnd vaddr pgtab k dirIdx).pages

variable (hne : pgtab ≠ pgdir) (hfresh : ¬ IsTable PTE.target k.mem pgdir pgtab)
  (hself : ¬ IsTable PTE.target k.mem pgdir pgdir)
include hne

/-- Entries of the directory other than the one of the round stay; that one names the table. -/
lemma mapDir_root (d : Idx) :
    ((mapDir pgdir pgtab mapEnd k vaddr dirIdx).1.mem pgdir d).target
      = if d = Fin.ofNat 1024 dirIdx then some pgtab else (k.mem pgdir d).target := by
  have hpgdir := (tableFilled_storesTo mapEnd vaddr pgtab k dirIdx).mem_of_ne hne.symm
  rw [mapDir_eq]
  by_cases hd : d = Fin.ofNat 1024 dirIdx
  · rw [if_pos hd, hd, fillEntry_mem]
    rfl
  · rw [if_neg hd, fillEntry_mem_of_ne _ pgdir _ hd, hpgdir]

/-- The tables afterwards are the tables before and the new one. -/
lemma mapDir_isTable {t : Frame}
    (h : IsTable PTE.target (mapDir pgdir pgtab mapEnd k vaddr dirIdx).1.mem pgdir t) :
    t = pgtab ∨ IsTable PTE.target k.mem pgdir t := by
  obtain ⟨d, hd⟩ := h
  rw [mapDir_root mapEnd vaddr hne] at hd
  split at hd
  · exact Or.inl (Option.some.inj hd).symm
  · exact Or.inr ⟨d, hd⟩

include hfresh hself

/-- **One round** replaces one slot of the address space. -/
lemma mapDir_translate :
    translate (mapDir pgdir pgtab mapEnd k vaddr dirIdx).1.mem pgdir
      = Function.update (translate k.mem pgdir) (Fin.ofNat 1024 dirIdx)
          (slotFrom vaddr.page.val (filled mapEnd)) := by
  have htable := tableFilled_storesTo mapEnd vaddr pgtab k dirIdx
  have hentry := fillEntry_storesTo (tableFilled pgtab mapEnd k vaddr dirIdx).1 pgdir
    (Fin.ofNat 1024 dirIdx) pgtab
  funext d
  by_cases hd : d = Fin.ofNat 1024 dirIdx
  · subst hd
    funext t
    rw [Function.update_self, translate, walk, mapDir_root mapEnd vaddr hne, if_pos rfl,
      Option.bind_some, mapDir_eq, hentry.mem_of_ne hne, tableFilled_target]
  · rw [Function.update_of_ne hd]
    refine walk_row_congr ?_ fun table ht => ?_
    · rw [mapDir_root mapEnd vaddr hne, if_neg hd]
    · have h₁ : table ≠ pgdir := by
        rintro rfl
        exact hself ⟨d, ht⟩
      have h₂ : table ≠ pgtab := by
        rintro rfl
        exact hfresh ⟨d, ht⟩
      rw [mapDir_eq, hentry.mem_of_ne h₁, htable.mem_of_ne h₂]

omit hne hfresh hself in
/-- The first store of a round clears the new table, in the memory it starts with. -/
lemma tableFilled_first (pgtab : Frame) (k : Kernel) (dirIdx : ℕ) (hpaging : k.paging = true) :
    ⟨pgtab, k.mem⟩ ∈ (tableFilled pgtab mapEnd k vaddr dirIdx).1.stores := by
  have hclear : k.clear pgtab 0 = (k.store pgtab 0 fun _ => PTE.zero).clear pgtab 1 := by
    rw [Kernel.clear, dif_pos (by decide)]
    rfl
  refine StoresTo.first_mem (i := 0) (f := fun _ => PTE.zero) ?_ hpaging
  rw [tableFilled, hclear]
  exact (clear_storesTo _ pgtab 1).trans (fillTable_storesTo ..)

/-- **The stores of one round** go to pages that are mapped to themselves if and only if the new
table and the directory are, in the space the round starts with. -/
lemma mapDir_good (hpaging : k.paging = true) :
    (∀ w ∈ (mapDir pgdir pgtab mapEnd k vaddr dirIdx).1.stores, w.Good pgdir)
      ↔ (∀ w ∈ k.stores, w.Good pgdir) ∧ AddrSpace.Maps (translate k.mem pgdir) pgtab ∧
        AddrSpace.Maps (translate k.mem pgdir) pgdir := by
  have htable := tableFilled_storesTo mapEnd vaddr pgtab k dirIdx
  have hsame := htable.translate_eq hne hfresh
  have hself' :
      ¬ IsTable PTE.target (tableFilled pgtab mapEnd k vaddr dirIdx).1.mem pgdir pgdir := by
    rintro ⟨d, hd⟩
    rw [htable.mem_of_ne hne.symm] at hd
    exact hself ⟨d, hd⟩
  rw [mapDir_eq]
  constructor
  · intro h
    have hentry := fillEntry_storesTo (tableFilled pgtab mapEnd k vaddr dirIdx).1 pgdir
      (Fin.ofNat 1024 dirIdx) pgtab
    refine ⟨fun w hw => h w (hentry.stores_subset (htable.stores_subset hw)), ?_, ?_⟩
    · exact h _ (hentry.stores_subset (tableFilled_first mapEnd vaddr pgtab k dirIdx hpaging))
    · have hfirst : ⟨pgdir, (tableFilled pgtab mapEnd k vaddr dirIdx).1.mem⟩ ∈
          ((tableFilled pgtab mapEnd k vaddr dirIdx).1.fillEntry pgdir (Fin.ofNat 1024 dirIdx)
            pgtab).stores := by
        unfold Kernel.fillEntry
        refine StoresTo.first_mem ((((StoresTo.refl _).store _ _).store _ _).store _ _) ?_
        rw [htable.sameRegs.paging, hpaging]
      have hgood := h _ hfirst
      rwa [Store.Good, hsame] at hgood
  · rintro ⟨hold, hpgtab, hpgdir⟩ w hw
    rcases mem_stores_fillEntry hself' hw with hw | ⟨hpage, hkeep⟩
    · rcases htable.mem_stores hne hfresh hw with hw | ⟨hpage, hbefore⟩
      · exact hold w hw
      · rw [Store.Good, hpage, hbefore]
        exact hpgtab
    · rw [Store.Good, hpage]
      refine hkeep _ _ _ ?_
      rw [hsame]
      exact hpgdir

end Round

/-! ## The outer loop

The loop runs from the slot of the physical address to the slot of `map_end`, that one included, and
takes one page in each round.
-/

section Rounds

variable {k : Kernel} {pgdir : Frame} {page : Fin nrPage} {l : List (Fin nrPage)}

/-- The state of a round after its `alloc_page`. -/
abbrev Kernel.take (k : Kernel) (page : Fin nrPage) : Kernel :=
  { k with pages := k.pages.pop page }

/-- **A round on a directory** leaves a directory and the rest of the list. -/
lemma Directory.round (h : Directory k pgdir (page :: l)) (mapEnd : UInt32) (vaddr : LinearAddr)
    (dirIdx : ℕ) :
    Directory (mapDir pgdir (pageFrame page) mapEnd (k.take page) vaddr dirIdx).1 pgdir l := by
  obtain ⟨f, hf, hok, hfree⟩ := h.free.alloc_cons
  have hne : pageFrame page ≠ pgdir := h.root page List.mem_cons_self
  constructor
  · rw [mapDir_pages]
    exact hfree
  · exact fun q hq => h.root q (List.mem_cons_of_mem _ hq)
  · intro hself
    rcases mapDir_isTable mapEnd vaddr hne hself with heq | hold
    · exact hne heq.symm
    · exact h.self hold
  · intro q hq htable
    rcases mapDir_isTable mapEnd vaddr hne htable with heq | hold
    · have hqp : q = page := pageFrame_injective heq
      exact (List.nodup_cons.mp h.free.nodup).1 (hqp ▸ hq)
    · exact h.fresh q (List.mem_cons_of_mem _ hq) hold

variable {mapEnd vaddr : LinearAddr} {dirIdx : ℕ}

/-- The loop takes the first page of the list for its next table. -/
lemma mapDirs_round (h : Directory k pgdir (page :: l)) (hdir : dirIdx ≤ mapEnd.dirIdx.toNat) :
    mapDirs pgdir mapEnd k vaddr dirIdx
      = mapDirs pgdir mapEnd
          (mapDir pgdir (pageFrame page) mapEnd.val (k.take page) vaddr dirIdx).1
          (mapDir pgdir (pageFrame page) mapEnd.val (k.take page) vaddr dirIdx).2 (dirIdx + 1) := by
  obtain ⟨f, hf, hok, -⟩ := h.free.alloc_cons
  have hpgtab : ((⟨0⟩ : LinearAddr).withFrame f).page = pageFrame page := by
    rw [page_withFrame, hf, pageFrame]
  rw [mapDirs, if_pos hdir, hok]
  simp only [hpgtab]

/-- Without a free page the loop stops in `alloc_page`, and the slots of the rounds before stay
rebuilt. -/
lemma mapDirs_noPage (h : Directory k pgdir []) (hdir : dirIdx ≤ mapEnd.dirIdx.toNat) :
    mapDirs pgdir mapEnd k vaddr dirIdx = (.error .noFreePage, k) := by
  rw [mapDirs, if_pos hdir, h.free.alloc_nil]

/-- After the slot of `map_end` the loop returns. -/
lemma mapDirs_done (hdir : ¬ dirIdx ≤ mapEnd.dirIdx.toNat) :
    mapDirs pgdir mapEnd k vaddr dirIdx = (.ok (), k) := by
  rw [mapDirs, if_neg hdir]

end Rounds

/-- **Induction over the outer loop**, round by round: what holds when it returns and when it stops
without a page, and is carried from the rest of the rounds over to one more, holds of it. -/
@[elab_as_elim]
lemma mapDirs_rounds {pgdir : Frame} {mapEnd : LinearAddr}
    {motive : ℕ → Kernel → LinearAddr → ℕ → List (Fin nrPage) → Except Panic Unit × Kernel → Prop}
    (done : ∀ k vaddr dirIdx l, Directory k pgdir l → motive 0 k vaddr dirIdx l (.ok (), k))
    (noPage : ∀ n k vaddr dirIdx, Directory k pgdir [] →
      motive (n + 1) k vaddr dirIdx [] (.error .noFreePage, k))
    (round : ∀ n k vaddr dirIdx page l res, dirIdx < 1024 → Directory k pgdir (page :: l) →
      motive n (mapDir pgdir (pageFrame page) mapEnd.val (k.take page) vaddr dirIdx).1
        (mapDir pgdir (pageFrame page) mapEnd.val (k.take page) vaddr dirIdx).2 (dirIdx + 1) l res →
      motive (n + 1) k vaddr dirIdx (page :: l) res)
    (n : ℕ) (k : Kernel) (vaddr : LinearAddr) (dirIdx : ℕ) (l : List (Fin nrPage))
    (hn : mapEnd.dirIdx.toNat + 1 - dirIdx = n) (h : Directory k pgdir l) :
    motive n k vaddr dirIdx l (mapDirs pgdir mapEnd k vaddr dirIdx) := by
  have hdir : mapEnd.dirIdx.toNat < 1024 := mapEnd.dir.isLt
  induction n generalizing k vaddr dirIdx l with
  | zero =>
      rw [mapDirs_done (by omega)]
      exact done k vaddr dirIdx l h
  | succ n ih =>
      cases l with
      | nil =>
          rw [mapDirs_noPage h (by omega)]
          exact noPage n k vaddr dirIdx h
      | cons page l =>
          rw [mapDirs_round h (by omega)]
          refine round n k vaddr dirIdx page l _ (by omega) h ?_
          exact ih _ _ (dirIdx + 1) l (by omega) (h.round mapEnd.val vaddr dirIdx)

/-- **The outer loop refines `rebuild`.**  With a free page for every round it returns, takes that
many pages, and rebuilds that many slots. -/
theorem mapDirs_spec (pgdir : Frame) (mapEnd : LinearAddr) (n : ℕ) (k : Kernel) (vaddr : LinearAddr)
    (dirIdx : ℕ) (l : List (Fin nrPage)) (hn : mapEnd.dirIdx.toNat + 1 - dirIdx = n)
    (h : Directory k pgdir l) (hlen : n ≤ l.length) :
    ∃ k', mapDirs pgdir mapEnd k vaddr dirIdx = (.ok (), k') ∧ Directory k' pgdir (l.drop n) ∧
      SameRegs k k' ∧ translate k'.mem pgdir =
        AddrSpace.rebuild (translate k.mem pgdir) vaddr.page.val (filled mapEnd.val) dirIdx n := by
  revert hlen
  refine mapDirs_rounds ?_ ?_ ?_ n k vaddr dirIdx l hn h
  · intro k vaddr dirIdx l h hlen
    exact ⟨k, rfl, h, SameRegs.refl k, (AddrSpace.rebuild_zero ..).symm⟩
  · intro n k vaddr dirIdx h hlen
    exact absurd hlen (Nat.not_succ_le_zero n)
  · intro n k vaddr dirIdx page l res hdir h ih hlen
    have hne := h.root page List.mem_cons_self
    have hfresh := h.fresh page List.mem_cons_self
    have hspace : translate (mapDir pgdir (pageFrame page) mapEnd.val (k.take page) vaddr
        dirIdx).1.mem pgdir = _ := mapDir_translate mapEnd.val vaddr hne hfresh h.self
    have hregs := mapDir_sameRegs mapEnd.val vaddr pgdir (pageFrame page) (k.take page) dirIdx
    obtain ⟨k', hk', hdirectory, hregs', htrans⟩ := ih (Nat.le_of_succ_le_succ hlen)
    refine ⟨k', hk', hdirectory, ?_, ?_⟩
    · exact ⟨hregs'.kpgdir.trans hregs.kpgdir, hregs'.cr3.trans hregs.cr3,
        hregs'.paging.trans hregs.paging⟩
    · rw [htrans, hspace, mapDir_page, AddrSpace.rebuild_succ _ _ _ _ _ hdir]

/-- With fewer free pages than rounds the loop stops in `alloc_page`. -/
lemma mapDirs_panic (pgdir : Frame) (mapEnd : LinearAddr) (n : ℕ) (k : Kernel) (vaddr : LinearAddr)
    (dirIdx : ℕ) (l : List (Fin nrPage)) (hn : mapEnd.dirIdx.toNat + 1 - dirIdx = n)
    (h : Directory k pgdir l) (hlen : l.length < n) :
    (mapDirs pgdir mapEnd k vaddr dirIdx).1 = .error .noFreePage := by
  revert hlen
  refine mapDirs_rounds ?_ ?_ ?_ n k vaddr dirIdx l hn h
  · intro k vaddr dirIdx l h hlen
    exact absurd hlen (Nat.not_lt_zero _)
  · intro n k vaddr dirIdx h hlen
    rfl
  · intro n k vaddr dirIdx page l res hdir h ih hlen
    exact ih (Nat.lt_of_succ_lt_succ hlen)

/-- **The stores of the outer loop** go to pages that are mapped to themselves if and only if at
every round that takes place, the page it takes and the directory are, in the space as the rounds
before it have left it.  A loop that runs out of pages has done the rounds before. -/
theorem mapDirs_good (pgdir : Frame) (mapEnd : LinearAddr) (n : ℕ) (k : Kernel) (vaddr : LinearAddr)
    (dirIdx : ℕ) (l : List (Fin nrPage)) (hn : mapEnd.dirIdx.toNat + 1 - dirIdx = n)
    (h : Directory k pgdir l) (hpaging : k.paging = true) :
    (∀ w ∈ (mapDirs pgdir mapEnd k vaddr dirIdx).2.stores, w.Good pgdir)
      ↔ (∀ w ∈ k.stores, w.Good pgdir) ∧ ∀ i page, i < n → l[i]? = some page →
          AddrSpace.Maps (AddrSpace.rebuild (translate k.mem pgdir) vaddr.page.val
            (filled mapEnd.val) dirIdx i) (pageFrame page) ∧
          AddrSpace.Maps (AddrSpace.rebuild (translate k.mem pgdir) vaddr.page.val
            (filled mapEnd.val) dirIdx i) pgdir := by
  revert hpaging
  refine mapDirs_rounds ?_ ?_ ?_ n k vaddr dirIdx l hn h
  · intro k vaddr dirIdx l h hpaging
    exact ⟨fun hall => ⟨hall, fun i _ hi _ => absurd hi (Nat.not_lt_zero i)⟩, fun hall => hall.1⟩
  · intro n k vaddr dirIdx h hpaging
    exact ⟨fun hall => ⟨hall, fun i _ _ hi => absurd hi (by simp)⟩, fun hall => hall.1⟩
  · intro n k vaddr dirIdx page l res hdir h ih hpaging
    have hne := h.root page List.mem_cons_self
    have hfresh := h.fresh page List.mem_cons_self
    let r := mapDir pgdir (pageFrame page) mapEnd.val (k.take page) vaddr dirIdx
    have hspace : translate r.1.mem pgdir = _ :=
      mapDir_translate mapEnd.val vaddr hne hfresh h.self
    have hstores : (∀ w ∈ r.1.stores, w.Good pgdir) ↔ _ :=
      mapDir_good mapEnd.val vaddr hne hfresh h.self hpaging
    have hregs : SameRegs (k.take page) r.1 :=
      mapDir_sameRegs mapEnd.val vaddr pgdir _ _ dirIdx
    have hrec := ih (hregs.paging.trans hpaging)
    rw [show r.2.page = _ from mapDir_page mapEnd.val vaddr pgdir _ (k.take page) dirIdx,
      hspace, hstores] at hrec
    refine hrec.trans ?_
    simp only [AddrSpace.rebuild_succ _ _ _ _ _ hdir]
    constructor
    · rintro ⟨⟨hold, hfirst⟩, hrest⟩
      refine ⟨hold, fun i q hi hq => ?_⟩
      cases i with
      | zero =>
          obtain rfl := Option.some.inj hq
          simpa using hfirst
      | succ i => exact hrest i q (by omega) (by simpa using hq)
    · rintro ⟨hold, hall⟩
      refine ⟨⟨hold, ?_⟩, fun i q hi hq => hall (i + 1) q (by omega) (by simpa using hq)⟩
      simpa using hall 0 page (by omega) (by simp)

end ScratchOs
