import ScratchOs.Kernel.Paging

/-!
# The loops of `mm_continous_map`

The inner loop fills a table, and the round around it puts the table into the directory.  The
results here are about one round and say what is in the memory after it; `Kernel/AddrSpace` makes
address spaces of them.

* `StoresTo` — everything a round does before it touches the directory is stores to the new table.
  One induction over them gives the frame facts: no other page changes, and as long as the table is
  fresh the directory translates as before.
* `fillTable_mem`, `fillTable_page` — the inner loop.  Its bound `pg_addr` starts at address 0 in
  every round, so it fills `filled mapEnd` entries whatever the slot is.
* `mem_stores_fillEntry` — while an entry of the directory is assigned field by field, the
  translations there were stay.

The last point matters because paging may be on: an entry passes through states in which it is
present and names the wrong page.  That no translation is lost meanwhile is what allows a whole
round to be judged by the address space at its beginning.
-/

namespace ScratchOs

open Radix Words

/-- The directory pointer and the control registers are the same in both states. -/
structure SameRegs (k k' : Kernel) : Prop where
  kpgdir : k'.kpgdir = k.kpgdir
  cr3 : k'.cr3 = k.cr3
  paging : k'.paging = k.paging

lemma SameRegs.refl (k : Kernel) : SameRegs k k := ⟨rfl, rfl, rfl⟩

lemma SameRegs.trans {k k' k'' : Kernel} (h : SameRegs k k') (h' : SameRegs k' k'') :
    SameRegs k k'' :=
  ⟨h'.kpgdir.trans h.kpgdir, h'.cr3.trans h.cr3, h'.paging.trans h.paging⟩

/-! ## Stores to one page

The relation forgets which entries are written and in which order, and keeps which page they are in.
-/

/-- The second state comes from the first by stores to the page, in any number and of any kind. -/
inductive StoresTo (page : Frame) : Kernel → Kernel → Prop
  | refl (k : Kernel) : StoresTo page k k
  | store {k k' : Kernel} (h : StoresTo page k k') (i : Idx) (f : PTE → PTE) :
      StoresTo page k (k'.store page i f)

section StoresTo

variable {page root : Frame} {k k' k'' : Kernel}

lemma StoresTo.trans (h : StoresTo page k k') (h' : StoresTo page k' k'') :
    StoresTo page k k'' := by
  induction h' with
  | refl => exact h
  | store _ i f ih => exact ih.store i f

/-- Stores leave the directory pointer and the control registers alone. -/
lemma StoresTo.sameRegs (h : StoresTo page k k') : SameRegs k k' := by
  induction h with
  | refl => exact SameRegs.refl _
  | store _ i f ih => exact ih.trans ⟨rfl, rfl, rfl⟩

/-- Stores to tables leave the allocator alone. -/
lemma StoresTo.pages (h : StoresTo page k k') : k'.pages = k.pages := by
  induction h with
  | refl => rfl
  | store _ i f ih => exact ih

/-- The other pages keep their contents. -/
lemma StoresTo.mem_of_ne (h : StoresTo page k k') {q : Frame} (hq : q ≠ page) :
    k'.mem q = k.mem q := by
  induction h with
  | refl => rfl
  | store _ i f ih => exact (set_of_page_ne _ i _ hq).trans ih

/-- A page that is not part of the directory can be written without changing a translation. -/
lemma StoresTo.translate_eq (h : StoresTo page k k') (hroot : page ≠ root)
    (hfresh : ¬ IsTable PTE.target k.mem root page) :
    translate k'.mem root = translate k.mem root := by
  refine walk_congr (h.mem_of_ne hroot.symm) fun table htable => h.mem_of_ne ?_
  rintro rfl
  exact hfresh htable

/-- The stores that are recorded stay recorded. -/
lemma StoresTo.stores_subset (h : StoresTo page k k') : k.stores ⊆ k'.stores := by
  induction h with
  | refl => exact List.Subset.refl _
  | @store k' h i f ih =>
      intro w hw
      show w ∈ if k'.paging then k'.stores ++ [⟨page, k'.mem⟩] else k'.stores
      split
      · exact List.mem_append_left _ (ih hw)
      · exact ih hw

/-- The stores recorded on the way all wrote the page, under the translation there was. -/
lemma StoresTo.mem_stores (h : StoresTo page k k') (hroot : page ≠ root)
    (hfresh : ¬ IsTable PTE.target k.mem root page) {w : Store} (hw : w ∈ k'.stores) :
    w ∈ k.stores ∨ w.page = page ∧ translate w.before root = translate k.mem root := by
  induction h with
  | refl => exact Or.inl hw
  | @store k' h i f ih =>
      change w ∈ if k'.paging then k'.stores ++ [⟨page, k'.mem⟩] else k'.stores at hw
      split at hw
      · rcases List.mem_append.mp hw with hw | hw
        · exact ih hw
        · obtain rfl := List.mem_singleton.mp hw
          exact Or.inr ⟨rfl, h.translate_eq hroot hfresh⟩
      · exact ih hw

/-- While paging is on, a store is recorded with the memory it was made in. -/
lemma StoresTo.first_mem {i : Idx} {f : PTE → PTE} (h : StoresTo page (k.store page i f) k')
    (hpaging : k.paging = true) : ⟨page, k.mem⟩ ∈ k'.stores := by
  refine h.stores_subset ?_
  show _ ∈ if k.paging then k.stores ++ [⟨page, k.mem⟩] else k.stores
  rw [if_pos hpaging]
  exact List.mem_append_right _ (List.mem_singleton.mpr rfl)

end StoresTo

/-! ## The pieces of a round

The loops of a round, each with the memory it leaves, entry by entry.
-/

lemma clear_storesTo (k : Kernel) (page : Frame) (i : ℕ) : StoresTo page k (k.clear page i) := by
  induction k, i using Kernel.clear.induct page with
  | case1 k i h ih =>
      rw [Kernel.clear, dif_pos h]
      exact ((StoresTo.refl k).store _ _).trans ih
  | case2 k i h =>
      rw [Kernel.clear, dif_neg h]
      exact StoresTo.refl k

/-- Clearing a page leaves nothing in it. -/
lemma clear_mem (k : Kernel) (page : Frame) (n : ℕ) (i : Idx) :
    (k.clear page n).mem page i = if n ≤ i.val then PTE.zero else k.mem page i := by
  induction k, n using Kernel.clear.induct page with
  | case1 k n h ih =>
      rw [Kernel.clear, dif_pos h, ih]
      by_cases hi : i = ⟨n, h⟩
      · subst hi
        simp [Kernel.store]
      · have hne : i.val ≠ n := fun e => hi (Fin.ext e)
        have hle : n + 1 ≤ i.val ↔ n ≤ i.val := by omega
        simp only [Kernel.store, set_of_index_ne _ _ _ hi, hle]
  | case2 k n h =>
      rw [Kernel.clear, dif_neg h, if_neg (by omega)]

lemma fillEntry_storesTo (k : Kernel) (page : Frame) (i : Idx) (frame : Frame) :
    StoresTo page k (k.fillEntry page i frame) := by
  unfold Kernel.fillEntry
  exact ((((StoresTo.refl k).store i _).store i _).store i _).store i _

/-- The four assignments leave a present, writable, user entry for the frame. -/
lemma fillEntry_mem (k : Kernel) (page : Frame) (i : Idx) (frame : Frame) :
    (k.fillEntry page i frame).mem page i = ⟨true, true, true, frame⟩ := by
  simp [Kernel.fillEntry, Kernel.store]

lemma fillEntry_mem_of_ne (k : Kernel) (page : Frame) {i j : Idx} (frame : Frame) (h : j ≠ i) :
    (k.fillEntry page i frame).mem page j = k.mem page j := by
  simp [Kernel.fillEntry, Kernel.store, set_of_index_ne _ _ _ h]

lemma fillTable_storesTo (pgtab : Frame) (mapEnd : UInt32) (k : Kernel) (vaddr pgAddr : LinearAddr)
    (tabIdx : ℕ) : StoresTo pgtab k (fillTable pgtab mapEnd k vaddr pgAddr tabIdx).1 := by
  induction k, vaddr, pgAddr, tabIdx using fillTable.induct pgtab mapEnd with
  | case1 k vaddr pgAddr tabIdx h ih =>
      rw [fillTable, dif_pos h]
      exact (fillEntry_storesTo k pgtab _ _).trans ih
  | case2 k vaddr pgAddr tabIdx h =>
      rw [fillTable, dif_neg h]
      exact StoresTo.refl k

/-- The page with a number, as the 20 bits of a frame field hold it. -/
def pageNo (n : ℕ) : Frame := Fin.ofNat 1048576 n

@[simp] lemma pageNo_val (n : ℕ) : (pageNo n).val = n % 1048576 := rfl

lemma pageNo_page (f : Frame) : pageNo f.val = f := Fin.ext (Nat.mod_eq_of_lt f.isLt)

lemma page_val (a : LinearAddr) : a.page.val = a.val.toNat / 4096 := LinearAddr.toNat_frame a

/-- Assigning to `frame` moves an address to the page of that number. -/
lemma page_withFrame (a : LinearAddr) (f : UInt32) : (a.withFrame f).page = pageNo f.toNat :=
  Fin.ext (LinearAddr.toNat_frame_withFrame a f)

/-- `frame++` moves a cursor to the next page. -/
lemma page_succ (a : LinearAddr) : (a.withFrame (a.frame + 1)).page = pageNo (a.page.val + 1) := by
  have hone : (1 : UInt32).toNat = 1 := rfl
  have hlt := toNat_lt a.val
  rw [page_withFrame, UInt32.toNat_add, LinearAddr.toNat_frame, hone, page_val]
  exact Fin.ext (by simp only [pageNo_val]; omega)

/-- How many entries the inner loop fills: `pg_addr` runs from 0 to `map_end`, or to the end of
the table. -/
def filled (mapEnd : UInt32) : ℕ := min 1024 ((mapEnd.toNat + 4095) / 4096)

section InnerLoop

variable (pgtab : Frame) (mapEnd : UInt32) (k : Kernel) (vaddr pgAddr : LinearAddr) (tabIdx : ℕ)

/-- The loop goes on exactly while there are entries to fill. -/
lemma fillTable_guard (hpg : pgAddr.val.toNat = tabIdx * 4096) :
    (tabIdx < 1024 ∧ pgAddr.val < mapEnd) ↔ tabIdx < filled mapEnd := by
  rw [UInt32.lt_iff_toNat_lt, hpg, filled]
  omega

/-- `pg_addr` is the address of the entry being filled. -/
lemma pgAddr_succ (hpg : pgAddr.val.toNat = tabIdx * 4096) (h : tabIdx < 1024) :
    (pgAddr.withFrame (pgAddr.frame + 1)).val.toNat = (tabIdx + 1) * 4096 := by
  have hone : (1 : UInt32).toNat = 1 := rfl
  rw [LinearAddr.toNat_withFrame, UInt32.toNat_add, LinearAddr.toNat_frame, hpg, hone]
  omega

/-- **The inner loop** fills the entries with consecutive pages, starting from the page of
`vaddr`.  The physical address does not occur in it. -/
lemma fillTable_mem (hpg : pgAddr.val.toNat = tabIdx * 4096) (i : Idx) :
    (fillTable pgtab mapEnd k vaddr pgAddr tabIdx).1.mem pgtab i
      = if tabIdx ≤ i.val ∧ i.val < filled mapEnd then
          ⟨true, true, true, pageNo (vaddr.page.val + (i.val - tabIdx))⟩
        else k.mem pgtab i := by
  induction k, vaddr, pgAddr, tabIdx using fillTable.induct pgtab mapEnd with
  | case1 k vaddr pgAddr tabIdx h ih =>
      have hlt := (fillTable_guard mapEnd pgAddr tabIdx hpg).mp h
      rw [fillTable, dif_pos h, ih (pgAddr_succ pgAddr tabIdx hpg h.1), page_succ]
      by_cases hi : i = ⟨tabIdx, h.1⟩
      · -- the entry of this round: the later rounds leave it alone
        subst hi
        rw [if_neg (by simp), if_pos ⟨le_refl _, hlt⟩, fillEntry_mem, Nat.sub_self, Nat.add_zero,
          pageNo_page]
      · have hne : i.val ≠ tabIdx := fun e => hi (Fin.ext e)
        rw [fillEntry_mem_of_ne k pgtab _ hi]
        by_cases hrest : tabIdx + 1 ≤ i.val ∧ i.val < filled mapEnd
        · have hpage : pageNo ((pageNo (vaddr.page.val + 1)).val + (i.val - (tabIdx + 1)))
              = pageNo (vaddr.page.val + (i.val - tabIdx)) := by
            apply Fin.ext
            simp only [pageNo_val]
            omega
          rw [if_pos hrest, if_pos ⟨by omega, hrest.2⟩, hpage]
        · rw [if_neg hrest, if_neg (by omega)]
  | case2 k vaddr pgAddr tabIdx h =>
      have hge := mt (fillTable_guard mapEnd pgAddr tabIdx hpg).mpr h
      rw [fillTable, dif_neg h, if_neg (by omega)]

/-- The next table goes on with the page at which this one stopped. -/
lemma fillTable_page (hpg : pgAddr.val.toNat = tabIdx * 4096) :
    (fillTable pgtab mapEnd k vaddr pgAddr tabIdx).2.page
      = pageNo (vaddr.page.val + (filled mapEnd - tabIdx)) := by
  induction k, vaddr, pgAddr, tabIdx using fillTable.induct pgtab mapEnd with
  | case1 k vaddr pgAddr tabIdx h ih =>
      have hlt := (fillTable_guard mapEnd pgAddr tabIdx hpg).mp h
      rw [fillTable, dif_pos h, ih (pgAddr_succ pgAddr tabIdx hpg h.1), page_succ]
      apply Fin.ext
      simp only [pageNo_val]
      omega
  | case2 k vaddr pgAddr tabIdx h =>
      have hge := mt (fillTable_guard mapEnd pgAddr tabIdx hpg).mpr h
      rw [fillTable, dif_neg h, Nat.sub_eq_zero_of_le (by omega), Nat.add_zero, pageNo_page]

end InnerLoop

/-! ## Storing into the directory

Four assignments to one word, each of which is a store of its own.
-/

lemma mem_stores_store {k : Kernel} {page : Frame} {i : Idx} {f : PTE → PTE} {w : Store}
    (hw : w ∈ (k.store page i f).stores) : w ∈ k.stores ∨ w = ⟨page, k.mem⟩ := by
  change w ∈ if k.paging then k.stores ++ [⟨page, k.mem⟩] else k.stores at hw
  split at hw
  · exact (List.mem_append.mp hw).imp_right List.mem_singleton.mp
  · exact Or.inl hw

/-- An entry of the directory passes through three unfinished states.  In none of them is a
translation lost that was there before. -/
lemma mem_stores_fillEntry {k : Kernel} {root frame : Frame} {i : Idx}
    (hself : ¬ IsTable PTE.target k.mem root root) {w : Store}
    (hw : w ∈ (k.fillEntry root i frame).stores) :
    w ∈ k.stores ∨ w.page = root ∧ ∀ d t f, translate k.mem root d t = some f →
      translate w.before root d t = some f := by
  have hkeep : ∀ rw us : Bool, ∀ d t f, translate k.mem root d t = some f →
      translate (set k.mem root i ⟨true, rw, us, (k.mem root i).frame⟩) root d t = some f := by
    intro rw us d t f h
    refine walk_set_root_of_some hself (fun table htable => ?_) h
    unfold PTE.target at htable ⊢
    split at htable
    · exact htable
    · cases htable
  unfold Kernel.fillEntry at hw
  rcases mem_stores_store hw with hw | rfl
  · rcases mem_stores_store hw with hw | rfl
    · rcases mem_stores_store hw with hw | rfl
      · rcases mem_stores_store hw with hw | rfl
        · exact Or.inl hw
        · exact Or.inr ⟨rfl, fun d t f h => h⟩
      · right
        simpa [Kernel.store] using hkeep (k.mem root i).rw (k.mem root i).us
    · right
      simpa [Kernel.store] using hkeep true (k.mem root i).us
  · right
    simpa [Kernel.store] using hkeep true true

end ScratchOs
