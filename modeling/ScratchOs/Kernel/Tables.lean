import ScratchOs.Core.Slots
import ScratchOs.Kernel.Boot

/-!
# The tables of a directory

Which tables the entries of a directory name, over the calls of `mm_continous_map` made on it, and
which pages those calls have taken for tables.  A page that has been taken and is named nowhere is
lost for good: there is no function that gives tables back.

* `entriesOf` — what a call writes into the directory: one entry for each slot it rebuilds, for the
  pages of the free list in their order.
* **`run_entries`** — a sequence of calls that return has assigned those entries, one call's after
  the other's, and taken as many pages as it had rounds.
* **`tables_exact_iff`** — the pages taken are the tables the directory names, each named once, for
  as long as no two calls rebuild a common slot.  A slot that is rebuilt gets a new table and the
  one it had is named nowhere any more.

The abstract part is `Core/Slots`: the calls assign names to slots in order, and names are lost
exactly where a slot is assigned twice.
-/

namespace ScratchOs

open Chain Radix Runs Slots Words

/-- The tables the directory names, by slot. -/
def tablesOf (k : Kernel) (pgdir : Frame) : Idx → Option Frame := fun d => (k.mem pgdir d).target

/-- The page is on the free list. -/
def PageState.Free (s : PageState) (page : Fin nrPage) : Prop :=
  OnChain s.next s.freePageList page

/-- The pages that were free in the first state and are not in the second. -/
def Taken (k k' : Kernel) : Set Frame :=
  {f | ∃ page, k.pages.Free page ∧ ¬ k'.pages.Free page ∧ f = pageFrame page}

/-- The pages taken are the tables the directory names, and each is named once. -/
def TablesExact (k k' : Kernel) (pgdir : Frame) : Prop := Names (tablesOf k' pgdir) (Taken k k')

/-- Entries for consecutive slots, from a slot on. -/
def entriesFrom : ℕ → List (Fin nrPage) → List (Idx × Frame)
  | _, [] => []
  | dir, page :: l => (Fin.ofNat 1024 dir, pageFrame page) :: entriesFrom (dir + 1) l

/-- The entries a sequence of calls writes, with the free pages `l` to take tables from. -/
def entriesOf : List MapCall → List (Fin nrPage) → List (Idx × Frame)
  | [], _ => []
  | c :: cs, l => entriesFrom c.dirBeg (l.take c.rounds) ++ entriesOf cs (l.drop c.rounds)

/-- How many rounds the calls of a sequence make together. -/
def roundsOf (cs : List MapCall) : ℕ := (cs.map MapCall.rounds).sum

/-- The calls rebuild no common slot. -/
abbrev MapCall.Apart (c c' : MapCall) : Prop := ∀ d : Idx, ¬ (c.Touches d ∧ c'.Touches d)

/-! ## What a call writes into the directory

Of a round only the entry it stores matters here.  What it stores into the table is the business of
the address space.
-/

/-- A round writes one entry of the directory. -/
lemma mapDir_tables {k : Kernel} {pgdir pgtab : Frame} (mapEnd : UInt32) (vaddr : LinearAddr)
    (dirIdx : ℕ) (hne : pgtab ≠ pgdir) :
    tablesOf (mapDir pgdir pgtab mapEnd k vaddr dirIdx).1 pgdir
      = Function.update (tablesOf k pgdir) (Fin.ofNat 1024 dirIdx) (some pgtab) := by
  funext d
  rw [tablesOf, mapDir_root mapEnd vaddr hne, Function.update_apply]
  rfl

/-- **The outer loop** writes an entry for each round, for the first pages of the list. -/
lemma mapDirs_tables (pgdir : Frame) (mapEnd : LinearAddr) (n : ℕ) (k : Kernel) (vaddr : LinearAddr)
    (dirIdx : ℕ) (l : List (Fin nrPage)) (hn : mapEnd.dirIdx.toNat + 1 - dirIdx = n)
    (h : Directory k pgdir l) (hlen : n ≤ l.length) :
    tablesOf (mapDirs pgdir mapEnd k vaddr dirIdx).2 pgdir
      = assign (tablesOf k pgdir) (entriesFrom dirIdx (l.take n)) := by
  revert hlen
  refine mapDirs_rounds ?_ ?_ ?_ n k vaddr dirIdx l hn h
  · intro k vaddr dirIdx l h hlen
    rw [List.take_zero]
    rfl
  · intro n k vaddr dirIdx h hlen
    exact absurd hlen (Nat.not_succ_le_zero n)
  · intro n k vaddr dirIdx page l res hdir h ih hlen
    have hne := h.root page List.mem_cons_self
    rw [ih (Nat.le_of_succ_le_succ hlen), mapDir_tables _ _ _ hne]
    rfl

/-! ## The entries

The list of assignments that a sequence of calls makes, with its slots and its names.
-/

lemma entriesFrom_snd (dir : ℕ) (l : List (Fin nrPage)) :
    (entriesFrom dir l).map Prod.snd = l.map pageFrame := by
  induction l generalizing dir with
  | nil => rfl
  | cons page l ih => rw [entriesFrom, List.map_cons, ih, List.map_cons]

/-- The slots of the entries are those of the range. -/
lemma mem_entriesFrom_fst {dir : ℕ} {l : List (Fin nrPage)} (hdir : dir + l.length ≤ 1024)
    (d : Idx) :
    d ∈ (entriesFrom dir l).map Prod.fst ↔ dir ≤ d.val ∧ d.val < dir + l.length := by
  induction l generalizing dir with
  | nil => simp [entriesFrom]
  | cons page l ih =>
      rw [List.length_cons] at hdir ⊢
      have hval : (Fin.ofNat 1024 dir).val = dir := Nat.mod_eq_of_lt (by omega)
      rw [entriesFrom, List.map_cons, List.mem_cons, ih (by omega), Fin.ext_iff, hval]
      omega

/-- One call writes to no slot twice. -/
lemma entriesFrom_nodup {dir : ℕ} {l : List (Fin nrPage)} (hdir : dir + l.length ≤ 1024) :
    ((entriesFrom dir l).map Prod.fst).Nodup := by
  induction l generalizing dir with
  | nil => exact List.nodup_nil
  | cons page l ih =>
      rw [List.length_cons] at hdir
      have hval : (Fin.ofNat 1024 dir).val = dir := Nat.mod_eq_of_lt (by omega)
      rw [entriesFrom, List.map_cons, List.nodup_cons, mem_entriesFrom_fst (by omega), hval]
      exact ⟨by omega, ih (by omega)⟩

/-- The slots of a call are slots of the directory, so that the loop does not run past it. -/
lemma MapCall.dirBeg_add_rounds_le (c : MapCall) : c.dirBeg + c.rounds ≤ 1024 := by
  have hbeg := toNat_lt (roundup c.paddr)
  have hend := toNat_lt c.mapEnd
  rw [rounds, dirBeg]
  omega

section Entries

variable {c : MapCall} {cs : List MapCall} {l : List (Fin nrPage)}

lemma roundsOf_cons : roundsOf (c :: cs) = c.rounds + roundsOf cs := by
  rw [roundsOf, List.map_cons, List.sum_cons, roundsOf]

/-- The tables come off the free list in its order. -/
lemma entriesOf_snd : (entriesOf cs l).map Prod.snd = (l.take (roundsOf cs)).map pageFrame := by
  induction cs generalizing l with
  | nil => rfl
  | cons c cs ih =>
      rw [entriesOf, List.map_append, entriesFrom_snd, ih, roundsOf_cons, List.take_add,
        List.map_append]

lemma length_take_rounds (h : roundsOf (c :: cs) ≤ l.length) :
    (l.take c.rounds).length = c.rounds ∧ roundsOf cs ≤ (l.drop c.rounds).length := by
  rw [roundsOf_cons] at h
  rw [List.length_take, List.length_drop]
  omega

/-- The slots of a call's entries are the ones it rebuilds. -/
lemma mem_call_fst (h : roundsOf (c :: cs) ≤ l.length) (d : Idx) :
    d ∈ (entriesFrom c.dirBeg (l.take c.rounds)).map Prod.fst ↔ c.Touches d := by
  have hle := c.dirBeg_add_rounds_le
  have hlen := (length_take_rounds h).1
  rw [mem_entriesFrom_fst (by omega), hlen]

lemma mem_entriesOf_fst (h : roundsOf cs ≤ l.length) (d : Idx) :
    d ∈ (entriesOf cs l).map Prod.fst ↔ ∃ c ∈ cs, c.Touches d := by
  induction cs generalizing l with
  | nil => simp [entriesOf]
  | cons c cs ih =>
      rw [entriesOf, List.map_append, List.mem_append, mem_call_fst h, ih (length_take_rounds h).2]
      simp

/-- **No slot is written twice** if and only if the calls keep apart. -/
lemma entriesOf_nodup_iff (h : roundsOf cs ≤ l.length) :
    ((entriesOf cs l).map Prod.fst).Nodup ↔ cs.Pairwise MapCall.Apart := by
  induction cs generalizing l with
  | nil => simp [entriesOf]
  | cons c cs ih =>
      have hle := c.dirBeg_add_rounds_le
      rcases length_take_rounds h with ⟨hlen, hrest⟩
      have hcall : ((entriesFrom c.dirBeg (l.take c.rounds)).map Prod.fst).Nodup :=
        entriesFrom_nodup (by omega)
      rw [entriesOf, List.map_append, List.nodup_append, List.pairwise_cons, ih hrest]
      constructor
      · rintro ⟨-, hpairs, hdiff⟩
        refine ⟨fun c' hc' d ⟨hd, hd'⟩ => ?_, hpairs⟩
        exact hdiff d ((mem_call_fst h d).mpr hd) d
          ((mem_entriesOf_fst hrest d).mpr ⟨c', hc', hd'⟩) rfl
      · rintro ⟨hapart, hpairs⟩
        refine ⟨hcall, hpairs, ?_⟩
        rintro d hd _ hd' rfl
        rcases (mem_entriesOf_fst hrest d).mp hd' with ⟨c', hc', htouch⟩
        exact hapart c' hc' d ⟨(mem_call_fst h d).mp hd, htouch⟩

end Entries

/-! ## Sequences of calls

The run of the code against the list of assignments, and from it the equivalence.
-/

section Sequence

variable {k k' : Kernel} {pgdir : Frame} {l : List (Fin nrPage)} {cs : List MapCall}

/-- **A sequence of calls that return** has taken a page for each round, and assigned it to the
slot of the round. -/
theorem run_entries (h : Directory k pgdir l) (hrun : Run (MapStep pgdir) k cs k') :
    roundsOf cs ≤ l.length ∧ Directory k' pgdir (l.drop (roundsOf cs)) ∧
      tablesOf k' pgdir = assign (tablesOf k pgdir) (entriesOf cs l) := by
  induction hrun generalizing l with
  | nil => exact ⟨Nat.zero_le _, h, rfl⟩
  | @cons k k₁ k' c cs hstep _ ih =>
      have hlen := rounds_le_of_ok c h hstep
      have hdirectory := (mmContinousMap_of_ok c h hstep).1
      have htables : tablesOf k₁ pgdir
          = assign (tablesOf k pgdir) (entriesFrom c.dirBeg (l.take c.rounds)) := by
        have hcall := mapDirs_tables pgdir ⟨c.mapEnd⟩ c.rounds k ⟨roundup c.vaddr⟩ c.dirBeg l
          c.rounds_eq h hlen
        rwa [← c.run_eq, hstep] at hcall
      rcases ih hdirectory with ⟨hrest, hlast, hassign⟩
      rw [List.length_drop] at hrest
      rw [List.drop_drop, ← roundsOf_cons] at hlast
      refine ⟨by rw [roundsOf_cons]; omega, hlast, ?_⟩
      rw [hassign, htables, entriesOf, assign_append]

/-- With pages enough for all rounds, the sequence of calls returns. -/
lemma exists_run (h : Directory k pgdir l) (hlen : roundsOf cs ≤ l.length) :
    ∃ k', Run (MapStep pgdir) k cs k' := by
  induction cs generalizing k l with
  | nil => exact ⟨k, Run.nil k⟩
  | cons c cs ih =>
      rw [roundsOf_cons] at hlen
      rcases mmContinousMap_spec c h (by omega) with ⟨k₁, hstep, hdirectory, -, -⟩
      rcases ih hdirectory (by rw [List.length_drop]; omega) with ⟨k', hrun⟩
      exact ⟨k', Run.cons hstep hrun⟩

/-- The pages that have been taken are the first of the list. -/
lemma taken_eq {n : ℕ} (h : FreeList k.pages l) (h' : FreeList k'.pages (l.drop n)) :
    Taken k k' = {f | f ∈ (l.take n).map pageFrame} := by
  have hmem : ∀ page, page ∈ l ∧ page ∉ l.drop n ↔ page ∈ l.take n := by
    intro page
    have hnodup := h.nodup
    rw [← List.take_append_drop n l, List.nodup_append] at hnodup
    constructor
    · rintro ⟨hin, hout⟩
      rw [← List.take_append_drop n l] at hin
      exact (List.mem_append.mp hin).resolve_right hout
    · intro hin
      exact ⟨List.mem_of_mem_take hin, fun hout => hnodup.2.2 page hin page hout rfl⟩
  ext f
  rw [Set.mem_ofPred_eq, List.mem_map]
  constructor
  · rintro ⟨page, hfree, htaken, rfl⟩
    rw [PageState.Free, h.chain.onChain_iff] at hfree
    rw [PageState.Free, h'.chain.onChain_iff] at htaken
    exact ⟨page, (hmem page).mp ⟨hfree, htaken⟩, rfl⟩
  · rintro ⟨page, hin, rfl⟩
    refine ⟨page, (h.chain.onChain_iff page).mpr ((hmem page).mpr hin).1, ?_, rfl⟩
    rw [PageState.Free, h'.chain.onChain_iff]
    exact ((hmem page).mpr hin).2

variable (hzero : ∀ d, k.mem pgdir d = PTE.zero)
include hzero

lemma tablesOf_empty (d : Idx) : tablesOf k pgdir d = none := by
  rw [tablesOf, hzero d]
  rfl

omit hzero in
/-- A page comes off the free list once. -/
lemma entriesOf_snd_nodup (h : FreeList k.pages l) : ((entriesOf cs l).map Prod.snd).Nodup := by
  rw [entriesOf_snd]
  exact (h.nodup.sublist (List.take_sublist _ l)).map pageFrame_injective

/-- **Tables are never shared**, whatever the calls: no two entries name the same one. -/
theorem tables_not_shared (h : Directory k pgdir l) (hrun : Run (MapStep pgdir) k cs k')
    {d d' : Idx} {table : Frame} (hd : tablesOf k' pgdir d = some table)
    (hd' : tablesOf k' pgdir d' = some table) : d = d' := by
  rcases run_entries h hrun with ⟨-, -, htables⟩
  rw [htables] at hd hd'
  exact assign_injective (tablesOf_empty hzero) (entriesOf_snd_nodup h.free) hd hd'

/-- **Nothing is leaked** after a sequence of calls if and only if they keep apart. -/
lemma tablesExact_iff (h : Directory k pgdir l) (hrun : Run (MapStep pgdir) k cs k') :
    TablesExact k k' pgdir ↔ cs.Pairwise MapCall.Apart := by
  rcases run_entries h hrun with ⟨hlen, hlast, htables⟩
  rw [TablesExact, taken_eq h.free hlast.free, htables, ← entriesOf_snd,
    names_assign_iff (tablesOf_empty hzero) (entriesOf_snd_nodup h.free), entriesOf_nodup_iff hlen]

/-- **Tables neither leaked nor shared.**  Calls on an empty directory, with pages enough, return;
and after each of them the pages taken are exactly the tables of the directory, each named by one
entry, if and only if no two of the calls rebuild a common slot. -/
theorem tables_exact_iff (h : Directory k pgdir l) (hlen : roundsOf cs ≤ l.length) :
    (∃ k', Run (MapStep pgdir) k cs k') ∧
      ((∀ cs₁ k₁, cs₁ <+: cs → Run (MapStep pgdir) k cs₁ k₁ → TablesExact k k₁ pgdir)
        ↔ cs.Pairwise MapCall.Apart) := by
  rcases exists_run h hlen with ⟨k', hrun⟩
  refine ⟨⟨k', hrun⟩, ?_, ?_⟩
  · intro hall
    exact (tablesExact_iff hzero h hrun).mp (hall cs k' (List.prefix_refl cs) hrun)
  · intro hapart cs₁ k₁ hprefix hrun₁
    exact (tablesExact_iff hzero h hrun₁).mpr (hapart.sublist hprefix.sublist)

end Sequence

/-- The state in which `init_page` has cleared the directory of an image of one megabyte. -/
lemma fresh_directory :
    ∃ k, Directory k (pageNo 256) (freePages 257) ∧ ∀ d, k.mem (pageNo 256) d = PTE.zero := by
  have hn : nrKernelPage 0x100000 = 256 := by
    rw [nrKernelPage_eq]
    rfl
  rcases @initFreeList_eq 0x100000 (by rw [hn]; decide) with ⟨s, -, hfree⟩
  rw [hn] at hfree
  rcases directory_of_list (by decide) hfree Kernel.blank with ⟨f, q, -, -, hdir⟩
  refine ⟨_, (hdir _ rfl).1, fun d => ?_⟩
  rw [clear_mem, if_pos (Nat.zero_le _)]

/-- Two calls for ranges in different 4 MB slots leave two tables, and both are named. -/
theorem tables_exact_two_slots :
    ∃ k, Directory k (pageNo 256) (freePages 257) ∧ (∀ d, k.mem (pageNo 256) d = PTE.zero) ∧
      ∃ k', Run (MapStep (pageNo 256)) k [⟨0, 0, 0x1000⟩, ⟨0x400000, 0x400000, 0x1000⟩] k' ∧
        TablesExact k k' (pageNo 256) := by
  rcases fresh_directory with ⟨k, hdir, hzero⟩
  have hlen : roundsOf [⟨0, 0, 0x1000⟩, ⟨0x400000, 0x400000, 0x1000⟩] ≤ (freePages 257).length := by
    rw [length_freePages]
    decide
  rcases tables_exact_iff hzero hdir hlen with ⟨⟨k', hrun⟩, hiff⟩
  refine ⟨k, hdir, hzero, k', hrun, hiff.mpr ?_ _ k' (List.prefix_refl _) hrun⟩
  rw [List.pairwise_pair]
  rintro d ⟨⟨-, hfirst⟩, hsecond, -⟩
  have hend : (MapCall.mk 0 0 0x1000).dirBeg + (MapCall.mk 0 0 0x1000).rounds = 1 := by decide
  have hbeg : (MapCall.mk 0x400000 0x400000 0x1000).dirBeg = 1 := by decide
  omega

/-- Two neighbouring pages, mapped by one call each: the second call leaks the table of the
first. -/
theorem tables_exact_fails :
    ∃ k, Directory k (pageNo 256) (freePages 257) ∧ (∀ d, k.mem (pageNo 256) d = PTE.zero) ∧
      ∃ k', Run (MapStep (pageNo 256)) k [⟨0, 0, 0x1000⟩, ⟨0x1000, 0x1000, 0x1000⟩] k' ∧
        ¬ TablesExact k k' (pageNo 256) := by
  rcases fresh_directory with ⟨k, hdir, hzero⟩
  have hlen : roundsOf [⟨0, 0, 0x1000⟩, ⟨0x1000, 0x1000, 0x1000⟩] ≤ (freePages 257).length := by
    rw [length_freePages]
    decide
  rcases exists_run hdir hlen with ⟨k', hrun⟩
  refine ⟨k, hdir, hzero, k', hrun, fun hexact => ?_⟩
  have hapart := List.pairwise_pair.mp ((tablesExact_iff hzero hdir hrun).mp hexact)
  exact hapart ⟨0, by decide⟩ ⟨by decide, by decide⟩

end ScratchOs
