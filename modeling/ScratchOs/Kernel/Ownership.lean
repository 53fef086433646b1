import ScratchOs.Core.Runs
import ScratchOs.Kernel.Allocator

/-!
# Who owns a page frame

Runs of `alloc_page` and `release_page` after `init_page` has built the free list, in any order and
of any length, where a caller only releases what it holds.  The allocator itself does not record who
has a page.  So a `Session` is the allocator together with the frames that were handed out and not
yet given back, and this is what makes "two holders" something one can talk about.

* `Owned` — the invariant: the free list is well formed, its pages come after the kernel and are not
  held, and a held page has one reference.  `Owned.step` is the step lemma and `owned_of_run` the
  run lemma; all that follows is read off them.
* **`exclusive_ownership`** — hence no frame has two holders, and none overlaps the kernel image.
* **`no_frame_lost_iff`** — a frame that is neither held nor on the list is lost.  `release_page`
  does not put its page back, so the frames are all accounted for exactly as long as nothing has
  been released.

**What is assumed** of a run is that every call of it returned.  A call that panics ends the kernel,
and there is no state after it to speak of.  Callers that release what they do not hold are the
subject of `Kernel/Misuse`.
-/

namespace ScratchOs

open Chain Runs

/-- The allocator, together with the frames its callers hold. -/
structure Session where
  pages : PageState
  held : List UInt32

/-- The two calls a caller can make. -/
inductive PageOp
  | alloc
  | release (frame : UInt32)
  deriving DecidableEq

/-- One call that returns.  A frame is released only by someone who holds it, which the allocator
does not check. -/
inductive Session.Step : Session → PageOp → Session → Prop
  | alloc {s : Session} {f : UInt32} {p : PageState} (h : allocPage s.pages = .ok (f, p)) :
      Step s .alloc ⟨p, f :: s.held⟩
  | release {s : Session} {f : UInt32} {p : PageState} (hheld : f ∈ s.held)
      (h : releasePage s.pages f = .ok p) : Step s (.release f) ⟨p, s.held.erase f⟩

/-- The page is held. -/
def Session.Holds (s : Session) (page : Fin nrPage) : Prop :=
  ∃ f ∈ s.held, f.toNat = page.val

/-- What every call keeps, for a kernel of `n` pages and a free list `l`.  The held frames are a
list without repetitions, so that a frame cannot be handed out to two callers. -/
structure Owned (n : ℕ) (s : Session) (l : List (Fin nrPage)) : Prop where
  free : FreeList s.pages l
  above : ∀ page ∈ l, n ≤ page.val
  notHeld : ∀ page ∈ l, ¬ s.Holds page
  held : ∀ f ∈ s.held, n ≤ f.toNat ∧
    ∃ h : f.toNat < nrPage, (s.pages.pagePool ⟨f.toNat, h⟩).refCount = 1
  nodup : s.held.Nodup

/-- Before the first call everything after the kernel is free and nothing is held. -/
lemma Owned.init {kernEnd : UInt32} {p : PageState} (hp : initFreeList kernEnd = some p) :
    Owned (nrKernelPage kernEnd) ⟨p, []⟩ (freePages (nrKernelPage kernEnd)) := by
  have hlt : nrKernelPage kernEnd < nrPage := by
    by_contra h
    simp [initFreeList, h] at hp
  obtain ⟨q, hq, hfree⟩ := initFreeList_eq hlt
  obtain rfl := Option.some.inj (hp.symm.trans hq)
  refine ⟨hfree, fun page hpage => mem_freePages.mp hpage, ?_, ?_, List.nodup_nil⟩
  · rintro page _ ⟨f, hf, _⟩
    exact absurd hf List.not_mem_nil
  · intro f hf
    exact absurd hf List.not_mem_nil

/-- An allocation takes the first page of the list and hands it to the caller. -/
lemma Owned.alloc {n : ℕ} {s : Session} {page : Fin nrPage} {l : List (Fin nrPage)}
    (h : Owned n s (page :: l)) :
    ∃ f : UInt32, f.toNat = page.val ∧ allocPage s.pages = .ok (f, s.pages.pop page) ∧
      Owned n ⟨s.pages.pop page, f :: s.held⟩ l := by
  obtain ⟨f, hf, hok, hfree⟩ := h.free.alloc_cons
  have hnew : f ∉ s.held := fun hmem => h.notHeld page List.mem_cons_self ⟨f, hmem, hf⟩
  have hnotin : page ∉ l := (List.nodup_cons.mp h.free.nodup).1
  refine ⟨f, hf, hok, hfree, fun q hq => h.above q (List.mem_cons_of_mem _ hq), ?_, ?_,
    List.nodup_cons.mpr ⟨hnew, h.nodup⟩⟩
  · rintro q hq ⟨g, hg, hgq⟩
    rcases List.mem_cons.mp hg with rfl | hg
    · exact hnotin (Fin.ext (hf.symm.trans hgq) ▸ hq)
    · exact h.notHeld q (List.mem_cons_of_mem _ hq) ⟨g, hg, hgq⟩
  · intro g hg
    rcases List.mem_cons.mp hg with rfl | hg
    · have hlt : g.toNat < nrPage := hf ▸ page.isLt
      have hpage : (⟨g.toNat, hlt⟩ : Fin nrPage) = page := Fin.ext hf
      refine ⟨hf ▸ h.above page List.mem_cons_self, hlt, ?_⟩
      rw [hpage, PageState.pop_self]
    · obtain ⟨hn, hlt, href⟩ := h.held g hg
      have hne : (⟨g.toNat, hlt⟩ : Fin nrPage) ≠ page :=
        fun e => h.notHeld page List.mem_cons_self ⟨g, hg, congrArg Fin.val e⟩
      exact ⟨hn, hlt, by rw [s.pages.pop_of_ne hne, href]⟩

/-- A release clears the count of a held page and leaves the list alone. -/
lemma Owned.release {n : ℕ} {s : Session} {f : UInt32} {l : List (Fin nrPage)}
    (h : Owned n s l) (hf : f ∈ s.held) :
    ∃ p, releasePage s.pages f = .ok p ∧ Owned n ⟨p, s.held.erase f⟩ l := by
  obtain ⟨-, hlt, href⟩ := h.held f hf
  refine ⟨_, releasePage_of_one hlt href, ?_⟩
  have hne : ∀ q ∈ l, q ≠ ⟨f.toNat, hlt⟩ := fun q hq e =>
    h.notHeld q hq ⟨f, hf, (congrArg Fin.val e).symm⟩
  refine ⟨h.free.congr rfl fun q hq => s.pages.drop_of_ne (hne q hq), h.above, ?_, ?_,
    h.nodup.erase f⟩
  · rintro q hq ⟨g, hg, hgq⟩
    exact h.notHeld q hq ⟨g, List.mem_of_mem_erase hg, hgq⟩
  · intro g hg
    have hgf : g ≠ f := fun e => h.nodup.not_mem_erase (e ▸ hg)
    obtain ⟨hn, hlt', href'⟩ := h.held g (List.mem_of_mem_erase hg)
    have hval : (⟨g.toNat, hlt'⟩ : Fin nrPage) ≠ ⟨f.toNat, hlt⟩ :=
      fun e => hgf (UInt32.toNat_inj.mp (Fin.mk.inj_iff.mp e))
    exact ⟨hn, hlt', by rw [s.pages.drop_of_ne hval, href']⟩

/-- An allocation that returns has taken the first page of the list.  Together with
`Owned.of_release` this is what a step of a run is made of. -/
lemma Owned.of_alloc {n : ℕ} {s : Session} {l : List (Fin nrPage)} {f : UInt32} {p : PageState}
    (h : Owned n s l) (hok : allocPage s.pages = .ok (f, p)) :
    ∃ page l', l = page :: l' ∧ f.toNat = page.val ∧ Owned n ⟨p, f :: s.held⟩ l' := by
  cases l with
  | nil =>
      rw [h.free.alloc_nil] at hok
      cases hok
  | cons page l =>
      obtain ⟨g, hg, hok', hown⟩ := h.alloc
      rcases Prod.mk.inj (Except.ok.inj (hok.symm.trans hok')) with ⟨rfl, rfl⟩
      exact ⟨page, l, rfl, hg, hown⟩

/-- A release that returns leaves the list to the same pages. -/
lemma Owned.of_release {n : ℕ} {s : Session} {l : List (Fin nrPage)} {f : UInt32} {p : PageState}
    (h : Owned n s l) (hf : f ∈ s.held) (hok : releasePage s.pages f = .ok p) :
    Owned n ⟨p, s.held.erase f⟩ l := by
  obtain ⟨q, hok', hown⟩ := h.release hf
  rw [Except.ok.inj (hok.symm.trans hok')]
  exact hown

/-- **Every call keeps the invariant.** -/
lemma Owned.step {n : ℕ} {s s' : Session} {op : PageOp}
    (h : ∃ l, Owned n s l) (hstep : s.Step op s') : ∃ l, Owned n s' l := by
  obtain ⟨l, hl⟩ := h
  cases hstep with
  | alloc hok =>
      obtain ⟨page, l', -, -, hown⟩ := hl.of_alloc hok
      exact ⟨l', hown⟩
  | release hheld hok => exact ⟨l, hl.of_release hheld hok⟩

/-- **Every reachable session satisfies the invariant.** -/
theorem owned_of_run {kernEnd : UInt32} {p : PageState} {ops : List PageOp} {s : Session}
    (hp : initFreeList kernEnd = some p) (hrun : Run Session.Step ⟨p, []⟩ ops s) :
    ∃ l, Owned (nrKernelPage kernEnd) s l :=
  hrun.invariant (I := fun s => ∃ l, Owned (nrKernelPage kernEnd) s l) (C := fun _ => True)
    (fun _ _ _ h _ hstep => Owned.step h hstep) (fun _ _ => trivial) ⟨_, Owned.init hp⟩

/-- The kernel at one megabyte after two allocations: 256 and 257 are held, and everything from 258
on is free. -/
lemma two_allocated :
    ∃ p s, initFreeList 0x100000 = some p ∧ Run Session.Step ⟨p, []⟩ [.alloc, .alloc] s ∧
      s.held = [257, 256] ∧ Owned 256 s (freePages 258) := by
  have hkernel : nrKernelPage 0x100000 = 256 := by decide
  obtain ⟨p, hp, -⟩ := initFreeList_eq (show nrKernelPage 0x100000 < nrPage by decide)
  have hinit := Owned.init hp
  rw [hkernel, freePages_cons (by decide : 256 < nrPage), freePages_cons (by decide : 257 < nrPage)]
    at hinit
  -- the rest of the list stays a name, so that nothing tries to compute its 32510 pages
  generalize freePages (257 + 1) = l at hinit ⊢
  obtain ⟨f, hf, hok, hown⟩ := hinit.alloc
  obtain ⟨g, hg, hok', hown'⟩ := hown.alloc
  obtain rfl : f = 256 := UInt32.toNat_inj.mp hf
  obtain rfl : g = 257 := UInt32.toNat_inj.mp hg
  exact ⟨p, _, hp, Run.cons (Session.Step.alloc hok) (run_single.mpr (Session.Step.alloc hok')),
    rfl, hown'⟩

/-! ## Exclusive ownership

The invariant says it of the list; here it is said of the links that the code follows, and of the
addresses a caller gets.
-/

/-- The chain from `free_page_list` ends, repeats nothing, and holds only pages that come after
the kernel and belong to nobody.  It is stated by following the links, not through the list of
the invariant. -/
def Session.ChainExclusive (s : Session) (n : ℕ) : Prop :=
  ∃ l, IsChain s.pages.next s.pages.freePageList l ∧ l.Nodup ∧
    ∀ page ∈ l, n ≤ page.val ∧ ¬ s.Holds page

/-- The byte address lies in the page of the frame. -/
def InPage (frame : UInt32) (addr : ℕ) : Prop :=
  frame.toNat * 4096 ≤ addr ∧ addr < frame.toNat * 4096 + 4096

/-- **Exclusive ownership.**  In every state a run reaches, the free list is a finite, terminated
chain of distinct pages that nobody holds; a frame that `alloc_page` returns has no other holder,
and its page does not meet the kernel image unless rounding `end` up wrapped to 0. -/
theorem exclusive_ownership (kernEnd : UInt32) (p : PageState)
    (hp : initFreeList kernEnd = some p) (ops : List PageOp) (s : Session)
    (hrun : Run Session.Step ⟨p, []⟩ ops s) :
    s.ChainExclusive (nrKernelPage kernEnd) ∧
      ∀ f q, allocPage s.pages = .ok (f, q) →
        f ∉ s.held ∧ nrKernelPage kernEnd ≤ f.toNat ∧ f.toNat < nrPage ∧
          (kernEnd ≤ 0xfffff000 → ∀ addr, InPage f addr → ¬ addr < kernEnd.toNat) := by
  obtain ⟨l, hown⟩ := owned_of_run hp hrun
  refine ⟨⟨l, hown.free.chain, hown.free.nodup, fun page hpage =>
    ⟨hown.above page hpage, hown.notHeld page hpage⟩⟩, fun f q hok => ?_⟩
  obtain ⟨page, l', rfl, hf, hown'⟩ := hown.of_alloc hok
  have habove : nrKernelPage kernEnd ≤ page.val := hown.above page List.mem_cons_self
  refine ⟨(List.nodup_cons.mp hown'.nodup).1, hf ▸ habove, hf ▸ page.isLt, ?_⟩
  intro hend addr hin
  have hend' : kernEnd.toNat ≤ 0xfffff000 := UInt32.le_iff_toNat_le.mp hend
  have hpage := hin.1
  rw [nrKernelPage_eq, ← hf] at habove
  omega

/-- The kernel at one megabyte, where it is linked: two frames are allocated, the first of them is
released, and 257 is still held.  The next allocation returns a frame that nobody has and whose page
lies behind the image. -/
theorem exclusive_ownership_linked :
    ∃ p s, initFreeList 0x100000 = some p ∧
      Run Session.Step ⟨p, []⟩ [.alloc, .alloc, .release 256] s ∧ s.held = [257] ∧
      s.ChainExclusive 256 ∧ ∃ f q, allocPage s.pages = .ok (f, q) ∧ f ∉ s.held ∧ 256 ≤ f.toNat ∧
        f.toNat < nrPage ∧ ∀ addr, InPage f addr → ¬ addr < (0x100000 : UInt32).toNat := by
  obtain ⟨p, s, hp, hrun, hheld, hown⟩ := two_allocated
  have hmem : 256 ∈ s.held := by
    rw [hheld]
    decide
  obtain ⟨q, hok, hown'⟩ := hown.release hmem
  have hall : Run Session.Step ⟨p, []⟩ [.alloc, .alloc, .release 256] ⟨q, s.held.erase 256⟩ :=
    run_append.mpr ⟨s, hrun, run_single.mpr (Session.Step.release hmem hok)⟩
  obtain ⟨hchain, hnext⟩ := exclusive_ownership 0x100000 p hp _ _ hall
  rw [freePages_cons (by decide : 258 < nrPage)] at hown'
  obtain ⟨f, -, hallocs, -⟩ := hown'.alloc
  obtain ⟨hnew, hlow, hhigh, hapart⟩ := hnext f _ hallocs
  refine ⟨p, _, hp, hall, ?_, hchain, f, _, hallocs, hnew, hlow, hhigh, hapart (by decide)⟩
  rw [hheld]
  rfl

/-- Past `0xfffff000` the rounding wraps: `end` counts as page 0, and the first page handed out is
page 0 of the image. -/
theorem exclusive_ownership_wraps :
    nrKernelPage 0xfffff001 < nrPage ∧
      ∃ p, initFreeList 0xfffff001 = some p ∧ ∃ f q, allocPage p = .ok (f, q) ∧
        ∃ addr, InPage f addr ∧ addr < (0xfffff001 : UInt32).toNat := by
  have hlt : nrKernelPage 0xfffff001 < nrPage := by decide
  have hzero : nrKernelPage 0xfffff001 = 0 := by decide
  obtain ⟨p, hp, hfree⟩ := initFreeList_eq hlt
  rw [freePages_cons hlt] at hfree
  obtain ⟨f, hf, hok, -⟩ := hfree.alloc_cons
  refine ⟨hlt, p, hp, f, _, hok, 0, ?_, by decide⟩
  simp only [InPage, hf, hzero]
  omega

/-! ## Lost frames

Three properties that one would expect of an allocator, and that are the same one here: as soon as a
frame is released, all three are gone.  The proof goes through `NoFrameLost`, which an allocation
keeps and a release breaks for good.
-/

/-- Every page after the kernel is held or on the free list, so that none has gone missing. -/
def Session.NoFrameLost (s : Session) (n : ℕ) : Prop :=
  ∀ page : Fin nrPage, n ≤ page.val → ¬ s.Holds page →
    OnChain s.pages.next s.pages.freePageList page

/-- The allocator stops for want of a page only when every page is held. -/
def Session.PanicsOnlyFull (s : Session) (n : ℕ) : Prop :=
  allocPage s.pages = .error .noFreePage → ∀ page : Fin nrPage, n ≤ page.val → s.Holds page

/-- A page that is not held, such as a released one, is handed out again by later allocations. -/
def Session.HandsOut (s : Session) (n : ℕ) : Prop :=
  ∀ page : Fin nrPage, n ≤ page.val → ¬ s.Holds page →
    ∃ k t f q, Run Session.Step s (List.replicate k .alloc) t ∧
      allocPage t.pages = .ok (f, q) ∧ f.toNat = page.val

/-- The page after a first part of the list is reached by allocating that part. -/
lemma Owned.alloc_run {n : ℕ} {s : Session} {l₁ l₂ : List (Fin nrPage)}
    (h : Owned n s (l₁ ++ l₂)) :
    ∃ t, Run Session.Step s (List.replicate l₁.length .alloc) t ∧ Owned n t l₂ := by
  induction l₁ generalizing s with
  | nil => exact ⟨s, Run.nil s, h⟩
  | cons page l₁ ih =>
      obtain ⟨f, -, hok, hown⟩ := h.alloc
      obtain ⟨t, hrun, ht⟩ := ih hown
      exact ⟨t, Run.cons (Session.Step.alloc hok) hrun, ht⟩

/-- Where no frame is lost, the other two follow. -/
lemma Owned.accounted {n : ℕ} {s : Session} {l : List (Fin nrPage)} (h : Owned n s l)
    (hlost : s.NoFrameLost n) : s.PanicsOnlyFull n ∧ s.HandsOut n := by
  constructor
  · intro hpanic page hpage
    by_contra hheld
    have hmem := (h.free.chain.onChain_iff page).mp (hlost page hpage hheld)
    cases l with
    | nil => exact absurd hmem List.not_mem_nil
    | cons q l =>
        obtain ⟨f, -, hok, -⟩ := h.alloc
        rw [hok] at hpanic
        cases hpanic
  · intro page hpage hheld
    have hmem := (h.free.chain.onChain_iff page).mp (hlost page hpage hheld)
    obtain ⟨l₁, l₂, rfl⟩ := List.append_of_mem hmem
    obtain ⟨t, hrun, ht⟩ := h.alloc_run
    obtain ⟨f, hf, hok, -⟩ := ht.alloc
    exact ⟨l₁.length, t, f, _, hrun, hok, hf⟩

/-- An allocation moves a page from the list to the caller and loses none. -/
lemma NoFrameLost.alloc {n : ℕ} {s s' : Session} (h : ∃ l, Owned n s l) (hlost : s.NoFrameLost n)
    (hstep : s.Step .alloc s') : s'.NoFrameLost n := by
  obtain ⟨l, hl⟩ := h
  cases hstep with
  | alloc hok =>
      obtain ⟨page, l', rfl, hf, hown⟩ := hl.of_alloc hok
      intro q hq hheld
      rw [hown.free.chain.onChain_iff]
      have hold : ¬ s.Holds q := fun ⟨g, hg, hgq⟩ => hheld ⟨g, List.mem_cons_of_mem _ hg, hgq⟩
      have hne : q ≠ page := fun e => hheld ⟨_, List.mem_cons_self, e ▸ hf⟩
      have hmem := (hl.free.chain.onChain_iff q).mp (hlost q hq hold)
      exact (List.mem_cons.mp hmem).resolve_left hne

/-- **A release loses its frame**: afterwards nobody holds it and the list does not have it. -/
lemma NoFrameLost.release {n : ℕ} {s s' : Session} {f : UInt32} (h : ∃ l, Owned n s l)
    (hstep : s.Step (.release f) s') : ¬ s'.NoFrameLost n := by
  obtain ⟨l, hl⟩ := h
  cases hstep with
  | release hheld hok =>
      have hown := hl.of_release hheld hok
      obtain ⟨hn, hlt, -⟩ := hl.held f hheld
      intro hlost
      have hon := hlost ⟨f.toNat, hlt⟩ hn <| by
        rintro ⟨g, hg, hgf⟩
        have heq : g = f := UInt32.toNat_inj.mp hgf
        exact hl.nodup.not_mem_erase (heq ▸ hg)
      exact hl.notHeld _ ((hown.free.chain.onChain_iff _).mp hon) ⟨f, hheld, rfl⟩

/-- **Frames are lost exactly by releasing them.**  In every state a run reaches every page after
the kernel is held or on the free list, `alloc_page` stops only when all of them are held, and a
page that is not held can be handed out again, if and only if the run releases nothing. -/
theorem no_frame_lost_iff (kernEnd : UInt32) (p : PageState) (hp : initFreeList kernEnd = some p)
    (ops : List PageOp) (s : Session) (hrun : Run Session.Step ⟨p, []⟩ ops s) :
    (∀ is js t, ops = is ++ js → Run Session.Step ⟨p, []⟩ is t →
        t.NoFrameLost (nrKernelPage kernEnd) ∧ t.PanicsOnlyFull (nrKernelPage kernEnd) ∧
          t.HandsOut (nrKernelPage kernEnd))
      ↔ ∀ op ∈ ops, op = .alloc := by
  set n := nrKernelPage kernEnd
  constructor
  · intro hall op hop
    obtain ⟨is, js, rfl⟩ := List.append_of_mem hop
    obtain ⟨t, hbefore, hafter⟩ := run_append.mp hrun
    obtain ⟨u, hstep, -⟩ := run_cons.mp hafter
    cases op with
    | alloc => rfl
    | release f =>
        have hu : Run Session.Step ⟨p, []⟩ (is ++ [.release f]) u :=
          run_append.mpr ⟨t, hbefore, run_single.mpr hstep⟩
        have hlost := (hall (is ++ [.release f]) js u (by simp) hu).1
        exact absurd hlost (NoFrameLost.release (owned_of_run hp hbefore) hstep)
  · rintro halloc is js t rfl ht
    obtain ⟨l, hown⟩ := owned_of_run hp ht
    have hlost : t.NoFrameLost n := by
      refine (ht.invariant (I := fun s => (∃ l, Owned n s l) ∧ s.NoFrameLost n)
        (C := fun op => op = .alloc) ?_ (fun op hop => halloc op (List.mem_append_left _ hop))
        ⟨⟨_, Owned.init hp⟩, ?_⟩).2
      · rintro s op s' ⟨hs, hs'⟩ rfl hstep
        exact ⟨Owned.step hs hstep, NoFrameLost.alloc hs hs' hstep⟩
      · intro page hpage _
        rw [(Owned.init hp).free.chain.onChain_iff]
        exact mem_freePages.mpr hpage
    exact ⟨hlost, hown.accounted hlost⟩

/-- Two allocations, for the kernel at one megabyte: 256 and 257 are held, and none of the other
frames is lost. -/
theorem no_frame_lost_linked :
    ∃ p s, initFreeList 0x100000 = some p ∧ Run Session.Step ⟨p, []⟩ [.alloc, .alloc] s ∧
      s.held = [257, 256] ∧ s.NoFrameLost 256 ∧ s.PanicsOnlyFull 256 ∧ s.HandsOut 256 := by
  obtain ⟨p, s, hp, hrun, hheld, -⟩ := two_allocated
  have hall := (no_frame_lost_iff 0x100000 p hp _ s hrun).mpr (by simp)
  exact ⟨p, s, hp, hrun, hheld, hall [.alloc, .alloc] [] s rfl hrun⟩

/-- One allocation and its release, for the kernel at one megabyte: page 256 is gone. -/
theorem no_frame_lost_fails :
    ∃ p, initFreeList 0x100000 = some p ∧
      ∃ s, Run Session.Step ⟨p, []⟩ [.alloc, .release 256] s ∧ 256 ∉ s.held ∧
        ¬ OnChain s.pages.next s.pages.freePageList ⟨256, by decide⟩ := by
  have hlt : nrKernelPage 0x100000 < nrPage := by decide
  have h256 : nrKernelPage 0x100000 = 256 := by decide
  obtain ⟨p, hp, -⟩ := initFreeList_eq hlt
  have hinit := Owned.init hp
  rw [freePages_cons hlt] at hinit
  -- the rest of the list stays a name, so that nothing tries to compute its 32511 pages
  have habove : ∀ page ∈ freePages (nrKernelPage 0x100000 + 1), 257 ≤ page.val := by
    intro page hpage
    rw [mem_freePages, h256] at hpage
    exact hpage
  generalize freePages (nrKernelPage 0x100000 + 1) = l at hinit habove
  obtain ⟨f, hf, hok, hown⟩ := hinit.alloc
  obtain rfl : f = 256 := UInt32.toNat_inj.mp (hf.trans h256)
  obtain ⟨q, hok', hown'⟩ := hown.release List.mem_cons_self
  refine ⟨p, hp, _, Run.cons (Session.Step.alloc hok) (run_single.mpr
    (Session.Step.release List.mem_cons_self hok')), by simp, ?_⟩
  intro hon
  have h := habove _ ((hown'.free.chain.onChain_iff _).mp hon)
  exact absurd h (by decide)

end ScratchOs
