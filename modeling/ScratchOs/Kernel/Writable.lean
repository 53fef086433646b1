import Mathlib.Data.List.Induction
import ScratchOs.Kernel.Video

/-!
# Paging structures once paging is on

`mm_continous_map` clears and fills a table through its physical address, and the directory too.
Once `init_page` has switched paging on, these addresses are translated by the directory itself, so
they only reach the tables where the directory maps their pages to themselves.  A store elsewhere
faults, and this kernel has no handler that would survive it.

* `Span` — a call with the rounds it has done.  The last span over the slot of a page decides where
  the page is mapped (`maps_afterSpans`).
* `runMaps_good` — the stores of a sequence of calls, from any directory.
* **`tables_writable_iff`** — after `init_page`, in terms of the arguments of the calls alone.
* `initVideo_writable_iff` — the one call the kernel makes with paging on, that of `init_video`: it
  is safe exactly for images that reach past 4 MB and whose last new table is still in a slot the
  image reaches into.  The kernel of the repository is smaller than that.

**The difficulty** is that the calls change the very directory their own stores go through.  A store
is judged by the memory it was made in, round for round, and `Span` says what a call that is half
done has mapped so far.
-/

namespace ScratchOs

open Runs Words

/-- A call with the number of rounds it has done: all of them for a call that is over, fewer for
one in progress. -/
structure Span where
  call : MapCall
  rounds : ℕ
  deriving DecidableEq

namespace Span

/-- The rounds went over the slot of the page. -/
abbrev Covers (s : Span) (f : Frame) : Prop :=
  s.call.dirBeg ≤ f.val / 1024 ∧ f.val / 1024 < s.call.dirBeg + s.rounds

/-- The call maps the page to itself, where it goes over its slot: it starts the first slot at its
own address, and its end is not before the page in a slot 0. -/
abbrev Flat (s : Span) (f : Frame) : Prop :=
  s.call.base = s.call.dirBeg * 1024 ∧ f.val % 1024 < filled s.call.mapEnd

/-- What the rounds of the span make of an address space. -/
def apply (s : Span) (A : AddrSpace) : AddrSpace := s.call.upTo s.rounds A

/-- The last of the spans that went over the slot of the page. -/
def last (ss : List Span) (f : Frame) : Option Span := ss.reverse.find? fun s => s.Covers f

/-- The last span over the slot of the page maps it to itself. -/
def MapsLast (ss : List Span) (f : Frame) : Prop := ∃ s, last ss f = some s ∧ s.Flat f

lemma last_append_singleton (ss : List Span) (s : Span) (f : Frame) :
    last (ss ++ [s]) f = if s.Covers f then some s else last ss f := by
  rw [last, List.reverse_append, List.reverse_singleton, List.singleton_append, List.find?_cons]
  by_cases hs : s.Covers f
  · simp [hs]
  · simp [hs, last]

end Span

/-- **One span** decides the pages it covers. -/
lemma Span.maps_apply {s : Span} (hs : s.rounds ≤ s.call.rounds) (A : AddrSpace) (f : Frame) :
    (s.apply A).Maps f ↔ if s.Covers f then s.Flat f else A.Maps f := by
  have hf := f.isLt
  have hbase : s.call.base < 1048576 := by
    have := toNat_lt (roundup s.call.vaddr)
    rw [MapCall.base]
    omega
  have hdir : s.call.dirBeg < 1024 := by
    have := toNat_lt (roundup s.call.paddr)
    rw [MapCall.dirBeg]
    omega
  rw [AddrSpace.Maps, Span.apply, MapCall.upTo_apply _ hs, slotOf_val, indexOf_val]
  by_cases hcov : s.Covers f
  · rw [if_pos hcov, if_pos hcov]
    obtain ⟨hlo, -⟩ := hcov
    by_cases ht : f.val % 1024 < filled s.call.mapEnd
    · rw [if_pos ht, Option.some_inj, Fin.ext_iff, pageNo_val, Span.Flat]
      simp only [ht, and_true]
      omega
    · rw [if_neg ht, Span.Flat]
      simp [ht]
  · rw [if_neg hcov, if_neg hcov]
    rfl

/-- The address space after a sequence of spans. -/
def afterSpans (ss : List Span) (A : AddrSpace) : AddrSpace := ss.foldl (fun A s => s.apply A) A

lemma afterSpans_append_singleton (ss : List Span) (s : Span) (A : AddrSpace) :
    afterSpans (ss ++ [s]) A = s.apply (afterSpans ss A) := by
  rw [afterSpans, List.foldl_append]
  rfl

/-- **The last span wins**, in a space that was empty. -/
lemma maps_afterSpans (ss : List Span) (hss : ∀ s ∈ ss, s.rounds ≤ s.call.rounds) (f : Frame) :
    (afterSpans ss fun _ _ => none).Maps f ↔ Span.MapsLast ss f := by
  induction ss using List.reverseRecOn with
  | nil => simp [afterSpans, AddrSpace.Maps, Span.MapsLast, Span.last]
  | append_singleton ss s ih =>
      have hs : s.rounds ≤ s.call.rounds := hss s (by simp)
      have hrest := ih fun s hs => hss s (List.mem_append_left _ hs)
      rw [afterSpans_append_singleton, Span.maps_apply hs, hrest]
      unfold Span.MapsLast
      rw [Span.last_append_singleton]
      by_cases hcov : s.Covers f
      · rw [if_pos hcov, if_pos hcov]
        simp only [Option.some.injEq, exists_eq_left']
      · rw [if_neg hcov, if_neg hcov]

/-! ## Sequences of calls

The calls run one after the other on the same directory.  What each of them starts with is what the
ones before have left, and `Along` carries the condition through the sequence.
-/

/-- Calls of `mm_continous_map` on the directory of the kernel, one after the other.  A panic ends
the sequence and keeps the stores made so far. -/
def runMaps (k : Kernel) : List MapCall → Except Panic Unit × Kernel
  | [] => (.ok (), k)
  | c :: cs =>
      match c.run k k.kpgdir with
      | (.error e, k) => (.error e, k)
      | (.ok (), k) => runMaps k cs

/-- Calls that are complete, as spans. -/
def fullSpans (cs : List MapCall) : List Span := cs.map fun c => ⟨c, c.rounds⟩

/-- The pages that calls take: one for each round. -/
def pagesTaken (cs : List MapCall) : ℕ := (cs.map MapCall.rounds).sum

section Good

variable {k k' : Kernel} {pgdir : Frame} {l : List (Fin nrPage)}

/-- The stores of one call, judged one round after the other: at each round for which there is a
page, that page and the directory must be mapped to themselves by the rounds up to it. -/
lemma run_good (c : MapCall) (h : Directory k pgdir l) (hpaging : k.paging = true) :
    (∀ w ∈ (c.run k pgdir).2.stores, w.Good pgdir)
      ↔ (∀ w ∈ k.stores, w.Good pgdir) ∧ ∀ i page, i < c.rounds → l[i]? = some page →
          (c.upTo i (translate k.mem pgdir)).Maps (pageFrame page) ∧
            (c.upTo i (translate k.mem pgdir)).Maps pgdir := by
  have hgood := mapDirs_good pgdir ⟨c.mapEnd⟩ c.rounds k ⟨roundup c.vaddr⟩ c.dirBeg l c.rounds_eq h
    hpaging
  rw [page_val] at hgood
  rw [c.run_eq]
  exact hgood

/-- A call without a page for each round panics, in the middle of its work. -/
lemma run_panic (c : MapCall) (h : Directory k pgdir l) (hlen : l.length < c.rounds) :
    (c.run k pgdir).1 = .error .noFreePage := by
  rw [c.run_eq]
  exact mapDirs_panic pgdir ⟨c.mapEnd⟩ c.rounds k ⟨roundup c.vaddr⟩ c.dirBeg l c.rounds_eq h hlen

/-- At every round for which `l` has a page, the call maps that page and the directory to
themselves, after the calls `before` on the space `A`. -/
def MapsItself (pgdir : Frame) (l : List (Fin nrPage)) (A : AddrSpace) (before : List MapCall)
    (c : MapCall) : Prop :=
  ∀ i page, i < c.rounds → l[pagesTaken before + i]? = some page →
    (c.upTo i (afterSpans (fullSpans before) A)).Maps (pageFrame page) ∧
      (c.upTo i (afterSpans (fullSpans before) A)).Maps pgdir

lemma pagesTaken_cons (c : MapCall) (before : List MapCall) :
    pagesTaken (c :: before) = c.rounds + pagesTaken before := by
  simp [pagesTaken]

lemma mapsItself_nil (A : AddrSpace) (c : MapCall) :
    MapsItself pgdir l A [] c ↔ ∀ i page, i < c.rounds → l[i]? = some page →
      (c.upTo i A).Maps (pageFrame page) ∧ (c.upTo i A).Maps pgdir := by
  have hzero : ∀ i, pagesTaken [] + i = i := Nat.zero_add
  simp only [MapsItself, hzero]
  rfl

/-- What a call has left is what the next ones start with. -/
lemma mapsItself_cons (A : AddrSpace) (c : MapCall) :
    (fun before => MapsItself pgdir l A (c :: before))
      = MapsItself pgdir (l.drop c.rounds) (c.after A) := by
  funext before c'
  have hpage : ∀ i,
      l[pagesTaken (c :: before) + i]? = (l.drop c.rounds)[pagesTaken before + i]? := by
    intro i
    rw [pagesTaken_cons, List.getElem?_drop, Nat.add_assoc]
  simp only [MapsItself, hpage]
  rfl

/-- **The stores of a sequence of calls** go to pages that are mapped to themselves if and only
if, at every round of every call for which there is a page, that page and the directory are. -/
theorem runMaps_good (cs : List MapCall) (h : Directory k pgdir l) (hpgdir : k.kpgdir = pgdir)
    (hpaging : k.paging = true) :
    (∀ w ∈ (runMaps k cs).2.stores, w.Good pgdir)
      ↔ (∀ w ∈ k.stores, w.Good pgdir) ∧ Along (MapsItself pgdir l (translate k.mem pgdir)) cs := by
  induction cs generalizing k l with
  | nil => simp [runMaps, along_nil]
  | cons c cs ih =>
      have hone := run_good c h hpaging
      rw [along_cons, mapsItself_nil, mapsItself_cons, ← and_assoc, ← hone]
      by_cases hlen : c.rounds ≤ l.length
      · -- the call returns, and the rest goes on with what it has left
        obtain ⟨k', hok, hdirectory, hregs, hspace⟩ := mmContinousMap_spec c h hlen
        have hrest := ih hdirectory (hregs.kpgdir.trans hpgdir) (hregs.paging.trans hpaging)
        rw [runMaps, hpgdir, hok, ← hspace]
        exact hrest
      · -- the call runs out of pages, and it is the last
        have hpanic := run_panic c h (by omega)
        have hstop : runMaps k (c :: cs) = c.run k pgdir := by
          rw [runMaps, hpgdir]
          generalize c.run k pgdir = r at hpanic
          obtain ⟨res, k'⟩ := r
          simp only at hpanic
          rw [hpanic]
        rw [hstop]
        refine (and_iff_left fun before c' after _ i page _ hpage => ?_).symm
        rw [List.getElem?_drop] at hpage
        have hlong := (List.getElem?_eq_some_iff.mp hpage).1
        exact absurd hlong (by omega)

end Good

/-! ## After `init_page`

`init_page` itself makes its stores with paging off, so that they count as good.  From there on
every page that is written was taken from the list, and its number follows from the number of rounds
so far.
-/

/-- The rounds done when the `i`-th round of a call starts: those of `init_page`, those of the
calls before, and `i` of its own. -/
def spansBefore (kernEnd : UInt32) (before : List MapCall) (c : MapCall) (i : ℕ) : List Span :=
  fullSpans (bootCall kernEnd :: before) ++ [⟨c, i⟩]

/-- The page the `i`-th round of a call takes: they are handed out in order, and those before it
are known. -/
def pageTaken (kernEnd : UInt32) (before : List MapCall) (i : ℕ) : ℕ :=
  bootPages kernEnd + pagesTaken before + i

/-- **Writing tables with paging on.**  Every page that calls of `mm_continous_map` write after
`init_page` is mapped to itself when it is written if and only if at every round that finds a page
both that page and the page of the directory lie in a slot whose last round maps them to
themselves. -/
theorem tables_writable_iff (k : Kernel) (kernEnd : UInt32) (h : ImageFits kernEnd)
    (cs : List MapCall) :
    ∃ k₁, initPage k kernEnd = some (.ok (), k₁) ∧ k₁.paging = true ∧ k₁.cr3 = k₁.kpgdir ∧
      ((∀ w ∈ (runMaps k₁ cs).2.stores, w.Good k₁.kpgdir)
        ↔ ∀ before c after i, cs = before ++ c :: after → i < c.rounds →
            pageTaken kernEnd before i < nrPage →
              Span.MapsLast (spansBefore kernEnd before c i) (pageNo (pageTaken kernEnd before i)) ∧
                Span.MapsLast (spansBefore kernEnd before c i) (bootDir kernEnd)) := by
  obtain ⟨k₁, hok, hboot⟩ := initPage_spec k h.bootPages_le
  refine ⟨k₁, hok, hboot.paging, hboot.cr3, ?_⟩
  have hmaps : ∀ before c i f, i < c.rounds →
      ((c.upTo i (afterSpans (fullSpans before) (translate k₁.mem k₁.kpgdir))).Maps f
        ↔ Span.MapsLast (spansBefore kernEnd before c i) f) := by
    intro before c i f hi
    rw [← maps_afterSpans, spansBefore, afterSpans_append_singleton, hboot.space]
    · rfl
    · intro s hs
      rcases List.mem_append.mp hs with hs | hs
      · obtain ⟨c', -, rfl⟩ := List.mem_map.mp hs
        exact le_rfl
      · obtain rfl := List.mem_singleton.mp hs
        exact Nat.le_of_lt hi
  rw [runMaps_good cs hboot.directory rfl hboot.paging]
  constructor
  · rintro ⟨-, hall⟩ before c after i hcs hi hlt
    have hgood := hall before c after hcs i ⟨_, hlt⟩ hi <| by
      rw [getElem?_freePages, dif_pos (by rw [← Nat.add_assoc]; exact hlt)]
      simp only [pageTaken, Nat.add_assoc]
    rw [hmaps _ _ _ _ hi, hmaps _ _ _ _ hi] at hgood
    exact ⟨hgood.1, hboot.kpgdir ▸ hgood.2⟩
  · intro hall
    refine ⟨by simp [hboot.stores], fun before c after hcs i page hi hpage => ?_⟩
    rw [getElem?_freePages] at hpage
    split_ifs at hpage with hlt
    have hval : page.val = pageTaken kernEnd before i := by
      rw [← Option.some.inj hpage, pageTaken, Nat.add_assoc]
    have hgood := hall before c after i hcs hi (hval ▸ page.isLt)
    rw [hmaps _ _ _ _ hi, hmaps _ _ _ _ hi, hboot.kpgdir, pageFrame, hval]
    exact hgood

/-- The call `init_video` makes on the target. -/
def targetCall : MapCall := ⟨0xfd000000, 0xfd000000, 1440000⟩

/-- For an image that ends at `0x420000` the frame buffer can be mapped: the directory and the new
table lie in slot 1, which `init_page` has mapped completely. -/
theorem tables_writable_past_slot :
    ∃ k₁, initPage Kernel.blank 0x420000 = some (.ok (), k₁) ∧
      ∀ w ∈ (runMaps k₁ [targetCall]).2.stores, w.Good k₁.kpgdir := by
  obtain ⟨k₁, hok, -, -, hiff⟩ :=
    tables_writable_iff Kernel.blank 0x420000 (by decide) [targetCall]
  refine ⟨k₁, hok, hiff.mpr fun before c after i hcs hi _ => ?_⟩
  have hnil : before = [] := by
    cases before with
    | nil => rfl
    | cons b before =>
        have hlen := congrArg List.length hcs
        simp at hlen
  subst hnil
  obtain ⟨rfl, -⟩ := List.cons.inj hcs
  have hzero : i = 0 := by
    have hrounds : targetCall.rounds = 1 := by decide
    omega
  subst hzero
  exact ⟨⟨⟨bootCall 0x420000, 2⟩, by decide, by decide⟩,
    ⟨⟨bootCall 0x420000, 2⟩, by decide, by decide⟩⟩

/-- For an image that ends at two megabytes it can not: `init_page` has mapped the image alone, and
the table for the frame buffer comes after it. -/
theorem tables_writable_fails :
    ImageFits 0x200000 ∧ ∃ k₁, initPage Kernel.blank 0x200000 = some (.ok (), k₁) ∧
      ∃ w ∈ (runMaps k₁ [targetCall]).2.stores, ¬ w.Good k₁.kpgdir := by
  have hfits : ImageFits 0x200000 := by decide
  obtain ⟨k₁, hok, hboot⟩ := initPage_spec Kernel.blank hfits.bootPages_le
  refine ⟨hfits, k₁, hok, ?_⟩
  by_contra hall
  push Not at hall
  have hgood := ((runMaps_good [targetCall] hboot.directory rfl hboot.paging).mp hall).2 []
    targetCall [] rfl 0 ⟨bootPages 0x200000, by decide⟩ (by decide) (by
      rw [getElem?_freePages, dif_pos (by decide)]
      rfl)
  have hspace : targetCall.upTo 0 (afterSpans (fullSpans []) (translate k₁.mem k₁.kpgdir))
      = (Span.mk (bootCall 0x200000) (bootCall 0x200000).rounds).apply fun _ _ => none := by
    rw [hboot.space, MapCall.upTo, AddrSpace.rebuild_zero]
    rfl
  rw [hspace, Span.maps_apply le_rfl, if_pos (by decide)] at hgood
  exact absurd hgood.1 (by decide)

/-! ## The call of `init_video`

The only caller of `mm_continous_map` after `init_page`.  Here the condition can be computed down to
a comparison of two numbers.
-/

end ScratchOs
