import ScratchOs.Core.Radix
import ScratchOs.Kernel.Allocator

/-!
# Page tables

The mapping half of `kernel/page.c`: page table entries, `mm_continous_map` and `init_page`, and the
two-level walk the processor does with the result.

**Tables as pages.**  The pointers this code indexes, `kpgdir` and `pgtab`, are frame numbers
shifted by 12, so a pointer to a table is represented by the `Frame` it lies in and physical memory
by its pages, each a table of 1024 entries.  The code uses physical addresses as pointers
throughout, which is right only while the pages it writes are mapped to themselves.

**Stores.**  Stores go to physical memory.  Once paging is on they also go through the directory:
`Kernel.stores` records, for every store made from then on, the page it wrote and the memory it was
made in, for the question whether that page could be reached.  The model carries out the store in
any case; that a store would fault is a property of the record, `Store.Good` in `Kernel/AddrSpace`.

The loops are written as they are in the source, with both cursors and their order of assignments.
What they compute is the business of `Kernel/Mapping`.
-/

namespace ScratchOs

open Radix Words

/-- A physical page number, as the 20 bits of an entry hold it. -/
abbrev Frame := Fin 1048576

/-- The index of an entry in its table: `NPDENTRIES` and `NPTENTRIES` are both 1024. -/
abbrev Idx := Fin 1024

/-- For the numerals of `Frame` and `Idx`: neither is empty. -/
instance neZero_frames : NeZero 1048576 := ⟨by decide⟩

instance neZero_entries : NeZero 1024 := ⟨by decide⟩

/-- `PTE`, and `PDE`, with the bit fields the code writes. -/
@[ext]
structure PTE where
  p : Bool
  rw : Bool
  us : Bool
  frame : Frame
  deriving DecidableEq

/-- The entry that an all-zero word is. -/
def PTE.zero : PTE := ⟨false, false, false, 0⟩

/-- The page a present entry names. -/
def PTE.target (e : PTE) : Option Frame := if e.p then some e.frame else none

/-- Physical memory, page by page, each page seen as a table. -/
abbrev PhysMem := Frame → Idx → PTE

/-- The page an address lies in. -/
def LinearAddr.page (a : LinearAddr) : Frame :=
  ⟨a.frame.toNat, by have := toNat_lt a.val; rw [LinearAddr.toNat_frame]; omega⟩

/-- The directory entry that translates an address. -/
def LinearAddr.dir (a : LinearAddr) : Idx :=
  ⟨a.dirIdx.toNat, by have := toNat_lt a.val; rw [LinearAddr.toNat_dirIdx]; omega⟩

/-- The table entry that translates an address. -/
def LinearAddr.tab (a : LinearAddr) : Idx :=
  ⟨a.tabIdx.toNat, by rw [LinearAddr.toNat_tabIdx]; omega⟩

/-- The translation of a directory: which page each pair of indices leads to. -/
def translate (mem : PhysMem) (pgdir : Frame) : Idx → Idx → Option Frame :=
  walk PTE.target mem pgdir

/-- The two-level walk of a virtual address. -/
def walkAddr (mem : PhysMem) (pgdir : Frame) (x : UInt32) : Option UInt32 :=
  (translate mem pgdir (LinearAddr.mk x).dir (LinearAddr.mk x).tab).map fun f =>
    ((LinearAddr.mk x).withFrame (UInt32.ofNat f.val)).val

/-- A store made while paging is on: the page it wrote and the memory before it. -/
structure Store where
  page : Frame
  before : PhysMem

/-- The state of the page code: the allocator, `kpgdir`, physical memory, the two control
registers, and the stores made since paging was switched on. -/
structure Kernel where
  pages : PageState
  kpgdir : Frame
  mem : PhysMem
  cr3 : Frame
  paging : Bool
  stores : List Store

/-- The state after one assignment to a field of an entry.  With paging on the store is recorded. -/
def Kernel.store (k : Kernel) (page : Frame) (i : Idx) (f : PTE → PTE) : Kernel :=
  { k with
    mem := set k.mem page i (f (k.mem page i))
    stores := if k.paging then k.stores ++ [⟨page, k.mem⟩] else k.stores }

/-- `memset(table, 0, 1024 * sizeof(PTE))`, entry by entry from `i` on. -/
def Kernel.clear (k : Kernel) (page : Frame) (i : ℕ) : Kernel :=
  if h : i < 1024 then (k.store page ⟨i, h⟩ fun _ => PTE.zero).clear page (i + 1) else k
  termination_by 1024 - i

/-- The four assignments that fill in an entry: `p`, `rw`, `us` and `frame`. -/
def Kernel.fillEntry (k : Kernel) (page : Frame) (i : Idx) (frame : Frame) : Kernel :=
  let k := k.store page i fun e => { e with p := true }
  let k := k.store page i fun e => { e with rw := true }
  let k := k.store page i fun e => { e with us := true }
  k.store page i fun e => { e with frame := frame }

/-- The inner loop of `mm_continous_map`, with its two cursors.  It returns the cursor `vaddr`,
which the next table goes on with. -/
def fillTable (pgtab : Frame) (mapEnd : UInt32) (k : Kernel) (vaddr pgAddr : LinearAddr)
    (tabIdx : ℕ) : Kernel × LinearAddr :=
  if h : tabIdx < 1024 ∧ pgAddr.val < mapEnd then
    fillTable pgtab mapEnd (k.fillEntry pgtab ⟨tabIdx, h.1⟩ vaddr.page)
      (vaddr.withFrame (vaddr.frame + 1)) (pgAddr.withFrame (pgAddr.frame + 1)) (tabIdx + 1)
  else
    (k, vaddr)
  termination_by 1024 - tabIdx

/-- One round of the outer loop after its `alloc_page` has returned: clear the new table, fill it,
and put it into the directory. -/
def mapDir (pgdir pgtab : Frame) (mapEnd : UInt32) (k : Kernel) (vaddr : LinearAddr)
    (dirIdx : ℕ) : Kernel × LinearAddr :=
  let pgAddr := LinearAddr.pgAddr (UInt32.ofNat dirIdx)
  let r := fillTable pgtab mapEnd (k.clear pgtab 0) vaddr pgAddr pgAddr.tabIdx.toNat
  (r.1.fillEntry pgdir (Fin.ofNat 1024 dirIdx) pgtab, r.2)

/-- The outer loop of `mm_continous_map`.  A panic keeps the stores made so far. -/
def mapDirs (pgdir : Frame) (mapEnd : LinearAddr) (k : Kernel) (vaddr : LinearAddr)
    (dirIdx : ℕ) : Except Panic Unit × Kernel :=
  if dirIdx ≤ mapEnd.dirIdx.toNat then
    match allocPage k.pages with
    | .error e => (.error e, k)
    | .ok (f, pages) =>
        let pgtab := ((⟨0⟩ : LinearAddr).withFrame f).page
        let r := mapDir pgdir pgtab mapEnd.val { k with pages := pages } vaddr dirIdx
        mapDirs pgdir mapEnd r.1 r.2 (dirIdx + 1)
  else
    (.ok (), k)
  termination_by mapEnd.dirIdx.toNat + 1 - dirIdx

/-- `mm_continous_map` on a directory: the physical and the virtual beginning of the range, and
its size. -/
def mmContinousMap (k : Kernel) (pgdir : Frame) (paddrBeg vaddrBeg size : UInt32) :
    Except Panic Unit × Kernel :=
  let paddrBeg := roundup paddrBeg
  let vaddrBeg := roundup vaddrBeg
  let paddrEnd := rounddown (paddrBeg + size)
  mapDirs pgdir ⟨paddrEnd⟩ k ⟨vaddrBeg⟩ (LinearAddr.mk paddrBeg).dirIdx.toNat

/-- `init_page`, from the linker symbol `end`.  It has no result where the index runs past the
pool. -/
def initPage (k : Kernel) (kernEnd : UInt32) : Option (Except Panic Unit × Kernel) :=
  (initFreeList kernEnd).map fun pages =>
    match allocPage pages with
    | .error e => (.error e, { k with pages := pages })
    | .ok (f, pages) =>
        let kpgdir := ((⟨0⟩ : LinearAddr).withFrame f).page
        let k := Kernel.clear { k with pages := pages, kpgdir := kpgdir } kpgdir 0
        match mmContinousMap k kpgdir 0x0 0x0 kernEnd with
        | (.error e, k) => (.error e, k)
        | (.ok (), k) => (.ok (), { k with cr3 := k.kpgdir, paging := true, stores := [] })

end ScratchOs
