import ScratchOs.Boot.Disk

/-!
# The boot loader

`bootmain` of `boot/main.c` loads the program segments that the headers name, in the order of the
headers, whatever their type.  It is the memory of the machine that the headers are read from, also
when segments have been loaded already.  The loader's own code and stack are below the headers, and
are not part of the model.

* `Bootable` — a kernel that the loader can load: its headers are in the first page, its segments
  are above it, begin at the same place of a sector in the file and in memory, and whole sectors of
  a later one spare an earlier one.
* **`bootmain_loads`** — the loader jumps to the entry point of such a kernel with every byte of
  every segment in place, and touches nothing else.  The part of a segment that is not in the file
  is not cleared: it gets what comes next on the disk.

**The conditions** of `Bootable` are what the comment in the source relies on, that segments are
loaded in increasing order and that reading too much does no harm.  Reading whole sectors writes in
front of a segment and behind it.  Behind it is what a later segment will overwrite; in front of it
may be the end of an earlier one, and that is what the order of the segments has to exclude.

**The proof** follows the loop with the list of segments that are left.  What it keeps is that the
headers in memory are those of the file, since otherwise the next round would read something else.
-/

namespace ScratchOs

open Memory Bytes

/-! ## The loader

The fields are read from memory each time they are needed, as the code does, and not taken from the
file.
-/

/-- The half word at an address. -/
def load16 (mem : Mem) (a : UInt32) : UInt16 :=
  UInt16.ofNat ((mem a).toNat + (mem (a + 1)).toNat * 256)

/-- `ELF_MAGIC` -/
abbrev elfMagic : UInt32 := 0x464C457F

/-- `ELFHDR` -/
abbrev elfhdr : UInt32 := 0x10000

/-- `ELFHDR->e_magic`, as it is in memory when it is read. -/
def eMagic (mem : Mem) : UInt32 := load32 mem elfhdr

/-- `ELFHDR->e_entry`, where the kernel begins. -/
def eEntry (mem : Mem) : UInt32 := load32 mem (elfhdr + 24)

/-- `ELFHDR->e_phoff`, where the program headers are. -/
def ePhoff (mem : Mem) : UInt32 := load32 mem (elfhdr + 28)

/-- `ELFHDR->e_phnum`, how many of them there are. -/
def ePhnum (mem : Mem) : UInt16 := load16 mem (elfhdr + 44)

/-- `ph->p_offset` -/
def pOffset (mem : Mem) (ph : UInt32) : UInt32 := load32 mem (ph + 4)

/-- `ph->p_pa` -/
def pPa (mem : Mem) (ph : UInt32) : UInt32 := load32 mem (ph + 12)

/-- `ph->p_memsz` -/
def pMemsz (mem : Mem) (ph : UInt32) : UInt32 := load32 mem (ph + 20)

/-- `sizeof(struct Proghdr)` -/
abbrev sizeofProghdr : UInt32 := 32

/-- The loop of `bootmain`.  It has at most as many rounds as there are headers. -/
def loadFrom : ℕ → UInt32 → UInt32 → Machine → Option Machine
  | 0, _, _, _ => none
  | fuel + 1, ph, eph, m =>
      if ph < eph then do
        let m ← readseg (pPa m.mem ph) (pMemsz m.mem ph) (pOffset m.mem ph) m
        loadFrom fuel (ph + sizeofProghdr) eph m
      else some m

/-- How `bootmain` ends: it jumps, or it tells the monitor that there is nothing to jump to. -/
inductive Outcome where
  | entry (e_entry : UInt32) (m : Machine)
  | bad (m : Machine)

/-- `bootmain`: the headers, the check of the first word, the segments, and the jump. -/
def bootmain (m : Machine) : Option Outcome := do
  let m ← readseg elfhdr (sectSize * 8) 0 m
  if eMagic m.mem ≠ elfMagic then some (.bad m)
  else
    let ph := elfhdr + ePhoff m.mem
    let eph := ph + (ePhnum m.mem).toUInt32 * sizeofProghdr
    (loadFrom ((ePhnum m.mem).toNat + 1) ph eph m).map fun m => .entry (eEntry m.mem) m

/-! ## Kernels

The file on the disk, and what a file has to be like.  Positions are those of the file; the drive
has it one sector further on.
-/

/-- The word of a file at a position. -/
def fileWord (file : ℕ → UInt8) (pos : ℕ) : UInt32 := word (fun i : Fin 4 => file (pos + i)) 0

/-- The half word of a file at a position. -/
def fileHalf (file : ℕ → UInt8) (pos : ℕ) : UInt16 :=
  UInt16.ofNat ((file pos).toNat + (file (pos + 1)).toNat * 256)

/-- What the loader takes from a program header, of all that is in it. -/
structure Segment where
  offset : UInt32
  pa : UInt32
  memsz : UInt32
deriving DecidableEq

/-- The program header at a position. -/
def segmentAt (file : ℕ → UInt8) (pos : ℕ) : Segment :=
  ⟨fileWord file (pos + 4), fileWord file (pos + 12), fileWord file (pos + 20)⟩

/-- The program headers from a position on, as many as are asked for. -/
def segmentsFrom (file : ℕ → UInt8) : ℕ → ℕ → List Segment
  | 0, _ => []
  | n + 1, pos => segmentAt file pos :: segmentsFrom file n (pos + 32)

/-- The segments of a file, by its header. -/
def segments (file : ℕ → UInt8) : List Segment :=
  segmentsFrom file (fileHalf file 44).toNat (fileWord file 28).toNat

namespace Segment

variable (s : Segment)

/-- How many sectors are read for the segment. -/
def sectors : ℕ := segSectors s.pa s.memsz

/-- One of the sectors of the segment is at the address. -/
def Covers (a : UInt32) : Prop := Within (segBase s.pa) (s.sectors * 512) a

instance (a : UInt32) : Decidable (s.Covers a) := inferInstanceAs (Decidable (Within _ _ a))

/-- The segment can be loaded. -/
structure Fits : Prop where
  /-- It ends before the last sector of the address space. -/
  fits : s.pa.toNat + s.memsz.toNat ≤ 4294966784
  /-- It is not where the headers are, or below. -/
  above : 0x11000 ≤ s.pa.toNat ∨ s.sectors = 0
  /-- A byte is at the same place of a sector in the file and in memory. -/
  aligned : s.pa.toNat % 512 = s.offset.toNat % 512

/-- The sectors of `t` do not touch `s`. -/
def Spares (t s : Segment) : Prop :=
  t.sectors = 0 ∨ s.pa.toNat + s.memsz.toNat ≤ (segBase t.pa).toNat
    ∨ (segBase t.pa).toNat + t.sectors * 512 ≤ s.pa.toNat

/-- Memory after the sectors of the segment have been read. -/
def loaded (dev : ℕ → UInt8) (mem : Mem) : Mem :=
  load mem (segBase s.pa) dev ((s.offset.toNat / 512 + 1) * 512) (s.sectors * 512)

end Segment

/-- A kernel that the loader can load. -/
structure Bootable (file : ℕ → UInt8) : Prop where
  magic : fileWord file 0 = elfMagic
  headers : (fileWord file 28).toNat + 32 * (fileHalf file 44).toNat ≤ 4096
  fits : ∀ s ∈ segments file, s.Fits
  order : (segments file).Pairwise fun s t => t.Spares s

/-- How many sectors the loader reads, those of the headers included. -/
def totalSectors (file : ℕ → UInt8) : ℕ := 8 + ((segments file).map Segment.sectors).sum

namespace Segment

variable {s : Segment}

/-- The end of a segment that fits does not come around. -/
lemma Fits.end_toNat (h : s.Fits) : (s.pa + s.memsz).toNat = s.pa.toNat + s.memsz.toNat := by
  have hfits := h.fits
  rw [UInt32.toNat_add]
  omega

/-- The sectors are enough, and end before the last one of the address space. -/
lemma Fits.sectors_bounds (h : s.Fits) :
    s.pa.toNat + s.memsz.toNat ≤ (segBase s.pa).toNat + s.sectors * 512
      ∧ (segBase s.pa).toNat + s.sectors * 512 ≤ 4294966784 := by
  have hbase := segBase_toNat s.pa
  have hfits := h.fits
  rw [sectors, segSectors, h.end_toNat]
  omega

/-- An address in front of its sectors is not one of theirs. -/
lemma Fits.not_covers_of_lt (h : s.Fits) {a : UInt32} (ha : a.toNat < (segBase s.pa).toNat) :
    ¬ s.Covers a := by
  have hbounds := h.sectors_bounds
  have hlt := (segBase s.pa).toNat_lt
  rw [Covers, Within, UInt32.toNat_sub]
  omega

/-- Nor is an address behind them. -/
lemma not_covers_of_ge {a : UInt32} (ha : (segBase s.pa).toNat + s.sectors * 512 ≤ a.toNat) :
    ¬ s.Covers a := by
  have hlt := a.toNat_lt
  have hle : segBase s.pa ≤ a := UInt32.le_iff_toNat_le.mpr (by omega)
  rw [Covers, Within, UInt32.toNat_sub_of_le _ _ hle]
  omega

lemma loaded_of_not_covers (dev : ℕ → UInt8) (mem : Mem) {a : UInt32} (h : ¬ s.Covers a) :
    s.loaded dev mem a = mem a := by
  rw [loaded, load_apply]
  exact if_neg h

/-- **Every byte of a segment is in place** when it has been loaded. -/
lemma Fits.loaded_at (h : s.Fits) (dev : ℕ → UInt8) (mem : Mem) {i : ℕ} (hi : i < s.memsz.toNat) :
    s.loaded dev mem (s.pa + UInt32.ofNat i) = dev (512 + (s.offset.toNat + i)) := by
  have hbounds := h.sectors_bounds
  have hbase := segBase_toNat s.pa
  have haligned := h.aligned
  have hfits := h.fits
  have hlt := s.memsz.toNat_lt
  have hval : (s.pa + UInt32.ofNat i).toNat = s.pa.toNat + i := by
    rw [UInt32.toNat_add, UInt32.toNat_ofNat']
    omega
  have hle : segBase s.pa ≤ s.pa + UInt32.ofNat i := UInt32.le_iff_toNat_le.mpr (by omega)
  have hdist : (s.pa + UInt32.ofNat i - segBase s.pa).toNat = s.pa.toNat % 512 + i := by
    rw [UInt32.toNat_sub_of_le _ _ hle]
    omega
  rw [loaded, load_apply, hdist, if_pos (by omega)]
  congr 1
  omega

/-- What is spared by another segment is not changed by loading it. -/
lemma Fits.loaded_of_spares {t : Segment} (ht : t.Fits) (hs : s.Fits) (h : t.Spares s)
    (dev : ℕ → UInt8) (mem : Mem) {i : ℕ} (hi : i < s.memsz.toNat) :
    t.loaded dev mem (s.pa + UInt32.ofNat i) = mem (s.pa + UInt32.ofNat i) := by
  have hfits := hs.fits
  have hval : (s.pa + UInt32.ofNat i).toNat = s.pa.toNat + i := by
    rw [UInt32.toNat_add, UInt32.toNat_ofNat']
    omega
  refine loaded_of_not_covers dev mem ?_
  rcases h with hnone | hbefore | hafter
  · rw [Covers, hnone]
    exact Nat.not_lt_zero _
  · exact ht.not_covers_of_lt (by omega)
  · exact not_covers_of_ge (by omega)

end Segment

/-! ## The headers in memory

The loader reads the headers from memory while it writes to memory.  They are safe because all
segments are above them.
-/

/-- The first page of the file is where the headers are read from. -/
def HeadersAt (file : ℕ → UInt8) (mem : Mem) : Prop :=
  ∀ k < 4096, mem (elfhdr + UInt32.ofNat k) = file k

section Headers

variable {file : ℕ → UInt8} {mem : Mem}

lemma header_add (k i : ℕ) :
    elfhdr + UInt32.ofNat k + UInt32.ofNat i = elfhdr + UInt32.ofNat (k + i) := by
  rw [UInt32.ofNat_add, UInt32.add_assoc]

lemma header_toNat {k : ℕ} (hk : k ≤ 4096) : (elfhdr + UInt32.ofNat k).toNat = 65536 + k := by
  rw [UInt32.toNat_add, UInt32.toNat_ofNat', Nat.mod_eq_of_lt (a := k) (by omega)]
  show (65536 + k) % 4294967296 = _
  omega

lemma HeadersAt.load32 (h : HeadersAt file mem) {k : ℕ} (hk : k + 4 ≤ 4096) :
    load32 mem (elfhdr + UInt32.ofNat k) = fileWord file k := by
  have hwindow : window mem (elfhdr + UInt32.ofNat k) 4 = fun i : Fin 4 => file (k + i) := by
    funext i
    rw [window, header_add]
    exact h _ (by omega)
  rw [Memory.load32, hwindow, fileWord]

lemma HeadersAt.load16 (h : HeadersAt file mem) {k : ℕ} (hk : k + 2 ≤ 4096) :
    load16 mem (elfhdr + UInt32.ofNat k) = fileHalf file k := by
  have hnext : elfhdr + UInt32.ofNat k + 1 = elfhdr + UInt32.ofNat (k + 1) := header_add k 1
  rw [ScratchOs.load16, fileHalf, hnext, h k (by omega), h (k + 1) (by omega)]

/-- A program header is read as it is in the file. -/
lemma HeadersAt.segment (h : HeadersAt file mem) {pos : ℕ} (hpos : pos + 32 ≤ 4096) :
    pPa mem (elfhdr + UInt32.ofNat pos) = (segmentAt file pos).pa
      ∧ pMemsz mem (elfhdr + UInt32.ofNat pos) = (segmentAt file pos).memsz
      ∧ pOffset mem (elfhdr + UInt32.ofNat pos) = (segmentAt file pos).offset := by
  have hword : ∀ i ≤ 28, Memory.load32 mem (elfhdr + UInt32.ofNat pos + UInt32.ofNat i)
      = fileWord file (pos + i) := by
    intro i hi
    rw [header_add]
    exact h.load32 (by omega)
  exact ⟨hword 12 (by decide), hword 20 (by decide), hword 4 (by decide)⟩

/-- They stay where they are, when nothing is loaded below the first segment. -/
lemma HeadersAt.loaded (h : HeadersAt file mem) {s : Segment} (hs : s.Fits) (dev : ℕ → UInt8) :
    HeadersAt file (s.loaded dev mem) := by
  intro k hk
  have hval := header_toNat (Nat.le_of_lt hk)
  rw [Segment.loaded_of_not_covers dev mem, h k hk]
  rcases hs.above with habove | hnone
  · have hbase := segBase_toNat s.pa
    exact hs.not_covers_of_lt (by omega)
  · rw [Segment.Covers, hnone]
    exact Nat.not_lt_zero _

end Headers

/-! ## Loading

The loop over the segments: what is loaded is not overwritten, and what is still to be read is
there.
-/

/-- What memory is when segments have been loaded, one after the other. -/
def loadAll (dev : ℕ → UInt8) (segs : List Segment) (mem : Mem) : Mem :=
  segs.foldl (fun mem s => s.loaded dev mem) mem

section LoadAll

variable {dev : ℕ → UInt8} {segs : List Segment}

lemma loadAll_cons (s : Segment) (mem : Mem) :
    loadAll dev (s :: segs) mem = loadAll dev segs (s.loaded dev mem) := by
  rw [loadAll, loadAll, List.foldl_cons]

lemma loadAll_of_not_covers {a : UInt32} (h : ∀ s ∈ segs, ¬ s.Covers a) (mem : Mem) :
    loadAll dev segs mem a = mem a := by
  induction segs generalizing mem with
  | nil => rfl
  | cons s segs ih =>
      refine (ih (fun t ht => h t (List.mem_cons_of_mem s ht)) _).trans ?_
      exact Segment.loaded_of_not_covers dev mem (h s List.mem_cons_self)

/-- The segments that come later spare this one, and leave it as it is. -/
lemma loadAll_of_spares {s : Segment} (hs : s.Fits) (hfits : ∀ t ∈ segs, t.Fits)
    (hspares : ∀ t ∈ segs, t.Spares s) (mem : Mem) {i : ℕ} (hi : i < s.memsz.toNat) :
    loadAll dev segs mem (s.pa + UInt32.ofNat i) = mem (s.pa + UInt32.ofNat i) := by
  induction segs generalizing mem with
  | nil => rfl
  | cons t segs ih =>
      refine (ih (fun t' ht => hfits t' (List.mem_cons_of_mem t ht))
        (fun t' ht => hspares t' (List.mem_cons_of_mem t ht)) _).trans ?_
      exact (hfits t List.mem_cons_self).loaded_of_spares hs (hspares t List.mem_cons_self) dev mem hi

/-- **Every segment is in place in the end.**  It is in place when it has been loaded, and those
that come later spare it. -/
lemma loadAll_at (hfits : ∀ t ∈ segs, t.Fits) (horder : segs.Pairwise fun s t => t.Spares s)
    (mem : Mem) {s : Segment} (hs : s ∈ segs) {i : ℕ} (hi : i < s.memsz.toNat) :
    loadAll dev segs mem (s.pa + UInt32.ofNat i) = dev (512 + (s.offset.toNat + i)) := by
  induction horder generalizing mem with
  | nil => cases hs
  | @cons t segs hlater _ ih =>
      have hrest : ∀ t' ∈ segs, t'.Fits := fun t' ht => hfits t' (List.mem_cons_of_mem t ht)
      rcases List.mem_cons.mp hs with rfl | hs
      · have hfit := hfits s List.mem_cons_self
        exact (loadAll_of_spares hfit hrest hlater _ hi).trans (hfit.loaded_at dev mem hi)
      · exact ih hrest _ hs

/-- The headers stay where they are, whatever is loaded. -/
lemma HeadersAt.loadAll {file : ℕ → UInt8} {mem : Mem} (h : HeadersAt file mem)
    (hfits : ∀ s ∈ segs, s.Fits) : HeadersAt file (loadAll dev segs mem) := by
  induction segs generalizing mem with
  | nil => exact h
  | cons s segs ih =>
      exact ih (h.loaded (hfits s List.mem_cons_self) dev) fun t ht =>
        hfits t (List.mem_cons_of_mem s ht)

end LoadAll

/-- A segment is read, if the controller gets ready often enough. -/
lemma readseg_segment {s : Segment} (hs : s.Fits) (m : Machine) :
    (m.ide.room < 2 * s.sectors ∧ readseg s.pa s.memsz s.offset m = none)
      ∨ ∃ c, readseg s.pa s.memsz s.offset m = some ⟨c, s.loaded (m.ide.drives false) m.mem⟩
        ∧ c.drives = m.ide.drives ∧ c.room + 2 * s.sectors = m.ide.room := by
  have hend := hs.end_toNat
  have hfits := hs.fits
  rcases readseg_cases s.pa s.memsz s.offset m with ⟨hnot, hnone⟩ | ⟨-, h⟩
  · refine Or.inl ⟨?_, hnone⟩
    rw [Segment.sectors]
    omega
  · exact Or.inr h

/-- The rounds of `bootmain`, when `n` headers are left. -/
lemma loadFrom_cases {file : ℕ → UInt8} {n fuel : ℕ} (hfuel : n < fuel) {pos : ℕ}
    (hpos : pos + 32 * n ≤ 4096) (hfits : ∀ s ∈ segmentsFrom file n pos, s.Fits) {m : Machine}
    (hheaders : HeadersAt file m.mem) :
    (m.ide.room < 2 * ((segmentsFrom file n pos).map Segment.sectors).sum
        ∧ loadFrom fuel (elfhdr + UInt32.ofNat pos) (elfhdr + UInt32.ofNat (pos + 32 * n)) m = none)
      ∨ ∃ c, loadFrom fuel (elfhdr + UInt32.ofNat pos) (elfhdr + UInt32.ofNat (pos + 32 * n)) m
          = some ⟨c, loadAll (m.ide.drives false) (segmentsFrom file n pos) m.mem⟩
        ∧ c.drives = m.ide.drives
        ∧ c.room + 2 * ((segmentsFrom file n pos).map Segment.sectors).sum = m.ide.room := by
  induction n generalizing fuel pos m with
  | zero =>
      obtain ⟨fuel, rfl⟩ := Nat.exists_eq_succ_of_ne_zero (Nat.pos_iff_ne_zero.mp hfuel)
      refine Or.inr ⟨m.ide, ?_, rfl, rfl⟩
      rw [loadFrom, Nat.mul_zero, Nat.add_zero, if_neg (UInt32.lt_irrefl _)]
      rfl
  | succ n ih =>
      obtain ⟨fuel, rfl⟩ := Nat.exists_eq_succ_of_ne_zero (by omega : fuel ≠ 0)
      have hlt : elfhdr + UInt32.ofNat pos < elfhdr + UInt32.ofNat (pos + 32 * (n + 1)) := by
        rw [UInt32.lt_iff_toNat_lt, header_toNat (by omega), header_toNat hpos]
        omega
      have hnext : elfhdr + UInt32.ofNat pos + sizeofProghdr = elfhdr + UInt32.ofNat (pos + 32) :=
        header_add pos 32
      have hend : pos + 32 * (n + 1) = pos + 32 + 32 * n := by omega
      obtain ⟨hpa, hmemsz, hoffset⟩ := hheaders.segment (by omega : pos + 32 ≤ 4096)
      have hfit : (segmentAt file pos).Fits := hfits _ List.mem_cons_self
      have hrest : ∀ s ∈ segmentsFrom file n (pos + 32), s.Fits :=
        fun s hs => hfits s (List.mem_cons_of_mem _ hs)
      rw [loadFrom, if_pos hlt, hpa, hmemsz, hoffset, hnext, hend]
      simp only [segmentsFrom, List.map_cons, List.sum_cons, loadAll_cons]
      rcases readseg_segment hfit m with ⟨hroom, hnone⟩ | ⟨c, hsome, hdrives, hroom⟩
      · refine Or.inl ⟨by omega, ?_⟩
        rw [hnone]
        rfl
      · rw [hsome, Option.bind_eq_bind, Option.bind_some]
        have hstay := hheaders.loaded hfit (m.ide.drives false)
        rw [← hdrives] at hstay ⊢
        rcases ih (m := ⟨c, (segmentAt file pos).loaded (c.drives false) m.mem⟩)
          (by omega : n < fuel) (by omega : pos + 32 + 32 * n ≤ 4096) hrest hstay with
          ⟨hroom', hnone⟩ | ⟨c', hsome', hdrives', hroom'⟩
        · change c.room < _ at hroom'
          exact Or.inl ⟨by omega, hnone⟩
        · change c'.room + _ = c.room at hroom'
          exact Or.inr ⟨c', hsome', hdrives', by omega⟩

/-! ## Booting

The first page, the check, and the loop.  The result says exactly how often the controller has to
get ready.
-/

lemma headersAt_load {file dev : ℕ → UInt8} (hfile : ∀ k, dev (512 + k) = file k) (mem : Mem) :
    HeadersAt file (load mem elfhdr dev 512 4096) := by
  intro k hk
  rw [load_apply, toNat_add_sub elfhdr (by omega), if_pos hk, hfile]

/-- The first page is read, if the controller gets ready often enough. -/
lemma readseg_headers (m : Machine) :
    (m.ide.room < 16 ∧ readseg elfhdr (sectSize * 8) 0 m = none)
      ∨ ∃ c, readseg elfhdr (sectSize * 8) 0 m
          = some ⟨c, load m.mem elfhdr (m.ide.drives false) 512 4096⟩
        ∧ c.drives = m.ide.drives ∧ c.room + 16 = m.ide.room := by
  have hcount : segSectors elfhdr (sectSize * 8) = 8 := by decide
  have hbase : segBase elfhdr = elfhdr := by decide
  have hend : (elfhdr + sectSize * 8).toNat ≤ 4294966784 := by decide
  have h := readseg_cases elfhdr (sectSize * 8) 0 m
  rw [hcount, hbase] at h
  rcases h with ⟨hnot, hnone⟩ | ⟨-, h⟩
  · exact Or.inl ⟨by omega, hnone⟩
  · exact Or.inr h

/-- **Only what begins as an ELF file does is jumped to.** -/
theorem bootmain_magic {file : ℕ → UInt8} {m : Machine}
    (hfile : ∀ k, m.ide.drives false (512 + k) = file k) (hroom : 16 ≤ m.ide.room)
    (hmagic : fileWord file 0 ≠ elfMagic) : ∃ m', bootmain m = some (.bad m') := by
  rcases readseg_headers m with ⟨hnot, -⟩ | ⟨c, hsome, -, -⟩
  · omega
  · have hread : eMagic (load m.mem elfhdr (m.ide.drives false) 512 4096) = fileWord file 0 :=
      (headersAt_load hfile m.mem).load32 (k := 0) (by decide)
    refine ⟨⟨c, load m.mem elfhdr (m.ide.drives false) 512 4096⟩, ?_⟩
    rw [bootmain, hsome, Option.bind_eq_bind, Option.bind_some, hread, if_pos hmagic]

/-- The loader waits for the drive, or it boots the kernel. -/
lemma bootmain_cases {file : ℕ → UInt8} (hb : Bootable file) {m : Machine}
    (hfile : ∀ k, m.ide.drives false (512 + k) = file k) :
    (m.ide.room < 2 * totalSectors file ∧ bootmain m = none)
      ∨ ∃ c mem, bootmain m = some (.entry (fileWord file 24) ⟨c, mem⟩)
        ∧ (∀ s ∈ segments file, ∀ i < s.memsz.toNat,
            mem (s.pa + UInt32.ofNat i) = file (s.offset.toNat + i))
        ∧ (∀ a, ¬ Within elfhdr 4096 a → (∀ s ∈ segments file, ¬ s.Covers a) → mem a = m.mem a)
        ∧ 2 * totalSectors file ≤ m.ide.room := by
  rcases readseg_headers m with ⟨hnot, hnone⟩ | ⟨c, hsome, hdrives, hroom⟩
  · refine Or.inl ⟨?_, by rw [bootmain, hnone]; rfl⟩
    rw [totalSectors]
    omega
  · have hheaders := headersAt_load hfile m.mem
    have hmagic : eMagic (load m.mem elfhdr (m.ide.drives false) 512 4096) = elfMagic :=
      (hheaders.load32 (k := 0) (by decide)).trans hb.magic
    have hphoff : ePhoff (load m.mem elfhdr (m.ide.drives false) 512 4096) = fileWord file 28 :=
      hheaders.load32 (k := 28) (by decide)
    have hphnum : ePhnum (load m.mem elfhdr (m.ide.drives false) 512 4096) = fileHalf file 44 :=
      hheaders.load16 (k := 44) (by decide)
    have hsize : (fileHalf file 44).toUInt32 * sizeofProghdr
        = UInt32.ofNat (32 * (fileHalf file 44).toNat) := by
      rw [← UInt32.toNat_inj, UInt32.toNat_mul, UInt16.toNat_toUInt32, UInt32.toNat_ofNat',
        Nat.mul_comm]
      rfl
    have hph : elfhdr + fileWord file 28 = elfhdr + UInt32.ofNat (fileWord file 28).toNat := by
      rw [UInt32.ofNat_toNat]
    have heph : elfhdr + fileWord file 28 + (fileHalf file 44).toUInt32 * sizeofProghdr
        = elfhdr + UInt32.ofNat ((fileWord file 28).toNat + 32 * (fileHalf file 44).toNat) := by
      rw [hsize, hph, header_add]
    rw [bootmain, hsome, Option.bind_eq_bind, Option.bind_some]
    simp only [hmagic, hphoff, hphnum, heph, ne_eq, not_true_eq_false, if_false]
    rw [hph]
    rcases loadFrom_cases (Nat.lt_succ_self _) hb.headers hb.fits
      (m := ⟨c, load m.mem elfhdr (m.ide.drives false) 512 4096⟩) hheaders with
      ⟨hroom', hnone⟩ | ⟨c', hsome', -, hroom'⟩
    · change c.room < 2 * ((segments file).map Segment.sectors).sum at hroom'
      refine Or.inl ⟨?_, by rw [hnone]; rfl⟩
      rw [totalSectors]
      omega
    · change _ = some (Machine.mk c' (loadAll (c.drives false) (segments file) _)) at hsome'
      have hstay : HeadersAt file (loadAll (c.drives false) (segments file) _) :=
        hheaders.loadAll hb.fits
      have hentry := hstay.load32 (k := 24) (by decide)
      refine Or.inr ⟨c', loadAll (c.drives false) (segments file)
        (load m.mem elfhdr (m.ide.drives false) 512 4096), ?_, fun s hs i hi => ?_,
        fun a ha hcovers => ?_, ?_⟩
      · rw [hsome', Option.map_some]
        exact congrArg (fun e => some (Outcome.entry e _)) hentry
      · rw [loadAll_at hb.fits hb.order _ hs hi, hdrives, hfile]
      · rw [loadAll_of_not_covers hcovers, load_apply]
        exact if_neg ha
      · change c'.room + 2 * ((segments file).map Segment.sectors).sum = c.room at hroom'
        rw [totalSectors]
        omega

/-- **A kernel is booted**, exactly if the controller gets ready twice for every sector, and then
with every byte of every segment in place and the other memory as it was. -/
theorem bootmain_loads {file : ℕ → UInt8} (hb : Bootable file) {m : Machine}
    (hfile : ∀ k, m.ide.drives false (512 + k) = file k) :
    ((∃ o, bootmain m = some o) ↔ 2 * totalSectors file ≤ m.ide.room)
      ∧ ∀ o, bootmain m = some o → ∃ c mem, o = .entry (fileWord file 24) ⟨c, mem⟩
        ∧ (∀ s ∈ segments file, ∀ i < s.memsz.toNat,
            mem (s.pa + UInt32.ofNat i) = file (s.offset.toNat + i))
        ∧ ∀ a, ¬ Within elfhdr 4096 a → (∀ s ∈ segments file, ¬ s.Covers a) → mem a = m.mem a := by
  rcases bootmain_cases hb hfile with ⟨hroom, hnone⟩ | ⟨c, mem, hentry, hsegments, hrest, hroom⟩
  · rw [hnone]
    refine ⟨iff_of_false (fun ⟨o, ho⟩ => ?_) (by omega), fun o ho => ?_⟩
    · cases ho
    · cases ho
  · rw [hentry]
    refine ⟨iff_of_true ⟨_, rfl⟩ hroom, fun o ho => ?_⟩
    cases ho
    exact ⟨c, mem, rfl, hsegments, hrest⟩

/-- The bytes of a file.  Behind its end a drive gives zeros. -/
def contentsOf (l : List UInt8) : ℕ → UInt8 := fun k => (l[k]?).getD 0

/-- A kernel with a segment of 200 bytes, of which the file has 116, and one that is empty. -/
def smallKernel : List UInt8 :=
  [0x7F, 0x45, 0x4C, 0x46] ++ List.replicate 20 0 ++ le32 0x100034 ++ le32 52 ++ List.replicate 8 0
    ++ [52, 0, 32, 0, 2, 0] ++ List.replicate 6 0
    ++ [1, 0, 0x100000, 0x100000, 116, 200, 7, 0x1000].flatMap le32
    ++ [0x6474E551, 0, 0, 0, 0, 0, 6, 16].flatMap le32

/-- The segments of its two program headers. -/
lemma smallKernel_segments :
    segments (contentsOf smallKernel) = [⟨0, 0x100000, 200⟩, ⟨0, 0, 0⟩] := by
  decide +kernel

lemma smallKernel_bootable : Bootable (contentsOf smallKernel) := by
  refine ⟨by decide +kernel, by decide +kernel, ?_, ?_⟩
  · rw [smallKernel_segments]
    intro s hs
    rcases List.mem_cons.mp hs with rfl | hs
    · exact ⟨by decide, Or.inl (by decide), by decide⟩
    · cases List.mem_singleton.mp hs
      exact ⟨by decide, Or.inr (by decide), by decide⟩
  · rw [smallKernel_segments]
    refine .cons (fun t ht => ?_) (.cons (by simp) .nil)
    rw [List.mem_singleton.mp ht]
    exact Or.inl (by decide)

lemma smallKernel_sectors : totalSectors (contentsOf smallKernel) = 9 := by
  rw [totalSectors, smallKernel_segments]
  decide

lemma smallKernel_entry : fileWord (contentsOf smallKernel) 24 = 0x100034 := by decide +kernel

/-- A machine with a drive, and a controller that is ready whenever it is asked. -/
def machineOf (drive : ℕ → UInt8) : Machine where
  ide := {
    count := 0, lbaLow := 0, lbaMid := 0, lbaHigh := 0, device := 0
    drives := fun _ => drive
    status := List.replicate 18 0x40, ready := false, data := [] }
  mem := fun _ => 0

lemma machineOf_drive (drive : ℕ → UInt8) : (machineOf drive).ide.drives false = drive := rfl

lemma machineOf_room (drive : ℕ → UInt8) : (machineOf drive).ide.room = 2 * 9 := by
  rw [Ide.room]
  show (List.replicate 18 (0x40 : UInt8)).countP diskReady = _
  decide

/-- The small kernel is loaded, and the loader itself stays as it is. -/
theorem bootmain_loads_small :
    ∃ c mem, bootmain (machineOf fun k => contentsOf smallKernel (k - 512))
        = some (.entry 0x100034 ⟨c, mem⟩)
      ∧ (∀ i < 200, mem (0x100000 + UInt32.ofNat i) = contentsOf smallKernel (0 + i))
      ∧ mem 0x7C00 = 0 := by
  have hfile : ∀ k, (machineOf fun k => contentsOf smallKernel (k - 512)).ide.drives false (512 + k)
      = contentsOf smallKernel k := by
    intro k
    rw [machineOf_drive, Nat.add_sub_cancel_left]
  obtain ⟨hiff, hall⟩ := bootmain_loads smallKernel_bootable hfile
  obtain ⟨o, ho⟩ := hiff.mpr (by rw [smallKernel_sectors, machineOf_room])
  obtain ⟨c, mem, rfl, hsegments, hrest⟩ := hall o ho
  rw [smallKernel_entry] at ho
  refine ⟨c, mem, ho, ?_, ?_⟩
  · exact hsegments ⟨0, 0x100000, 200⟩ (by rw [smallKernel_segments]; simp)
  · refine hrest 0x7C00 (by decide) ?_
    rw [smallKernel_segments]
    intro s hs
    rcases List.mem_cons.mp hs with rfl | hs
    · decide
    · cases List.mem_singleton.mp hs
      decide

end ScratchOs
