import ScratchOs.Boot.Loader
import ScratchOs.Core.Files

/-!
# The disk image

`disk.bin` as the Makefile puts it together: zeros, over them the boot sector that `mbr.rb` has
filled up, and the kernel from the second sector on.  It ties the loader to the file it loads: what
`Boot/Loader` assumes about a drive is shown here of the drive that the build makes.

* **`diskBin_boots`** — the first sector is the boot sector, and what the loader in it makes of the
  disk is the kernel, wherever the file ends within a sector.

A boot sector that is too large is left as it is by `mbr.rb`, and would then reach into the kernel.
That the loader fits is assumed, and so is that the kernel is `Bootable`.
-/

namespace ScratchOs

open Memory Files

/-- `mbr.rb`: what it leaves of the file, which is a whole sector with the signature at its end.
A file that is too large stays as it is. -/
def mbr (obj : List UInt8) : List UInt8 :=
  if obj.length ≤ 510 then obj ++ List.replicate (510 - obj.length) 0 ++ [0x55, 0xAA] else obj

/-- The rule of `$(IMAGE)`: three times `dd`, with blocks of 512 bytes. -/
def diskBin (boot kernel : List UInt8) : List UInt8 :=
  overwrite (overwrite (List.replicate (10000 * 512) 0) 0 boot) (1 * 512) kernel

lemma mbr_of_le {obj : List UInt8} (h : obj.length ≤ 510) :
    mbr obj = obj ++ List.replicate (510 - obj.length) 0 ++ [0x55, 0xAA] := if_pos h

lemma length_mbr {obj : List UInt8} (h : obj.length ≤ 510) : (mbr obj).length = 512 := by
  rw [mbr_of_le h]
  simp only [List.length_append, List.length_replicate, List.length_cons, List.length_nil]
  omega

/-- The zeros of the image are zeros, and so is what is behind it. -/
lemma getD_zeros (n k : ℕ) : ((List.replicate n (0 : UInt8))[k]?).getD 0 = 0 := by
  rw [List.getElem?_replicate]
  split <;> rfl

/-- The first sector of the image is the boot sector. -/
lemma diskBin_boot {boot kernel : List UInt8} (h : boot.length = 512) {k : ℕ} (hk : k < 512) :
    contentsOf (diskBin boot kernel) k = contentsOf boot k := by
  rw [contentsOf, diskBin, getElem?_overwrite, if_pos (by omega), Option.getD_some,
    getElem?_overwrite, if_neg (Nat.not_lt_zero k), if_pos (by omega)]
  rfl

/-- From the second sector on the image is the kernel, and zeros behind its end. -/
lemma diskBin_kernel {boot kernel : List UInt8} (h : boot.length = 512) (k : ℕ) :
    contentsOf (diskBin boot kernel) (512 + k) = contentsOf kernel k := by
  rw [contentsOf, diskBin, getElem?_overwrite, if_neg (by omega)]
  by_cases hk : 512 + k < 1 * 512 + kernel.length
  · have hback : 512 + k - 1 * 512 = k := by omega
    rw [if_pos hk, hback, contentsOf]
  · rw [if_neg hk, getElem?_overwrite, if_neg (Nat.not_lt_zero _), if_neg (by omega), getD_zeros,
      contentsOf, List.getElem?_eq_none (by omega)]
    rfl

/-- **The image boots**: the BIOS finds a boot sector, and the loader the kernel. -/
theorem diskBin_boots {obj kernel : List UInt8} (hobj : obj.length ≤ 510)
    (hb : Bootable (contentsOf kernel)) {m : Machine}
    (hdisk : m.ide.drives false = contentsOf (diskBin (mbr obj) kernel)) :
    (∀ k < obj.length, m.ide.drives false k = contentsOf obj k)
      ∧ m.ide.drives false 510 = 0x55 ∧ m.ide.drives false 511 = 0xAA
      ∧ (2 * totalSectors (contentsOf kernel) ≤ m.ide.room →
        ∃ c mem, bootmain m = some (.entry (fileWord (contentsOf kernel) 24) ⟨c, mem⟩)
          ∧ ∀ s ∈ segments (contentsOf kernel), ∀ i < s.memsz.toNat,
              mem (s.pa + UInt32.ofNat i) = contentsOf kernel (s.offset.toNat + i)) := by
  have hlen := length_mbr hobj
  have hboot : ∀ k < 512, m.ide.drives false k = contentsOf (mbr obj) k := by
    intro k hk
    rw [hdisk, diskBin_boot hlen hk]
  have hfront : (obj ++ List.replicate (510 - obj.length) (0 : UInt8)).length = 510 := by
    rw [List.length_append, List.length_replicate]
    omega
  have hsignature : ∀ j < 2, contentsOf (mbr obj) (510 + j) = contentsOf [0x55, 0xAA] j := by
    intro j hj
    rw [contentsOf, contentsOf, mbr_of_le hobj, List.getElem?_append_right (by omega), hfront,
      Nat.add_sub_cancel_left]
  refine ⟨fun k hk => ?_, ?_, ?_, fun hroom => ?_⟩
  · rw [hboot k (by omega), contentsOf, contentsOf, mbr_of_le hobj, List.append_assoc,
      List.getElem?_append_left hk]
  · exact (hboot 510 (by decide)).trans (hsignature 0 (by decide))
  · exact (hboot 511 (by decide)).trans (hsignature 1 (by decide))
  · have hfile : ∀ k, m.ide.drives false (512 + k) = contentsOf kernel k := by
      intro k
      rw [hdisk, diskBin_kernel hlen]
    rcases bootmain_cases hb hfile with ⟨hnot, -⟩ | ⟨c, mem, hentry, hsegments, -, -⟩
    · omega
    · exact ⟨c, mem, hentry, hsegments⟩

/-- A boot sector of one instruction, and the small kernel.  The last bytes of the segment are zeros
of the disk. -/
theorem diskBin_boots_small :
    ∃ c mem, bootmain (machineOf (contentsOf (diskBin (mbr [0xF4]) smallKernel)))
        = some (.entry 0x100034 ⟨c, mem⟩)
      ∧ ∀ i < 200, mem (0x100000 + UInt32.ofNat i) = contentsOf smallKernel (0 + i) := by
  have hroom : 2 * totalSectors (contentsOf smallKernel)
      ≤ (machineOf (contentsOf (diskBin (mbr [0xF4]) smallKernel))).ide.room := by
    rw [smallKernel_sectors, machineOf_room]
  obtain ⟨-, -, -, hboots⟩ := diskBin_boots (by decide : [0xF4].length ≤ 510) smallKernel_bootable
    (machineOf_drive (contentsOf (diskBin (mbr [0xF4]) smallKernel)))
  obtain ⟨c, mem, hentry, hsegments⟩ := hboots hroom
  rw [smallKernel_entry] at hentry
  exact ⟨c, mem, hentry, hsegments ⟨0, 0x100000, 200⟩ (by rw [smallKernel_segments]; simp)⟩

end ScratchOs
