import Mathlib.Logic.Function.Basic
import ScratchOs.Core.Bytes

/-!
# Files

What a C program sees of regular files through `stdio`.

An open file is a string of bytes and a position in it.  A short read means the end of the file,
and a write past the end fills the gap with zeros.

The files of a machine are named by paths, and several paths may name one file: `a` and `./a` do,
and so do hard and symbolic links.  A program that writes one path while it reads another therefore
works as intended only when the two name different files.

* **`getElem?_overwrite`** — the bytes of a file after a write, one by one.
* `read_inside` — a read that does not reach the end of the file fills its buffer.
* `FileSystem` — paths and files; `get_put_of_ne` says when a write leaves a path alone.
-/

namespace Files

open Bytes

/-- An open file: its bytes, and the position at which it is read and written. -/
structure Handle where
  bytes : List UInt8
  pos : ℕ

/-- The contents of a file after a write at a position. -/
def overwrite (bytes : List UInt8) (pos : ℕ) (data : List UInt8) : List UInt8 :=
  bytes.take pos ++ List.replicate (pos - bytes.length) 0 ++ data
    ++ bytes.drop (pos + data.length)

/-- **The bytes after a write**, one by one: those before the position, with zeros where the file
was shorter, those written, and what is left of the old ones. -/
lemma getElem?_overwrite (bytes : List UInt8) (pos : ℕ) (data : List UInt8) (i : ℕ) :
    (overwrite bytes pos data)[i]? =
      if i < pos then some ((bytes[i]?).getD 0)
      else if i < pos + data.length then data[i - pos]?
      else bytes[i]? := by
  have htake : (bytes.take pos).length = min pos bytes.length := List.length_take
  have hfront : (bytes.take pos ++ List.replicate (pos - bytes.length) (0 : UInt8)).length
      = pos := by
    rw [List.length_append, htake, List.length_replicate]
    omega
  rw [overwrite, List.append_assoc]
  by_cases hlo : i < pos
  · rw [if_pos hlo, List.getElem?_append_left (by omega)]
    by_cases hlen : i < bytes.length
    · rw [List.getElem?_append_left (by omega), List.getElem?_take_of_lt hlo,
        List.getElem?_eq_getElem hlen]
      rfl
    · rw [List.getElem?_append_right (by omega), List.getElem?_replicate, if_pos (by omega),
        List.getElem?_eq_none (by omega)]
      rfl
  · rw [if_neg hlo, List.getElem?_append_right (by omega), hfront]
    by_cases hhi : i < pos + data.length
    · rw [if_pos hhi, List.getElem?_append_left (by omega)]
    · rw [if_neg hhi, List.getElem?_append_right (by omega), List.getElem?_drop]
      congr 1
      omega

/-- What `fread` gives: how many bytes there were, the buffer, and the file with its position after
them. -/
structure ReadResult (n : ℕ) where
  count : ℕ
  buffer : Buffer n
  file : Handle

namespace Handle

variable {n : ℕ}

/-- The file after `fseek(f, pos, SEEK_SET)`. -/
def seek (f : Handle) (pos : ℕ) : Handle := { f with pos := pos }

/-- The file after `fwrite`.  Writing nothing does nothing, not even past the end. -/
def write (f : Handle) (data : List UInt8) : Handle :=
  if data = [] then f else ⟨overwrite f.bytes f.pos data, f.pos + data.length⟩

/-- `fread` into a whole buffer.  Past the end of the file the buffer keeps what it had. -/
def read (f : Handle) (b : Buffer n) : ReadResult n :=
  let count := min n (f.bytes.length - f.pos)
  { count := count
    buffer := fun i => (f.bytes[f.pos + i.val]?).getD (b i)
    file := { f with pos := f.pos + count } }

/-- The file after a whole buffer has been written. -/
def writeBuffer (f : Handle) (b : Buffer n) : Handle := f.write (List.ofFn b)

@[simp] lemma bytes_seek (f : Handle) (pos : ℕ) : (f.seek pos).bytes = f.bytes := rfl

@[simp] lemma bytes_read (f : Handle) (b : Buffer n) : (f.read b).file.bytes = f.bytes := rfl

lemma ofFn_ne_nil (b : Buffer n) (hn : 0 < n) : List.ofFn b ≠ [] := by
  intro h
  have hlen := congrArg List.length h
  rw [List.length_ofFn, List.length_nil] at hlen
  omega

lemma pos_writeBuffer (f : Handle) (b : Buffer n) (hn : 0 < n) :
    (f.writeBuffer b).pos = f.pos + n := by
  rw [writeBuffer, write, if_neg (ofFn_ne_nil b hn), List.length_ofFn]

/-- **The bytes of a file after a buffer has been written**, which is how every block of the disk
is written. -/
lemma getElem?_writeBuffer (f : Handle) (b : Buffer n) (hn : 0 < n) (i : ℕ) :
    (f.writeBuffer b).bytes[i]? =
      if i < f.pos then some ((f.bytes[i]?).getD 0)
      else if i < f.pos + n then some (byteAt b (i - f.pos))
      else f.bytes[i]? := by
  rw [writeBuffer, write, if_neg (ofFn_ne_nil b hn)]
  simp only [getElem?_overwrite, List.length_ofFn]
  by_cases hlo : i < f.pos
  · rw [if_pos hlo, if_pos hlo]
  · rw [if_neg hlo, if_neg hlo]
    by_cases hhi : i < f.pos + n
    · have hin : i - f.pos < n := by omega
      rw [if_pos hhi, if_pos hhi, byteAt_of_lt _ hin, List.getElem?_ofFn, dif_pos hin]
    · rw [if_neg hhi, if_neg hhi]

/-- The same behind an `fseek`. -/
lemma getElem?_seek_writeBuffer (f : Handle) (p : ℕ) (b : Buffer n) (hn : 0 < n) (i : ℕ) :
    ((f.seek p).writeBuffer b).bytes[i]? =
      if i < p then some ((f.bytes[i]?).getD 0)
      else if i < p + n then some (byteAt b (i - p))
      else f.bytes[i]? :=
  getElem?_writeBuffer (f.seek p) b hn i

/-- **A read inside of the file** does not depend on what was in the buffer before. -/
lemma read_inside (f : Handle) (b : Buffer n) {b' : Buffer n}
    (h : ∀ i < n, f.bytes[f.pos + i]? = some (byteAt b' i)) : (f.read b).buffer = b' := by
  funext i
  show (f.bytes[f.pos + i.val]?).getD (b i) = b' i
  rw [h i.val i.isLt, byteAt_of_lt _ i.isLt]
  rfl

/-- A read from an empty file leaves the buffer as it was. -/
lemma read_nil (f : Handle) (hf : f.bytes = []) (b : Buffer n) : (f.read b).buffer = b := by
  funext i
  show (f.bytes[f.pos + i.val]?).getD (b i) = b i
  rw [hf, List.getElem?_nil, Option.getD_none]

/-- The position after a read that does not reach the end of the file. -/
lemma file_read_inside (f : Handle) (b : Buffer n) (h : n ≤ f.bytes.length - f.pos) :
    (f.read b).file = f.seek (f.pos + n) := by
  show Handle.mk f.bytes (f.pos + min n (f.bytes.length - f.pos)) = _
  rw [Nat.min_eq_left h]
  rfl

/-- A read that gives something leaves less to read.  The loops that read to the end of a file
end because of this. -/
lemma read_shrinks (f : Handle) (b : Buffer n) (h : (f.read b).count ≠ 0) :
    (f.read b).file.bytes.length - (f.read b).file.pos < f.bytes.length - f.pos := by
  have hcount : min n (f.bytes.length - f.pos) ≠ 0 := h
  show f.bytes.length - (f.pos + min n (f.bytes.length - f.pos)) < f.bytes.length - f.pos
  omega

/-- Writing at the end of a file appends to it. -/
lemma write_at_end (bytes data : List UInt8) :
    (Handle.mk bytes bytes.length).write data = ⟨bytes ++ data, (bytes ++ data).length⟩ := by
  rw [write]
  by_cases h : data = []
  · rw [if_pos h, h, List.append_nil]
  · rw [if_neg h]
    simp [overwrite]

end Handle

/-! ## Paths

Which file a path names does not change while the programs run: they create no links and rename
nothing.  The number of a file stands for its inode.
-/

/-- The files of a machine.  A path names a file, whether that file exists or not, and a file that
exists has contents. -/
structure FileSystem (Path : Type) where
  file : Path → ℕ
  contents : ℕ → Option (List UInt8)

namespace FileSystem

variable {Path : Type} (fs : FileSystem Path) (p q : Path) (bytes : List UInt8)

/-- What a path holds.  Opening it with `"rb"` fails if there is no such file. -/
def get : Option (List UInt8) := fs.contents (fs.file p)

/-- The file at a path has been written.  `fopen(p, "wb")` writes no bytes at all: it creates the
file, and empties one that exists. -/
def put : FileSystem Path := { fs with contents := Function.update fs.contents (fs.file p) bytes }

@[simp] lemma file_put : (fs.put p bytes).file = fs.file := rfl

/-- A path that names the file that has been written reads what was written. -/
lemma get_put_of_eq (h : fs.file q = fs.file p) : (fs.put p bytes).get q = some bytes := by
  rw [get, file_put, h]
  exact Function.update_self _ _ _

@[simp] lemma get_put_self : (fs.put p bytes).get p = some bytes := get_put_of_eq fs p p bytes rfl

/-- **A path that names another file** reads what it did. -/
lemma get_put_of_ne (h : fs.file q ≠ fs.file p) : (fs.put p bytes).get q = fs.get q := by
  rw [get, file_put]
  exact Function.update_of_ne h _ _

end FileSystem

end Files
