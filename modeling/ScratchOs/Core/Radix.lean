import Mathlib.Logic.Function.Basic

/-!
# Two-level tables

A translation that takes two steps: an entry of the root page names a table page, an entry of that
page names the result.  Pages, indices and entries are arbitrary types; `target` says which page an
entry names, if any.  The page tables of x86 are of this kind, and nothing more about them is needed
here.

The tables lie in the memory that is translated, so that one store can change an entry, a table, or
the root itself.  The lemmas say what one store into the memory does to the translation of a root,
under the condition that tells these cases apart.

* `walk_row_congr` — a row depends on its own root entry and on the one table it names.
* `walk_set_root_of_some` — a store that only makes an absent root entry present keeps every
  translation there was.
-/

namespace Radix

variable {F I E : Type*}

/-- The translation of the root: row `i` is the table that the root names at `i`, column `j` its
entry. -/
def walk (target : E → Option F) (mem : F → I → E) (root : F) (i j : I) : Option F :=
  (target (mem root i)).bind fun table => target (mem table j)

/-- The root names the page as one of its tables. -/
def IsTable (target : E → Option F) (mem : F → I → E) (root table : F) : Prop :=
  ∃ i, target (mem root i) = some table

variable {target : E → Option F} {mem mem' : F → I → E} {root page : F}

/-- A row depends on its root entry and on the table that this names, and on no other page. -/
lemma walk_row_congr {i : I} (hroot : target (mem' root i) = target (mem root i))
    (htable : ∀ table, target (mem root i) = some table → mem' table = mem table) :
    walk target mem' root i = walk target mem root i := by
  funext j
  rw [walk, walk, hroot]
  cases h : target (mem root i) with
  | none => rfl
  | some table => rw [Option.bind_some, Option.bind_some, htable table h]

/-- Memories that agree on the root and on its tables translate alike. -/
lemma walk_congr (hroot : mem' root = mem root)
    (htable : ∀ table, IsTable target mem root table → mem' table = mem table) :
    walk target mem' root = walk target mem root := by
  funext i
  exact walk_row_congr (by rw [hroot]) fun table h => htable table ⟨i, h⟩

/-! ## One store -/

variable [DecidableEq F] [DecidableEq I]

/-- The memory after an entry has been stored into a page. -/
def set (mem : F → I → E) (page : F) (i : I) (e : E) : F → I → E :=
  Function.update mem page (Function.update (mem page) i e)

@[simp] lemma set_self (mem : F → I → E) (page : F) (i : I) (e : E) :
    set mem page i e page i = e := by
  simp [set]

lemma set_of_index_ne (mem : F → I → E) (page : F) {i j : I} (e : E) (h : j ≠ i) :
    set mem page i e page j = mem page j := by
  simp [set, h]

lemma set_of_page_ne (mem : F → I → E) {page q : F} (i : I) (e : E) (h : q ≠ page) :
    set mem page i e q = mem q := by
  simp [set, h]

/-- The later of two stores into the same entry counts. -/
@[simp] lemma set_set (mem : F → I → E) (page : F) (i : I) (e e' : E) :
    set (set mem page i e) page i e' = set mem page i e' := by
  simp [set]

/-- A store into the root that keeps what a present entry names keeps every translation.  The
root must not be a table of its own, or the store would also change a row. -/
lemma walk_set_root_of_some {i : I} {e : E} (hself : ¬ IsTable target mem root root)
    (hkeep : ∀ table, target (mem root i) = some table → target e = some table)
    {d j : I} {f : F} (h : walk target mem root d j = some f) :
    walk target (set mem root i e) root d j = some f := by
  rw [walk, Option.bind_eq_some_iff] at h
  obtain ⟨table, htable, hf⟩ := h
  have hne : table ≠ root := fun heq => hself ⟨d, heq ▸ htable⟩
  have hrow : target (set mem root i e root d) = some table := by
    by_cases hd : d = i
    · subst hd
      rw [set_self, hkeep table htable]
    · rw [set_of_index_ne mem root e hd, htable]
  rw [walk, hrow, Option.bind_some, set_of_page_ne mem i e hne, hf]

end Radix
