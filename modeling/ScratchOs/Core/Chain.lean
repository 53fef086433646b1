import Mathlib.Data.List.Nodup

/-!
# NULL-terminated chains

A singly linked list in memory is a partial successor map `next : α → Option α` on the cells and a
head pointer.  `IsChain next p l` says that following `next` from `p` visits exactly the cells of
`l`, in order, and then meets NULL.

A chain is determined by its head (`IsChain.unique`), so a terminated chain visits no cell twice
(`IsChain.nodup`): the shape facts "finite", "NULL-terminated" and "free of duplicates" all come
with the one predicate, and an invariant of an allocator has to name none of them.  `IsChain.congr`
is the frame rule: writing the link of a cell that is not on the chain changes nothing.

The cells are of any type, and nothing is said about what else a cell holds.
-/

namespace Chain

variable {α : Type*} {next next' : α → Option α}

/-- Following `next` from the pointer visits the cells of the list, in order, and then stops at
NULL. -/
def IsChain (next : α → Option α) : Option α → List α → Prop
  | p, [] => p = none
  | p, a :: l => p = some a ∧ IsChain next (next a) l

/-- The cell is met when following `next` from the pointer.  Unlike `IsChain` this also makes
sense for a chain that does not end. -/
inductive OnChain (next : α → Option α) : Option α → α → Prop
  | head (a : α) : OnChain next (some a) a
  | tail {a b : α} : OnChain next (next a) b → OnChain next (some a) b

@[simp] lemma isChain_nil {p : Option α} : IsChain next p [] ↔ p = none := Iff.rfl

@[simp] lemma isChain_cons {p : Option α} {a : α} {l : List α} :
    IsChain next p (a :: l) ↔ p = some a ∧ IsChain next (next a) l := Iff.rfl

/-- The list a head pointer leads to is unique, because each step is determined by the links. -/
lemma IsChain.unique {p : Option α} {l l' : List α}
    (h : IsChain next p l) (h' : IsChain next p l') : l = l' := by
  induction l generalizing p l' with
  | nil =>
      cases l' with
      | nil => rfl
      | cons b l' => simp_all
  | cons a l ih =>
      cases l' with
      | nil => simp_all
      | cons b l' =>
          obtain ⟨rfl, hl⟩ := h
          obtain ⟨hab, hl'⟩ := h'
          obtain rfl := Option.some.inj hab
          rw [ih hl hl']

/-- Every suffix of a chain is a chain from its own first cell. -/
lemma IsChain.suffix {p : Option α} {l₁ l₂ : List α} {a : α}
    (h : IsChain next p (l₁ ++ a :: l₂)) : IsChain next (some a) (a :: l₂) := by
  induction l₁ generalizing p with
  | nil => exact ⟨rfl, h.2⟩
  | cons b l₁ ih => exact ih h.2

/-- **A terminated chain visits no cell twice**: the two visits would lead to the same remaining
list, and one of those lists is a proper suffix of the other. -/
theorem IsChain.nodup {p : Option α} {l : List α} (h : IsChain next p l) : l.Nodup := by
  induction l generalizing p with
  | nil => exact List.nodup_nil
  | cons a l ih =>
      refine List.nodup_cons.mpr ⟨fun hmem => ?_, ih h.2⟩
      obtain ⟨l₁, l₂, rfl⟩ := List.append_of_mem hmem
      have hfirst : IsChain next (some a) (a :: (l₁ ++ a :: l₂)) := ⟨rfl, h.2⟩
      have hagain : IsChain next (some a) (a :: l₂) := IsChain.suffix h.2
      have hlen := congrArg List.length (hfirst.unique hagain)
      simp only [List.length_cons, List.length_append] at hlen
      omega

/-- Links outside of the chain do not matter: a chain is one for every successor map that agrees
on its cells. -/
lemma IsChain.congr {p : Option α} {l : List α} (h : IsChain next p l)
    (hnext : ∀ a ∈ l, next' a = next a) : IsChain next' p l := by
  induction l generalizing p with
  | nil => exact h
  | cons a l ih =>
      refine ⟨h.1, ?_⟩
      rw [hnext a List.mem_cons_self]
      exact ih h.2 fun b hb => hnext b (List.mem_cons_of_mem _ hb)

/-- A list whose consecutive cells are linked, and whose last link is NULL, is a chain.  This is
how the loop that builds the list is used. -/
lemma isChain_of_links {l : List α}
    (hlink : ∀ i (h : i < l.length), next (l.get ⟨i, h⟩) = l[i + 1]?) :
    IsChain next l.head? l := by
  induction l with
  | nil => rfl
  | cons a l ih =>
      refine ⟨rfl, ?_⟩
      have hhead : next a = l.head? := by
        rw [List.head?_eq_getElem?]
        exact hlink 0 (Nat.succ_pos _)
      rw [hhead]
      exact ih fun i hi => hlink (i + 1) (Nat.succ_lt_succ hi)

lemma IsChain.onChain_iff {p : Option α} {l : List α} (h : IsChain next p l) (a : α) :
    OnChain next p a ↔ a ∈ l := by
  induction l generalizing p with
  | nil =>
      obtain rfl := h
      simp only [List.not_mem_nil, iff_false]
      rintro ⟨⟩
  | cons b l ih =>
      obtain ⟨rfl, hl⟩ := h
      rw [List.mem_cons, ← ih hl]
      constructor
      · rintro (_ | h')
        · exact Or.inl rfl
        · exact Or.inr h'
      · rintro (rfl | h')
        · exact OnChain.head a
        · exact OnChain.tail h'

end Chain
