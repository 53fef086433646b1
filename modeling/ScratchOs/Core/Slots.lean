import Mathlib.Data.List.Induction
import Mathlib.Data.List.Nodup
import Mathlib.Logic.Function.Basic

/-!
# Slots assigned in order

A table of slots, each empty or holding a name, to which a list of assignments is made in order: a
later one to a slot replaces what an earlier one put there.  A name that was replaced is in no slot
any more; where names stand for resources that were taken for the table, it is lost.  A page
directory whose entries are filled by one call after the other is such a table.

* **`assign_last`** — a slot holds what the last assignment to it put there, and `assign_of_not_mem`
  — what it held before when there is none.
* `mem_of_assign` — what a slot of a table that was empty holds, some assignment put there.
* `assign_injective` — if the names are different, none is in two slots.
* `Names m S` — the slots hold exactly the names in `S`, each of them in one slot.
* **`names_assign_iff`** — of different names, every one survives if and only if no slot is assigned
  twice.
-/

namespace Slots

variable {I F : Type*} [DecidableEq I]

/-- The table after the assignments, first to last. -/
def assign (m : I → Option F) (ws : List (I × F)) : I → Option F :=
  ws.foldl (fun m w => Function.update m w.1 (some w.2)) m

variable (m : I → Option F) (ws ws' : List (I × F))

@[simp] lemma assign_nil : assign m [] = m := rfl

lemma assign_append : assign m (ws ++ ws') = assign (assign m ws) ws' := List.foldl_append

/-- The last assignment is made to the table that the others leave. -/
lemma assign_concat (w : I × F) :
    assign m (ws ++ [w]) = Function.update (assign m ws) w.1 (some w.2) := assign_append m ws [w]

variable {m ws ws'}

/-- A slot that nothing is assigned to holds what it held before. -/
lemma assign_of_not_mem {i : I} (h : i ∉ ws.map Prod.fst) : assign m ws i = m i := by
  induction ws using List.reverseRecOn with
  | nil => rw [assign_nil]
  | append_singleton ws w ih =>
      simp only [List.map_append, List.mem_append, List.map_cons, List.map_nil,
        List.mem_singleton, not_or] at h
      rw [assign_concat, Function.update_of_ne h.2]
      exact ih h.1

/-- **The last assignment to a slot wins**, whatever was there before. -/
theorem assign_last {i : I} {f : F} (h : i ∉ ws'.map Prod.fst) :
    assign m (ws ++ (i, f) :: ws') i = some f := by
  rw [List.append_cons, assign_append, assign_of_not_mem h, assign_concat]
  exact Function.update_self _ _ _

/-- What is in a slot that was empty has been put there by an assignment. -/
lemma mem_of_assign {i : I} {f : F} (hempty : m i = none) (h : assign m ws i = some f) :
    (i, f) ∈ ws := by
  induction ws using List.reverseRecOn with
  | nil =>
      rw [assign_nil, hempty] at h
      cases h
  | append_singleton ws w ih =>
      rw [assign_concat] at h
      by_cases hi : i = w.1
      · subst hi
        rw [Function.update_self] at h
        rw [← Option.some.inj h]
        simp
      · rw [Function.update_of_ne hi] at h
        exact List.mem_append_left _ (ih h)

/-- An assignment to a slot that no other one is made to stays. -/
lemma assign_of_mem {i : I} {f : F} (hnodup : (ws.map Prod.fst).Nodup) (h : (i, f) ∈ ws) :
    assign m ws i = some f := by
  induction ws using List.reverseRecOn with
  | nil => cases h
  | append_singleton ws w ih =>
      rw [List.map_append, List.nodup_append] at hnodup
      rw [assign_concat]
      rcases List.mem_append.mp h with hold | hlast
      · have hne : i ≠ w.1 :=
          hnodup.2.2 i (List.mem_map_of_mem hold) w.1 (List.mem_map_of_mem List.mem_cons_self)
        rw [Function.update_of_ne hne]
        exact ih hnodup.1 hold
      · rw [← List.mem_singleton.mp hlast, Function.update_self]

/-- A name that is assigned once is in one slot at most. -/
lemma assign_injective {i j : I} {f : F} (hempty : ∀ i, m i = none)
    (hnodup : (ws.map Prod.snd).Nodup) (hi : assign m ws i = some f) (hj : assign m ws j = some f) :
    i = j := by
  have hi' := mem_of_assign (hempty i) hi
  have hj' := mem_of_assign (hempty j) hj
  exact congrArg Prod.fst (List.inj_on_of_nodup_map hnodup hi' hj' rfl)

/-- The slots hold exactly the names in `S`, each of them in one slot. -/
structure Names (m : I → Option F) (S : Set F) : Prop where
  named : ∀ f, f ∈ S ↔ ∃ i, m i = some f
  once : ∀ f ∈ S, ∃! i, m i = some f

/-- **Different names, assigned to empty slots**, all survive if and only if no slot is assigned
twice.  The condition is on the list of assignments alone. -/
theorem names_assign_iff (hempty : ∀ i, m i = none) (hnodup : (ws.map Prod.snd).Nodup) :
    Names (assign m ws) {f | f ∈ ws.map Prod.snd} ↔ (ws.map Prod.fst).Nodup := by
  constructor
  · intro hnames
    have hkept : ∀ w ∈ ws, assign m ws w.1 = some w.2 := by
      intro w hw
      rcases (hnames.named w.2).mp (List.mem_map_of_mem hw) with ⟨j, hj⟩
      -- the slot that holds the name can only be the one it was assigned to
      have hslot := List.inj_on_of_nodup_map hnodup hw (mem_of_assign (hempty j) hj) rfl
      rw [hslot]
      exact hj
    refine List.Nodup.map_on (fun v hv w hw heq => Prod.ext heq ?_) (List.Nodup.of_map _ hnodup)
    have hv' := hkept v hv
    rw [heq, hkept w hw] at hv'
    exact (Option.some.inj hv').symm
  · intro hslots
    have hheld : ∀ f ∈ ws.map Prod.snd, ∃ i, (i, f) ∈ ws := by
      intro f hf
      rcases List.mem_map.mp hf with ⟨w, hw, rfl⟩
      exact ⟨w.1, hw⟩
    constructor
    · intro f
      constructor
      · intro hf
        rcases hheld f hf with ⟨i, hi⟩
        exact ⟨i, assign_of_mem hslots hi⟩
      · rintro ⟨i, hi⟩
        have hw := mem_of_assign (hempty i) hi
        exact List.mem_map.mpr ⟨_, hw, rfl⟩
    · intro f hf
      rcases hheld f hf with ⟨i, hi⟩
      have hi' : assign m ws i = some f := assign_of_mem hslots hi
      exact ⟨i, hi', fun j hj => assign_injective hempty hnodup hj hi'⟩

end Slots
