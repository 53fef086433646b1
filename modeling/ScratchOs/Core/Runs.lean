import Mathlib.Data.Int.Notation
import Mathlib.Data.List.Basic
import Mathlib.Data.List.Induction
import Mathlib.Logic.Function.Iterate

/-!
# Runs of a labelled step relation

A program that is driven by a sequence of inputs is a relation `step : σ → ι → σ → Prop`: from a
state, under one input, to a next state.  This file has the induction such programs share, so that
each of them only says what one step does.

**Runs.**  `Run step s is s'` says that performing the inputs `is` in order leads from `s` to `s'`.

* **`Run.invariant`** — what one step preserves, a whole run preserves.  The step lemma may assume a
  condition on the input, and then every input of the run must meet it.
* `run_append` — a run over `is ++ js` is a run over `is` followed by one over `js`, so a statement
  about the end of every run is a statement about every state reached on the way.

**Looking back.**  Whether a call of an allocator is misuse depends on the calls before it.
`Along P is` says that every input of `is` has `P`, which may look at the inputs before it.

* **`Run.history`**, **`Run.along_iff`** — an invariant that looks back at the inputs; where the
  condition it needs is what a step needs not to go wrong, no step goes wrong exactly along it.

**Functions that can fail.**  C code that would be undefined has no result, so its runs are folds in
`Option`.

* **`foldlM_simulates`** — a step function that follows one that cannot fail does not fail either,
  and its runs follow the other's.
* `Keeps I f` — the program `f` does not fail from states with `I`, and keeps it; `forTo n f` — the
  counting loops of a C program.

**Interleaving.**  **`interleaved_invariant`** — what holds of a program after each number of its
steps still holds when others take steps in between, as long as those keep it.
-/

namespace Runs

variable {σ ι : Type*} {step : σ → ι → σ → Prop}

/-- Performing the inputs in order leads from the first state to the last. -/
inductive Run (step : σ → ι → σ → Prop) : σ → List ι → σ → Prop
  | nil (s : σ) : Run step s [] s
  | cons {s t u : σ} {i : ι} {is : List ι} : step s i t → Run step t is u → Run step s (i :: is) u

@[simp] lemma run_nil {s s' : σ} : Run step s [] s' ↔ s' = s := by
  constructor
  · rintro ⟨⟩
    rfl
  · rintro rfl
    exact Run.nil _

lemma run_cons {s s' : σ} {i : ι} {is : List ι} :
    Run step s (i :: is) s' ↔ ∃ t, step s i t ∧ Run step t is s' := by
  constructor
  · rintro (_ | ⟨hstep, hrun⟩)
    exact ⟨_, hstep, hrun⟩
  · rintro ⟨t, hstep, hrun⟩
    exact Run.cons hstep hrun

lemma run_single {s s' : σ} {i : ι} : Run step s [i] s' ↔ step s i s' := by
  simp [run_cons]

/-- A run splits at any point of its inputs. -/
lemma run_append {s s' : σ} {is js : List ι} :
    Run step s (is ++ js) s' ↔ ∃ t, Run step s is t ∧ Run step t js s' := by
  induction is generalizing s with
  | nil => simp
  | cons i is ih =>
      simp only [List.cons_append, run_cons, ih]
      constructor
      · rintro ⟨t, hstep, u, hu, hrest⟩
        exact ⟨u, ⟨t, hstep, hu⟩, hrest⟩
      · rintro ⟨u, ⟨t, hstep, hu⟩, hrest⟩
        exact ⟨t, hstep, u, hu, hrest⟩

/-- **What a step preserves, a run preserves.**  `C` is what the step lemma needs of the input;
with `run_append` the conclusion is about every state on the way. -/
theorem Run.invariant {I : σ → Prop} {C : ι → Prop}
    (hstep : ∀ s i s', I s → C i → step s i s' → I s')
    {s s' : σ} {is : List ι} (hrun : Run step s is s') (hC : ∀ i ∈ is, C i) (hs : I s) : I s' := by
  induction hrun with
  | nil => exact hs
  | cons h _ ih =>
      refine ih (fun i hi => hC i (List.mem_cons_of_mem _ hi)) ?_
      exact hstep _ _ _ hs (hC _ List.mem_cons_self) h

/-! ## Conditions on the inputs before

A condition on an input that may look at the inputs before it.  It is the shape of an honest usage
rule: "release only what you hold" speaks about what has been taken and given back so far.
-/

/-- Every input of the list has the property, which may depend on the inputs before it. -/
def Along (P : List ι → ι → Prop) (is : List ι) : Prop :=
  ∀ ms i ns, is = ms ++ i :: ns → P ms i

section Along

variable {P : List ι → ι → Prop} {is : List ι}

lemma along_nil : Along P [] := by
  intro ms i ns h
  exact absurd h.symm (by simp)

lemma along_cons {i : ι} : Along P (i :: is) ↔ P [] i ∧ Along (fun ms => P (i :: ms)) is := by
  constructor
  · intro h
    exact ⟨h [] i is rfl, fun ms j ns heq => h (i :: ms) j ns (by rw [heq, List.cons_append])⟩
  · rintro ⟨hi, h⟩ ms j ns heq
    cases ms with
    | nil =>
        rcases List.cons.inj heq with ⟨rfl, -⟩
        exact hi
    | cons a ms =>
        rcases List.cons.inj heq with ⟨rfl, htail⟩
        exact h ms j ns htail

lemma along_concat {i : ι} : Along P (is ++ [i]) ↔ Along P is ∧ P is i := by
  constructor
  · intro h
    refine ⟨fun ms j ns heq => h ms j (ns ++ [i]) ?_, h is i [] rfl⟩
    simp [heq]
  · rintro ⟨h, hi⟩ ms j ns heq
    rcases ns.eq_nil_or_concat with rfl | ⟨ns, a, rfl⟩
    · -- the last input
      rcases List.append_inj' heq rfl with ⟨rfl, hj⟩
      rcases List.cons.inj hj with ⟨rfl, -⟩
      exact hi
    · rw [List.concat_eq_append, ← List.cons_append, ← List.append_assoc] at heq
      exact h ms j ns (List.append_inj' heq rfl).1

/-- **An invariant that looks back** at the inputs, and holds for as long as each of them meets a
condition that may look back as well. -/
theorem Run.history {I : List ι → σ → Prop}
    (hstep : ∀ ms s i t, I ms s → P ms i → step s i t → I (ms ++ [i]) t)
    {s s' : σ} (hrun : Run step s is s') (hP : Along P is) (hs : I [] s) : I is s' := by
  induction is using List.reverseRecOn generalizing s' with
  | nil =>
      rw [run_nil.mp hrun]
      exact hs
  | append_singleton is i ih =>
      rcases run_append.mp hrun with ⟨t, hbefore, hlast⟩
      rcases along_concat.mp hP with ⟨hP, hi⟩
      exact hstep is t i s' (ih hbefore hP) hi (run_single.mp hlast)

/-- **Exactly when no step goes wrong.**  If the condition keeps the invariant, makes a step go
right, and has to hold where a step is taken and goes right, then every step of a run goes right if
and only if every input meets the condition. -/
theorem Run.along_iff {I : List ι → σ → Prop} {Q : σ → ι → Prop}
    (hstep : ∀ ms s i t, I ms s → P ms i → step s i t → I (ms ++ [i]) t)
    (hright : ∀ ms s i, I ms s → P ms i → Q s i)
    (hneed : ∀ ms s i t, I ms s → step s i t → Q s i → P ms i)
    {s s' : σ} (hrun : Run step s is s') (hs : I [] s) :
    (∀ ms i ns t, is = ms ++ i :: ns → Run step s ms t → Q t i) ↔ Along P is := by
  constructor
  · intro hall
    induction is using List.reverseRecOn generalizing s' with
    | nil => exact along_nil
    | append_singleton is i ih =>
        rcases run_append.mp hrun with ⟨t, hbefore, hlast⟩
        have hP : Along P is := ih hbefore fun ms j ns u heq hu =>
          hall ms j (ns ++ [i]) u (by simp [heq]) hu
        have hI := hbefore.history hstep hP hs
        have hQ := hall is i [] t rfl hbefore
        exact along_concat.mpr ⟨hP, hneed is t i s' hI (run_single.mp hlast) hQ⟩
  · rintro hP ms i ns t rfl ht
    have hbefore : Along P ms := fun ms' j ns' heq => hP ms' j (ns' ++ i :: ns) (by simp [heq])
    exact hright ms t i (ht.history hstep hbefore hs) (hP ms i ns rfl)

end Along

/-! ## Runs of a function that can fail

C code is a function into `Option` here, which has no result where the code would be undefined.  A
simulation of such a function by a total one says that the undefined case is never reached.
-/

/-- **A simulation carries over to runs.**  `f` is the program and may fail, `g` says what it is for
and may not.  If `f` follows `g` from related states, a run of `f` never fails and ends in a state
related to the one `g` ends in. -/
theorem foldlM_simulates {τ : Type*} {f : σ → ι → Option σ} {g : τ → ι → τ} {R : τ → σ → Prop}
    (hstep : ∀ t s i, R t s → ∃ s', f s i = some s' ∧ R (g t i) s') (is : List ι) {t : τ} {s : σ}
    (h : R t s) : ∃ s', is.foldlM f s = some s' ∧ R (is.foldl g t) s' := by
  induction is generalizing t s with
  | nil => exact ⟨s, rfl, h⟩
  | cons i is ih =>
      obtain ⟨s₁, hok, h₁⟩ := hstep t s i h
      obtain ⟨s', hrest, h'⟩ := ih h₁
      refine ⟨s', ?_, h'⟩
      rw [List.foldlM_cons, hok]
      exact hrest

/-- What a step of a function that can fail preserves, its runs preserve. -/
lemma foldlM_invariant {f : σ → ι → Option σ} {I : σ → Prop}
    (hstep : ∀ s i s', I s → f s i = some s' → I s') {is : List ι} {s s' : σ} (h : I s)
    (hrun : is.foldlM f s = some s') : I s' := by
  induction is generalizing s with
  | nil =>
      cases hrun
      exact h
  | cons i is ih =>
      rw [List.foldlM_cons] at hrun
      rcases Option.bind_eq_some_iff.mp hrun with ⟨t, ht, hrest⟩
      exact ih (hstep s i t h ht) hrest

/-- **A program that never fails** from states with a property, and keeps the property. -/
def Keeps (I : σ → Prop) (f : σ → Option σ) : Prop := ∀ s, I s → ∃ s', f s = some s' ∧ I s'

section Keeps

variable {I : σ → Prop} {f g : σ → Option σ}

/-- One program after the other keeps what both of them keep. -/
lemma Keeps.seq (hf : Keeps I f) (hg : Keeps I g) : Keeps I fun s => (f s).bind g := by
  intro s hs
  rcases hf s hs with ⟨t, hok, ht⟩
  rcases hg t ht with ⟨u, hok', hu⟩
  exact ⟨u, by simp [hok, hok'], hu⟩

/-- A program that is run for each input of a list keeps what it keeps for one. -/
lemma Keeps.foldlM {f : σ → ι → Option σ} (hf : ∀ i, Keeps I fun s => f s i) (is : List ι) :
    Keeps I fun s => is.foldlM f s := by
  intro s hs
  exact foldlM_simulates (R := fun _ s => I s) (g := fun (_ : Unit) _ => ())
    (fun _ s i hs => hf i s hs) is (t := ()) hs

end Keeps

/-! ## Counting loops

A C loop with a counter, over any state.  A bound that is not positive gives no rounds at all, as in
C.
-/

/-- `for (int i = 0; i < n; i++)`, with a body that can fail. -/
def forTo (n : ℤ) (f : σ → ℤ → Option σ) (s : σ) : Option σ :=
  (List.range n.toNat).foldlM (fun s (i : ℕ) => f s i) s

/-- The last round of a loop comes behind the others, which are a shorter loop. -/
lemma forTo_succ (m : ℕ) (f : σ → ℤ → Option σ) :
    forTo (m + 1 : ℕ) f = fun s => (forTo m f s).bind fun s => f s m := by
  funext s
  simp [forTo, List.range_succ, List.foldlM_append]

/-- A loop keeps what each of its rounds keeps. -/
lemma Keeps.forTo {I : σ → Prop} {f : σ → ℤ → Option σ} (hf : ∀ i, Keeps I fun s => f s i)
    (n : ℤ) : Keeps I (Runs.forTo n f) :=
  Keeps.foldlM (fun i : ℕ => hf i) (List.range n.toNat)

/-! ## Interleaving

A program and other agents take turns.  The program has one step function; what the others do is
given by a label and can fail.  The program does not know whose turn it is.
-/

/-- Whose turn it is: the program takes a step, or something else happens. -/
inductive Turn (ι : Type*)
  | step
  | other (i : ι)

/-- The program with other steps in between, which can fail. -/
def interleaved (step : σ → σ) (other : ι → σ → Option σ) : List (Turn ι) → σ → Option σ
  | [], s => some s
  | .step :: turns, s => interleaved step other turns (step s)
  | .other i :: turns, s => (other i s).bind (interleaved step other turns)

/-- How many steps the program takes. -/
def ownSteps : List (Turn ι) → ℕ
  | [] => 0
  | .step :: turns => ownSteps turns + 1
  | .other _ :: turns => ownSteps turns

/-- **The other steps are not noticed.**  `R n` says what holds of the state when the program has
taken `n` steps, for instance that it is like the one in which the program is after `n` steps alone.
If the program's next step leads from `R n` to `R (n + 1)`, and a step of somebody else does not
fail where `R n` holds and keeps it, then the whole run does not fail, and `R` holds at its end for
the number of steps that the program has taken.  The steps of the others are not counted, so `R`
must not depend on how many there were. -/
theorem interleaved_invariant {step : σ → σ} {other : ι → σ → Option σ} (turns : List (Turn ι))
    {R : ℕ → σ → Prop} (hstep : ∀ n < ownSteps turns, ∀ s, R n s → R (n + 1) (step s))
    (hother : ∀ n ≤ ownSteps turns, ∀ i s, R n s → ∃ s', other i s = some s' ∧ R n s')
    {s : σ} (h : R 0 s) :
    ∃ s', interleaved step other turns s = some s' ∧ R (ownSteps turns) s' := by
  induction turns generalizing R s with
  | nil => exact ⟨s, rfl, h⟩
  | cons turn turns ih =>
      cases turn with
      | step =>
          -- the rest of the run starts one step later
          have hrest := ih (R := fun n => R (n + 1))
            (fun n hn => hstep (n + 1) (Nat.succ_lt_succ hn))
            (fun n hn => hother (n + 1) (Nat.succ_le_succ hn))
            (hstep 0 (Nat.succ_pos _) s h)
          exact hrest
      | other i =>
          obtain ⟨s₁, hok, h₁⟩ := hother 0 (Nat.zero_le _) i s h
          obtain ⟨s', hrest, h'⟩ := ih hstep hother h₁
          exact ⟨s', by rw [interleaved, hok, Option.bind_some, hrest], h'⟩

end Runs
