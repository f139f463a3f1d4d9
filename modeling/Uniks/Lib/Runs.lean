/-
  Runs of a labelled transition system, and the one induction every safety result needs.

  A system is a step relation `step : σ → ι → σ → Prop` (from a state, under an input, to a
  state).  `Within step cond` keeps the steps whose input meets a condition on the state BEFORE
  the step; its reflexive-transitive closure is "a run whose steps all meet the condition".
  `cond := fun _ _ => True` gives the unrestricted runs.
-/
import Mathlib.Logic.Relation

namespace Uniks.Runs

variable {σ ι : Type}

/-- One step taken under some input that meets `cond` in the state it starts from. -/
def Within (step : σ → ι → σ → Prop) (cond : σ → ι → Prop) (s s' : σ) : Prop :=
  ∃ i, cond s i ∧ step s i s'

/-- Runs: finitely many steps, each meeting `cond` in the state it starts from. -/
def Reaches (step : σ → ι → σ → Prop) (cond : σ → ι → Prop) : σ → σ → Prop :=
  Relation.ReflTransGen (Within step cond)

/-- Every input is allowed. -/
def anyInput : σ → ι → Prop := fun _ _ => True

variable {step : σ → ι → σ → Prop} {cond : σ → ι → Prop} {I : σ → Prop} {s s' s'' : σ} {i : ι}

theorem Reaches.refl : Reaches step cond s s := Relation.ReflTransGen.refl

theorem Reaches.snoc (h : Reaches step cond s s') (hc : cond s' i) (hs : step s' i s'') :
    Reaches step cond s s'' :=
  Relation.ReflTransGen.tail h ⟨i, hc, hs⟩

theorem Reaches.trans (h : Reaches step cond s s') (h' : Reaches step cond s' s'') :
    Reaches step cond s s'' :=
  Relation.ReflTransGen.trans h h'

/-- A run under a condition is a run. -/
theorem Reaches.anyInput (h : Reaches step cond s s') : Reaches step Runs.anyInput s s' := by
  induction h with
  | refl => exact Reaches.refl
  | tail _ hlast ih =>
    obtain ⟨i, -, hs⟩ := hlast
    exact ih.snoc trivial hs

/-- What every step preserves holds in every state a run reaches. -/
theorem Reaches.invariant (h : Reaches step cond s s') (h0 : I s)
    (hstep : ∀ a i b, I a → cond a i → step a i b → I b) : I s' := by
  induction h with
  | refl => exact h0
  | tail _ hlast ih =>
    obtain ⟨i, hc, hs⟩ := hlast
    exact hstep _ i _ ih hc hs

/-! ## Runs of a deterministic system, given by their inputs -/

/-- The state after a list of inputs; `none` if one of them is not possible. -/
def runAll (next : σ → ι → Option σ) : σ → List ι → Option σ
  | s, [] => some s
  | s, i :: is => (next s i).bind fun s' => runAll next s' is

theorem runAll_reaches {next : σ → ι → Option σ}
    (hnext : ∀ s i s', next s i = some s' → cond s i ∧ step s i s') :
    ∀ {is : List ι} {s s' : σ}, runAll next s is = some s' → Reaches step cond s s' := by
  intro is
  induction is with
  | nil =>
    intro s s' h
    cases h
    exact Reaches.refl
  | cons i is ih =>
    intro s s' h
    unfold runAll at h
    obtain ⟨t, ht, hrest⟩ := Option.bind_eq_some_iff.mp h
    obtain ⟨hc, hs⟩ := hnext s i t ht
    exact (Reaches.refl.snoc hc hs).trans (ih hrest)

/-- The step under an input, taken only in a state in which the input meets a condition. -/
def guarded (C : σ → ι → Prop) [∀ s i, Decidable (C s i)] (next : σ → ι → Option σ) (s : σ) (i : ι) :
    Option σ :=
  if C s i then next s i else none

theorem guarded_step {C : σ → ι → Prop} [∀ s i, Decidable (C s i)] {next : σ → ι → Option σ}
    (s : σ) (i : ι) (s' : σ) (h : guarded C next s i = some s') : C s i ∧ next s i = some s' := by
  unfold guarded at h
  split at h
  · rename_i hc
    exact ⟨hc, h⟩
  · cases h

/-- The step under an input that has to pass a test. -/
abbrev tested (test : σ → ι → Bool) : (σ → ι → Option σ) → σ → ι → Option σ :=
  guarded fun s i => test s i = true

theorem tested_step {test : σ → ι → Bool} {next : σ → ι → Option σ}
    (htest : ∀ s i, test s i = true → cond s i) (hnext : ∀ s i s', next s i = some s' → step s i s')
    (s : σ) (i : ι) (s' : σ) (h : tested test next s i = some s') : cond s i ∧ step s i s' := by
  obtain ⟨hpass, hs⟩ := guarded_step s i s' h
  exact ⟨htest s i hpass, hnext s i s' hs⟩

/-- The inputs, one after the other, lead to a state with the property `p`.  Where the step computes
    and `p` is decidable, this is computed. -/
def Leads (next : σ → ι → Option σ) (s : σ) (is : List ι) (p : σ → Prop) : Prop :=
  ∃ s', runAll next s is = some s' ∧ p s'

instance {next : σ → ι → Option σ} {is : List ι} {p : σ → Prop} [DecidablePred p] :
    Decidable (Leads next s is p) :=
  decidable_of_iff ((runAll next s is).any fun s' => decide (p s')) (by
    simp only [Leads, Option.any_eq_true, decide_eq_true_eq])

theorem Leads.reaches {next : σ → ι → Option σ} {is : List ι} {p : σ → Prop}
    (h : Leads next s is p) (step : σ → ι → σ → Prop) (cond : σ → ι → Prop)
    (hnext : ∀ s i s', next s i = some s' → cond s i ∧ step s i s') :
    ∃ s', Reaches step cond s s' ∧ p s' := by
  obtain ⟨s', hrun, hp⟩ := h
  exact ⟨s', runAll_reaches hnext hrun, hp⟩

/-- The same under a condition that the inputs meet in every state. -/
theorem Leads.reaches_of_mem {next : σ → ι → Option σ} {is : List ι} {p : σ → Prop}
    (h : Leads next s is p) (step : σ → ι → σ → Prop) (cond : σ → ι → Prop)
    (hcond : ∀ i ∈ is, ∀ s, cond s i) (hnext : ∀ s i s', next s i = some s' → step s i s') :
    ∃ s', Reaches step cond s s' ∧ p s' := by
  obtain ⟨s', hrun, hp⟩ := h
  refine ⟨s', ?_, hp⟩
  induction is generalizing s with
  | nil =>
    cases hrun
    exact Reaches.refl
  | cons i is ih =>
    obtain ⟨t, ht, hrest⟩ := Option.bind_eq_some_iff.mp hrun
    have hfirst : Reaches step cond s t :=
      Reaches.refl.snoc (hcond i List.mem_cons_self s) (hnext s i t ht)
    exact hfirst.trans (ih (fun j hj => hcond j (List.mem_cons_of_mem i hj)) hrest)

end Uniks.Runs
