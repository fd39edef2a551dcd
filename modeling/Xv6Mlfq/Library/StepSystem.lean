import Mathlib.Logic.Relation

/-!
Deterministic labelled step systems: a partial step function, the runs of a
list of labels, reachability from an initial state, and the induction rules
that carry an invariant or a history along every run.
-/

namespace StepSystem

variable {σ α : Type*} (step : σ → α → Option σ)

/-- Run a list of labels, failing at the first label whose step is disabled. -/
def run : σ → List α → Option σ
  | s, [] => some s
  | s, a :: as => (step s a).bind fun s' => run s' as

/-- The executed prefix of a run: each pre-state with the label taken from it. -/
def trace : σ → List α → List (σ × α)
  | _, [] => []
  | s, a :: as =>
      match step s a with
      | none => []
      | some s' => (s, a) :: trace s' as

/-- States reachable from `init` by enabled steps. -/
inductive Reachable (init : σ) : σ → Prop
  | init : Reachable init init
  | step {s s' : σ} (a : α) (h : Reachable init s) (hstep : step s a = some s') :
      Reachable init s'

variable {step}

@[simp] theorem run_nil (s : σ) : run step s [] = some s := rfl

theorem run_cons (s : σ) (a : α) (as : List α) :
    run step s (a :: as) = (step s a).bind fun s' => run step s' as := rfl

@[simp] theorem run_singleton (s : σ) (a : α) : run step s [a] = step s a := by
  simp [run_cons]

theorem run_cons_of_step {s s' : σ} {a : α} (as : List α) (h : step s a = some s') :
    run step s (a :: as) = run step s' as := by
  simp [run_cons, h]

theorem run_append (s : σ) (xs ys : List α) :
    run step s (xs ++ ys) = (run step s xs).bind fun t => run step t ys := by
  induction xs generalizing s with
  | nil => rfl
  | cons a xs ih =>
      cases hstep : step s a with
      | none => simp [run_cons, hstep]
      | some s' => simp [run_cons, hstep, ih]

theorem run_append_of_run {s t : σ} {xs : List α} (h : run step s xs = some t)
    (ys : List α) : run step s (xs ++ ys) = run step t ys := by
  simp [run_append, h]

theorem run_eq_foldlM (s : σ) (as : List α) : run step s as = as.foldlM step s := by
  induction as generalizing s with
  | nil => rfl
  | cons a as ih =>
      cases hstep : step s a with
      | none => simp [run_cons, hstep]
      | some s' => simp [run_cons, hstep, ih]

theorem run_of_suffix_invariant {P : List α → σ → Prop}
    (hstep : ∀ a as s, P (a :: as) s → ∃ s', step s a = some s' ∧ P as s') :
    ∀ (as : List α) (s : σ), P as s → ∃ t, run step s as = some t ∧ P [] t
  | [], s, hs => ⟨s, rfl, hs⟩
  | a :: as, s, hs => by
      obtain ⟨s', hs', hP⟩ := hstep a as s hs
      rw [run_cons_of_step as hs']
      exact run_of_suffix_invariant hstep as s' hP

theorem Reachable.trans {init s t : σ} (hs : Reachable step init s)
    (ht : Reachable step s t) : Reachable step init t := by
  induction ht with
  | init => exact hs
  | step a _ hstep ih => exact .step a ih hstep

theorem reachable_of_run {init s t : σ} {as : List α} (hs : Reachable step init s)
    (hrun : run step s as = some t) : Reachable step init t := by
  induction as generalizing s with
  | nil =>
      cases hrun
      exact hs
  | cons a as ih =>
      rw [run_cons, Option.bind_eq_some_iff] at hrun
      obtain ⟨s', hstep, hrest⟩ := hrun
      exact ih (.step a hs hstep) hrest

theorem Reachable.invariant {init : σ} {Inv : σ → Prop} (h0 : Inv init)
    (hstep : ∀ s a s', Reachable step init s → Inv s → step s a = some s' → Inv s')
    {s : σ} (h : Reachable step init s) : Inv s := by
  induction h with
  | init => exact h0
  | step a hreach hs ih => exact hstep _ a _ hreach ih hs

theorem Reachable.of_relabel {β : Type*} {step' : σ → β → Option σ} (f : β → α)
    (hf : ∀ s b, step' s b = step s (f b)) {init s : σ} (h : Reachable step' init s) :
    Reachable step init s := by
  induction h with
  | init => exact .init
  | step b _ hstep ih => exact .step (f b) ih (by rw [← hf]; exact hstep)

theorem exists_reachable_of_check {init s₀ : σ} (h₀ : Reachable step init s₀) (as : List α)
    (P : σ → Prop) [DecidablePred P] (h : (run step s₀ as).map (fun s => decide (P s)) = some true) :
    ∃ s, Reachable step init s ∧ P s := by
  obtain ⟨s, hrun, hP⟩ := Option.map_eq_some_iff.mp h
  exact ⟨s, reachable_of_run h₀ hrun, of_decide_eq_true hP⟩

section Simulation

variable {τ β : Type*} (step) (astep : τ → β → Option τ)

/-- The labels a run shows an abstract system: each executed step's label
under `lab`, with the steps it hides (label none) dropped. -/
def labels (lab : σ → α → Option β) (s : σ) (as : List α) : List β :=
  (trace step s as).filterMap fun p => lab p.1 p.2

/-- A step from `s` to `s'` seen through `abs`: a stutter when its label is
none, else the abstract step the label names. -/
def Simulates (abs : σ → τ) : Option β → σ → σ → Prop
  | none, s, s' => abs s' = abs s
  | some b, s, s' => astep (abs s) b = some (abs s')

variable {step astep}

/-- A stuttering simulation carried along a run: if every step from a state
satisfying `Inv` keeps `Inv` and is simulated under its label, then a run's
abstract labels take the abstraction of its first state to that of its last. -/
theorem run_simulates {Inv : σ → Prop} {abs : σ → τ} {lab : σ → α → Option β}
    (hinv : ∀ s a s', Inv s → step s a = some s' → Inv s')
    (hsim : ∀ s a s', Inv s → step s a = some s' → Simulates astep abs (lab s a) s s')
    {s t : σ} {as : List α} (hs : Inv s) (hrun : run step s as = some t) :
    Inv t ∧ run astep (abs s) (labels step lab s as) = some (abs t) := by
  induction as generalizing s with
  | nil =>
      cases hrun
      exact ⟨hs, rfl⟩
  | cons a as ih =>
      rw [run_cons, Option.bind_eq_some_iff] at hrun
      obtain ⟨s', hstep, hrest⟩ := hrun
      obtain ⟨ht, habs⟩ := ih (hinv s a s' hs hstep) hrest
      refine ⟨ht, ?_⟩
      have hsim' := hsim s a s' hs hstep
      have hlabels : labels step lab s (a :: as) =
          (lab s a).elim (labels step lab s' as) (· :: labels step lab s' as) := by
        simp only [labels, trace, hstep, List.filterMap_cons]
        cases lab s a <;> rfl
      rw [hlabels]
      cases hlab : lab s a with
      | none =>
          rw [hlab] at hsim'
          rw [Option.elim_none, ← show abs s' = abs s from hsim']
          exact habs
      | some b =>
          rw [hlab] at hsim'
          rw [Option.elim_some, run_cons, show astep (abs s) b = some (abs s') from hsim', Option.bind_some]
          exact habs

end Simulation

end StepSystem
