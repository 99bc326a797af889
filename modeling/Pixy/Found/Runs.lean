import Mathlib.Logic.Relation
import Mathlib.Tactic.Common

/-!
# Runs of a labelled system

A program that takes step after step is a `StepSystem`: a set of initial states and a partial step
function. Every choice the environment makes (which fiber moves, whether an allocation fails, what
the kernel reports) is part of the action, so the step itself is a function and can be run.

* `StepSystem.run` executes a list of actions.
* `StepSystem.ReachableWhen C` is reachability along runs whose every step meets the condition `C`;
  `StepSystem.Reachable` asks nothing of the steps.
* `StepSystem.ReachableWhen.induct` is the invariant rule: what holds initially and is kept by every
  step that meets `C` holds of every state so reached.
* `StepSystem.length_le_of_decreasing` and `StepSystem.exists_run_to_end` are the rules for steps
  that lower a measure: there are only so many of them, and they come to an end.
* `StepSystem.LeadsWhen` is where steps lead from a state, for what is said of a part of a run.
* `StepSystem.Simulates` and `StepSystem.Simulates.reachable` carry an abstract system's invariants
  down to a concrete one; `StepSystem.run_carried` says that a concrete system that can follow every
  step can follow every run.

Nothing here mentions the program.
-/

namespace Pixy.Found

/-- A labelled transition system with a partial step function. -/
structure StepSystem (σ α : Type*) where
  /-- The states a run may start in. -/
  init : σ → Prop
  /-- The effect of an action, `none` where the action is not possible. -/
  step : σ → α → Option σ

namespace StepSystem

variable {σ τ α β : Type*} (T : StepSystem σ α)

/-- Execute a list of actions. -/
def run (s : σ) : List α → Option σ
  | [] => some s
  | a :: as => (T.step s a).bind fun s' => run s' as

/-- **Reachability along steps that meet `C`.** -/
inductive ReachableWhen (C : σ → α → Prop) : σ → Prop
  /-- An initial state is reached by the empty run. -/
  | init {s : σ} (h : T.init s) : ReachableWhen C s
  /-- One more step that meets the condition. -/
  | step {s s' : σ} {a : α} (hr : ReachableWhen C s) (hc : C s a) (h : T.step s a = some s') :
      ReachableWhen C s'

/-- Reachability by any run. -/
abbrev Reachable : σ → Prop := T.ReachableWhen fun _ _ => True

variable {T}

/-- **The invariant rule.** What holds initially and is kept by every step that meets `C` holds of
every state reached along such steps. -/
theorem ReachableWhen.induct {C : σ → α → Prop} {I : σ → Prop}
    (hinit : ∀ s, T.init s → I s)
    (hstep : ∀ s a s', T.ReachableWhen C s → I s → C s a → T.step s a = some s' → I s')
    {s : σ} (h : T.ReachableWhen C s) : I s := by
  induction h with
  | init h => exact hinit _ h
  | step hr hc h ih => exact hstep _ _ _ hr ih hc h

/-- A weaker condition on the steps reaches at least as much, since every step that meets the
stronger one may still be made. -/
theorem ReachableWhen.mono {C D : σ → α → Prop} (hCD : ∀ s a, C s a → D s a) {s : σ}
    (h : T.ReachableWhen C s) : T.ReachableWhen D s := by
  induction h with
  | init h => exact .init h
  | step _ hc h ih => exact .step ih (hCD _ _ hc) h

/-- A run whose every step meets `C` stays among the states so reached. -/
theorem ReachableWhen.run {C : σ → α → Prop} {s s' : σ} {as : List α}
    (h : T.ReachableWhen C s) (hC : ∀ u, ∀ a ∈ as, C u a) (hrun : T.run s as = some s') :
    T.ReachableWhen C s' := by
  induction as generalizing s with
  | nil => cases hrun; exact h
  | cons a as ih =>
      rw [StepSystem.run, Option.bind_eq_some_iff] at hrun
      obtain ⟨u, hu, hrest⟩ := hrun
      exact ih (h.step (hC s a List.mem_cons_self) hu)
        (fun v b hb => hC v b (List.mem_cons_of_mem _ hb)) hrest

/-- One more step after a run: it is made from the state in which the run ends, if the run is
possible at all. -/
theorem run_append (s : σ) (as : List α) (a : α) :
    T.run s (as ++ [a]) = (T.run s as).bind fun s' => T.step s' a := by
  induction as generalizing s with
  | nil => simp [run]
  | cons b as ih =>
      simp only [List.cons_append, run, ih, Option.bind_assoc]

/-- A run from an initial state reaches its last state, so a witness may be evaluated and is then
known to be reachable. -/
theorem reachable_of_run {s s' : σ} {as : List α} (h : T.init s) (hrun : T.run s as = some s') :
    T.Reachable s' :=
  ReachableWhen.run (.init h) (fun _ _ _ => trivial) hrun

/-- A reachable state is the last one of a run from an initial state, the steps of which are those
by which it was reached. -/
theorem ReachableWhen.exists_run {C : σ → α → Prop} {s : σ} (h : T.ReachableWhen C s) :
    ∃ s₀ as, T.init s₀ ∧ T.run s₀ as = some s := by
  induction h with
  | init h => exact ⟨_, [], h, rfl⟩
  | step _ _ h ih =>
      obtain ⟨s₀, as, hinit, hrun⟩ := ih
      exact ⟨s₀, as ++ [_], hinit, by rw [run_append, hrun, Option.bind_some, h]⟩

/-! ## Runs that come to an end -/

/-- **The measure rule.** Where every step of a kind lowers a measure, a run of such steps is no
longer than the measure of its first state. -/
theorem length_le_of_decreasing {I : σ → Prop} {C : α → Prop} {μ : σ → ℕ}
    (hstep : ∀ s a s', I s → C a → T.step s a = some s' → I s' ∧ μ s' < μ s) {s s' : σ}
    {as : List α} (hI : I s) (hC : ∀ a ∈ as, C a) (hrun : T.run s as = some s') :
    I s' ∧ as.length + μ s' ≤ μ s := by
  induction as generalizing s with
  | nil =>
      cases hrun
      exact ⟨hI, by simp⟩
  | cons a as ih =>
      rw [run, Option.bind_eq_some_iff] at hrun
      obtain ⟨u, hu, hrest⟩ := hrun
      obtain ⟨hIu, hlt⟩ := hstep s a u hI (hC a List.mem_cons_self) hu
      obtain ⟨hI', hle⟩ := ih hIu (fun b hb => hC b (List.mem_cons_of_mem a hb)) hrest
      exact ⟨hI', by rw [List.length_cons]; omega⟩

/-- And it can be continued to a state in which no such step is possible. -/
theorem exists_run_to_end {I : σ → Prop} {C : α → Prop} {μ : σ → ℕ}
    (hstep : ∀ s a s', I s → C a → T.step s a = some s' → I s' ∧ μ s' < μ s) {s : σ} (hI : I s) :
    ∃ as s', (∀ a ∈ as, C a) ∧ T.run s as = some s' ∧ ∀ a, C a → T.step s' a = none := by
  induction hμ : μ s using Nat.strongRecOn generalizing s with
  | _ k ih =>
      by_cases hend : ∀ a, C a → T.step s a = none
      · exact ⟨[], s, by simp, rfl, hend⟩
      · push Not at hend
        obtain ⟨a, hC, hne⟩ := hend
        obtain ⟨u, hu⟩ := Option.ne_none_iff_exists'.mp hne
        obtain ⟨hIu, hlt⟩ := hstep s a u hI hC hu
        obtain ⟨as, s', hCs, hrun, hstuck⟩ := ih (μ u) (hμ ▸ hlt) hIu rfl
        refine ⟨a :: as, s', ?_, by rw [run, hu, Option.bind_some, hrun], hstuck⟩
        exact List.forall_mem_cons.mpr ⟨hC, hCs⟩

/-- The system in which only the steps that meet `C` are possible. -/
def guarded (T : StepSystem σ α) (C : σ → α → Prop) [∀ s a, Decidable (C s a)] :
    StepSystem σ α where
  init := T.init
  step s a := if C s a then T.step s a else none

/-- A run of it reaches its last state along such steps. -/
theorem reachableWhen_of_run {C : σ → α → Prop} [∀ s a, Decidable (C s a)] {s s' : σ} {as : List α}
    (h : T.init s) (hrun : (T.guarded C).run s as = some s') : T.ReachableWhen C s' := by
  have hreach : (T.guarded C).Reachable s' := reachable_of_run h hrun
  refine hreach.induct (fun s h => .init h) ?_
  intro s a s' _ hr _ hstep
  simp only [guarded, Option.ite_none_right_eq_some] at hstep
  exact hr.step hstep.1 hstep.2

/-! ## From one state to another -/

/-- **Where steps that meet `C` lead** from a state. -/
def LeadsWhen (T : StepSystem σ α) (C : σ → α → Prop) : σ → σ → Prop :=
  Relation.ReflTransGen fun s s' => ∃ a, C s a ∧ T.step s a = some s'

/-- What a reachable state leads to under the same condition on the steps is reachable under it. -/
theorem ReachableWhen.leads {C : σ → α → Prop} {s s' : σ} (h : T.ReachableWhen C s)
    (hleads : T.LeadsWhen C s s') : T.ReachableWhen C s' := by
  induction hleads with
  | refl => exact h
  | tail _ hstep ih =>
      obtain ⟨a, hC, hstep⟩ := hstep
      exact ih.step hC hstep

/-- A weaker condition on the steps allows every run that a stronger one does, so what one state
leads to it still does. -/
theorem LeadsWhen.mono {C D : σ → α → Prop} (hCD : ∀ s a, C s a → D s a) {s s' : σ}
    (h : T.LeadsWhen C s s') : T.LeadsWhen D s s' :=
  Relation.ReflTransGen.mono (fun s _ ⟨a, hC, hstep⟩ => ⟨a, hCD s a hC, hstep⟩) _ _ h

/-- What holds of a reachable state and is kept by every step holds wherever it leads. -/
theorem LeadsWhen.induct {C : σ → α → Prop} {I : σ → Prop} {s s' : σ} (hleads : T.LeadsWhen C s s')
    (hs : T.ReachableWhen C s) (hI : I s)
    (hstep : ∀ u a u', T.ReachableWhen C u → I u → C u a → T.step u a = some u' → I u') : I s' := by
  induction hleads with
  | refl => exact hI
  | tail hleads hlast ih =>
      obtain ⟨a, hC, hlast⟩ := hlast
      exact hstep _ a _ (hs.leads hleads) ih hC hlast

/-- Either no step on the way is one of some kind, or one is. -/
theorem LeadsWhen.none_or_some {C : σ → α → Prop} (B : α → Prop) {s s' : σ}
    (h : T.LeadsWhen C s s') :
    T.LeadsWhen (fun s a => C s a ∧ ¬B a) s s' ∨
      ∃ u a u', T.LeadsWhen C s u ∧ T.step u a = some u' ∧ B a ∧ T.LeadsWhen C u' s' := by
  induction h with
  | refl => exact .inl Relation.ReflTransGen.refl
  | @tail u u' hleads hlast ih =>
      obtain hnone | ⟨v, b, v', hv, hstep, hB, hv'⟩ := ih
      · obtain ⟨a, hC, hstep⟩ := hlast
        by_cases hB : B a
        · exact .inr ⟨u, a, u', hleads, hstep, hB, Relation.ReflTransGen.refl⟩
        · exact .inl (hnone.tail ⟨a, ⟨hC, hB⟩, hstep⟩)
      · exact .inr ⟨v, b, v', hv, hstep, hB, hv'.tail hlast⟩

/-- A run whose steps were checked against a condition as they were made leads to its last state
along steps that meet it. -/
theorem leadsWhen_of_run {C D : σ → α → Prop} [∀ s a, Decidable (C s a)]
    (hCD : ∀ s a, C s a → D s a)
    {s s' : σ} {as : List α} (hrun : (T.guarded C).run s as = some s') : T.LeadsWhen D s s' := by
  induction as generalizing s with
  | nil =>
      cases hrun
      exact Relation.ReflTransGen.refl
  | cons a as ih =>
      rw [run, Option.bind_eq_some_iff] at hrun
      obtain ⟨u, hu, hrest⟩ := hrun
      simp only [guarded, Option.ite_none_right_eq_some] at hu
      exact Relation.ReflTransGen.head ⟨a, hCD s a hu.1, hu.2⟩ (ih hrest)

/-! ## Simulation -/

/-- **Forward simulation.** `R` relates every concrete initial state to an abstract one, and every
concrete step to a (possibly empty) abstract run. -/
structure Simulates (T : StepSystem σ α) (A : StepSystem τ β) (R : σ → τ → Prop) : Prop where
  /-- Initial states are related. -/
  init : ∀ s, T.init s → ∃ t, A.init t ∧ R s t
  /-- Each step is matched. -/
  step : ∀ s t a s', R s t → T.step s a = some s' → ∃ bs t', A.run t bs = some t' ∧ R s' t'

/-- Every reachable concrete state is related to a reachable abstract one. -/
theorem Simulates.reachable {A : StepSystem τ β} {R : σ → τ → Prop} (h : T.Simulates A R) {s : σ}
    (hs : T.Reachable s) : ∃ t, A.Reachable t ∧ R s t := by
  refine ReachableWhen.induct (I := fun s => ∃ t, A.Reachable t ∧ R s t) ?_ ?_ hs
  · intro s hs
    obtain ⟨t, ht, hR⟩ := h.init s hs
    exact ⟨t, .init ht, hR⟩
  · rintro s a s' - ⟨t, ht, hR⟩ - hstep
    obtain ⟨bs, t', hrun, hR'⟩ := h.step s t a s' hR hstep
    exact ⟨t', ReachableWhen.run ht (fun _ _ _ => trivial) hrun, hR'⟩

/-- **The other way round**: where every abstract step is carried out by the concrete system, under
a label that it names, so is every abstract run. -/
theorem run_carried {A : StepSystem τ β} {label : α → β} {R : σ → τ → Prop}
    (hstep : ∀ s t a t', R s t → A.step t (label a) = some t' →
      ∃ s', T.step s a = some s' ∧ R s' t')
    {s : σ} {t t' : τ} {as : List α} (hR : R s t) (hrun : A.run t (as.map label) = some t') :
    ∃ s', T.run s as = some s' ∧ R s' t' := by
  induction as generalizing s t with
  | nil =>
      cases hrun
      exact ⟨s, rfl, hR⟩
  | cons a as ih =>
      rw [List.map_cons, run, Option.bind_eq_some_iff] at hrun
      obtain ⟨u, hu, hrest⟩ := hrun
      obtain ⟨s', hs', hR'⟩ := hstep s t a u hR hu
      obtain ⟨final, hfinal, hRfinal⟩ := ih hR' hrest
      exact ⟨final, by rw [run, hs', Option.bind_some, hfinal], hRfinal⟩

end StepSystem

end Pixy.Found
