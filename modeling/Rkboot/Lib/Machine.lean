import Mathlib.Tactic.Common

/-! # Machines that come to an end

A step of a machine gives the next state or the result. A state leads to another one if it ends
with whatever the other one ends with: then what is left to show about a run is shown from there. -/
namespace Rkboot.Lib

section
variable {σ ρ : Type} {step : σ → σ ⊕ ρ} {s t u : σ} {r r' : ρ}

/-- From the state, the machine ends with the result. -/
inductive Ends (step : σ → σ ⊕ ρ) : σ → ρ → Prop where
  | done {s : σ} {r : ρ} : step s = .inr r → Ends step s r
  | step {s t : σ} {r : ρ} : step s = .inl t → Ends step t r → Ends step s r

/-- The result, if there is one after so many steps. -/
def runFor (step : σ → σ ⊕ ρ) : Nat → σ → Option ρ
  | 0, _ => none
  | n + 1, s =>
    match step s with
    | .inl t => runFor step n t
    | .inr r => some r

theorem Ends.of_runFor {n} (h : runFor step n s = some r) : Ends step s r := by
  induction n generalizing s with
  | zero => cases h
  | succ n ih =>
    rw [runFor] at h
    split at h
    · rename_i t hstep
      exact .step hstep (ih h)
    · rename_i r' hstep
      cases h
      exact .done hstep

theorem Ends.unique (h : Ends step s r) (h' : Ends step s r') : r = r' := by
  induction h with
  | done hstep =>
    cases h' with
    | done hstep' => exact Sum.inr.inj (hstep.symm.trans hstep')
    | step hstep' _ =>
      rw [hstep] at hstep'
      cases hstep'
  | step hstep _ ih =>
    cases h' with
    | done hstep' =>
      rw [hstep] at hstep'
      cases hstep'
    | step hstep' hend =>
      rw [hstep] at hstep'
      cases hstep'
      exact ih hend

/-- Whatever `t` ends with, `s` ends with. -/
def Leads (step : σ → σ ⊕ ρ) (s t : σ) : Prop := ∀ r, Ends step t r → Ends step s r

theorem Leads.refl (s : σ) : Leads step s s := fun _ h => h

theorem Leads.trans (h : Leads step s t) (h' : Leads step t u) : Leads step s u :=
  fun r hr => h r (h' r hr)

theorem Leads.of_step (h : step s = .inl t) : Leads step s t := fun _ hr => .step h hr

/-- States with the same next step. -/
theorem Leads.of_eq (h : step s = step t) : Leads step s t := by
  intro r hr
  cases hr with
  | done hstep => exact .done (h.trans hstep)
  | step hstep hend => exact .step (h.trans hstep) hend

end

/-! ## Clients that retry

A client offers a state what it has; a step goes on to a next state, fails, or
asks for more, in which case the client offers again. When a step's answer to
one offer and its answer to another never contradict each other, what becomes of
a state does not depend on the offers made on the way. -/

inductive Answer (σ : Type) where
  | more
  | err
  | next (s : σ)

/-- Answers that go together: asking for more goes with everything. -/
def Answer.Agree {σ τ : Type} (R : σ → τ → Prop) : Answer σ → Answer τ → Prop
  | .more, _ => True
  | _, .more => True
  | .err, .err => True
  | .next s, .next t => R s t
  | _, _ => False

theorem Answer.agree_more_left {σ τ : Type} (R : σ → τ → Prop) (b : Answer τ) :
    Answer.Agree R .more b := by cases b <;> trivial

theorem Answer.agree_more_right {σ τ : Type} (R : σ → τ → Prop) (a : Answer σ) :
    a.Agree R .more := by cases a <;> trivial

/-- A whole run: the state it ended in, or `none` where a step failed. -/
inductive Run {σ ι : Type} (step : σ → ι → Answer σ → Prop) (final : σ → Prop) :
    σ → Option σ → Prop where
  | done {s : σ} : final s → Run step final s (some s)
  | err {s : σ} {i : ι} : ¬ final s → step s i .err → Run step final s none
  | more {s : σ} {i : ι} {r : Option σ} : ¬ final s → step s i .more → Run step final s r →
      Run step final s r
  | next {s s' : σ} {i : ι} {r : Option σ} : ¬ final s → step s i (.next s') →
      Run step final s' r → Run step final s r

variable {σ τ ι κ : Type} {stepS : σ → ι → Answer σ → Prop} {stepT : τ → κ → Answer τ → Prop}
  {finalS : σ → Prop} {finalT : τ → Prop} {R : σ → τ → Prop}

/-- Two runs from related states, whose steps agree whatever they are offered, end alike. -/
theorem Run.agree (hfinal : ∀ s t, R s t → (finalS s ↔ finalT t))
    (hstep : ∀ s t i j a b, R s t → stepS s i a → stepT t j b → a.Agree R b) {s t r q} (hr : R s t)
    (hs : Run stepS finalS s r) (ht : Run stepT finalT t q) : Option.Rel R r q := by
  -- the first run drives; where its step went on or failed, the second run's retries are skipped
  induction hs generalizing t q with
  | done hf =>
    cases ht with
    | done _ => exact .some hr
    | err hn _ | more hn _ _ | next hn _ _ => exact absurd ((hfinal _ _ hr).mp hf) hn
  | more _ _ _ ih => exact ih hr ht
  | err hn hi =>
    induction ht with
    | done hf => exact absurd ((hfinal _ _ hr).mpr hf) hn
    | err _ _ => exact .none
    | more _ _ _ ih => exact ih hr
    | next _ hj _ _ => exact (hstep _ _ _ _ _ _ hr hi hj).elim
  | next hn hi hrest ih =>
    induction ht with
    | done hf => exact absurd ((hfinal _ _ hr).mpr hf) hn
    | err _ hj => exact (hstep _ _ _ _ _ _ hr hi hj).elim
    | more _ _ _ ih' => exact ih' hr
    | next _ hj hrest' _ => exact ih (hstep _ _ _ _ _ _ hr hi hj) hrest'

end Rkboot.Lib
