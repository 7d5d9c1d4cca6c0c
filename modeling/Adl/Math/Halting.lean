import Mathlib.Algebra.GroupWithZero.Nat
import Mathlib.Logic.Function.Iterate
import Mathlib.Logic.Relation
import Mathlib.Order.Nat
import Mathlib.Tactic.Common

/-!
# Machines that finish

A deterministic machine goes from state to state until it has a result. Whether it ever has one is
a property of its starting state.
-/

namespace Adl.Math

variable {σ ρ : Type*}

/-- A machine that starts in a state ends with a result. -/
inductive Finishes (step : σ → σ ⊕ ρ) : σ → ρ → Prop
  | done {s : σ} {r : ρ} (h : step s = .inr r) : Finishes step s r
  | next {s s' : σ} {r : ρ} (h : step s = .inl s') (hs' : Finishes step s' r) : Finishes step s r

/-- A machine that starts in a state comes to another one. -/
abbrev Reaches (step : σ → σ ⊕ ρ) : σ → σ → Prop :=
  Relation.ReflTransGen fun s s' => step s = .inl s'

variable {step : σ → σ ⊕ ρ} {s s' : σ} {r : ρ}

theorem Finishes.of_reaches (h : Reaches step s s') (hs' : Finishes step s' r) :
    Finishes step s r := by
  induction h using Relation.ReflTransGen.head_induction_on with
  | refl => exact hs'
  | head hstep _ ih => exact .next hstep ih

theorem Reaches.invariant {P : σ → Prop} (hstep : ∀ s s', P s → step s = .inl s' → P s')
    (h : Reaches step s s') (hs : P s) : P s' := by
  induction h with
  | refl => exact hs
  | tail _ hnext ih => exact hstep _ _ ih hnext

theorem Finishes.invariant {P : σ → Prop} (hstep : ∀ s s', P s → step s = .inl s' → P s')
    (h : Finishes step s r) (hs : P s) : ∃ s', P s' ∧ step s' = .inr r := by
  induction h with
  | done hr => exact ⟨_, hs, hr⟩
  | next hnext _ ih => exact ih (hstep _ _ hs hnext)

theorem finishes_of_measure {P : σ → Prop} (measure : σ → ℕ)
    (hstep : ∀ s s', P s → step s = .inl s' → P s' ∧ measure s' < measure s) (hs : P s) :
    ∃ r, Finishes step s r := by
  induction hn : measure s using Nat.strongRecOn generalizing s with
  | ind n ih =>
    rcases h : step s with s' | r
    · obtain ⟨hs', hlt⟩ := hstep s s' hs h
      obtain ⟨r, hr⟩ := ih _ (hn ▸ hlt) hs' rfl
      exact ⟨r, .next h hr⟩
    · exact ⟨r, .done h⟩

/-- A machine that never leaves a set of states, in none of which it stops, does not finish. -/
theorem not_finishes_of_closed {P : σ → Prop} (hstep : ∀ s, P s → ∃ s', step s = .inl s' ∧ P s')
    (hs : P s) : ¬ ∃ r, Finishes step s r := by
  rintro ⟨r, hr⟩
  induction hr with
  | done hr =>
    obtain ⟨s', hnext, -⟩ := hstep _ hs
    simp [hnext] at hr
  | next hnext _ ih =>
    obtain ⟨s', hnext', hs'⟩ := hstep _ hs
    obtain rfl := Sum.inl.inj (hnext.symm.trans hnext')
    exact ih hs'

end Adl.Math
