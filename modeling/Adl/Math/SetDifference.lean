import Mathlib.Tactic.Common

/-!
# Differences of ordered sequences

The differences of two ordered sequences are computed by one walk over both. The comparison is a
procedure with a state of its own, so that its answer may depend on the comparisons made before.
-/

namespace Adl.Math

variable {α σ : Type*}

abbrev Comparison (α σ : Type*) := α → α → σ → Bool × σ

/-- The walk over the second sequence while the first stands at `a`. -/
def passSmaller (comp : Comparison α σ) (symmetric : Bool) (a : α) (as : List α)
    (next : List α → σ → List α × σ) : List α → σ → List α × σ
  | [], s => (a :: as, s)
  | b :: bs, s =>
    match comp a b s with
    | (true, s) =>
      let (missing, s) := next (b :: bs) s
      (a :: missing, s)
    | (false, s) =>
      match comp b a s with
      | (true, s) =>
        let (missing, s) := passSmaller comp symmetric a as next bs s
        (if symmetric then b :: missing else missing, s)
      | (false, s) => next bs s

/-- The elements of the first sequence that have no equivalent in the second, and the other way
round if this is asked for. -/
def difference (comp : Comparison α σ) (symmetric : Bool) : List α → List α → σ → List α × σ
  | [] => fun bs s => (if symmetric then bs else [], s)
  | a :: as => passSmaller comp symmetric a as (difference comp symmetric as)

/-- The elements of either sequence that have no equivalent in the other. -/
def setSymmetricDifference (comp : Comparison α σ) : List α → List α → σ → List α × σ :=
  difference comp true

/-- In one state after the other, no element was found to be smaller or greater than the one at
the same place. -/
def Matched (comp : Comparison α σ) : List α → List α → σ → Prop
  | [], [], _ => True
  | a :: as, b :: bs, s =>
    (comp a b s).1 = false ∧ (comp b a (comp a b s).2).1 = false ∧
      Matched comp as bs (comp b a (comp a b s).2).2
  | _, _, _ => False

variable {comp : Comparison α σ}

theorem matched_of_setSymmetricDifference {as bs : List α} {s : σ}
    (h : (setSymmetricDifference comp as bs s).1 = []) : Matched comp as bs s := by
  rw [setSymmetricDifference] at h
  induction as generalizing bs s with
  | nil =>
    obtain rfl : bs = [] := h
    trivial
  | cons a as ih =>
    cases bs with
    | nil => exact absurd h (List.cons_ne_nil a as)
    | cons b bs =>
      rw [difference, passSmaller] at h
      rcases hab : comp a b s with ⟨_ | _, s₁⟩
      · rw [hab] at h
        dsimp only at h
        rcases hba : comp b a s₁ with ⟨_ | _, s₂⟩
        · rw [hba] at h
          have hrest := ih h
          refine ⟨by rw [hab], by rw [hab, hba], ?_⟩
          rwa [hab, hba]
        · rw [hba] at h
          exact absurd h (List.cons_ne_nil _ _)
      · rw [hab] at h
        exact absurd h (List.cons_ne_nil _ _)

end Adl.Math
