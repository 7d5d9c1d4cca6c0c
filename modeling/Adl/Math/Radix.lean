import Mathlib.Data.Nat.Notation
import Mathlib.Logic.Function.Basic
import Mathlib.Tactic.Common

/-!
# Radix trees

A tree of fixed depth whose inner nodes are indexed by the digits of a key. Nodes come into
being when they are first asked for; leaves are then made by a stateful allocator.
-/

namespace Adl.Math.Radix

/-- Trees with `l` levels of inner nodes. -/
def Node (α : Type) : ℕ → Type
  | 0 => α
  | l + 1 => ℕ → Option (Node α l)

variable {α σ : Type} {l : ℕ} {k k' : ℕ → ℕ}

/-- Two keys with the same digits below `l`. -/
def Agree (l : ℕ) (k k' : ℕ → ℕ) : Prop := ∀ i < l, k i = k' i

theorem Agree.refl : Agree l k k := fun _ _ => rfl

theorem agree_succ : Agree (l + 1) k k' ↔ k l = k' l ∧ Agree l k k' := by
  constructor
  · exact fun h => ⟨h l (by omega), fun i hi => h i (by omega)⟩
  · rintro ⟨hl, h⟩ i hi
    rcases Nat.lt_succ_iff_lt_or_eq.mp hi with hlt | rfl
    · exact h i hlt
    · exact hl

namespace Node

def empty : Node α (l + 1) := fun _ => none

def find : {l : ℕ} → Node α l → (ℕ → ℕ) → Option α
  | 0, a, _ => some a
  | l + 1, n, k =>
    match n (k l) with
    | none => none
    | some child => find child k

def create (new : σ → α × σ) : (l : ℕ) → σ → Node α l × σ
  | 0, s => new s
  | _ + 1, s => (empty, s)

/-- The leaf of a key, which is made together with the nodes above it where they are missing. -/
def fetch (new : σ → α × σ) : {l : ℕ} → Node α l → (ℕ → ℕ) → σ → α × Node α l × σ
  | 0, a, _, s => (a, a, s)
  | l + 1, n, k, s =>
    let (child, s) :=
      match n (k l) with
      | some child => (child, s)
      | none => create new l s
    let (a, child, s) := fetch new child k s
    (a, Function.update n (k l) (some child), s)

theorem find_empty : find (empty : Node α (l + 1)) k = none := rfl

theorem find_succ {n : Node α (l + 1)} : find n k = (n (k l)).bind fun child => find child k := by
  rw [find]
  cases n (k l) <;> rfl

theorem find_congr {n : Node α l} (h : Agree l k k') : find n k = find n k' := by
  induction l with
  | zero => rfl
  | succ l ih =>
    obtain ⟨hl, h⟩ := agree_succ.mp h
    rw [find_succ, find_succ, hl]
    congr 1
    funext child
    exact ih h

variable {new : σ → α × σ}

theorem fetch_of_find {n : Node α l} {s : σ} {a : α} (h : find n k = some a) :
    fetch new n k s = (a, n, s) := by
  induction l with
  | zero =>
    cases h
    rfl
  | succ l ih =>
    rw [find_succ] at h
    obtain ⟨child, hchild, hfind⟩ := Option.bind_eq_some_iff.mp h
    simp only [fetch, hchild, ih hfind]
    rw [← hchild]
    exact congrArg (fun m => (a, m, s)) (Function.update_eq_self (k l) n)

/-- The child that `fetch` descends into, and the state it descends with. -/
private def step (new : σ → α × σ) (n : Node α (l + 1)) (k : ℕ → ℕ) (s : σ) : Node α l × σ :=
  match n (k l) with
  | some child => (child, s)
  | none => create new l s

private theorem fetch_succ {n : Node α (l + 1)} {s : σ} :
    fetch new n k s =
      ((fetch new (step new n k s).1 k (step new n k s).2).1,
        Function.update n (k l) (some (fetch new (step new n k s).1 k (step new n k s).2).2.1),
        (fetch new (step new n k s).1 k (step new n k s).2).2.2) := rfl

theorem fetch_of_not_find {n : Node α l} {s : σ} (h : find n k = none) :
    (fetch new n k s).1 = (new s).1 ∧ (fetch new n k s).2.2 = (new s).2 := by
  induction l with
  | zero => cases h
  | succ l ih =>
    rw [fetch_succ, step]
    cases hchild : n (k l) with
    | some child =>
      rw [find_succ, hchild] at h
      exact ih h
    | none =>
      cases l with
      | zero => exact ⟨rfl, rfl⟩
      | succ l => exact ih find_empty

/-- After a fetch, the key has its leaf. -/
theorem find_fetch_of_agree {n : Node α l} {s : σ} (h : Agree l k k') :
    find (fetch new n k s).2.1 k' = some (fetch new n k s).1 := by
  induction l generalizing s with
  | zero => rfl
  | succ l ih =>
    obtain ⟨hl, h⟩ := agree_succ.mp h
    rw [fetch_succ, find_succ, ← hl]
    refine Eq.trans (congrArg (Option.bind · _) (Function.update_self (k l) _ n)) ?_
    exact ih h

/-- Other keys are not affected by a fetch. -/
theorem find_fetch_of_not_agree {n : Node α l} {s : σ} (h : ¬ Agree l k k') :
    find (fetch new n k s).2.1 k' = find n k' := by
  induction l generalizing s with
  | zero => exact absurd (fun i hi => absurd hi (by omega)) h
  | succ l ih =>
    rw [fetch_succ, find_succ, find_succ]
    by_cases hl : k l = k' l
    · have hrest : ¬ Agree l k k' := fun hrest => h (agree_succ.mpr ⟨hl, hrest⟩)
      rw [← hl]
      refine Eq.trans (congrArg (Option.bind · _) (Function.update_self (k l) _ n)) ?_
      refine (ih hrest).trans ?_
      rw [step]
      cases hchild : n (k l) with
      | some child => rfl
      | none =>
        cases l with
        | zero => exact absurd (fun i hi => absurd hi (by omega)) hrest
        | succ l => exact find_empty
    · exact congrArg (Option.bind · _) (Function.update_of_ne (Ne.symm hl) _ n)

end Node

end Adl.Math.Radix
