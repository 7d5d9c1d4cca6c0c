import Mathlib.Algebra.GroupWithZero.Nat
import Mathlib.Data.List.Chain
import Mathlib.Data.List.Nodup
import Mathlib.Logic.Function.Basic

/-!
# Linked lists

A list of nodes can be kept in the nodes themselves: each one knows the next. Where the links of
other nodes lead does not matter to it, so that several lists live side by side as long as they
share no node.
-/

namespace Adl.Math

variable {ν : Type*} {next : ν → Option ν} {p : Option ν} {l : List ν} {x y : ν}

/-- The links lead from a pointer through a list of nodes. -/
def Linked (next : ν → Option ν) : Option ν → List ν → Prop
  | p, [] => p = none
  | p, x :: l => p = some x ∧ Linked next (next x) l

namespace Linked

theorem congr {next' : ν → Option ν} (h : Linked next p l) (heq : ∀ x ∈ l, next' x = next x) :
    Linked next' p l := by
  induction l generalizing p with
  | nil => exact h
  | cons x l ih =>
    refine ⟨h.1, ?_⟩
    rw [heq x List.mem_cons_self]
    exact ih h.2 fun y hy => heq y (List.mem_cons_of_mem _ hy)

theorem head_eq (h : Linked next p l) : p = l.head? := by
  cases l with
  | nil => exact h
  | cons x l => exact h.1

variable [DecidableEq ν]

theorem update_of_notMem (h : Linked next p l) (hx : x ∉ l) (q : Option ν) :
    Linked (Function.update next x q) p l :=
  h.congr fun _ hy => Function.update_of_ne (ne_of_mem_of_not_mem hy hx) _ _

theorem push (h : Linked next p (l ++ [x])) (hnodup : (l ++ [x]).Nodup) (hy : y ∉ l ++ [x]) :
    Linked (Function.update (Function.update next x (some y)) y none) p (l ++ [x] ++ [y]) := by
  induction l generalizing p with
  | nil =>
    have hne : x ≠ y := fun heq => hy (by simp [heq])
    refine ⟨h.1, ?_, Function.update_self ..⟩
    rw [Function.update_of_ne hne, Function.update_self]
  | cons z l ih =>
    rw [List.cons_append, List.nodup_cons] at hnodup
    have hzy : z ≠ y := fun heq => hy (by simp [heq])
    have hzx : z ≠ x := fun heq => hnodup.1 (by simp [heq])
    refine ⟨h.1, ?_⟩
    rw [Function.update_of_ne hzy, Function.update_of_ne hzx]
    exact ih h.2 hnodup.2 fun hmem => hy (List.mem_cons_of_mem _ hmem)

/-- The last node of a chain is linked to the first one of a list. -/
theorem prepend {c : List ν} (h : Linked next p l)
    (hchain : (c ++ [x]).IsChain fun a b => next a = some b) (hnodup : (c ++ [x]).Nodup)
    (hx : x ∉ l) :
    Linked (Function.update next x p) (c ++ [x]).head? (c ++ x :: l) := by
  induction c with
  | nil =>
    refine ⟨rfl, ?_⟩
    rw [Function.update_self]
    exact h.update_of_notMem hx p
  | cons a c ih =>
    rw [List.cons_append, List.nodup_cons] at hnodup
    have hax : a ≠ x := fun heq => hnodup.1 (by simp [heq])
    -- the first node leads to the rest of the chain
    have hnext : next a = (c ++ [x]).head? ∧ (c ++ [x]).IsChain fun a b => next a = some b := by
      cases c with
      | nil => exact ⟨(List.isChain_cons_cons.mp hchain).1, .singleton x⟩
      | cons b c => exact List.isChain_cons_cons.mp hchain
    refine ⟨rfl, ?_⟩
    rw [Function.update_of_ne hax, hnext.1]
    exact ih hnext.2 hnodup.2

end Linked

end Adl.Math
