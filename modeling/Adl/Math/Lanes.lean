import Mathlib.Data.List.Nodup
import Mathlib.Data.List.Basic

/-!
# Lanes

Elements enter a lane at its end. They leave from the front, or they are taken out, from the end or
from any place. A history of such moves can be replayed.
-/

namespace Adl.Math.Lanes

variable {α : Type*}

inductive Move (α : Type*) where
  | enter (lane : ℕ) (x : α)
  /-- Leave from the front. -/
  | leave (lane : ℕ) (x : α)
  /-- Leave from the end. -/
  | retract (lane : ℕ) (x : α)
  | withdraw (lane : ℕ) (x : α)
deriving DecidableEq

variable [DecidableEq α] {s s' : List (List α)}

/-- A move is possible if the element is where the move takes it from. An element enters only if it
is in no lane. -/
def move (s : List (List α)) : Move α → Option (List (List α))
  | .enter i x => if i < s.length ∧ x ∉ s.flatten then some (s.modify i (· ++ [x])) else none
  | .leave i x => if (s[i]?).bind List.head? = some x then some (s.modify i List.tail) else none
  | .retract i x =>
    if (s[i]?).bind List.getLast? = some x then some (s.modify i List.dropLast) else none
  | .withdraw i x => if ∃ lane ∈ s[i]?, x ∈ lane then some (s.modify i (·.erase x)) else none

def replay : List (List α) → List (Move α) → Option (List (List α))
  | s, [] => some s
  | s, e :: rest => (move s e).bind (replay · rest)

theorem replay_append {es es' : List (Move α)} :
    replay s (es ++ es') = (replay s es).bind (replay · es') := by
  induction es generalizing s with
  | nil => rfl
  | cons e rest ih =>
    rw [List.cons_append, replay, replay]
    cases move s e with
    | none => rfl
    | some s' => exact ih

/-- Moves that come in groups. -/
theorem foldlM_replay {β : Type*} {f : β → Move α} {groups : List (List β)} :
    groups.foldlM (fun s group => replay s (group.map f)) s = replay s (groups.flatten.map f) := by
  induction groups generalizing s with
  | nil => rfl
  | cons group rest ih =>
    rw [List.foldlM_cons, List.flatten_cons, List.map_append, replay_append]
    congr 1
    funext s'
    exact ih

@[simp] theorem replay_singleton {e : Move α} : replay s [e] = move s e := by
  rw [replay]
  cases move s e <;> rfl

theorem move_length {e : Move α} (h : move s e = some s') : s'.length = s.length := by
  cases e <;> obtain ⟨-, ⟨⟩⟩ := Option.ite_none_right_eq_some.mp h <;> exact List.length_modify ..

theorem replay_length {es : List (Move α)} (h : replay s es = some s') : s'.length = s.length := by
  induction es generalizing s with
  | nil => exact congrArg List.length (Option.some.inj h).symm
  | cons e rest ih =>
    obtain ⟨s₁, hmove, hrest⟩ := Option.bind_eq_some_iff.mp h
    exact (ih hrest).trans (move_length hmove)

/-! ### Elements are in one place -/

omit [DecidableEq α] in
theorem flatten_modify_sublist {f : List α → List α} (hf : ∀ lane, (f lane).Sublist lane) (i : ℕ) :
    (s.modify i f).flatten.Sublist s.flatten := by
  induction s generalizing i with
  | nil => simp
  | cons lane rest ih =>
    cases i with
    | zero => exact (hf lane).append (List.Sublist.refl _)
    | succ i => exact (List.Sublist.refl _).append (ih i)

omit [DecidableEq α] in
theorem flatten_modify_append_perm {i : ℕ} (h : i < s.length) (x : α) :
    (s.modify i (· ++ [x])).flatten.Perm (x :: s.flatten) := by
  induction s generalizing i with
  | nil => simp at h
  | cons lane rest ih =>
    cases i with
    | zero =>
      simp only [List.modify_zero_cons, List.flatten_cons, List.append_assoc, List.singleton_append]
      exact List.perm_middle
    | succ i =>
      simp only [List.modify_succ_cons, List.flatten_cons]
      exact ((ih (Nat.lt_of_succ_lt_succ h)).append_left lane).trans List.perm_middle

theorem move_nodup {e : Move α} (hs : s.flatten.Nodup) (h : move s e = some s') :
    s'.flatten.Nodup := by
  cases e with
  | enter i x =>
    obtain ⟨⟨hi, hx⟩, ⟨⟩⟩ := Option.ite_none_right_eq_some.mp h
    exact (flatten_modify_append_perm hi x).nodup_iff.mpr (List.nodup_cons.mpr ⟨hx, hs⟩)
  | leave i x =>
    obtain ⟨-, ⟨⟩⟩ := Option.ite_none_right_eq_some.mp h
    exact hs.sublist (flatten_modify_sublist List.tail_sublist i)
  | retract i x =>
    obtain ⟨-, ⟨⟩⟩ := Option.ite_none_right_eq_some.mp h
    exact hs.sublist (flatten_modify_sublist List.dropLast_sublist i)
  | withdraw i x =>
    obtain ⟨-, ⟨⟩⟩ := Option.ite_none_right_eq_some.mp h
    exact hs.sublist (flatten_modify_sublist (fun _ => List.erase_sublist) i)

theorem replay_nodup {es : List (Move α)} (hs : s.flatten.Nodup) (h : replay s es = some s') :
    s'.flatten.Nodup := by
  induction es generalizing s with
  | nil =>
    obtain rfl := Option.some.inj h
    exact hs
  | cons e rest ih =>
    obtain ⟨s₁, hmove, hrest⟩ := Option.bind_eq_some_iff.mp h
    exact ih (move_nodup hs hmove) hrest

end Adl.Math.Lanes
