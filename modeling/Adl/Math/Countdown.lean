import Mathlib.Data.List.Basic
import Mathlib.Tactic.Common

/-!
# Counting down while elements are erased

A counter says how many of the first elements of a list are of interest. A loop erases elements, and
counts down when the index of an erased element is less than the counter was before the loop. The
index is the one at that time, so that later elements can be taken for first ones.
-/

namespace Adl.Math

variable {α : Type*} {keep : α → Bool}

/-- How often the loop counts down from an index on. -/
def countdown (keep : α → Bool) (saved : ℕ) : ℕ → List α → ℕ
  | _, [] => 0
  | index, a :: rest =>
    if keep a then countdown keep saved (index + 1) rest
    else countdown keep saved index rest + if index < saved then 1 else 0

/-- The number of elements behind the first `k` that are erased with less than `k` elements kept
before them. -/
def miscounted (keep : α → Bool) (k : ℕ) (l : List α) : ℕ :=
  ((l.drop k).zipIdx k).countP fun x => !keep x.1 && decide ((l.take x.2).countP keep < k)

theorem countdown_append {saved index : ℕ} {l l' : List α} :
    countdown keep saved index (l ++ l') =
      countdown keep saved index l + countdown keep saved (index + l.countP keep) l' := by
  induction l generalizing index with
  | nil => simp [countdown]
  | cons a rest ih =>
    rw [List.cons_append, countdown, countdown, List.countP_cons, ih, ih]
    split
    · rw [Nat.add_right_comm, Nat.add_assoc]
    · rw [Nat.add_zero, Nat.add_right_comm]

theorem countdown_of_le {saved index : ℕ} {l : List α} (h : index + l.length ≤ saved) :
    countdown keep saved index l = l.countP (!keep ·) := by
  induction l generalizing index with
  | nil => rfl
  | cons a rest ih =>
    rw [List.length_cons] at h
    have hindex : index < saved := by omega
    rw [countdown, List.countP_cons, ih (by omega), ih (by omega)]
    cases keep a <;> simp [hindex]

theorem countdown_zipIdx {saved : ℕ} {first rest : List α} :
    countdown keep saved (first.countP keep) rest =
      (rest.zipIdx first.length).countP fun x =>
        !keep x.1 && decide (((first ++ rest).take x.2).countP keep < saved) := by
  induction rest generalizing first with
  | nil => rfl
  | cons a rest ih =>
    -- for the rest, this element is one of those before it
    have hnext := @ih (first ++ [a])
    rw [List.append_assoc, List.singleton_append, List.length_append, List.countP_append] at hnext
    rw [List.zipIdx_cons, List.countP_cons, List.take_left, countdown]
    cases hkeep : keep a with
    | true =>
      simp only [List.countP_singleton, hkeep] at hnext
      simpa using hnext
    | false =>
      simp only [List.countP_singleton, hkeep] at hnext
      simpa using hnext

theorem countdown_eq {k : ℕ} {l : List α} (hk : k ≤ l.length) :
    countdown keep k 0 l = (l.take k).countP (!keep ·) + miscounted keep k l := by
  have hlength : (l.take k).length = k := List.length_take_of_le hk
  have hrest := @countdown_zipIdx _ keep k (l.take k) (l.drop k)
  rw [List.take_append_drop, hlength] at hrest
  calc countdown keep k 0 l
      = countdown keep k 0 (l.take k ++ l.drop k) := by rw [List.take_append_drop]
    _ = (l.take k).countP (!keep ·) + countdown keep k ((l.take k).countP keep) (l.drop k) := by
      rw [countdown_append, countdown_of_le (by omega), Nat.zero_add]
    _ = (l.take k).countP (!keep ·) + miscounted keep k l := by rw [hrest, miscounted]

end Adl.Math
