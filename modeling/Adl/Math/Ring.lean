import Mathlib.Data.List.Basic
import Mathlib.Order.Nat
import Mathlib.Tactic.Common

/-!
# Rings

The slots of a ring follow each other, and after the last slot of the ring comes the first one.

A ring buffer puts its elements into such slots and keeps the slot of the first element and the one
behind the last. It has no counter, and it does not check its size: when every slot is in use, the
two slots are the same and the buffer looks empty. With one slot more than elements it is a list.
-/

namespace Adl.Math

section Slots

variable {m head i j : ℕ}

/-- The slot `i` places after `head` in a ring of `m` slots. -/
def slot (m head i : ℕ) : ℕ := (head + i) % m

theorem slot_lt (hm : 0 < m) : slot m head i < m := Nat.mod_lt _ hm

theorem slot_zero (hhead : head < m) : slot m head 0 = head := Nat.mod_eq_of_lt hhead

theorem slot_slot : slot m (slot m head i) j = slot m head (i + j) := by
  rw [slot, slot, Nat.mod_add_mod, slot, Nat.add_assoc]

theorem slot_eq_ite (hhead : head < m) (hi : i ≤ m) :
    slot m head i = if head + i < m then head + i else head + i - m := by
  rw [slot]
  split_ifs with h
  · exact Nat.mod_eq_of_lt h
  · rw [Nat.mod_eq_sub_mod (by omega), Nat.mod_eq_of_lt (by omega)]

theorem slot_inj (hhead : head < m) (hi : i < m) (hj : j < m) :
    slot m head i = slot m head j ↔ i = j := by
  rw [slot_eq_ite hhead hi.le, slot_eq_ite hhead hj.le]
  split_ifs <;> omega

end Slots

/-! ### Ring buffers -/

/-- What a ring buffer of `m` slots shows when an element is added to a list. -/
def ringPush {α : Type*} (m : ℕ) (l : List α) (x : α) : List α :=
  if l.length + 1 < m then l ++ [x] else []

theorem ringPush_of_lt {α : Type*} {m : ℕ} {l : List α} {x : α} (h : l.length + 1 < m) :
    ringPush m l x = l ++ [x] := if_pos h

theorem forall_mem_ringPush {α : Type*} {m : ℕ} {l : List α} {x : α} {p : α → Prop}
    (hl : ∀ a ∈ l, p a) (hx : p x) : ∀ a ∈ ringPush m l x, p a := by
  rw [ringPush]
  split
  · exact List.forall_mem_append.mpr ⟨hl, List.forall_mem_singleton.mpr hx⟩
  · exact fun a ha => absurd ha List.not_mem_nil

/-- The elements are in the slots from `head` on, up to the one before `tail`. -/
structure RingBuffer (α : Type*) (m : ℕ) where
  buf : ℕ → α
  head : ℕ
  tail : ℕ
  head_lt : head < m
  tail_lt : tail < m

namespace RingBuffer

variable {α : Type*} {m : ℕ} {q : RingBuffer α m} {x : α}

/-- Add an element, whether or not there is room. -/
def pushBack (q : RingBuffer α m) (x : α) : RingBuffer α m where
  buf i := if i = q.tail then x else q.buf i
  head := q.head
  tail := slot m q.tail 1
  head_lt := q.head_lt
  tail_lt := slot_lt (q.head.zero_le.trans_lt q.head_lt)

def size (q : RingBuffer α m) : ℕ := (if q.tail < q.head then m else 0) + q.tail - q.head

/-- The elements from the first one on. -/
def contents (q : RingBuffer α m) : List α :=
  (List.range q.size).map fun i => q.buf (slot m q.head i)

theorem size_lt : q.size < m := by
  have hhead := q.head_lt
  have htail := q.tail_lt
  rw [size]
  split <;> omega

theorem slot_size : slot m q.head q.size = q.tail := by
  have hhead := q.head_lt
  have htail := q.tail_lt
  rw [slot_eq_ite hhead size_lt.le, size]
  split_ifs <;> omega

theorem size_pushBack : (q.pushBack x).size = if q.size + 1 < m then q.size + 1 else 0 := by
  have hhead := q.head_lt
  have htail := q.tail_lt
  have hnext : (q.pushBack x).tail = if q.tail + 1 < m then q.tail + 1 else q.tail + 1 - m :=
    slot_eq_ite htail (by omega)
  have hsame : (q.pushBack x).head = q.head := rfl
  rw [size, size, hnext, hsame]
  split_ifs <;> omega

/-- The ring buffer with its slots shows what `ringPush` says. -/
theorem contents_pushBack : (q.pushBack x).contents = ringPush m q.contents x := by
  rw [contents, size_pushBack, ringPush, contents, List.length_map, List.length_range]
  split_ifs with hroom
  · rw [List.range_succ, List.map_append, List.map_singleton]
    congr 1
    · -- the new element is behind the others
      refine List.map_congr_left fun i hi => if_neg fun heq => ?_
      have hi := List.mem_range.mp hi
      rw [← slot_size] at heq
      exact hi.ne ((slot_inj q.head_lt (hi.trans size_lt) size_lt).mp heq)
    · have hlast : (q.pushBack x).buf (slot m q.head q.size) = x := if_pos slot_size
      exact congrArg (fun y => [y]) hlast
  · rfl

end RingBuffer

end Adl.Math
