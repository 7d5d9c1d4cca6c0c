import Mathlib.Data.List.Perm.Basic
import Mathlib.Tactic.Common

/-!
# Sorting and searching with a given order

Sorting functions and binary searches trust their comparison. One that is no strict weak order gives
no more than a permutation, and a search says nothing about a list that is not partitioned by its
key.
-/

namespace Adl.Math

variable {α : Type*} {lt : α → α → Bool} {l order : List α} {x : α}

/-- The elements of a list are compared by a strict order. -/
structure StrictOrder (lt : α → α → Bool) (l : List α) : Prop where
  asymm : ∀ a ∈ l, ∀ b ∈ l, lt a b = true → lt b a = false
  trans : ∀ a ∈ l, ∀ b ∈ l, ∀ c ∈ l, lt a b = true → lt b c = true → lt a c = true

structure StrictWeak (lt : α → α → Bool) (l : List α) : Prop extends StrictOrder lt l where
  negTrans : ∀ a ∈ l, ∀ b ∈ l, ∀ c ∈ l, lt a b = false → lt b c = false → lt a c = false

/-- What sorting a list may give. -/
structure Sorts (lt : α → α → Bool) (l order : List α) : Prop where
  perm : order.Perm l
  sorted : StrictWeak lt l → order.Pairwise fun a b => lt b a = false

/-- The first of the elements that are neither below nor above the key, as a binary search gives
it for a list that is partitioned. -/
def search (below above : α → Bool) (l : List α) : Option α :=
  if l.Pairwise (fun a b => below b = true → below a = true) ∧
      l.Pairwise (fun a b => above a = true → above b = true) then
    (l.find? fun e => !below e).filter fun e => !above e
  else none

theorem search_eq_some_iff {below above : α → Bool} :
    search below above l = some x ↔
      l.Pairwise (fun a b => below b = true → below a = true) ∧
      l.Pairwise (fun a b => above a = true → above b = true) ∧
      l.find? (fun e => !below e) = some x ∧ above x = false := by
  rw [search]
  split_ifs with h
  · rw [Option.filter_eq_some_iff, Bool.not_eq_true', and_iff_right h.1, and_iff_right h.2]
  · exact iff_of_false not_false fun hx => h ⟨hx.1, hx.2.1⟩

namespace StrictOrder

theorem pairwise_insert (h : StrictOrder lt (x :: l))
    (hl : l.Pairwise fun a b => lt b a = false) :
    (l.filter (lt · x) ++ x :: l.filter (!lt · x)).Pairwise fun a b => lt b a = false := by
  have hother : ∀ b ∈ l.filter (!lt · x), b ∈ l ∧ lt b x = false := fun b hb =>
    ⟨(List.mem_filter.mp hb).1, by simpa using (List.mem_filter.mp hb).2⟩
  refine List.pairwise_append.mpr ⟨hl.filter _, List.pairwise_cons.mpr ⟨fun b hb => (hother b hb).2,
    hl.filter _⟩, fun a ha b hb => ?_⟩
  obtain ⟨hal, hax⟩ := List.mem_filter.mp ha
  rcases List.mem_cons.mp hb with rfl | hb
  · exact h.asymm a (.tail _ hal) b List.mem_cons_self hax
  · obtain ⟨hbl, hbx⟩ := hother b hb
    refine Bool.eq_false_iff.mpr fun hba => Bool.false_ne_true (hbx.symm.trans ?_)
    exact h.trans b (.tail _ hbl) a (.tail _ hal) x List.mem_cons_self hba hax

theorem of_perm {l' : List α} (h : StrictOrder lt l) (hl : ∀ a ∈ l', a ∈ l) : StrictOrder lt l' :=
  ⟨fun a ha b hb => h.asymm a (hl a ha) b (hl b hb),
    fun a ha b hb c hc => h.trans a (hl a ha) b (hl b hb) c (hl c hc)⟩

theorem exists_sorted (h : StrictOrder lt l) :
    ∃ order : List α, order.Perm l ∧ order.Pairwise fun a b => lt b a = false := by
  induction l with
  | nil => exact ⟨[], .nil, .nil⟩
  | cons x l ih =>
    obtain ⟨order, hperm, hsorted⟩ := ih (h.of_perm fun _ => List.mem_cons_of_mem x)
    refine ⟨_, ?_, pairwise_insert (x := x) (h.of_perm fun a ha => ?_) hsorted⟩
    · exact List.perm_middle.trans ((List.filter_append_perm (lt · x) order).trans hperm |>.cons x)
    · exact (hperm.cons x).subset ha

theorem exists_sorted_first (h : StrictOrder lt l) (hx : x ∈ l) :
    ∃ before after, (before ++ x :: after).Perm l ∧
      (before ++ x :: after).Pairwise (fun a b => lt b a = false) ∧
      (∀ a ∈ before, lt a x = true) ∧ ∀ b ∈ after, lt b x = false := by
  obtain ⟨front, back, rfl⟩ := List.append_of_mem hx
  have hmid : (front ++ x :: back).Perm (x :: (front ++ back)) := List.perm_middle
  have h' := h.of_perm fun a ha => hmid.symm.subset ha
  obtain ⟨order, hperm, hsorted⟩ := (h'.of_perm fun _ => List.mem_cons_of_mem x).exists_sorted
  refine ⟨order.filter (lt · x), order.filter (!lt · x), ?_,
    pairwise_insert (h'.of_perm fun a ha => (hperm.cons x).subset ha) hsorted,
    fun a ha => (List.mem_filter.mp ha).2,
    fun b hb => by simpa using (List.mem_filter.mp hb).2⟩
  have hparts := ((List.filter_append_perm (lt · x) order).trans hperm).cons x
  exact (List.perm_middle.trans hparts).trans hmid.symm

end StrictOrder

end Adl.Math
