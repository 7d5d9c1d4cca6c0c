import Mathlib.Data.List.Sort
import Mathlib.Tactic.Common

/-!
# Ordered maps and sets as lists

An ordered map is a list of key and value pairs, an ordered set a list of its elements. Insertion
keeps the list in increasing order and leaves an entry that is already there alone.
-/

namespace Adl.Math.KeyedList

variable {κ α : Type*} [DecidableEq κ] {l : List (κ × α)} {k : κ} {x : α} {entry : κ × α}

def find (k : κ) : List (κ × α) → Option α
  | [] => none
  | (k', x) :: rest => if k' = k then some x else find k rest

/-- Give a new value to a key that is present; an absent key is left absent. -/
def replace (k : κ) (x : α) : List (κ × α) → List (κ × α)
  | [] => []
  | (k', y) :: rest => if k' = k then (k', x) :: rest else (k', y) :: replace k x rest

@[simp] theorem find_nil (k : κ) : find k ([] : List (κ × α)) = none := rfl

theorem find_cons (k k' : κ) (x : α) (l : List (κ × α)) :
    find k ((k', x) :: l) = if k' = k then some x else find k l := rfl

theorem mem_of_find (h : find k l = some x) : (k, x) ∈ l := by
  induction l with
  | nil => simp at h
  | cons entry rest ih =>
    obtain ⟨k', y⟩ := entry
    rw [find_cons] at h
    split_ifs at h with hk
    · obtain rfl := Option.some_inj.mp h
      exact hk ▸ List.mem_cons_self
    · exact List.mem_cons_of_mem _ (ih h)

theorem find_eq_none_iff : find k l = none ↔ ∀ x, (k, x) ∉ l := by
  constructor
  · intro h x hx
    induction l with
    | nil => simp at hx
    | cons entry rest ih =>
      obtain ⟨k', y⟩ := entry
      rw [find_cons] at h
      split_ifs at h with hk
      rcases List.mem_cons.mp hx with heq | hrest
      · exact hk (Prod.mk.inj heq).1.symm
      · exact ih h hrest
  · intro h
    rw [Option.eq_none_iff_forall_ne_some]
    exact fun x hx => h x (mem_of_find hx)

theorem find_append (k : κ) (l l' : List (κ × α)) :
    find k (l ++ l') = (find k l).or (find k l') := by
  induction l with
  | nil => simp
  | cons entry rest ih =>
    obtain ⟨k', y⟩ := entry
    rw [List.cons_append, find_cons, find_cons, ih]
    split_ifs <;> simp

/-- Looking up a renamed key in a list with renamed keys. -/
theorem find_map_key {κ' : Type*} [DecidableEq κ'] {f : κ → κ'} {k' : κ'}
    (h : ∀ e ∈ l, f e.1 = k' ↔ e.1 = k) : find k' (l.map fun e => (f e.1, e.2)) = find k l := by
  induction l with
  | nil => rfl
  | cons e rest ih =>
    rw [List.map_cons, find_cons, find_cons, ih fun e he => h e (List.mem_cons_of_mem _ he)]
    simp only [h e List.mem_cons_self]

/-- Looking up in a list with changed values. -/
theorem find_map_value {β : Type*} (f : α → β) (k : κ) (l : List (κ × α)) :
    find k (l.map fun e => (e.1, f e.2)) = (find k l).map f := by
  induction l with
  | nil => rfl
  | cons e rest ih =>
    rw [List.map_cons, find_cons, find_cons, ih]
    split_ifs <;> rfl

theorem find_replace (k k' : κ) (x : α) (l : List (κ × α)) :
    find k' (replace k x l) =
      if k' = k then (find k l).map (fun _ => x) else find k' l := by
  induction l with
  | nil => simp [replace]
  | cons entry rest ih =>
    obtain ⟨k'', y⟩ := entry
    rw [replace]
    split_ifs with hk hk' hk'
    · subst hk hk'
      simp [find_cons]
    · subst hk
      simp [find_cons, Ne.symm hk']
    · subst hk'
      rw [find_cons, if_neg hk, ih, if_pos rfl, find_cons, if_neg hk]
    · rw [find_cons, find_cons, ih, if_neg hk']

theorem mem_replace (h : entry ∈ replace k x l) : entry = (k, x) ∨ entry ∈ l := by
  induction l with
  | nil => simp [replace] at h
  | cons head rest ih =>
    obtain ⟨k', y⟩ := head
    rw [replace] at h
    split_ifs at h with hk
    · subst hk
      exact (List.mem_cons.mp h).imp_right (List.mem_cons_of_mem _)
    · rcases List.mem_cons.mp h with rfl | hrest
      · exact Or.inr List.mem_cons_self
      · exact (ih hrest).imp_right (List.mem_cons_of_mem _)

/-- No key is stored twice. -/
def NodupKeys (l : List (κ × α)) : Prop := (l.map Prod.fst).Nodup

omit [DecidableEq κ] in
theorem nodupKeys_nil : NodupKeys ([] : List (κ × α)) := List.nodup_nil

theorem NodupKeys.find_of_mem (h : NodupKeys l) (hmem : (k, x) ∈ l) : find k l = some x := by
  induction l with
  | nil => cases hmem
  | cons entry rest ih =>
    obtain ⟨hnot, hrest⟩ := List.nodup_cons.mp h
    obtain ⟨k', y⟩ := entry
    rw [find_cons]
    rcases List.mem_cons.mp hmem with heq | hmem
    · obtain ⟨rfl, rfl⟩ := Prod.mk.inj heq
      exact if_pos rfl
    · have hne : k' ≠ k := by
        rintro rfl
        exact hnot (List.mem_map.mpr ⟨_, hmem, rfl⟩)
      rw [if_neg hne, ih hrest hmem]

theorem map_fst_replace (k : κ) (x : α) (l : List (κ × α)) :
    (replace k x l).map Prod.fst = l.map Prod.fst := by
  induction l with
  | nil => rfl
  | cons entry rest ih =>
    obtain ⟨k', y⟩ := entry
    rw [replace]
    split_ifs with hk
    · simp
    · simp [ih]

theorem NodupKeys.replace (h : NodupKeys l) (k : κ) (x : α) : NodupKeys (replace k x l) := by
  rw [NodupKeys, map_fst_replace]
  exact h

theorem replace_eq_nil : replace k x l = [] ↔ l = [] := by
  cases l with
  | nil => simp [replace]
  | cons entry rest =>
    simp only [replace, reduceCtorEq, iff_false]
    split_ifs <;> simp

/-! ### Lists with the same keys -/

/-- Two lists have the same keys in the same order, and related values under each. -/
def Rel {β : Type*} (R : κ → α → β → Prop) (l : List (κ × α)) (l' : List (κ × β)) : Prop :=
  List.Forall₂ (fun e e' => e'.1 = e.1 ∧ R e.1 e.2 e'.2) l l'

namespace Rel

variable {β : Type*} {R : κ → α → β → Prop} {l : List (κ × α)} {l' : List (κ × β)}

protected theorem find (h : Rel R l l') (k : κ) :
    Option.Rel (R k) (find k l) (find k l') := by
  induction h with
  | nil => exact .none
  | @cons e e' rest rest' he _ ih =>
    obtain ⟨k₁, x⟩ := e
    obtain ⟨k₂, y⟩ := e'
    obtain ⟨rfl, hR⟩ := he
    simp only [find_cons]
    split_ifs with hk
    · exact .some (hk ▸ hR)
    · exact ih

omit [DecidableEq κ] in
theorem map_fst (h : Rel R l l') : l'.map Prod.fst = l.map Prod.fst := by
  induction h with
  | nil => rfl
  | cons he _ ih => rw [List.map_cons, List.map_cons, he.1, ih]

omit [DecidableEq κ] in
theorem exists_of_mem_right (h : Rel R l l') {y : β} (hmem : (k, y) ∈ l') :
    ∃ x, (k, x) ∈ l ∧ R k x y := by
  induction h with
  | nil => cases hmem
  | @cons e e' rest rest' he _ ih =>
    rcases List.mem_cons.mp hmem with rfl | hmem
    · obtain ⟨rfl, hR⟩ := he
      exact ⟨e.2, List.mem_cons_self, hR⟩
    · obtain ⟨x, hx, hR⟩ := ih hmem
      exact ⟨x, List.mem_cons_of_mem _ hx, hR⟩

omit [DecidableEq κ] in
/-- A relation may use that its left value is in the list. -/
theorem imp_mem {S : κ → α → β → Prop} (h : Rel R l l')
    (himp : ∀ k x y, (k, x) ∈ l → R k x y → S k x y) : Rel S l l' := by
  induction h with
  | nil => exact .nil
  | cons he _ ih =>
    refine .cons ⟨he.1, himp _ _ _ List.mem_cons_self he.2⟩ (ih fun k x y hmem => ?_)
    exact himp k x y (List.mem_cons_of_mem _ hmem)

omit [DecidableEq κ] in
theorem exists_right (h : ∀ k x, (k, x) ∈ l → ∃ y, R k x y) : ∃ l', Rel R l l' := by
  induction l with
  | nil => exact ⟨[], .nil⟩
  | cons e rest ih =>
    obtain ⟨y, hy⟩ := h e.1 e.2 List.mem_cons_self
    obtain ⟨l', hl'⟩ := ih fun k x hmem => h k x (List.mem_cons_of_mem _ hmem)
    exact ⟨(e.1, y) :: l', .cons ⟨rfl, hy⟩ hl'⟩

end Rel

section Ordered

variable [LT κ] [DecidableLT κ]

/-- Store a value under a key unless the key is already present. -/
def insert (k : κ) (x : α) (l : List (κ × α)) : List (κ × α) :=
  if (find k l).isSome then l else l.orderedInsert (fun a b => a.1 < b.1) (k, x)

/-- Insert a list of entries, the leftmost first. -/
def insertAll (entries l : List (κ × α)) : List (κ × α) :=
  entries.foldl (fun acc entry => insert entry.1 entry.2 acc) l

/-- Insert an element into an ordered set. -/
def insertElem (k : κ) (s : List κ) : List κ :=
  if k ∈ s then s else s.orderedInsert (· < ·) k

private theorem find_orderedInsert (k k' : κ) (x : α) (l : List (κ × α))
    (h : find k l = none) :
    find k' (l.orderedInsert (fun a b => a.1 < b.1) (k, x)) =
      if k' = k then some x else find k' l := by
  induction l with
  | nil => simp [find_cons, eq_comm]
  | cons entry rest ih =>
    obtain ⟨k'', y⟩ := entry
    have hne : k'' ≠ k := by
      rintro rfl
      simp [find_cons] at h
    have hrest : find k rest = none := by simpa [find_cons, hne] using h
    rw [List.orderedInsert_cons]
    split_ifs with hlt hk hk
    · simp [find_cons, hk]
    · simp [find_cons, Ne.symm hk]
    · rw [find_cons, if_neg (hk ▸ hne), ih hrest, if_pos hk]
    · rw [find_cons, find_cons, ih hrest, if_neg hk]

/-- An inserted value is found under its key, except that an earlier one stays. -/
theorem find_insert (k k' : κ) (x : α) (l : List (κ × α)) :
    find k' (insert k x l) = if k' = k then some ((find k l).getD x) else find k' l := by
  unfold insert
  cases hk : find k l with
  | none => simp [find_orderedInsert k k' x l hk]
  | some y =>
    simp only [Option.isSome_some, ↓reduceIte, Option.getD_some]
    split_ifs with heq
    · exact heq ▸ hk
    · rfl

theorem mem_insert (h : entry ∈ insert k x l) : entry = (k, x) ∨ entry ∈ l := by
  unfold insert at h
  split_ifs at h
  · exact Or.inr h
  · simpa using h

theorem pairwise_insert (htrans : ∀ a b c : κ, a < b → b < c → a < c)
    (htotal : ∀ a b : κ, a ≠ b → ¬ a < b → b < a) (h : (l.map Prod.fst).Pairwise (· < ·)) (k : κ)
    (x : α) : ((insert k x l).map Prod.fst).Pairwise (· < ·) := by
  unfold KeyedList.insert
  split_ifs with hk
  · exact h
  rw [Option.not_isSome_iff_eq_none, find_eq_none_iff] at hk
  induction l with
  | nil => exact List.pairwise_singleton _ _
  | cons entry rest ih =>
    obtain ⟨hfirst, hrest⟩ := List.pairwise_cons.mp h
    rw [List.orderedInsert_cons]
    split_ifs with hlt
    · refine List.pairwise_cons.mpr ⟨fun k' hk' => ?_, h⟩
      rcases List.mem_cons.mp hk' with rfl | hk'
      · exact hlt
      · exact htrans _ _ _ hlt (hfirst k' hk')
    · have hne : k ≠ entry.1 := fun heq => hk entry.2 (heq ▸ List.mem_cons_self)
      refine List.pairwise_cons.mpr ⟨fun k' hk' => ?_,
        ih hrest fun y hy => hk y (List.mem_cons_of_mem _ hy)⟩
      obtain ⟨e, he, rfl⟩ := List.mem_map.mp hk'
      rcases (List.mem_orderedInsert _).mp he with rfl | he
      · exact htotal _ _ hne hlt
      · exact hfirst _ (List.mem_map_of_mem he)

theorem NodupKeys.insert (h : NodupKeys l) (k : κ) (x : α) : NodupKeys (insert k x l) := by
  unfold KeyedList.insert
  split_ifs with hk
  · exact h
  · rw [Option.not_isSome_iff_eq_none, find_eq_none_iff] at hk
    rw [NodupKeys, ((List.perm_orderedInsert _ (k, x) l).map Prod.fst).nodup_iff]
    refine List.nodup_cons.mpr ⟨fun hmem => ?_, h⟩
    obtain ⟨⟨k', y⟩, hentry, rfl⟩ := List.mem_map.mp hmem
    exact hk y hentry

theorem mem_insertAll {entries l : List (κ × α)} (h : entry ∈ insertAll entries l) :
    entry ∈ entries ∨ entry ∈ l := by
  induction entries generalizing l with
  | nil => exact Or.inr h
  | cons e rest ih =>
    rcases ih h with hrest | hl
    · exact Or.inl (List.mem_cons_of_mem _ hrest)
    · rcases mem_insert hl with rfl | hl
      · exact Or.inl List.mem_cons_self
      · exact Or.inr hl

theorem NodupKeys.insertAll (h : NodupKeys l) (entries : List (κ × α)) :
    NodupKeys (insertAll entries l) := by
  induction entries generalizing l with
  | nil => exact h
  | cons e rest ih => exact ih (h.insert e.1 e.2)

/-- Inserting a list of entries makes the entries of the old list win, then the leftmost of
the new ones. -/
theorem find_insertAll (k : κ) (entries l : List (κ × α)) :
    find k (insertAll entries l) = (find k l).or (find k entries) := by
  induction entries generalizing l with
  | nil => simp [insertAll]
  | cons entry rest ih =>
    obtain ⟨k', x⟩ := entry
    rw [insertAll, List.foldl_cons, ← insertAll, ih, find_insert, find_cons]
    split_ifs with h h' h'
    · subst h
      cases find k l <;> simp
    · exact absurd h.symm h'
    · exact absurd h'.symm h
    · rfl

theorem mem_insertElem {k x : κ} {s : List κ} : x ∈ insertElem k s ↔ x = k ∨ x ∈ s := by
  unfold insertElem
  split_ifs with h
  · constructor
    · exact Or.inr
    · rintro (rfl | hx)
      · exact h
      · exact hx
  · simp

theorem nodup_insertElem {s : List κ} (h : s.Nodup) : (insertElem k s).Nodup := by
  unfold insertElem
  split_ifs with hk
  · exact h
  · rw [(List.perm_orderedInsert _ k s).nodup_iff]
    exact List.nodup_cons.mpr ⟨hk, h⟩

end Ordered

end Adl.Math.KeyedList

/-! ### Tables -/

namespace Adl.Math

/-- Entries with distinct keys, such as the contents of a map or of a hash. -/
structure Table (κ α : Type*) where
  entries : List (κ × α)
  nodup : KeyedList.NodupKeys entries

def Table.find {κ α : Type*} [DecidableEq κ] (t : Table κ α) (k : κ) : Option α :=
  KeyedList.find k t.entries

end Adl.Math
