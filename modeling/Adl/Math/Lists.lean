import Mathlib.Data.List.Basic

/-!
# Changes of lists in place
-/

namespace Adl.Math

variable {α β : Type*} {l : List α} {i : ℕ}

theorem modify_congr {f g : α → α} (h : ∀ x, l[i]? = some x → f x = g x) :
    l.modify i f = l.modify i g := by
  apply List.ext_getElem?
  intro j
  rw [List.getElem?_modify, List.getElem?_modify]
  by_cases hij : i = j
  · cases hx : l[j]? with
    | none => rfl
    | some x => simp [hij, h x (hij ▸ hx)]
  · simp [hij]

theorem modify_eq_self_of {f : α → α} (h : ∀ x, l[i]? = some x → f x = x) : l.modify i f = l :=
  (modify_congr h).trans (List.modify_id i l)

theorem map_modify {f : α → α} {g : β → β} {view : α → β}
    (h : ∀ x, l[i]? = some x → view (f x) = g (view x)) :
    (l.modify i f).map view = (l.map view).modify i g := by
  apply List.ext_getElem?
  intro j
  rw [List.getElem?_map, List.getElem?_modify, List.getElem?_modify, List.getElem?_map]
  by_cases hij : i = j
  · cases hx : l[j]? with
    | none => rfl
    | some x => simp [hij, h x (hij ▸ hx)]
  · simp [hij]

theorem map_modify_of_eq {f : α → α} {view : α → β} (h : ∀ x, view (f x) = view x) :
    (l.modify i f).map view = l.map view :=
  (map_modify fun x _ => h x).trans (List.modify_id i (l.map view))

theorem getElem?_modify_cases {f : α → α} {j : ℕ} {y : α} (h : (l.modify i f)[j]? = some y) :
    (i ≠ j ∧ l[j]? = some y) ∨ (i = j ∧ ∃ x, l[i]? = some x ∧ y = f x) := by
  rw [List.getElem?_modify] at h
  obtain ⟨x, hx, rfl⟩ := Option.map_eq_some_iff.mp h
  by_cases hij : i = j
  · exact .inr ⟨hij, x, hij ▸ hx, by simp [hij]⟩
  · exact .inl ⟨hij, by simpa [hij] using hx⟩

/-- A list around the element that is changed. -/
theorem modify_split (f : α → α) {x : α} (h : l[i]? = some x) :
    ∃ pre post, l = pre ++ x :: post ∧ l.modify i f = pre ++ f x :: post ∧ pre.length = i := by
  obtain ⟨hi, -⟩ := List.getElem?_eq_some_iff.mp h
  obtain ⟨pre, y, post, rfl, rfl, hmodify⟩ := List.exists_of_modify f hi
  obtain rfl : y = x := by simpa using h
  exact ⟨pre, post, rfl, hmodify, rfl⟩

theorem map_erase_of_findIdx? [DecidableEq β] {key : α → β} {x : β} {k : ℕ}
    (h : l.findIdx? (fun a => decide (key a = x)) = some k) :
    (l.eraseIdx k).map key = (l.map key).erase x := by
  induction l generalizing k with
  | nil => cases h
  | cons a rest ih =>
    rw [List.findIdx?_cons] at h
    by_cases ha : key a = x
    · obtain rfl : k = 0 := by simpa [ha] using h.symm
      simp [ha]
    · obtain ⟨k', hk', rfl⟩ : ∃ k', rest.findIdx? (fun a => decide (key a = x)) = some k' ∧
          k' + 1 = k := by simpa [ha] using h
      simp [ha, ih hk']

/-! ### Loops that overwrite a list -/

/-- A loop that writes each element once, from the first one on, and reads only what it has not yet
written. -/
theorem foldl_set_up {f : List α → ℕ → α} (hf : ∀ l l' n, l.drop n = l'.drop n → f l n = f l' n)
    {m : ℕ} (hm : m ≤ l.length) :
    (List.range m).foldl (fun l n => l.set n (f l n)) l = (List.range m).map (f l) ++ l.drop m := by
  induction m with
  | zero => rfl
  | succ m ih =>
    have hlength : ((List.range m).map (f l)).length = m := by simp
    have hdrop : ((List.range m).map (f l) ++ l.drop m).drop m = l.drop m := by
      rw [List.drop_append_of_le_length (Nat.le_of_eq hlength.symm),
        List.drop_of_length_le (Nat.le_of_eq hlength), List.nil_append]
    rw [List.range_succ, List.foldl_append, ih (by omega), List.foldl_cons, List.foldl_nil,
      hf _ l m hdrop, List.set_append_right m _ (Nat.le_of_eq hlength), hlength, Nat.sub_self,
      List.drop_eq_getElem_cons hm, List.set_cons_zero, List.map_append, List.append_assoc]
    rfl

/-- A loop that writes from an offset on, downwards, and reads only what lies before. -/
theorem foldl_set_down {f : List α → ℕ → α} {s : ℕ}
    (hf : ∀ l l' n, l.take (n + s + 1) = l'.take (n + s + 1) → f l n = f l' n)
    {m : ℕ} (hm : m + s ≤ l.length) :
    (List.range m).reverse.foldl (fun l n => l.set (n + s) (f l n)) l =
      l.take s ++ ((List.range m).map (f l) ++ l.drop (m + s)) := by
  induction m generalizing l with
  | zero => simp
  | succ m ih =>
    have hread : (List.range m).map (f (l.set (m + s) (f l m))) = (List.range m).map (f l) := by
      refine List.map_congr_left fun n hn => hf _ _ n ?_
      exact List.take_set_of_le (by have := List.mem_range.mp hn; omega)
    have hdrop : (l.set (m + s) (f l m)).drop (m + s) = f l m :: l.drop (m + 1 + s) := by
      rw [List.drop_set, if_neg (Nat.lt_irrefl _), Nat.sub_self,
        List.drop_eq_getElem_cons (by omega : m + s < l.length), List.set_cons_zero,
        show m + s + 1 = m + 1 + s by omega]
    rw [List.range_succ, List.reverse_append, List.reverse_singleton, List.singleton_append,
      List.foldl_cons, ih (by rw [List.length_set]; omega), hread, hdrop,
      List.take_set_of_le (by omega), List.map_append, List.append_assoc]
    rfl

end Adl.Math
