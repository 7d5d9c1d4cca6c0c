import Adl.Decode.Build
import Mathlib.Data.List.Chain
import Mathlib.Data.Finset.Card

/-!
# Groups of instructions

What the construction of a decode tree can rely on when it cuts masks at words, collects the
values of opcodes and sorts a group by its masks.
-/

namespace Adl.Decode

open Adl.Math

variable {W : ℕ} {l : List (Instr W)} {mask : BitVec W}

/-! ### Common bits -/

private theorem getLsbD_foldl_and (l : List (Instr W)) (m : BitVec W) (b : ℕ) :
    (l.foldl (fun mask i => mask &&& i.opcMask) m).getLsbD b = true ↔
      m.getLsbD b = true ∧ ∀ i ∈ l, i.opcMask.getLsbD b = true := by
  induction l generalizing m with
  | nil => simp
  | cons x rest ih =>
    rw [List.foldl_cons, ih, BitVec.getLsbD_and, Bool.and_eq_true]
    simp only [List.mem_cons, forall_eq_or_imp, and_assoc]

/-- A mask lies in the common bits of a list exactly when it lies in every opcode mask. -/
theorem within_getCommonOpc {m : BitVec W} :
    Within m (getCommonOpc l) ↔ ∀ i ∈ l, Within m i.opcMask := by
  simp only [within_iff, getCommonOpc, getLsbD_foldl_and]
  constructor
  · intro h i hi b hb
    exact (h b hb).2 i hi
  · intro h b hb
    refine ⟨?_, fun i hi => h i hi b hb⟩
    simp [BitVec.lt_of_getLsbD hb]

theorem getCommonOpc_congr {l l' : List (Instr W)} (h : ∀ i, i ∈ l ↔ i ∈ l') :
    getCommonOpc l = getCommonOpc l' := by
  apply Within.antisymm
  · exact within_getCommonOpc.mpr fun i hi =>
      within_getCommonOpc.mp (Within.refl _) i ((h i).mpr hi)
  · exact within_getCommonOpc.mpr fun i hi =>
      within_getCommonOpc.mp (Within.refl _) i ((h i).mp hi)

/-- The common bits of a list with a smallest mask are that mask. -/
theorem getCommonOpc_eq_of_least {x : Instr W} (hx : x ∈ l)
    (hleast : ∀ i ∈ l, Within x.opcMask i.opcMask) : getCommonOpc l = x.opcMask :=
  (within_getCommonOpc.mp (Within.refl _) x hx).antisymm (within_getCommonOpc.mpr hleast)

@[simp] theorem getCommonOpc_singleton (i : Instr W) : getCommonOpc [i] = i.opcMask :=
  getCommonOpc_eq_of_least List.mem_cons_self (by simp [Within.refl])

/-! ### Values -/

private theorem mem_foldl_insertElem (mask : BitVec W) (l : List (Instr W))
    (vals : List (BitVec W)) (v : BitVec W) :
    v ∈ l.foldl (fun vals i => KeyedList.insertElem (mask &&& i.opcode) vals) vals ↔
      v ∈ vals ∨ ∃ i ∈ l, mask &&& i.opcode = v := by
  induction l generalizing vals with
  | nil => simp
  | cons x rest ih =>
    rw [List.foldl_cons, ih, KeyedList.mem_insertElem]
    simp only [List.mem_cons, exists_eq_or_imp]
    rw [eq_comm (a := v)]
    tauto

theorem mem_getValues {mask v : BitVec W} :
    v ∈ getValues mask l ↔ ∃ i ∈ l, mask &&& i.opcode = v := by
  rw [getValues, mem_foldl_insertElem]
  simp

theorem nodup_getValues (mask : BitVec W) (l : List (Instr W)) : (getValues mask l).Nodup := by
  suffices h : ∀ vals : List (BitVec W), vals.Nodup →
      (l.foldl (fun vals i => KeyedList.insertElem (mask &&& i.opcode) vals) vals).Nodup from
    h [] List.nodup_nil
  induction l with
  | nil => exact fun _ h => h
  | cons x rest ih => exact fun vals h => ih _ (KeyedList.nodup_insertElem h)

/-- With a single value, all opcodes agree under the mask. -/
theorem agree_of_getValues_length_one (h : (getValues mask l).length = 1) {i j : Instr W}
    (hi : i ∈ l) (hj : j ∈ l) : mask &&& i.opcode = mask &&& j.opcode := by
  obtain ⟨v, hv⟩ := List.length_eq_one_iff.mp h
  have hi' : mask &&& i.opcode ∈ getValues mask l := mem_getValues.mpr ⟨i, hi, rfl⟩
  have hj' : mask &&& j.opcode ∈ getValues mask l := mem_getValues.mpr ⟨j, hj, rfl⟩
  rw [hv, List.mem_singleton] at hi' hj'
  rw [hi', hj']

/-- Under an empty mask there is one value. -/
theorem length_getValues_zero (h : getValues 0 l ≠ []) : (getValues 0 l).length = 1 := by
  have hzero : ∀ v ∈ getValues 0 l, v = 0 := by
    intro v hv
    obtain ⟨i, _, rfl⟩ := mem_getValues.mp hv
    simp
  have hnodup := nodup_getValues 0 l
  obtain ⟨v, rest, heq⟩ := List.exists_cons_of_ne_nil h
  rw [heq] at hzero hnodup ⊢
  cases rest with
  | nil => rfl
  | cons u rest =>
    rw [hzero v (by simp), hzero u (by simp)] at hnodup
    simp at hnodup

/-! ### Cutting masks at words -/

theorem getLsbD_wordPart (mask : BitVec W) (word b : ℕ) :
    (wordPart mask word).getLsbD b =
      (decide (W - 32 * (word + 1) ≤ b) && decide (b < W - 32 * word) && mask.getLsbD b) := by
  simp only [wordPart, BitVec.getLsbD_shiftLeft, BitVec.getLsbD_ushiftRight]
  by_cases hlo : W - 32 * (word + 1) ≤ b
  · by_cases hhi : b < W - 32 * word
    · simp [hlo, hhi, show b < W by omega, show ¬ b < W - 32 * (word + 1) by omega,
        show 32 * word + b < W by omega, show ¬ 32 * word + b < 32 * word by omega]
    · simp [hlo, hhi]
      omega
  · simp [hlo]

theorem wordPart_within (mask : BitVec W) (word : ℕ) : Within (wordPart mask word) mask := by
  rw [within_iff]
  intro b hb
  rw [getLsbD_wordPart, Bool.and_eq_true] at hb
  exact hb.2

private theorem splitMask_go_cases (mask : BitVec W) (left word : ℕ) :
    splitMask.go mask left word = mask ∨
      ∃ k, splitMask.go mask left word = wordPart mask k ∧ wordPart mask k ≠ 0 := by
  induction left generalizing word with
  | zero => exact Or.inl rfl
  | succ left ih =>
    rw [splitMask.go]
    split_ifs with h
    · exact Or.inr ⟨word, rfl, h⟩
    · exact ih (word + 1)

/-- A word of a mask is part of the mask. -/
theorem splitMask_within (mask : BitVec W) (word : ℕ) : Within (splitMask mask word) mask := by
  rcases splitMask_go_cases mask (W / 32 - word) word with h | ⟨k, h, _⟩
  · rw [splitMask, h]
    exact Within.refl _
  · rw [splitMask, h]
    exact wordPart_within mask k

/-- Something is left of a nonzero mask. -/
theorem splitMask_eq_zero_iff {word : ℕ} : splitMask mask word = 0 ↔ mask = 0 := by
  constructor
  · intro hzero
    rcases splitMask_go_cases mask (W / 32 - word) word with h | ⟨k, h, hk⟩
    · rw [splitMask, h] at hzero
      exact hzero
    · rw [splitMask, h] at hzero
      exact absurd hzero hk
  · rintro rfl
    exact (splitMask_within (0 : BitVec W) word).antisymm (Within.zero _)

/-- A word of the bits of a mask that are not used yet. -/
theorem splitMask_xor_spec {used mask : BitVec W} (h : Within used mask) (word : ℕ) :
    splitMask (used ^^^ mask) word &&& used = 0 ∧
      Within (splitMask (used ^^^ mask) word) mask := by
  have hsplit := splitMask_within (used ^^^ mask) word
  exact ⟨hsplit.and_eq_zero h.xor_and_eq_zero, hsplit.trans h.xor_within⟩

/-- Splitting from a word on starts with the part in that word. -/
theorem wordPart_within_splitMask {word : ℕ} (h : word < W / 32) :
    Within (wordPart mask word) (splitMask mask word) := by
  obtain ⟨left, hleft⟩ : ∃ left, W / 32 - word = left + 1 := ⟨W / 32 - word - 1, by omega⟩
  by_cases hzero : wordPart mask word = 0
  · rw [hzero]
    exact Within.zero _
  · rw [splitMask, hleft, splitMask.go, if_pos hzero]
    exact Within.refl _

/-! ### Sorting by mask -/

/-- Masks of the same size, one inside the other, are equal. -/
theorem eq_of_within_of_getNorm_le {a b : BitVec W} (h : Within a b)
    (hle : getNorm b ≤ getNorm a) : a = b := by
  have hcard : ∀ m : BitVec W,
      getNorm m = ((List.range W).filter (m.getLsbD ·)).toFinset.card := fun m => by
    rw [getNorm, List.countP_eq_length_filter,
      List.toFinset_card_of_nodup (List.nodup_range.filter _)]
  rw [hcard, hcard] at hle
  rw [within_iff] at h
  have hsub : ((List.range W).filter (a.getLsbD ·)).toFinset ⊆
      ((List.range W).filter (b.getLsbD ·)).toFinset := by
    intro i hi
    simp only [List.mem_toFinset, List.mem_filter] at hi ⊢
    exact ⟨hi.1, h i hi.2⟩
  have heq := Finset.eq_of_subset_of_card_le hsub hle
  refine eq_iff_getLsbD.mpr fun i => ?_
  by_cases hi : i < W
  · have hmem := Finset.ext_iff.mp heq i
    simp only [List.mem_toFinset, List.mem_filter, List.mem_range, hi, true_and] at hmem
    exact Bool.eq_iff_iff.mpr hmem
  · rw [BitVec.getLsbD_of_ge _ _ (by omega), BitVec.getLsbD_of_ge _ _ (by omega)]

private theorem maxMask_foldl (l : List (Instr W)) (acc : BitVec W × Option (Instr W)) :
    let res := l.foldl
      (fun acc i => if getNorm acc.1 ≤ getNorm i.opcMask then (i.opcMask, some i) else acc) acc
    (res = acc ∨ ∃ x ∈ l, res = (x.opcMask, some x)) ∧
      getNorm acc.1 ≤ getNorm res.1 ∧ ∀ i ∈ l, getNorm i.opcMask ≤ getNorm res.1 := by
  induction l generalizing acc with
  | nil => simp
  | cons x rest ih =>
    simp only [List.foldl_cons]
    by_cases hle : getNorm acc.1 ≤ getNorm x.opcMask
    · rw [if_pos hle]
      obtain ⟨hres, hacc, hrest⟩ := ih (x.opcMask, some x)
      refine ⟨Or.inr ?_, hle.trans hacc, List.forall_mem_cons.mpr ⟨hacc, hrest⟩⟩
      rcases hres with h | ⟨y, hy, h⟩
      · exact ⟨x, List.mem_cons_self, h⟩
      · exact ⟨y, List.mem_cons_of_mem _ hy, h⟩
    · rw [if_neg hle]
      obtain ⟨hres, hacc, hrest⟩ := ih acc
      refine ⟨hres.imp_right ?_, hacc, List.forall_mem_cons.mpr ⟨by omega, hrest⟩⟩
      rintro ⟨y, hy, h⟩
      exact ⟨y, List.mem_cons_of_mem _ hy, h⟩

/-- A nonempty list has an instruction with the largest mask. -/
theorem exists_maxMask (hl : l ≠ []) :
    ∃ x ∈ l, maxMask l = some x ∧ ∀ i ∈ l, getNorm i.opcMask ≤ getNorm x.opcMask := by
  obtain ⟨x, rest, rfl⟩ := List.exists_cons_of_ne_nil hl
  have hzero : getNorm (0 : BitVec W) ≤ getNorm x.opcMask := by simp [getNorm]
  obtain ⟨hres, hacc, hrest⟩ := maxMask_foldl rest (x.opcMask, some x)
  have hmax : maxMask (x :: rest) = (rest.foldl
      (fun acc i => if getNorm acc.1 ≤ getNorm i.opcMask then (i.opcMask, some i) else acc)
      (x.opcMask, some x)).2 := by
    rw [maxMask, List.foldl_cons, if_pos hzero]
  rcases hres with h | ⟨y, hy, h⟩
  · rw [h] at hmax hacc hrest
    exact ⟨x, List.mem_cons_self, hmax, List.forall_mem_cons.mpr ⟨hacc, hrest⟩⟩
  · rw [h] at hmax hacc hrest
    exact ⟨y, List.mem_cons_of_mem _ hy, hmax, List.forall_mem_cons.mpr ⟨hacc, hrest⟩⟩

/-- Taking one object out of a list without repeated objects. -/
private theorem perm_cons_filter_id {l : List (Instr W)} {x : Instr W} (hx : x ∈ l)
    (hids : (l.map Instr.id).Nodup) :
    (x :: l.filter fun i => i.id != x.id).Perm l := by
  induction l with
  | nil => simp at hx
  | cons y rest ih =>
    rw [List.map_cons, List.nodup_cons] at hids
    rcases List.mem_cons.mp hx with rfl | hrest
    · have hkeep : rest.filter (fun i => i.id != x.id) = rest := by
        rw [List.filter_eq_self]
        intro i hi
        simp only [bne_iff_ne, ne_eq]
        intro heq
        exact hids.1 (heq ▸ List.mem_map_of_mem hi)
      simp [hkeep]
    · have hne : y.id ≠ x.id := fun heq => hids.1 (heq ▸ List.mem_map_of_mem hrest)
      rw [List.filter_cons_of_pos (by simpa using hne)]
      exact (List.Perm.swap _ _ _).trans ((ih hrest hids.2).cons y)

private theorem sortByMask_go (n : ℕ) (l : List (Instr W)) (hn : l.length ≤ n + 1)
    (hids : (l.map Instr.id).Nodup) :
    (sortByMask.go n l).Perm l ∧
      (sortByMask.go n l).Pairwise fun i j => getNorm j.opcMask ≤ getNorm i.opcMask := by
  induction n generalizing l with
  | zero =>
    rw [sortByMask.go]
    refine ⟨List.Perm.refl _, ?_⟩
    match l, hn with
    | [], _ => exact List.Pairwise.nil
    | [_], _ => exact List.pairwise_singleton _ _
  | succ n ih =>
    rw [sortByMask.go]
    split_ifs with hlen
    · refine ⟨List.Perm.refl _, ?_⟩
      match l, hlen with
      | [], _ => exact List.Pairwise.nil
      | [_], _ => exact List.pairwise_singleton _ _
    · obtain ⟨x, hx, hmax, hle⟩ := exists_maxMask (l := l) (by rintro rfl; simp at hlen)
      rw [hmax]
      have hperm := perm_cons_filter_id hx hids
      have hlen' := hperm.length_eq
      rw [List.length_cons] at hlen'
      obtain ⟨hperm', hsorted⟩ := ih (l.filter fun i => i.id != x.id) (by omega)
        (hids.sublist (List.filter_sublist.map _))
      refine ⟨(hperm'.cons x).trans hperm, List.pairwise_cons.mpr ⟨fun i hi => ?_, hsorted⟩⟩
      exact hle i (List.mem_of_mem_filter (hperm'.mem_iff.mp hi))

/-- Sorting reorders the instructions. -/
theorem sortByMask_perm (hids : (l.map Instr.id).Nodup) : (sortByMask l).Perm l :=
  (sortByMask_go l.length l (Nat.le_succ _) hids).1

/-- Sorting puts larger masks first. -/
theorem sortByMask_sorted (hids : (l.map Instr.id).Nodup) :
    (sortByMask l).Pairwise fun i j => getNorm j.opcMask ≤ getNorm i.opcMask :=
  (sortByMask_go l.length l (Nat.le_succ _) hids).2

/-! ### The overlap check -/

/-- What the overlap check asks of neighbours: the first mask contains the second, and equal
masks come with different opcodes. -/
def Nested (i j : Instr W) : Prop :=
  Within j.opcMask i.opcMask ∧ (i.opcMask = j.opcMask → i.opcode ≠ j.opcode)

private theorem checkOverlap_go_iff (instrs : List (Instr W)) (signalError : Bool)
    (l : List (Instr W)) :
    checkOverlap.go instrs signalError l = .ok true ↔ l.IsChain Nested := by
  induction l with
  | nil => simp [checkOverlap.go]
  | cons i rest ih =>
    cases rest with
    | nil => simp [checkOverlap.go]
    | cons j rest =>
      rw [checkOverlap.go, List.isChain_cons_cons, ← ih, Nested]
      by_cases hwithin : Within j.opcMask i.opcMask
      · have hor : i.opcMask ||| j.opcMask = i.opcMask := or_eq_left_iff.mpr hwithin
        by_cases heq : i.opcMask = j.opcMask
        · have hi : j.opcMask &&& i.opcode = i.opcode :=
            and_eq_right_iff.mpr (heq ▸ i.opcode_within)
          have hj : j.opcMask &&& j.opcode = j.opcode := and_eq_right_iff.mpr j.opcode_within
          simp only [heq, or_true, ↓reduceIte, BitVec.and_self, ne_eq, not_true_eq_false, hi, hj,
            Within.refl, forall_const, true_and]
          split_ifs with hopc herr <;> simp [reportConflict, hopc]
        · simp [hwithin, hor, heq]
      · have hor : i.opcMask ||| j.opcMask ≠ i.opcMask := fun h => hwithin (or_eq_left_iff.mp h)
        have hand : i.opcMask &&& j.opcMask ≠ j.opcMask := fun h =>
          hwithin (and_eq_right_iff.mp h)
        simp only [hor, ne_eq, not_false_eq_true, true_or, ↓reduceIte, hand, hwithin, false_and,
          iff_false]
        split_ifs <;> simp [reportConflict]

/-- The overlap check accepts exactly the groups in which neighbours are nested. -/
theorem checkOverlap_eq_ok_true_iff {signalError : Bool} :
    checkOverlap l signalError = .ok true ↔ l.IsChain Nested := by
  unfold checkOverlap
  split_ifs with hlen
  · obtain ⟨x, rfl⟩ := List.length_eq_one_iff.mp hlen
    simp
  · exact checkOverlap_go_iff l signalError l

/-- In a nested group every mask contains all later ones. -/
theorem pairwise_within_of_nested (h : l.IsChain Nested) :
    l.Pairwise fun i j => Within j.opcMask i.opcMask := by
  have hchain : l.IsChain fun i j => Within j.opcMask i.opcMask := h.imp fun _ _ hij => hij.1
  have : IsTrans (Instr W) fun i j => Within j.opcMask i.opcMask :=
    ⟨fun _ _ _ hab hbc => hbc.trans hab⟩
  exact List.isChain_iff_pairwise.mp hchain

theorem comparable_of_nested (h : l.IsChain Nested) :
    ∀ i ∈ l, ∀ j ∈ l, Within i.opcMask j.opcMask ∨ Within j.opcMask i.opcMask := by
  let R (i j : Instr W) : Prop := Within i.opcMask j.opcMask ∨ Within j.opcMask i.opcMask
  have : Std.Symm R := ⟨fun _ _ => Or.symm⟩
  have hpair : l.Pairwise R := (pairwise_within_of_nested h).imp fun hij => Or.inr hij
  have hrefl : ∀ i ∈ l, R i i := fun i _ => Or.inl (Within.refl _)
  exact fun i hi j hj => hpair.forall_of_forall hrefl hi hj

/-- The last mask of a nested group lies in all others. -/
theorem within_of_nested_concat {last i : Instr W} (h : (l ++ [last]).IsChain Nested)
    (hi : i ∈ l ++ [last]) : Within last.opcMask i.opcMask := by
  rcases List.mem_append.mp hi with hl | hlast
  · exact (List.pairwise_append.mp (pairwise_within_of_nested h)).2.2 i hl last
      List.mem_cons_self
  · rw [List.mem_singleton.mp hlast]
    exact Within.refl _

/-- Instructions with comparable masks and without equal encodings are accepted in the order
in which sorting puts them. -/
theorem sortByMask_nested (hids : (l.map Instr.id).Nodup)
    (hcomp : ∀ i ∈ l, ∀ j ∈ l, Within i.opcMask j.opcMask ∨ Within j.opcMask i.opcMask)
    (hdistinct : ∀ i ∈ l, ∀ j ∈ l, i.opcMask = j.opcMask → i.opcode = j.opcode → i = j) :
    (sortByMask l).IsChain Nested := by
  have hperm := sortByMask_perm hids
  have hnodup : (sortByMask l).Nodup := hperm.nodup_iff.mpr (List.Nodup.of_map _ hids)
  refine List.Pairwise.isChain ?_
  refine ((sortByMask_sorted hids).and hnodup).imp_of_mem ?_
  rintro i j hi hj ⟨hle, hne⟩
  rw [hperm.mem_iff] at hi hj
  refine ⟨?_, fun hmask hopc => hne (hdistinct i hi j hj hmask hopc)⟩
  rcases hcomp i hi j hj with h | h
  · rw [eq_of_within_of_getNorm_le h hle]
    exact Within.refl _
  · exact h

end Adl.Decode
