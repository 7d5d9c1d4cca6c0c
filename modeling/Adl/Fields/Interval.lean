import Mathlib.Data.Int.Range
import Mathlib.Data.List.Basic
import Mathlib.Tactic.Common

/-!
# Intervals broken at word borders

The generated code for a field works on words of 32 bits, so intervals of bits are broken at the
borders of words (`fe/FieldSupport.C`). Negative positions are those of the prefix, one word in
front of the encoding. Division rounds towards zero, so the first position of the prefix has another
quotient than the others.
-/

namespace Adl.Fields

variable {start stop a b c i j : ℤ} {pieces : List (ℤ × ℤ)}

/-! ### Words -/

theorem tdiv_eq (a : ℤ) : a.tdiv 32 = if 0 ≤ a then a / 32 else -(-a / 32) := by
  split_ifs with ha
  · exact Int.tdiv_eq_ediv_of_nonneg ha
  · rw [← Int.tdiv_eq_ediv_of_nonneg (by omega : 0 ≤ -a), Int.neg_tdiv, Int.neg_neg]

theorem lt_next : start < (start.tdiv 32 + 1) * 32 := by
  rw [tdiv_eq]
  split_ifs <;> omega

theorem next_le (h : start ≤ stop) (hword : stop.tdiv 32 ≠ start.tdiv 32) :
    (start.tdiv 32 + 1) * 32 ≤ max stop 0 := by
  rw [tdiv_eq, tdiv_eq] at hword
  rw [tdiv_eq]
  split_ifs at hword ⊢ <;> omega

/-- Break an interval at word borders, from the left. -/
def breakInterval (start stop : ℤ) : List (ℤ × ℤ) :=
  if start ≤ stop then
    if start < 0 ∧ 0 ≤ stop then
      -- from the prefix into the normal encoding
      (start, -1) :: breakInterval stop stop
    else if stop.tdiv 32 = start.tdiv 32 then [(start, stop)]
    else (start, (start.tdiv 32 + 1) * 32 - 1) :: breakInterval ((start.tdiv 32 + 1) * 32) stop
  else []
termination_by (stop - start + 1).toNat
decreasing_by
  · omega
  · have hlt := @lt_next start
    omega

/-! ### Partitions -/

def positions (p : ℤ × ℤ) : List ℤ := Int.range p.1 (p.2 + 1)

theorem mem_positions {p : ℤ × ℤ} : i ∈ positions p ↔ p.1 ≤ i ∧ i ≤ p.2 := by
  rw [positions, Int.mem_range_iff, Int.lt_add_one_iff]

theorem positions_append (hab : a ≤ b) (hbc : b ≤ c) :
    positions (a, b) ++ positions (b + 1, c) = positions (a, c) := by
  have hsplit : (c + 1 - a).toNat = (b + 1 - a).toNat + (c + 1 - (b + 1)).toNat := by omega
  simp only [positions, Int.range, hsplit, List.range_add, List.map_append, List.map_map]
  congr 1
  apply List.map_congr_left
  intro n _
  simp only [Function.comp_apply]
  omega

/-- Both positions are in the prefix or both are in the encoding, and they are in the same word. -/
def SameWord (i j : ℤ) : Prop := (i < 0 ↔ j < 0) ∧ i / 32 = j / 32

/-- The pieces cover every position of the interval exactly once and in order, and none of them has
positions of two words. -/
structure IsPartition (start stop : ℤ) (pieces : List (ℤ × ℤ)) : Prop where
  covers : pieces.flatMap positions = positions (start, stop)
  nonempty : ∀ p ∈ pieces, p.1 ≤ p.2
  sameWord : ∀ p ∈ pieces, ∀ i ∈ positions p, ∀ j ∈ positions p, SameWord i j

theorem sameWord_of_ends {p : ℤ × ℤ} (h : p.1 / 32 = p.2 / 32) (hi : i ∈ positions p)
    (hj : j ∈ positions p) : SameWord i j := by
  rw [mem_positions] at hi hj
  exact ⟨by omega, by omega⟩

theorem isPartition_nil : IsPartition (stop + 1) stop [] :=
  ⟨by simp [positions, Int.range], by simp, by simp⟩

/-- A piece in front of a partition of the rest. -/
theorem IsPartition.cons (h : IsPartition i c pieces) (hi : b + 1 = i) (hab : a ≤ b) (hbc : b ≤ c)
    (hword : a / 32 = b / 32) : IsPartition a c ((a, b) :: pieces) where
  covers := by rw [List.flatMap_cons, h.covers, ← hi, positions_append hab hbc]
  nonempty := List.forall_mem_cons.mpr ⟨hab, h.nonempty⟩
  sameWord := List.forall_mem_cons.mpr ⟨fun _ hi _ hj => sameWord_of_ends hword hi hj, h.sameWord⟩

theorem isPartition_single (hab : a ≤ b) (hword : a / 32 = b / 32) : IsPartition a b [(a, b)] :=
  isPartition_nil.cons rfl hab le_rfl hword

theorem IsPartition.mem_iff (h : IsPartition start stop pieces) :
    (∃ p ∈ pieces, p.1 ≤ i ∧ i ≤ p.2) ↔ start ≤ i ∧ i ≤ stop := by
  have hmem : i ∈ pieces.flatMap positions ↔ i ∈ positions (start, stop) := by rw [h.covers]
  simpa only [List.mem_flatMap, mem_positions] using hmem

/-! ### The pieces -/

theorem isPartition_encoding (hstart : 0 ≤ start) (h : start ≤ stop) :
    IsPartition start stop (breakInterval start stop) := by
  fun_induction breakInterval start stop with
  | case1 start _ hcross => omega
  | case2 start _ _ hword =>
    rw [Int.tdiv_eq_ediv_of_nonneg (by omega), Int.tdiv_eq_ediv_of_nonneg hstart] at hword
    exact isPartition_single h hword.symm
  | case3 start _ hcross hword ih =>
    -- the piece goes up to the end of the first word
    have hlt := @lt_next start
    have hle := next_le h hword
    rw [max_eq_left (by omega)] at hle
    refine (ih (by omega) hle).cons (Int.sub_add_cancel ..) (by omega) (by omega) ?_
    rw [Int.tdiv_eq_ediv_of_nonneg hstart]
    omega
  | case4 start hlt => exact absurd h hlt

theorem breakInterval_crossing (hstart : start < 0) (hstop : 0 ≤ stop) :
    breakInterval start stop = [(start, -1), (stop, stop)] := by
  have hlast : breakInterval stop stop = [(stop, stop)] := by
    rw [breakInterval, if_pos le_rfl, if_neg (by omega), if_pos rfl]
  rw [breakInterval, if_pos (by omega), if_pos ⟨hstart, hstop⟩, hlast]

theorem breakInterval_inside (hstart : -32 ≤ start) (h : start ≤ stop) (hstop : stop < 0) :
    breakInterval start stop = [(start, if start = -32 ∧ stop ≠ -32 then -1 else stop)] := by
  have hword : stop.tdiv 32 = start.tdiv 32 ↔ ¬(start = -32 ∧ stop ≠ -32) := by
    rw [tdiv_eq, tdiv_eq, if_neg (by omega), if_neg (by omega)]
    omega
  rw [breakInterval, if_pos h, if_neg (by omega)]
  split_ifs with hsame hfirst hfirst
  · exact absurd hfirst (hword.mp hsame)
  · rfl
  · -- the next word is the first one of the encoding, behind the end of the interval
    obtain ⟨rfl, -⟩ := hfirst
    have hnext : breakInterval 0 stop = [] := by rw [breakInterval, if_neg (by omega)]
    exact congrArg _ hnext
  · exact absurd (hword.mpr hfirst) hsame

/-- The pieces are a partition of an interval of the encoding, of one that crosses into it by one
position, and of one in the prefix unless it starts at its first position and ends between the
others. -/
theorem breakInterval_partition_iff (h : start ≤ stop) (hstart : -32 ≤ start) :
    IsPartition start stop (breakInterval start stop) ↔
      0 ≤ start ∨ stop = 0 ∨ stop < 0 ∧ (start = -32 → stop = -32 ∨ stop = -1) := by
  rcases le_or_gt 0 start with hnonneg | hneg
  · exact iff_of_true (isPartition_encoding hnonneg h) (.inl hnonneg)
  rcases le_or_gt 0 stop with hstop | hstop
  · rw [breakInterval_crossing hneg hstop]
    constructor
    · intro hpart
      -- position 0 of the interval is not in the first piece
      obtain ⟨p, hp, hle, hge⟩ := hpart.mem_iff.mpr ⟨hneg.le, hstop⟩
      rcases List.mem_pair.mp hp with rfl | rfl
      · exact absurd (show (0 : ℤ) ≤ -1 from hge) (by decide)
      · exact .inr (.inl (le_antisymm hle hstop))
    · intro hcond
      obtain rfl : stop = 0 := by omega
      exact (isPartition_single le_rfl rfl).cons rfl (by omega) (by omega) (by omega)
  · rw [breakInterval_inside hstart h hstop]
    constructor
    · intro hpart
      refine .inr (.inr ⟨hstop, fun hfirst => ?_⟩)
      by_contra hnot
      rw [if_pos ⟨hfirst, by omega⟩] at hpart
      -- position -1 is in the piece, but it is not in the interval
      have hlast := hpart.mem_iff.mp ⟨_, List.mem_singleton_self _, (by omega : start ≤ -1), le_rfl⟩
      omega
    · intro hcond
      have hend : (if start = -32 ∧ stop ≠ -32 then -1 else stop) = stop := by
        split_ifs <;> omega
      rw [hend]
      exact isPartition_single h (by omega)

/-- From the middle of the first word into the third one. -/
theorem breakInterval_three_words :
    breakInterval 20 70 = [(20, 31), (32, 63), (64, 70)] ∧
      IsPartition 20 70 (breakInterval 20 70) := by
  refine ⟨?_, (breakInterval_partition_iff (by decide) (by decide)).mpr (.inl (by decide))⟩
  simp [breakInterval]

/-- Positions 0 to 2 are lost. From the first position of the prefix up to position -5, those up to
-1 are added. -/
theorem crossing_positions_lost :
    breakInterval (-2) 3 = [(-2, -1), (3, 3)] ∧ ¬IsPartition (-2) 3 (breakInterval (-2) 3) ∧
      breakInterval (-32) (-5) = [(-32, -1)] ∧
      ¬IsPartition (-32) (-5) (breakInterval (-32) (-5)) := by
  have hcrossing : breakInterval (-2) 3 = [(-2, -1), (3, 3)] :=
    breakInterval_crossing (by decide) (by decide)
  have hinside : breakInterval (-32) (-5) = [(-32, -1)] :=
    breakInterval_inside (by decide) (by decide) (by decide)
  refine ⟨hcrossing, fun hpart => ?_, hinside, fun hpart => ?_⟩
  · rw [hcrossing] at hpart
    exact absurd hpart.covers (by decide)
  · rw [hinside] at hpart
    exact absurd hpart.covers (by decide)

end Adl.Fields
