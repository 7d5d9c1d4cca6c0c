import Mathlib.Algebra.BigOperators.Intervals
import Mathlib.Algebra.Order.BigOperators.Group.Finset
import Mathlib.Algebra.BigOperators.ModEq
import Mathlib.Algebra.BigOperators.Ring.Finset
import Mathlib.Tactic.Ring

/-!
# Products by columns

The digits of two numbers are multiplied in pairs, and the pairs that belong to the same power of
the base make up a column. The columns below `B ^ m` give the product modulo `B ^ m`.
-/

namespace Adl.Math

open Finset

variable {B x y m j k n C : ℕ}

/-- A digit of a number in base `B`, counted from the least significant one. -/
def digit (B x j : ℕ) : ℕ := x / B ^ j % B

theorem digit_lt (hB : 0 < B) : digit B x j < B := Nat.mod_lt _ hB

theorem digit_eq_zero (h : x < B ^ m) (hj : m ≤ j) : digit B x j = 0 := by
  rcases Nat.eq_zero_or_pos B with rfl | hB
  · rcases Nat.eq_zero_or_pos m with rfl | hm
    · obtain rfl : x = 0 := by simpa using h
      simp [digit]
    · rw [Nat.zero_pow hm] at h
      cases h
  · rw [digit, Nat.div_eq_of_lt (h.trans_le (Nat.pow_le_pow_right hB hj)), Nat.zero_mod]

theorem sum_digit : ∑ j ∈ range m, digit B x j * B ^ j = x % B ^ m := by
  induction m with
  | zero => rw [sum_range_zero, Nat.pow_zero, Nat.mod_one]
  | succ m ih =>
    rw [sum_range_succ, ih, digit, Nat.pow_succ, Nat.mod_mul]
    ring

theorem sum_mul_pow_lt {d : ℕ → ℕ} (hd : ∀ j, d j < B) : ∑ j ∈ range n, d j * B ^ j < B ^ n := by
  induction n with
  | zero => exact Nat.one_pos
  | succ n ih =>
    rw [sum_range_succ]
    calc ∑ j ∈ range n, d j * B ^ j + d n * B ^ n < B ^ n + d n * B ^ n := Nat.add_lt_add_right ih _
      _ = (d n + 1) * B ^ n := by ring
      _ ≤ B * B ^ n := Nat.mul_le_mul_right _ (hd n)
      _ = B ^ (n + 1) := (Nat.pow_succ' ..).symm

theorem digit_sum {d : ℕ → ℕ} (hd : ∀ j, d j < B) (hj : j < n) :
    digit B (∑ j ∈ range n, d j * B ^ j) j = d j := by
  have hB : 0 < B := Nat.zero_lt_of_lt (hd 0)
  induction n with
  | zero => cases hj
  | succ n ih =>
    rw [sum_range_succ, digit]
    rcases Nat.lt_succ_iff_lt_or_eq.mp hj with hlt | rfl
    · -- a digit further up does not change this one
      obtain ⟨e, rfl⟩ : ∃ e, n = j + 1 + e := ⟨n - (j + 1), by omega⟩
      have hhigh : d (j + 1 + e) * B ^ (j + 1 + e) = B ^ j * (B * (d (j + 1 + e) * B ^ e)) := by
        ring
      rw [hhigh, Nat.add_mul_div_left _ _ (Nat.pow_pos hB), Nat.add_mul_mod_self_left]
      exact ih hlt
    · rw [Nat.add_mul_div_right _ _ (Nat.pow_pos hB), Nat.div_eq_of_lt (sum_mul_pow_lt hd),
        Nat.zero_add, Nat.mod_eq_of_lt (hd j)]

/-- The products of digits that belong to the power `k` of the base. -/
def column (B x y k : ℕ) : ℕ := ∑ j ∈ range (k + 1), digit B x j * digit B y (k - j)

/-- The columns, with the products sorted by the digit of the first number. -/
theorem sum_column :
    ∑ k ∈ range m, column B x y k * B ^ k =
      ∑ j ∈ range m, digit B x j * B ^ j * (y % B ^ (m - j)) := by
  have hflip := sum_range_diag_flip m fun j l => digit B x j * digit B y l * B ^ (j + l)
  calc ∑ k ∈ range m, column B x y k * B ^ k
      = ∑ k ∈ range m, ∑ j ∈ range (k + 1),
          digit B x j * digit B y (k - j) * B ^ (j + (k - j)) := by
        refine sum_congr rfl fun k _ => ?_
        rw [column, sum_mul]
        refine sum_congr rfl fun j hj => ?_
        rw [Nat.add_sub_cancel' (Nat.le_of_lt_succ (mem_range.mp hj))]
    _ = ∑ j ∈ range m, ∑ l ∈ range (m - j), digit B x j * digit B y l * B ^ (j + l) := hflip
    _ = ∑ j ∈ range m, digit B x j * B ^ j * (y % B ^ (m - j)) := by
        refine sum_congr rfl fun j _ => ?_
        rw [← sum_digit, mul_sum]
        refine sum_congr rfl fun l _ => ?_
        rw [Nat.pow_add]
        ring

/-- The columns below a power of the base give the product modulo this power. -/
theorem sum_column_mod : (∑ k ∈ range m, column B x y k * B ^ k) % B ^ m = x * y % B ^ m := by
  have hterm (j : ℕ) (hj : j ∈ range m) :
      digit B x j * B ^ j * (y % B ^ (m - j)) ≡ digit B x j * B ^ j * y [MOD B ^ m] := by
    have hpow : B ^ m = B ^ j * B ^ (m - j) := by
      rw [← Nat.pow_add, Nat.add_sub_cancel' (mem_range.mp hj).le]
    rw [Nat.mul_assoc, Nat.mul_assoc, hpow]
    exact ((Nat.mod_modEq y _).mul_left' _).mul_left _
  have hsum : ∑ j ∈ range m, digit B x j * B ^ j * (y % B ^ (m - j)) ≡
      ∑ j ∈ range m, digit B x j * B ^ j * y [MOD B ^ m] := by
    exact Nat.ModEq.sum hterm
  rw [sum_column]
  refine hsum.trans ?_
  rw [← sum_mul, sum_digit]
  exact (Nat.mod_modEq x _).mul_right y

theorem sum_column_le : ∑ k ∈ range m, column B x y k * B ^ k ≤ x * y := by
  calc ∑ k ∈ range m, column B x y k * B ^ k
      = ∑ j ∈ range m, digit B x j * B ^ j * (y % B ^ (m - j)) := sum_column
    _ ≤ ∑ j ∈ range m, digit B x j * B ^ j * y :=
        sum_le_sum fun j _ => Nat.mul_le_mul_left _ (Nat.mod_le _ _)
    _ = x % B ^ m * y := by rw [← sum_mul, sum_digit]
    _ ≤ x * y := Nat.mul_le_mul_right _ (Nat.mod_le _ _)

/-! ### Short columns -/

/-- A sum of which only the first `m` terms count. -/
theorem sum_le_of_eq_zero {f : ℕ → ℕ} (hle : ∀ j, f j ≤ C) (hzero : ∀ j, m ≤ j → f j = 0) :
    ∑ j ∈ range n, f j ≤ m * C := by
  induction n with
  | zero => exact Nat.zero_le _
  | succ n ih =>
    rw [sum_range_succ]
    by_cases hn : m ≤ n
    · rwa [hzero n hn, Nat.add_zero]
    · have hshort : ∑ j ∈ range n, f j ≤ n * C := by
        simpa using sum_le_card_nsmul (range n) f C fun j _ => hle j
      calc ∑ j ∈ range n, f j + f n ≤ n * C + C := Nat.add_le_add hshort (hle n)
        _ = (n + 1) * C := (Nat.succ_mul n C).symm
        _ ≤ m * C := Nat.mul_le_mul_right C (by omega)

/-- A column of which one operand has only `m` digits. -/
theorem sum_antidiagonal_le {f : ℕ → ℕ → ℕ} (hle : ∀ j l, f j l ≤ C)
    (hzero : (∀ j l, m ≤ j → f j l = 0) ∨ ∀ j l, m ≤ l → f j l = 0) :
    ∑ j ∈ range (k + 1), f j (k - j) ≤ m * C := by
  rcases hzero with hzero | hzero
  · exact sum_le_of_eq_zero (fun j => hle _ _) fun j hj => hzero _ _ hj
  · have hflip : ∑ j ∈ range (k + 1), f (k - (k - j)) (k - j) = ∑ l ∈ range (k + 1), f (k - l) l :=
      sum_flip fun l => f (k - l) l
    calc ∑ j ∈ range (k + 1), f j (k - j)
        = ∑ j ∈ range (k + 1), f (k - (k - j)) (k - j) := by
          refine sum_congr rfl fun j hj => ?_
          rw [Nat.sub_sub_self (Nat.le_of_lt_succ (mem_range.mp hj))]
      _ = ∑ l ∈ range (k + 1), f (k - l) l := hflip
      _ ≤ m * C := sum_le_of_eq_zero (fun l => hle _ _) fun l hl => hzero _ _ hl

end Adl.Math
