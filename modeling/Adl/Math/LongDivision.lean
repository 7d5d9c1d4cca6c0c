import Mathlib.Tactic.Linarith
import Mathlib.Tactic.LinearCombination
import Mathlib.Tactic.Ring
import Adl.Math.Limbs

/-!
# Long division

A long division guesses each digit of the quotient from the leading digits of the remainder and of
the divisor, and puts a guess right that is one too large. The remainder is changed in place by
loops that pass on a carry.
-/

namespace Adl.Math

/-! ### The guess -/

section Guess

variable {B m x xs y ys : ℕ}

/-- A digit of the quotient is at most the quotient of the leading digits. -/
theorem div_le_guess (hy : 0 < y) (hxs : xs < m) (hB : x * m + xs < B * (y * m + ys)) :
    (x * m + xs) / (y * m + ys) ≤ min (x / y) (B - 1) := by
  have hdivisor : 0 < y * m + ys := Nat.pos_of_ne_zero fun h => by simp [h] at hB
  generalize hq : (x * m + xs) / (y * m + ys) = q
  have hle : q * (y * m + ys) ≤ x * m + xs := hq ▸ Nat.div_mul_le_self _ _
  have hlt : q < B := hq ▸ (Nat.div_lt_iff_lt_mul hdivisor).mpr hB
  refine le_min ?_ (by omega)
  rw [Nat.le_div_iff_mul_le hy]
  by_contra hgt
  have hsucc : (x + 1) * m ≤ q * y * m := Nat.mul_le_mul_right m (by omega)
  nlinarith

/-- With a leading part of the divisor that is not below the base the guess is at most one too
large. -/
theorem guess_le (hys : ys < m) (hy : B ≤ y) :
    min (x / y) (B - 1) ≤ (x * m + xs) / (y * m + ys) + 1 := by
  rcases Nat.eq_zero_or_pos B with rfl | hB
  · simp
  generalize hg : min (x / y) (B - 1) = g
  have hguess : g * y ≤ x :=
    (Nat.mul_le_mul_right y (hg ▸ min_le_left _ _)).trans (Nat.div_mul_le_self x y)
  have hbase : g ≤ B - 1 := hg ▸ min_le_right _ _
  have hpos : 0 < y * m + ys :=
    Nat.add_pos_left (Nat.mul_pos (hB.trans_le hy) (Nat.zero_lt_of_lt hys)) ys
  by_contra hgt
  generalize hq : (x * m + xs) / (y * m + ys) = q at hgt
  have hlt : x * m + xs < (q + 1) * (y * m + ys) := by
    rw [← hq, Nat.mul_comm _ (y * m + ys)]
    exact Nat.lt_mul_div_succ _ hpos
  obtain ⟨d, rfl⟩ : ∃ d, g = q + 2 + d := ⟨g - (q + 2), by omega⟩
  have hle : (q + 2 + d) * y * m ≤ x * m := Nat.mul_le_mul_right m hguess
  -- the divisor would have to be below the base
  have hsmall : (q + 1) * (y * m + ys) ≤ (q + 1) * (y * m + m) := Nat.mul_le_mul_left _ (by omega)
  have hupper : (q + 2 + d) * y * m < (q + 1) * (y + 1) * m := by nlinarith
  have hfactor := Nat.lt_of_mul_lt_mul_right hupper
  have hleft : (q + 2 + d) * y = (q + 1) * y + y + d * y := by ring
  have hright : (q + 1) * (y + 1) = (q + 1) * y + (q + 1) := by ring
  omega

theorem mul_add_div_mul {e : ℕ} (he : e < B) : (x * B + e) / (y * B) = x / y := by
  have hB : 0 < B := Nat.zero_lt_of_lt he
  rw [Nat.mul_comm y B, ← Nat.div_div_eq_div_mul, Nat.mul_comm x B, Nat.mul_add_div hB,
    Nat.div_eq_of_lt he, Nat.add_zero]

end Guess

/-! ### Windows of the remainder -/

section Window

variable {P F Y g w w' : ℕ} {c : ℤ}

theorem eq_zero_of_mul_add {r : ℤ} (hw : (w : ℤ) = r + P * c) (hlt : w < P) (hr : 0 ≤ r)
    (hrP : r < P) : c = 0 := by
  rcases lt_trichotomy c 0 with hneg | hzero | hpos
  · nlinarith
  · exact hzero
  · nlinarith

/-- After the right multiple was subtracted, the remainder is left. -/
theorem window_of_guess (hY : 0 < Y) (hYP : Y ≤ P) (hlt : w' < P)
    (h : (w' : ℤ) + g * Y = w + P * c) (hg : g = (P * F + w) / Y) :
    c = F ∧ w' = (P * F + w) % Y := by
  have hdiv := Nat.div_add_mod (P * F + w) Y
  have hmod := Nat.mod_lt (P * F + w) hY
  rw [← hg] at hdiv
  have hdiv' : (Y : ℤ) * g + ((P * F + w) % Y : ℕ) = P * F + w := by exact_mod_cast hdiv
  have hcarry : (w' : ℤ) = ((P * F + w) % Y : ℕ) + P * (c - F) := by linarith
  have hzero := eq_zero_of_mul_add hcarry hlt (by omega) (by omega)
  rw [hzero] at hcarry
  omega

/-- After a multiple that is one too large was subtracted, the divisor is missing. -/
theorem window_of_guess_succ (hY : 0 < Y) (hYP : Y ≤ P) (hlt : w' < P)
    (h : (w' : ℤ) + g * Y = w + P * c) (hg : g = (P * F + w) / Y + 1) :
    c = F + 1 ∧ w' + Y = (P * F + w) % Y + P := by
  have hdiv := Nat.div_add_mod (P * F + w) Y
  have hmod := Nat.mod_lt (P * F + w) hY
  have hdiv' : (Y : ℤ) * ((P * F + w) / Y : ℕ) + ((P * F + w) % Y : ℕ) = P * F + w := by
    exact_mod_cast hdiv
  have hg' : (g : ℤ) = ((P * F + w) / Y : ℕ) + 1 := by exact_mod_cast hg
  have hcarry : (w' : ℤ) = (((P * F + w) % Y : ℕ) - Y + P) + P * (c - F - 1) := by
    rw [hg'] at h
    linarith
  have hzero := eq_zero_of_mul_add hcarry hlt (by omega) (by omega)
  rw [hzero] at hcarry
  omega

end Window

/-! ### Loops with a carry -/

section Loop

variable {α β γ : Type*} {f : γ → α → β → α × γ} {c : γ} {win : List α} {ys : List β}

/-- Run over the digits of two numbers from the last one to the first one with a carry, and replace
those of the first number. -/
def carryLoop (f : γ → α → β → α × γ) (c : γ) : List α → List β → List α × γ
  | x :: xs, y :: ys =>
    let (rest, c) := carryLoop f c xs ys
    let (x, c) := f c x y
    (x :: rest, c)
  | _, _ => ([], c)

theorem length_carryLoop (h : win.length = ys.length) :
    (carryLoop f c win ys).1.length = win.length := by
  induction win generalizing ys with
  | nil => rfl
  | cons x xs ih =>
    cases ys with
    | nil => cases h
    | cons y ys => exact congrArg Nat.succ (ih (Nat.succ.inj h))

theorem foldl_set_carryLoop {a : α} {b : β} {pre post : List α} (h : win.length = ys.length) :
    (List.range ys.length).reverse.foldl
        (fun (s : List α × γ) i =>
          (s.1.set (pre.length + i) (f s.2 (s.1.getD (pre.length + i) a) (ys.getD i b)).1,
            (f s.2 (s.1.getD (pre.length + i) a) (ys.getD i b)).2))
        (pre ++ win ++ post, c) =
      (pre ++ (carryLoop f c win ys).1 ++ post, (carryLoop f c win ys).2) := by
  induction ys generalizing pre win with
  | nil =>
    obtain rfl := List.length_eq_zero_iff.mp h
    rfl
  | cons y ys ih =>
    cases win with
    | nil => cases h
    | cons x xs =>
      have hrest := @ih xs (pre ++ [x]) (Nat.succ.inj h)
      rw [List.length_append, List.length_singleton, List.append_assoc pre, List.singleton_append]
        at hrest
      rw [List.length_cons, List.range_succ_eq_map, List.reverse_cons, List.foldl_append,
        ← List.map_reverse, List.foldl_map]
      simp only [Nat.succ_eq_add_one, List.getD_cons_succ, ← Nat.add_assoc,
        Nat.add_right_comm _ _ 1] at hrest ⊢
      rw [hrest]
      simp [carryLoop]

/-- If each step keeps a sum of digits, the loop keeps the sum of the numbers. -/
theorem limbs_carryLoop {W : ℕ} {f : γ → BitVec W → BitVec W → BitVec W × γ} {g : γ → ℤ} {q : ℤ}
    (hf : ∀ c x y, ((f c x y).1.toNat : ℤ) + 2 ^ W * g (f c x y).2 = x.toNat + q * y.toNat + g c)
    {win ys : List (BitVec W)} (h : win.length = ys.length) :
    (limbs (carryLoop f c win ys).1 : ℤ) + 2 ^ (W * win.length) * g (carryLoop f c win ys).2 =
      limbs win + q * limbs ys + g c := by
  induction win generalizing ys with
  | nil =>
    obtain rfl := List.length_eq_zero_iff.mp h.symm
    simp [carryLoop, limbs]
  | cons x xs ih =>
    cases ys with
    | nil => cases h
    | cons y ys =>
      have hlen : xs.length = ys.length := Nat.succ.inj h
      have hrest := ih hlen
      have hlength := length_carryLoop (f := f) (c := c) hlen
      simp only [carryLoop]
      have hstep := hf (carryLoop f c xs ys).2 x y
      rw [limbs, limbs, limbs, hlength, ← hlen, List.length_cons, Nat.mul_succ, pow_add]
      push_cast
      generalize (2 : ℤ) ^ (W * xs.length) = weight at hrest ⊢
      linear_combination weight * hstep + hrest

end Loop

end Adl.Math
