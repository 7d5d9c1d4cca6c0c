import Mathlib.Algebra.GroupWithZero.Nat
import Mathlib.Data.Int.Notation
import Mathlib.Data.Nat.Notation
import Mathlib.Tactic.Common

/-!
# Words and rotations of a bit vector

A bit vector of several 32-bit words, cut into its words from the left, and what rotations of a bit
vector of any width compose to.
-/

namespace Adl.Math

variable {W n : ℕ}

def word (w : BitVec W) (ind : ℕ) : BitVec 32 :=
  (w >>> (W - 32 * (ind + 1))).setWidth 32

/-! ### Rotations -/

section Rotations

variable {w j k : ℕ} {x : BitVec w}

theorem rotateLeft_rotateLeft : (x.rotateLeft k).rotateLeft j = x.rotateLeft (j + k) := by
  apply BitVec.eq_of_getMsbD_eq
  intro i hi
  have hmod : (j + i) % w < w := Nat.mod_lt _ (by omega)
  rw [BitVec.getMsbD_rotateLeft, BitVec.getMsbD_rotateLeft, BitVec.getMsbD_rotateLeft,
    decide_eq_true hi, decide_eq_true hmod, Bool.true_and, Bool.true_and, Bool.true_and,
    Nat.add_mod_mod, show k + (j + i) = j + k + i by omega]

/-- A rotation to the right is one to the left by what is missing to a full turn. -/
theorem rotateRight_eq_rotateLeft : x.rotateRight k = x.rotateLeft (w - k % w) := by
  apply BitVec.eq_of_getMsbD_eq
  intro i hi
  have hmod : k % w < w := Nat.mod_lt _ (by omega)
  rw [BitVec.getMsbD_rotateRight, BitVec.getMsbD_rotateLeft, decide_eq_true hi, Bool.true_and,
    Bool.true_and]
  split
  case isTrue hlt => rw [show w + i - k % w = w - k % w + i by omega]
  case isFalse hge =>
    have hback : i - k % w < w := by omega
    rw [show w - k % w + i = i - k % w + w by omega, Nat.add_mod_right, Nat.mod_eq_of_lt hback]

theorem rotateLeft_of_dvd (h : w ∣ k) : x.rotateLeft k = x := by
  apply BitVec.eq_of_getMsbD_eq
  intro i hi
  obtain ⟨n, rfl⟩ := h
  rw [BitVec.getMsbD_rotateLeft, decide_eq_true hi, Bool.true_and, Nat.mul_add_mod,
    Nat.mod_eq_of_lt hi]

/-- An amount and what is missing to a full turn make up full turns. -/
theorem dvd_sub_mod_add (hw : 0 < w) (k : ℕ) : w ∣ w - k % w + k := by
  have hmod : k % w < w := Nat.mod_lt _ hw
  have hdiv := Nat.div_add_mod k w
  exact ⟨k / w + 1, by rw [Nat.mul_succ]; omega⟩

theorem rotateRight_rotateLeft (hw : 0 < w) : (x.rotateLeft k).rotateRight k = x := by
  rw [rotateRight_eq_rotateLeft, rotateLeft_rotateLeft, rotateLeft_of_dvd (dvd_sub_mod_add hw k)]

theorem rotateLeft_rotateRight (hw : 0 < w) : (x.rotateRight k).rotateLeft k = x := by
  rw [rotateRight_eq_rotateLeft, rotateLeft_rotateLeft, Nat.add_comm,
    rotateLeft_of_dvd (dvd_sub_mod_add hw k)]

/-- A bit, counted from the most significant one, moves to the left around the end. -/
theorem getMsbD_rotateLeft_sub {i : ℕ} (hi : i < w) :
    (x.rotateLeft k).getMsbD (((i : ℤ) - k) % w).toNat = x.getMsbD i := by
  have hpos : (0 : ℤ) < w := by omega
  have hlt := Int.emod_lt_of_pos ((i : ℤ) - k) hpos
  have hnonneg := Int.emod_nonneg ((i : ℤ) - k) (by omega : (w : ℤ) ≠ 0)
  have hback : (k + (((i : ℤ) - k) % w).toNat) % w = i := by
    apply Int.ofNat_inj.mp
    rw [Int.natCast_emod, Int.natCast_add, Int.toNat_of_nonneg hnonneg, Int.add_emod_emod,
      show (k : ℤ) + (i - k) = i by omega, Int.emod_eq_of_lt (by omega) (by omega)]
  rw [BitVec.getMsbD_rotateLeft, decide_eq_true (by omega), Bool.true_and, hback]

end Rotations

end Adl.Math
