import Mathlib.Data.BitVec
import Mathlib.Data.Set.Basic
import Mathlib.Tactic.Common

/-!
# Bit vectors as masks

A bit vector is read as the set of positions it marks. `Within a b` is inclusion of these sets, and
two words agree under a mask when masking them gives the same value.
-/

namespace Adl.Math

variable {W : ℕ} {a b c m n v w : BitVec W}

/-- Every position marked by `a` is marked by `b`. -/
def Within (a b : BitVec W) : Prop := a &&& b = a

instance (a b : BitVec W) : Decidable (Within a b) := inferInstanceAs (Decidable (_ = _))

/-! ### Reading masks position by position -/

theorem eq_iff_getLsbD : a = b ↔ ∀ i, a.getLsbD i = b.getLsbD i := by
  constructor
  · rintro rfl i
    rfl
  · intro h
    exact BitVec.eq_of_getLsbD_eq fun i _ => h i

theorem eq_zero_iff : a = 0 ↔ ∀ i, a.getLsbD i = false := by
  simp [eq_iff_getLsbD]

theorem ne_zero_iff : a ≠ 0 ↔ ∃ i, a.getLsbD i = true := by
  rw [Ne, eq_zero_iff]
  push Not
  simp

theorem within_iff : Within a b ↔ ∀ i, a.getLsbD i = true → b.getLsbD i = true := by
  simp only [Within, eq_iff_getLsbD, BitVec.getLsbD_and]
  exact forall_congr' fun i => by cases a.getLsbD i <;> simp

theorem and_eq_and_iff :
    a &&& m = b &&& m ↔ ∀ i, m.getLsbD i = true → a.getLsbD i = b.getLsbD i := by
  simp only [eq_iff_getLsbD, BitVec.getLsbD_and]
  exact forall_congr' fun i => by cases m.getLsbD i <;> simp

theorem and_eq_zero_iff :
    a &&& b = 0 ↔ ∀ i, a.getLsbD i = true → b.getLsbD i = false := by
  simp only [eq_zero_iff, BitVec.getLsbD_and]
  exact forall_congr' fun i => by cases a.getLsbD i <;> simp

/-! ### Inclusion -/

theorem Within.refl (a : BitVec W) : Within a a := by simp [Within]

theorem Within.zero (a : BitVec W) : Within 0 a := by simp [Within]

theorem Within.trans (hab : Within a b) (hbc : Within b c) : Within a c := by
  rw [within_iff] at *
  exact fun i hi => hbc i (hab i hi)

theorem Within.antisymm (hab : Within a b) (hba : Within b a) : a = b := by
  rw [within_iff] at hab hba
  refine eq_iff_getLsbD.mpr fun i => ?_
  exact Bool.eq_iff_iff.mpr ⟨hab i, hba i⟩

theorem Within.and_left (a b : BitVec W) : Within (a &&& b) a := by
  rw [within_iff]
  simp +contextual

theorem Within.and_right (a b : BitVec W) : Within (a &&& b) b := by
  rw [within_iff]
  simp +contextual

theorem Within.or (ha : Within a c) (hb : Within b c) : Within (a ||| b) c := by
  rw [within_iff] at *
  simp only [BitVec.getLsbD_or, Bool.or_eq_true]
  exact fun i hi => hi.elim (ha i) (hb i)

theorem Within.or_left (a b : BitVec W) : Within a (a ||| b) := by
  rw [within_iff]
  simp +contextual

theorem Within.or_right (a b : BitVec W) : Within b (a ||| b) := by
  rw [within_iff]
  simp +contextual

theorem within_zero_iff : Within a 0 ↔ a = 0 := by
  rw [within_iff, eq_zero_iff]
  simp

/-- A union of masks equals its first part exactly when the second adds nothing to it. -/
theorem or_eq_left_iff : a ||| b = a ↔ Within b a := by
  simp only [within_iff, eq_iff_getLsbD, BitVec.getLsbD_or]
  exact forall_congr' fun i => by cases a.getLsbD i <;> simp

theorem and_eq_right_iff : a &&& b = b ↔ Within b a := by
  rw [Within, BitVec.and_comm]

/-- Part of a mask has no more in common with others. -/
theorem Within.and_eq_zero (h : Within a b) (hc : b &&& c = 0) : a &&& c = 0 := by
  rw [and_eq_zero_iff] at hc ⊢
  exact fun i hi => hc i (within_iff.mp h i hi)

/-! ### Differences

The sources write the bits of `b` that are not yet in `a` as an exclusive or; this is the
difference of the two sets only as long as `a` lies within `b`. -/

/-- Bits outside of a mask stay when it is taken away. -/
theorem and_not_eq_self (h : a &&& b = 0) : a &&& ~~~b = a := by
  rw [and_eq_zero_iff] at h
  refine within_iff.mpr fun i hi => ?_
  rw [BitVec.getLsbD_not, h i hi, decide_eq_true (BitVec.lt_of_getLsbD hi)]
  rfl

theorem xor_eq_zero_iff : a ^^^ b = 0 ↔ a = b := by
  simp only [eq_iff_getLsbD, BitVec.getLsbD_xor]
  exact forall_congr' fun i => by cases a.getLsbD i <;> cases b.getLsbD i <;> simp

/-- Two words agree under a mask when their difference does not touch it. -/
theorem xor_and_eq_zero_iff : (a ^^^ b) &&& m = 0 ↔ a &&& m = b &&& m := by
  rw [and_eq_and_iff, and_eq_zero_iff]
  refine forall_congr' fun i => ?_
  rw [BitVec.getLsbD_xor]
  cases a.getLsbD i <;> cases b.getLsbD i <;> cases m.getLsbD i <;> simp

theorem Within.xor_within (h : Within a b) : Within (a ^^^ b) b := by
  rw [within_iff] at *
  intro i
  have hi := h i
  cases ha : a.getLsbD i <;> cases hb : b.getLsbD i <;> simp_all

theorem Within.xor_and_eq_zero (h : Within a b) : (a ^^^ b) &&& a = 0 := by
  rw [within_iff] at h
  rw [eq_zero_iff]
  intro i
  have hi := h i
  cases ha : a.getLsbD i <;> cases hb : b.getLsbD i <;> simp_all

/-! ### Agreement of words under a mask -/

theorem and_or_eq_and_or_iff :
    a &&& (m ||| n) = b &&& (m ||| n) ↔ a &&& m = b &&& m ∧ a &&& n = b &&& n := by
  simp only [and_eq_and_iff, BitVec.getLsbD_or, Bool.or_eq_true]
  grind

/-- A word takes the value `v ||| w` under a union of masks exactly when it takes `v` under
the first and `w` under the second, provided the two values lie within their masks and agree
where the masks overlap. -/
theorem and_or_eq_iff (hv : Within v m) (hw : Within w n) (hvw : v &&& n = w &&& m) :
    a &&& (m ||| n) = v ||| w ↔ a &&& m = v ∧ a &&& n = w := by
  rw [within_iff] at hv hw
  simp only [eq_iff_getLsbD, BitVec.getLsbD_and, BitVec.getLsbD_or] at *
  rw [← forall_and]
  refine forall_congr' fun i => ?_
  have hvi := hv i
  have hwi := hw i
  have hvwi := hvw i
  revert hvi hwi hvwi
  generalize a.getLsbD i = x, m.getLsbD i = y, n.getLsbD i = z, v.getLsbD i = p, w.getLsbD i = q
  revert x y z p q
  decide

/-- Constraints along a path: the bits `p` have the value `v`, then the bits `m` the value `a`
and then the bits `n` the value `b`, each in agreement with what is known before it. The last
two constraints then agree with each other and, together, with the first one. -/
theorem path_agree {p : BitVec W} (hv : Within v p) (ha : Within a m)
    (hav : a &&& p = v &&& m) (hb : b &&& (p ||| m) = (v ||| a) &&& n) :
    a &&& n = b &&& m ∧ (b ||| a) &&& p = v &&& (m ||| n) := by
  rw [within_iff] at hv ha
  simp only [eq_iff_getLsbD, BitVec.getLsbD_and, BitVec.getLsbD_or] at *
  rw [← forall_and]
  intro i
  have hvi := hv i
  have hai := ha i
  have havi := hav i
  have hbi := hb i
  revert hvi hai havi hbi
  generalize a.getLsbD i = x, m.getLsbD i = y, n.getLsbD i = z, v.getLsbD i = q,
    b.getLsbD i = r, p.getLsbD i = s
  revert x y z q r s
  decide

/-! ### Rounding -/

/-- A mask of all but the lowest bits rounds down to a multiple of a power of two. -/
theorem toNat_and_allOnes_shiftLeft (a : BitVec W) (k : ℕ) :
    (a &&& BitVec.allOnes W <<< k).toNat = a.toNat / 2 ^ k * 2 ^ k := by
  apply Nat.eq_of_testBit_eq
  intro i
  rw [BitVec.testBit_toNat, BitVec.getLsbD_and, BitVec.getLsbD_shiftLeft, BitVec.getLsbD_allOnes,
    Nat.testBit_mul_two_pow, Nat.testBit_div_two_pow]
  by_cases hk : k ≤ i
  · by_cases hi : i < W
    · simp [hk, hi, BitVec.testBit_toNat, show i - k < W by omega]
    · simp [hk, BitVec.testBit_toNat, BitVec.getLsbD_of_ge a i (by omega)]
  · simp [hk, show i < k by omega]

theorem ofNat_pred_two_pow (k : ℕ) : BitVec.ofNat W (2 ^ k - 1) = BitVec.ofNat W (2 ^ k) - 1 := by
  have hpow : BitVec.ofNat W (2 ^ k) = BitVec.ofNat W (2 ^ k - 1) + 1 := by
    rw [show (1 : BitVec W) = BitVec.ofNat W 1 from rfl, ← BitVec.ofNat_add,
      Nat.sub_add_cancel Nat.one_le_two_pow]
  rw [hpow, BitVec.add_sub_cancel]

/-- The mask of the low bits, as programs compute it. -/
theorem ofNat_two_pow_sub_one (k : ℕ) :
    BitVec.ofNat W (2 ^ k) - 1 = ~~~(BitVec.allOnes W <<< k) := by
  rw [← ofNat_pred_two_pow]
  refine eq_iff_getLsbD.mpr fun i => ?_
  rw [BitVec.getLsbD_ofNat, Nat.testBit_two_pow_sub_one, BitVec.getLsbD_not,
    BitVec.getLsbD_shiftLeft, BitVec.getLsbD_allOnes]
  by_cases hi : i < W <;> by_cases hk : i < k <;> simp [hi, hk]
  omega

/-- Clearing the low bits, and keeping only them. -/
theorem toNat_and_not_two_pow_sub_one (a : BitVec W) (k : ℕ) :
    (a &&& ~~~(BitVec.ofNat W (2 ^ k) - 1)).toNat = a.toNat / 2 ^ k * 2 ^ k := by
  rw [ofNat_two_pow_sub_one, BitVec.not_not, toNat_and_allOnes_shiftLeft]

theorem toNat_and_two_pow_sub_one (a : BitVec W) (k : ℕ) :
    (a &&& (BitVec.ofNat W (2 ^ k) - 1)).toNat = a.toNat % 2 ^ k := by
  apply Nat.eq_of_testBit_eq
  intro i
  rw [BitVec.testBit_toNat, BitVec.getLsbD_and, ofNat_two_pow_sub_one, BitVec.getLsbD_not,
    BitVec.getLsbD_shiftLeft, BitVec.getLsbD_allOnes, Nat.testBit_mod_two_pow,
    BitVec.testBit_toNat]
  by_cases hi : i < W
  · by_cases hk : i < k <;> simp [hi, hk]
    omega
  · simp [BitVec.getLsbD_of_ge a i (by omega)]

/-- A word is the sum of its bits in a mask and the others. -/
theorem toNat_and_add_toNat_and_not (a m : BitVec W) :
    (a &&& m).toNat + (a &&& ~~~m).toNat = a.toNat := by
  have hdisjoint : (a &&& m) &&& (a &&& ~~~m) = 0 := by
    rw [eq_zero_iff]
    intro i
    simp only [BitVec.getLsbD_and, BitVec.getLsbD_not]
    cases m.getLsbD i <;> simp
  rw [← BitVec.toNat_add_of_and_eq_zero hdisjoint, BitVec.add_eq_or_of_and_eq_zero _ _ hdisjoint]
  congr 1
  rw [eq_iff_getLsbD]
  intro i
  simp only [BitVec.getLsbD_or, BitVec.getLsbD_and, BitVec.getLsbD_not]
  cases ha : a.getLsbD i with
  | false => simp
  | true => simp [BitVec.lt_of_getLsbD ha]

/-- Masking keeps the low bits zero. -/
theorem two_pow_dvd_and {k : ℕ} {a : BitVec W} (h : 2 ^ k ∣ a.toNat) (m : BitVec W) :
    2 ^ k ∣ (a &&& m).toNat := by
  rw [BitVec.toNat_and]
  apply Nat.dvd_of_mod_eq_zero
  rw [Nat.and_mod_two_pow, Nat.mod_eq_zero_of_dvd h, Nat.zero_and]

theorem two_pow_dvd_add {k : ℕ} (hk : k ≤ W) (ha : 2 ^ k ∣ a.toNat) (hb : 2 ^ k ∣ b.toNat) :
    2 ^ k ∣ (a + b).toNat := by
  rw [BitVec.toNat_add]
  exact (Nat.dvd_mod_iff (Nat.pow_dvd_pow 2 hk)).mpr (Nat.dvd_add ha hb)

theorem two_pow_dvd_ofNat {k n : ℕ} (hk : k ≤ W) (hn : 2 ^ k ∣ n) :
    2 ^ k ∣ (BitVec.ofNat W n).toNat := by
  rw [BitVec.toNat_ofNat]
  exact (Nat.dvd_mod_iff (Nat.pow_dvd_pow 2 hk)).mpr hn

end Adl.Math
