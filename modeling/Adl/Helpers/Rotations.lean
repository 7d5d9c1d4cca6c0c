import Mathlib.Data.Int.ModEq
import Adl.Helpers.Padding
import Adl.Math.Words

/-!
# Rotations and byte swaps

A rotation masks the bits that leave the vector on one side and brings them back on the other. A
byte swap works on whole words and is followed by a shift. An amount that is given as a bit vector
is cut to 32 bits.
-/

namespace Adl.Helpers

open IntbvBase (words)

/-- What is cut off from the amount makes up full turns of a vector of `nb` bits. -/
def Amount.FullTurns (nb : ℕ) : Amount → Prop
  | size _ => True
  | vector position => position.toBitVec.toNat % 2 ^ 32 ≡ position.toBitVec.toNat [MOD nb]

theorem Amount.fullTurns_iff {nb : ℕ} {a : Amount} (hclean : a.Clean) :
    a.FullTurns nb ↔ a.position ≡ a.value [MOD nb] := by
  cases a with
  | size position => exact iff_of_true trivial rfl
  | vector z => rw [position_eq_mod hclean, FullTurns, value]

namespace Intbv

variable {nb : ℕ} {x y : Intbv nb} {v : BitVec nb} {j k : Amount} {s : ℕ}

/-! ### Rotations of the value -/

theorem holds_leftRotate (hnb : 0 < nb) (hx : x.Holds v) :
    (x.leftRotate s).Holds (v.rotateLeft s) := by
  have hbits := le_bits nb
  have hmod := Nat.mod_lt s hnb
  simp only [leftRotate]
  split
  case isTrue hs =>
    apply holds_sanitize_mk
    apply BitVec.eq_of_getLsbD_eq
    intro i hi
    rw [BitVec.getLsbD_setWidth, IntbvBase.getLsbD_leftRotate rfl (by omega) hmod, hx, hx,
      BitVec.getLsbD_rotateLeft, decide_eq_true hi, Bool.true_and, Bool.true_and]
    -- a bit comes from one of the two shifts, the other one has a bit beyond the value there
    by_cases hlow : i < s % nb
    · rw [decide_eq_false (by omega), decide_eq_true hlow, Bool.false_and, Bool.false_or, cond_true]
    · rw [decide_eq_true (by omega), decide_eq_false hlow,
        BitVec.getLsbD_of_ge v (nb - s % nb + i) (by omega), Bool.true_and, Bool.or_false,
        cond_false]
  case isFalse hs =>
    rw [← BitVec.rotateLeft_mod_eq_rotateLeft, show s % nb = 0 by omega,
      Math.rotateLeft_of_dvd (Nat.dvd_zero nb)]
    exact hx.sanitize

theorem holds_rightRotate (hnb : 0 < nb) (hx : x.Holds v) :
    (x.rightRotate s).Holds (v.rotateRight s) := by
  have hbits := le_bits nb
  have hmod := Nat.mod_lt s hnb
  simp only [rightRotate]
  split
  case isTrue hs =>
    apply holds_sanitize_mk
    apply BitVec.eq_of_getLsbD_eq
    intro i hi
    rw [BitVec.getLsbD_setWidth, IntbvBase.getLsbD_rightRotate rfl (by omega) hmod, hx, hx,
      BitVec.getLsbD_rotateRight, decide_eq_true hi, Bool.true_and, Bool.true_and]
    by_cases hlow : i < nb - s % nb
    · rw [decide_eq_false (by omega : ¬ (nb - s % nb ≤ i ∧ i < 32 * words nb)),
        decide_eq_true hlow, Bool.false_and, Bool.or_false, cond_true]
    · rw [decide_eq_true (by omega), decide_eq_false hlow,
        BitVec.getLsbD_of_ge v (s % nb + i) (by omega), Bool.true_and, Bool.false_or, cond_false]
  case isFalse hs =>
    rw [← BitVec.rotateRight_mod_eq_rotateRight, show s % nb = 0 by omega,
      Math.rotateRight_eq_rotateLeft, Nat.zero_mod, Nat.sub_zero,
      Math.rotateLeft_of_dvd (Nat.dvd_refl nb)]
    exact hx.sanitize

/-! ### The laws -/

/-- Rotating to the left by `k`, back to the right, and once more to the left by `j`. -/
structure RotationLaw (x : Intbv nb) (j k : Amount) : Prop where
  moves : ∀ i < nb, (x.leftRotate k.position).toBitVec.getMsbD (((i : ℤ) - k.value) % nb).toNat =
    x.toBitVec.getMsbD i
  right_left : (x.leftRotate k.position).rightRotate k.position = x
  left_right : (x.rightRotate k.position).leftRotate k.position = x
  sum : (x.leftRotate k.position).leftRotate j.position = x.leftRotate (j.value + k.value)

/-- Swapping the bytes, and swapping them again. -/
structure SwapLaw (x : Intbv nb) : Prop where
  reverses : ∀ b < nb / 8, x.swapBytes.toBitVec.extractLsb' (8 * b) 8 =
    x.toBitVec.extractLsb' (8 * (nb / 8 - 1 - b)) 8
  involutive : x.swapBytes.swapBytes = x

theorem rightRotate_leftRotate (hnb : 0 < nb) (hx : x.Clean) :
    (x.leftRotate s).rightRotate s = x := by
  have hrotate := @holds_rightRotate _ _ _ s hnb (@holds_leftRotate _ _ _ s hnb hx.holds)
  rw [Math.rotateRight_rotateLeft hnb] at hrotate
  exact hrotate.eq hx.holds

theorem leftRotate_rightRotate (hnb : 0 < nb) (hx : x.Clean) :
    (x.rightRotate s).leftRotate s = x := by
  have hrotate := @holds_leftRotate _ _ _ s hnb (@holds_rightRotate _ _ _ s hnb hx.holds)
  rw [Math.rotateLeft_rotateRight hnb] at hrotate
  exact hrotate.eq hx.holds

theorem leftRotate_leftRotate {t : ℕ} (hnb : 0 < nb) (hx : x.Clean) :
    (x.leftRotate s).leftRotate t = x.leftRotate (t + s) := by
  have hrotate := @holds_leftRotate _ _ _ t hnb (@holds_leftRotate _ _ _ s hnb hx.holds)
  rw [Math.rotateLeft_rotateLeft] at hrotate
  exact hrotate.eq (holds_leftRotate hnb hx.holds)

theorem leftRotate_congr {t : ℕ} (h : s ≡ t [MOD nb]) : x.leftRotate s = x.leftRotate t := by
  simp only [leftRotate, show s % nb = t % nb from h]

theorem rotationLaw (hnb : 0 < nb) (hx : x.Clean) (hj : j.position ≡ j.value [MOD nb])
    (hk : k.position ≡ k.value [MOD nb]) : RotationLaw x j k where
  moves i hi := by
    rw [leftRotate_congr hk, (holds_leftRotate hnb hx.holds).toBitVec_eq]
    exact Math.getMsbD_rotateLeft_sub hi
  right_left := rightRotate_leftRotate hnb hx
  left_right := leftRotate_rightRotate hnb hx
  sum := by
    rw [leftRotate_leftRotate hnb hx]
    exact leftRotate_congr (hj.add hk)

/-! ### What a rotation sees of its amount -/

theorem getMsbD_ofUInt32_one (hnb : 0 < nb) {i : ℕ} :
    (ofUInt32 nb 1).toBitVec.getMsbD i = decide (i = nb - 1) := by
  rw [(holds_ofUInt32 hnb).toBitVec_eq, BitVec.getMsbD_eq_getLsbD, BitVec.getLsbD_setWidth,
    show (1 : BitVec 32) = 1#32 from rfl, BitVec.getLsbD_one, Bool.eq_iff_iff]
  simp only [Bool.and_eq_true, decide_eq_true_eq]
  omega

/-- The place that a rotation moves the bit of the number one to determines its amount, up to full
turns. -/
theorem modEq_of_getMsbD {t : ℕ} (hnb : 0 < nb)
    (h : ((ofUInt32 nb 1).leftRotate s).toBitVec.getMsbD
      ((((nb - 1 : ℕ) : ℤ) - t) % nb).toNat = true) : s ≡ t [MOD nb] := by
  have hone : (ofUInt32 nb 1).Clean := (holds_ofUInt32 hnb).clean
  have hnonneg := Int.emod_nonneg (((nb - 1 : ℕ) : ℤ) - t) (by omega : (nb : ℤ) ≠ 0)
  generalize hi : ((((nb - 1 : ℕ) : ℤ) - t) % nb).toNat = i at h
  rw [(holds_leftRotate hnb hone.holds).toBitVec_eq, BitVec.getMsbD_rotateLeft,
    getMsbD_ofUInt32_one hnb, Bool.and_eq_true, decide_eq_true_eq, decide_eq_true_eq] at h
  -- the last bit is `s` places after the place `i`, which is `t` places before it
  have hs : s + i ≡ nb - 1 [MOD nb] := by
    rw [Nat.ModEq, h.2, Nat.mod_eq_of_lt (by omega)]
  have ht : t + i ≡ nb - 1 [MOD nb] := by
    rw [← Int.natCast_modEq_iff, Int.natCast_add, ← hi, Int.toNat_of_nonneg hnonneg]
    exact (Int.ModEq.rfl.add (Int.mod_modEq _ _)).trans (by rw [add_sub_cancel])
  exact Nat.ModEq.add_right_cancel' i (hs.trans ht.symm)

theorem RotationLaw.modEq (hnb : 0 < nb) (h : RotationLaw (ofUInt32 nb 1) j k) :
    j.position ≡ j.value [MOD nb] ∧ k.position ≡ k.value [MOD nb] := by
  have hone : (ofUInt32 nb 1).Clean := (holds_ofUInt32 hnb).clean
  have hlast : nb - 1 < nb := by omega
  have hbit : (ofUInt32 nb 1).toBitVec.getMsbD (nb - 1) = true := by
    rw [getMsbD_ofUInt32_one hnb, decide_eq_true rfl]
  have hk : k.position ≡ k.value [MOD nb] := modEq_of_getMsbD hnb ((h.moves _ hlast).trans hbit)
  have hsum : j.position + k.position ≡ j.value + k.value [MOD nb] := by
    apply modEq_of_getMsbD hnb
    rw [← leftRotate_leftRotate hnb hone, h.sum, (holds_leftRotate hnb hone.holds).toBitVec_eq,
      Math.getMsbD_rotateLeft_sub hlast, hbit]
  exact ⟨Nat.ModEq.add_right_cancel hk hsum, hk⟩

/-! ### Byte swaps -/

theorem getLsbD_swapBytes_of_dvd {i : ℕ} (h : 8 ∣ nb) (hx : x.Clean) (hi : i < nb) :
    x.swapBytes.toBitVec.getLsbD i = x.toBitVec.getLsbD (8 * (nb / 8 - 1 - i / 8) + i % 8) := by
  have hbits := le_bits nb
  rw [getLsbD_swapBytes hi, hx.holds]
  congr 1
  rw [adjust]
  omega

theorem swapLaw (hnb : 0 < nb) (h : 8 ∣ nb) (hx : x.Clean) : SwapLaw x where
  reverses b hb := by
    apply BitVec.eq_of_getLsbD_eq
    intro i hi
    rw [BitVec.getLsbD_extractLsb', BitVec.getLsbD_extractLsb',
      getLsbD_swapBytes_of_dvd h hx (by omega)]
    congr 2
    omega
  involutive := by
    refine (swapBytes_clean hnb).holds.eq ?_
    have hback : x.swapBytes.swapBytes.toBitVec = x.toBitVec := by
      apply BitVec.eq_of_getLsbD_eq
      intro i hi
      rw [getLsbD_swapBytes_of_dvd h (swapBytes_clean hnb) hi,
        getLsbD_swapBytes_of_dvd h hx (by omega)]
      congr 1
      omega
    rw [hback]
    exact hx.holds

/-! ### Results -/

/-- Every vector is rotated by the amount exactly if no amount loses more than full turns. The
bytes of a vector that is made up of them are always swapped. -/
theorem rotation_law_iff (hnb : 0 < nb) (hj : j.Clean) (hk : k.Clean) :
    ((∀ x : Intbv nb, x.Clean → RotationLaw x j k) ↔ j.FullTurns nb ∧ k.FullTurns nb) ∧
      (8 ∣ nb → ∀ x : Intbv nb, x.Clean → SwapLaw x) := by
  refine ⟨?_, fun h x hx => swapLaw hnb h hx⟩
  rw [Amount.fullTurns_iff hj, Amount.fullTurns_iff hk]
  exact ⟨fun h => (h _ (holds_ofUInt32 hnb).clean).modEq hnb,
    fun h x hx => rotationLaw hnb hx h.1 h.2⟩

/-- Rotations of 70 bits by integers. -/
theorem rotation_law_size :
    RotationLaw (ofUInt32 70 5) (.size 100) (.size 33) ∧ SwapLaw (ofUInt32 72 0x1234) := by
  refine ⟨(rotation_law_iff (j := .size 100) (k := .size 33) (by decide) trivial trivial).1.mpr
    ⟨trivial, trivial⟩ _ ?_, (rotation_law_iff (j := .size 0) (k := .size 0) (by decide) trivial
      trivial).2 (by decide) _ ?_⟩
  · exact (holds_ofUInt32 (by decide)).clean
  · exact (holds_ofUInt32 (by decide)).clean

/-- One in 24 bits, rotated by `2 ^ 32`, stays one; sixteen places would be right. -/
theorem rotation_vector_cut :
    (ofUInt32 24 1).leftRotate (Amount.vector (ofUInt64 33 0x100000000)).position = ofUInt32 24 1 ∧
      ¬ RotationLaw (ofUInt32 24 1) (.size 0) (.vector (ofUInt64 33 0x100000000)) := by
  have hposition : (Amount.vector (ofUInt64 33 0x100000000)).position = 0 := by decide +kernel
  refine ⟨?_, fun h => ?_⟩
  · rw [hposition]
    have hone := (@holds_ofUInt32 24 1 (by decide))
    exact (@holds_leftRotate _ _ _ 0 (by decide) hone).eq
      (by rwa [Math.rotateLeft_of_dvd (Nat.dvd_zero 24)])
  · have hk := (h.modEq (by decide)).2
    have hvalue : (Amount.vector (ofUInt64 33 0x100000000)).value = 2 ^ 32 := by decide +kernel
    rw [hposition, hvalue] at hk
    exact absurd hk (by decide)

end Intbv

end Adl.Helpers
