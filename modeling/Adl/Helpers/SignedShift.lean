import Adl.Helpers.Modular
import Adl.Helpers.SignedDivision

/-!
# Arithmetic right shifts of bit vectors

A signed shift by an integer extends the sign. By a bit vector it calls the logical shift with the
low 32 bits of the amount, so both agree on few operands only.
-/

namespace Adl.Helpers

namespace Intbv

variable {nb nb₂ : ℕ} {x : Intbv nb} {v : BitVec nb}

def signedRightShiftEqualVector (x : Intbv nb) (position : Intbv nb₂) : Intbv nb :=
  x.rightShift position.uint32

def signedRightShiftBy (x : Intbv nb) : Amount → Option (Intbv nb)
  | .size position => x.signedRightShiftEqual position
  | .vector position => some (x.signedRightShiftEqualVector position)

end Intbv

/-- The operator of `sintbv`, which is the signed shift of its base class. -/
def Sintbv.rightShiftEqual {nb : ℕ} (x : Intbv nb) (a : Amount) : Option (Intbv nb) :=
  x.signedRightShiftBy a

/-- The operator of `le_sintbv`, which calls the same function. -/
def LeSintbv.rightShiftEqual {nb : ℕ} (x : Intbv nb) (a : Amount) : Option (Intbv nb) :=
  x.signedRightShiftBy a

namespace Intbv

variable {nb nb₂ : ℕ} {x : Intbv nb} {v : BitVec nb}

/-! ### The shift by an integer -/

theorem exists_signedRightShiftEqual {s : ℕ} (hx : x.Holds v) :
    ∃ r, x.signedRightShiftEqual s = some r := by
  rw [signedRightShiftEqual]
  split
  case isTrue hs => exact exists_signExtend hs (holds_rightShift hx)
  case isFalse =>
    split
    · exact ⟨_, rfl⟩
    · exact ⟨_, rfl⟩

theorem sshiftRight_eq_ofInt {s : ℕ} : v.sshiftRight s = BitVec.ofInt nb (v.toInt / 2 ^ s) := by
  rw [BitVec.sshiftRight, Int.shiftRight_eq_div_pow]
  norm_num

theorem holds_signedRightShift (hnb : 0 < nb) (hx : x.Holds v) (s : ℕ) :
    ∃ r, x.signedRightShiftEqual s = some r ∧ r.Holds (v.sshiftRight s) := by
  obtain ⟨r, hr⟩ := exists_signedRightShiftEqual (s := s) hx
  refine ⟨r, hr, ?_⟩
  rw [← holds_signedRightShiftEqual hnb hx hr]
  exact (hx.clean.signedRightShiftEqual hnb hr).holds

/-! ### The shift by a bit vector -/

/-- A shift by `a` and a logical shift by the low 32 bits of `a` give the same. -/
def ShiftsAlike (v : ℤ) (a : ℕ) : Prop :=
  0 ≤ v ∧ (a < 2 ^ 32 ∨ v < 2 ^ (a % 2 ^ 32)) ∨ v < 0 ∧ a % 2 ^ 32 = 0 ∧ (a = 0 ∨ v = -1)

theorem div_two_pow_eq_iff {k p a : ℕ} (h : p < a) : k / 2 ^ p = k / 2 ^ a ↔ k < 2 ^ p := by
  obtain ⟨e, rfl⟩ : ∃ e, a = p + (e + 1) := ⟨a - p - 1, by omega⟩
  rw [Nat.pow_add, ← Nat.div_div_eq_div_mul, ← Nat.div_eq_zero_iff_lt (Nat.two_pow_pos p)]
  constructor
  · intro heq
    by_contra hne
    have hlt := Nat.div_lt_self (Nat.pos_of_ne_zero hne)
      (Nat.one_lt_two_pow (n := e + 1) (by omega))
    omega
  · intro hzero
    rw [hzero, Nat.zero_div]

theorem eq_ediv_two_pow_iff {k : ℤ} {a : ℕ} (hk : k < 0) : k = k / 2 ^ a ↔ a = 0 ∨ k = -1 := by
  constructor
  · intro heq
    by_contra hne
    rw [not_or] at hne
    have hpow : (2 : ℤ) ≤ 2 ^ a := by
      calc (2 : ℤ) = 2 ^ 1 := (pow_one _).symm
        _ ≤ 2 ^ a := pow_le_pow_right₀ (by decide) (Nat.one_le_iff_ne_zero.mpr hne.1)
    have hlt := Int.lt_ediv_add_one_mul_self k (by omega : (0 : ℤ) < 2 ^ a)
    rw [← heq] at hlt
    have hneg : k + 1 ≤ -1 := by omega
    nlinarith
  · rintro (rfl | rfl)
    · rw [pow_zero, Int.ediv_one]
    · have hpow : (0 : ℤ) < 2 ^ a := by positivity
      have hdiv : (-1 : ℤ) / 2 ^ a = -(0 / 2 ^ a + 1) := Int.negSucc_ediv 0 hpow
      rw [hdiv, Int.zero_ediv]
      rfl

theorem ushiftRight_eq_sshiftRight_iff {a : ℕ} :
    v >>> (a % 2 ^ 32) = v.sshiftRight a ↔ ShiftsAlike v.toInt a := by
  cases hmsb : v.msb with
  | false =>
    have hnonneg : v.toInt = v.toNat := BitVec.toInt_eq_toNat_of_msb hmsb
    rw [BitVec.sshiftRight_eq_of_msb_false hmsb, ← BitVec.toNat_inj, BitVec.toNat_ushiftRight,
      BitVec.toNat_ushiftRight, Nat.shiftRight_eq_div_pow, Nat.shiftRight_eq_div_pow, ShiftsAlike,
      hnonneg, or_iff_left fun h => by omega, and_iff_right (Int.natCast_nonneg _)]
    by_cases ha : a < 2 ^ 32
    · rw [Nat.mod_eq_of_lt ha]
      exact iff_of_true rfl (.inl ha)
    · have hlt : a % 2 ^ 32 < a := by omega
      rw [div_two_pow_eq_iff hlt, or_iff_right ha, ← Nat.cast_lt (α := ℤ)]
      norm_num
  | true =>
    have hneg : v.toInt < 0 := BitVec.toInt_neg_of_msb_true hmsb
    rw [ShiftsAlike, or_iff_right fun h => by omega, and_iff_right hneg]
    by_cases hp : a % 2 ^ 32 = 0
    · rw [hp, BitVec.ushiftRight_zero, ← BitVec.toInt_inj, BitVec.toInt_sshiftRight,
        Int.shiftRight_eq_div_pow, and_iff_right rfl, ← eq_ediv_two_pow_iff hneg]
      norm_num
    · -- the logical shift clears the sign
      refine iff_of_false (fun heq => ?_) fun h => hp h.1
      have hsign := congrArg BitVec.msb heq
      rw [BitVec.msb_ushiftRight, BitVec.msb_sshiftRight, hmsb,
        decide_eq_true (Nat.pos_of_ne_zero hp)] at hsign
      cases hsign

theorem signedRightShiftBy_eq_iff {z : Intbv nb₂} (hnb : 0 < nb) (hx : x.Holds v) (hz : z.Clean) :
    x.signedRightShiftBy (.vector z) = x.signedRightShiftBy (.size z.toBitVec.toNat) ↔
      ShiftsAlike v.toInt z.toBitVec.toNat := by
  obtain ⟨r, hr, hvalue⟩ := holds_signedRightShift hnb hx z.toBitVec.toNat
  have hlogical := holds_rightShift (s := z.uint32) hx
  have hposition : z.uint32 = z.toBitVec.toNat % 2 ^ 32 := Amount.position_eq_mod hz
  rw [← ushiftRight_eq_sshiftRight_iff, ← hposition, signedRightShiftBy, signedRightShiftBy, hr,
    Option.some_inj, signedRightShiftEqualVector]
  constructor
  · intro heq
    rw [← hlogical.toBitVec_eq, heq, hvalue.toBitVec_eq]
  · intro heq
    rw [heq] at hlogical
    exact hlogical.eq hvalue

end Intbv

/-! ### Results -/

open Intbv

/-- By an integer the signed shift gives the floor of the quotient. By a bit vector it gives the
same exactly if a logical shift by the low 32 bits of the amount does, in all three classes. -/
theorem signedRightShift_agrees_iff {nb nb₂ : ℕ} (hnb : 0 < nb) (x : Intbv nb) (hx : x.Clean)
    (z : Intbv nb₂) (hz : z.Clean) :
    (∀ s, ∃ r, x.signedRightShiftBy (.size s) = some r ∧
      r.Holds (BitVec.ofInt nb (x.toBitVec.toInt / 2 ^ s))) ∧
    (x.signedRightShiftBy (.vector z) = x.signedRightShiftBy (.size z.toBitVec.toNat) ↔
      ShiftsAlike x.toBitVec.toInt z.toBitVec.toNat) ∧
    (Sintbv.rightShiftEqual x (.vector z) = Sintbv.rightShiftEqual x (.size z.toBitVec.toNat) ↔
      ShiftsAlike x.toBitVec.toInt z.toBitVec.toNat) ∧
    (LeSintbv.rightShiftEqual x (.vector z) =
        LeSintbv.rightShiftEqual x (.size z.toBitVec.toNat) ↔
      ShiftsAlike x.toBitVec.toInt z.toBitVec.toNat) := by
  have hagrees := signedRightShiftBy_eq_iff hnb hx.holds hz
  refine ⟨fun s => ?_, hagrees, hagrees, hagrees⟩
  rw [← sshiftRight_eq_ofInt]
  exact holds_signedRightShift hnb hx.holds s

/-- A positive number of 40 bits shifted by a bit vector. -/
theorem signedRightShift_agrees_positive :
    (ofUInt32 40 1000).signedRightShiftBy (.vector (ofUInt32 8 3)) =
      (ofUInt32 40 1000).signedRightShiftBy (.size 3) := by
  have hx := @holds_ofUInt32 40 1000 (by decide)
  have hz := @holds_ofUInt32 8 3 (by decide)
  have hagrees := (signedRightShift_agrees_iff (by decide) _ hx.clean _ hz.clean).2.1
  rw [hx.toBitVec_eq, hz.toBitVec_eq] at hagrees
  exact hagrees.mpr (by rw [ShiftsAlike]; decide)

/-- The number -2 of 8 bits shifted by one. -/
theorem signedRightShift_loses_sign :
    (ofUInt32 8 0xfe).signedRightShiftBy (.size 1) = some (ofUInt32 8 0xff) ∧
    (ofUInt32 8 0xfe).signedRightShiftBy (.vector (ofUInt32 8 1)) = some (ofUInt32 8 0x7f) :=
  ⟨rfl, rfl⟩

end Adl.Helpers
