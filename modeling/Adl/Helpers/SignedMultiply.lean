import Adl.Helpers.SignedDivision

/-!
# Signed multiplication of bit vectors

A signed product is taken in whole words and cut to the larger width. An array is multiplied without
signs: an operand whose first word is not zero is negated before, which does no harm to large
positive ones, since the product is negated back.
-/

namespace Adl.Helpers

open Math (limbs)
open IntbvBase (words)

/-! ### The functions -/

namespace Intbv

variable {nb nb₂ n : ℕ}

/-- The product in the whole words of `n` bits. -/
def signedMultiplyIn (n : ℕ) (x : Intbv nb) (y : Intbv nb₂) : Option (Intbv n) := do
  let tmpX ← x.signExtendTo (wordAligned n)
  let tmpY ← y.signExtendTo (wordAligned n)
  return copy n (tmpX.signedMultiplyEqual tmpY)

def signedMultiply (x y : Intbv nb) : Option (Intbv nb) := signedMultiplyIn nb x y

def signedMultiplyOther (x : Intbv nb) (y : Intbv nb₂) : Option (Intbv (max nb nb₂)) :=
  signedMultiplyIn (max nb nb₂) x y

end Intbv

/-! ### Products of whole words -/

namespace IntbvBase

variable {n m : ℕ}

/-- The operand that an array multiplies: it takes every number with a first word that is not zero
for a negative one. -/
def withoutSign : IntbvBase n → IntbvBase n
  | many w hw => if w.getD 0 0 != 0 then (many w hw).negate else many w hw
  | x => x

variable {x y : IntbvBase n}

theorem toBitVec_multiply (h : x.Multiplies y) :
    (x.multiply y).toBitVec = x.toBitVec * y.toBitVec := by
  apply BitVec.eq_of_toNat_eq
  rw [BitVec.toNat_mul, toNat_toBitVec, toNat_toBitVec, toNat_toBitVec]
  exact h

/-- The signs that were taken off cancel when the product is negated. -/
theorem toBitVec_multiplySigned (h : x.withoutSign.Multiplies y.withoutSign) :
    (x.multiplySigned y).toBitVec = x.toBitVec * y.toBitVec := by
  cases x with
  | empty => cases y; exact toBitVec_multiply h
  | one w => cases y; exact toBitVec_multiply h
  | two w => cases y; exact toBitVec_multiply h
  | many w hw =>
    cases y with
    | many v hv =>
      have hproduct := toBitVec_multiply h
      simp only [withoutSign] at hproduct
      simp only [multiplySigned, apply_ite toBitVec, toBitVec_negate, hproduct]
      -- four cases of signs, in two of which the product is negated
      cases w.getD 0 0 != 0 <;> cases v.getD 0 0 != 0 <;> simp

/-- The first word of a small number is zero if the number is not negative. -/
theorem toNat_withoutSign_of_small (hn : 3 ≤ n) (hm : m + 2 ≤ 2 * n)
    (h : x.toBitVec.toInt.natAbs < (2 ^ 16) ^ m) :
    x.withoutSign.toNat = x.toBitVec.toInt.natAbs := by
  cases x with
  | empty => omega
  | one w => omega
  | two w => omega
  | @many k w hw =>
    have hsmall : (2 ^ 16) ^ m ≤ 2 ^ (32 * (k + 2)) := by
      rw [← Nat.pow_mul]
      exact Nat.pow_le_pow_right (by decide) (by omega)
    have hsign := msb_first_word hw
    simp only [withoutSign]
    cases hmsb : (many w hw).toBitVec.msb with
    | false =>
      rw [BitVec.toInt_eq_toNat_of_msb hmsb, Int.natAbs_natCast, toNat_toBitVec] at h ⊢
      have hzero : w.getD 0 0 = 0 := by
        apply BitVec.eq_of_toNat_eq
        rw [toNat_first_word hw]
        exact Nat.div_eq_of_lt (h.trans_le hsmall)
      rw [hzero]
      rfl
    | true =>
      have hne : (w.getD 0 0 != 0) = true := by
        rw [bne_iff_ne]
        intro hzero
        rw [hzero, hmsb] at hsign
        cases hsign
      rw [if_pos hne, ← toNat_toBitVec, toBitVec_negate, ← Intbv.toNat_abs_eq, BitVec.abs_eq,
        if_pos hmsb]

/-- An operand that is not longer than the column sums allow, with or without its sign. -/
theorem exists_short (hm : m ≤ 32768) (h : x.toBitVec.toInt.natAbs < (2 ^ 16) ^ m) :
    ∃ m', m' ≤ 32768 ∧ x.withoutSign.toNat < (2 ^ 16) ^ m' := by
  by_cases hn : 2 * n ≤ 32768
  · refine ⟨2 * n, hn, x.withoutSign.toNat_lt.trans_eq ?_⟩
    rw [← Nat.pow_mul]
    congr 1
    omega
  · refine ⟨m, hm, ?_⟩
    rwa [toNat_withoutSign_of_small (by omega) (by omega) h]

theorem toBitVec_multiplySigned_of_short (hm : m ≤ 32768)
    (h : x.toBitVec.toInt.natAbs < (2 ^ 16) ^ m ∨ y.toBitVec.toInt.natAbs < (2 ^ 16) ^ m) :
    (x.multiplySigned y).toBitVec = x.toBitVec * y.toBitVec := by
  apply toBitVec_multiplySigned
  rcases h with h | h
  · obtain ⟨m', hm', hlt⟩ := exists_short hm h
    exact multiplies_of_short (.inl hlt) hm'
  · obtain ⟨m', hm', hlt⟩ := exists_short hm h
    exact multiplies_of_short (.inr hlt) hm'

theorem multiplySigned_self : x.multiplySigned x = x.withoutSign.multiply x.withoutSign := by
  cases x with
  | empty => rfl
  | one w => rfl
  | two w => rfl
  | many w hw =>
    simp only [multiplySigned, withoutSign, bne_self_eq_false, if_neg Bool.false_ne_true]

end IntbvBase

/-! ### Products of vectors -/

namespace Intbv

variable {nb nb₂ n m : ℕ} {x : Intbv nb} {y : Intbv nb₂} {v : BitVec nb} {w : BitVec nb₂}

/-- The product of two integers, in `n` bits. -/
def IsProduct (v w : ℤ) (r : Option (Intbv n)) : Prop :=
  ∃ p, r = some p ∧ p.Holds (BitVec.ofInt n (v * w))

theorem signExtend_mul_eq_ofInt :
    v.signExtend n * w.signExtend n = BitVec.ofInt n (v.toInt * w.toInt) := by
  rw [BitVec.ofInt_mul]
  rfl

theorem toInt_base_of_signExtend {z : Intbv (wordAligned n)} (hle : nb ≤ n)
    (hz : z.Holds (v.signExtend (wordAligned n))) : z.base.toBitVec.toInt = v.toInt := by
  have hbits : n ≤ wordAligned n := le_bits n
  rw [toInt_base bits_wordAligned hz, BitVec.toInt_signExtend_of_le (hle.trans hbits)]

theorem isProduct_signedMultiplyIn (hnb : 0 < nb) (hnb₂ : 0 < nb₂) (hle : nb ≤ n) (hle₂ : nb₂ ≤ n)
    (hx : x.Holds v) (hy : y.Holds w) (hm : m ≤ 32768)
    (h : v.toInt.natAbs < (2 ^ 16) ^ m ∨ w.toInt.natAbs < (2 ^ 16) ^ m) :
    IsProduct v.toInt w.toInt (x.signedMultiplyIn n y) := by
  have hbits : n ≤ wordAligned n := le_bits n
  obtain ⟨x', hx', hvalue⟩ := holds_signExtendTo hnb (hle.trans hbits) hx
  obtain ⟨y', hy', hvalue'⟩ := holds_signExtendTo hnb₂ (hle₂.trans hbits) hy
  have hbase : (x'.base.multiplySigned y'.base).toBitVec = x'.base.toBitVec * y'.base.toBitVec := by
    apply IntbvBase.toBitVec_multiplySigned_of_short hm
    rwa [toInt_base_of_signExtend hle hvalue, toInt_base_of_signExtend hle₂ hvalue']
  have hproduct : (x'.signedMultiplyEqual y').Holds
      (BitVec.ofInt (wordAligned n) (v.toInt * w.toInt)) := by
    apply holds_sanitize_mk
    rw [hbase, BitVec.setWidth_mul _ _ bits_wordAligned.ge, ← signExtend_mul_eq_ofInt]
    exact congrArg₂ (· * ·) hvalue.toBitVec_eq hvalue'.toBitVec_eq
  have hcopy := @holds_copy n _ _ _ (by omega) (by omega) hproduct
  rw [setWidth_ofInt hbits] at hcopy
  refine ⟨_, ?_, hcopy⟩
  rw [signedMultiplyIn, hx', hy']
  rfl

theorem natAbs_toInt_lt (hnb : 0 < nb) (hle : nb ≤ n) :
    v.toInt.natAbs < (2 ^ 16) ^ (2 * words n) := by
  have hlow := BitVec.le_toInt v
  have hhigh := @BitVec.toInt_lt _ v
  have hhalf : 2 ^ (nb - 1) < (2 ^ 16) ^ (2 * words n) := by
    rw [← Nat.pow_mul]
    have hbits := le_bits n
    exact Nat.pow_lt_pow_right (by decide) (by omega)
  zify at hhalf ⊢
  rw [abs_lt]
  constructor <;> linarith

theorem not_isProduct {k : ℕ} (hk : 2 * k + 2 ≤ words nb) (hnb : 32 * words nb = nb)
    (hbig : 16512 ≤ k) :
    ∃ x : Intbv nb, x.Clean ∧
      ¬ IsProduct x.toBitVec.toInt x.toBitVec.toInt (x.signedMultiply x) := by
  obtain ⟨d, hd⟩ : ∃ d, d = repeated 0xff01 (2 * k + 2) := ⟨_, rfl⟩
  have hsquare : d * d < 2 ^ nb := hd ▸ repeated_mul_self_lt hk hnb
  have hlt : d < 2 ^ nb := (Nat.le_mul_self d).trans_lt hsquare
  have hone : 1 < d := hd ▸ one_lt_repeated
  have hdouble : 2 * d < 2 ^ nb := (Nat.mul_le_mul_right d hone).trans_lt hsquare
  obtain ⟨x, hx⟩ := exists_holds (BitVec.ofNatLT d hlt)
  have hint : (BitVec.ofNatLT d hlt).toInt = d := by
    rw [BitVec.toInt_eq_toNat_of_lt (by rwa [BitVec.toNat_ofNatLT]), BitVec.toNat_ofNatLT]
  refine ⟨x, hx.clean, ?_⟩
  rintro ⟨p, hp, hvalue⟩
  have hpos : 0 < nb := by omega
  have hbits : nb ≤ wordAligned nb := le_bits nb
  obtain ⟨x', hx', hextended⟩ := holds_signExtendTo hpos hbits hx
  have hbase : x'.base.toBitVec.toInt = d :=
    (toInt_base_of_signExtend (Nat.le_refl _) hextended).trans hint
  -- the operand is multiplied as it is
  have hmagnitude : x'.base.withoutSign.toNat = d := by
    rw [IntbvBase.toNat_withoutSign_of_small (m := 2 * k + 2), hbase, Int.natAbs_natCast]
    · rw [words_wordAligned]; omega
    · rw [words_wordAligned]; omega
    · rw [hbase, Int.natAbs_natCast, hd]
      exact repeated_lt (by decide)
  have hloses := IntbvBase.multiply_loses (hmagnitude.trans hd) (hmagnitude.trans hd)
    (by rw [words_wordAligned]; omega) hbig
  rw [hmagnitude, ← IntbvBase.multiplySigned_self] at hloses
  -- the result is cut from the product, and the right product would be larger
  have hproduct : (x'.signedMultiplyEqual x').Holds (x'.signedMultiplyEqual x').toBitVec :=
    sanitize_clean.holds
  have hcopy := @holds_copy nb _ _ _ hpos (by omega) hproduct
  rw [signedMultiply, signedMultiplyIn, hx'] at hp
  obtain rfl := Option.some.inj hp
  have hnat := congrArg BitVec.toNat (hcopy.toBitVec_eq.symm.trans hvalue.toBitVec_eq)
  rw [hx.toBitVec_eq, hint, ← Int.natCast_mul, BitVec.ofInt_natCast, BitVec.toNat_ofNat,
    Nat.mod_eq_of_lt hsquare, BitVec.toNat_setWidth, signedMultiplyEqual, toBitVec_sanitize,
    toNat_toBitVec] at hnat
  dsimp only at hnat
  have hle := Nat.mod_le ((x'.base.multiplySigned x'.base).toNat % 2 ^ wordAligned nb) (2 ^ nb)
  have hle' := Nat.mod_le (x'.base.multiplySigned x'.base).toNat (2 ^ wordAligned nb)
  have htwo := Nat.two_pow_pos (32 * k + 48)
  omega

end Intbv

/-! ### Results -/

open Intbv

/-- Products of equal and of different sizes, with up to 16384 words or with one operand whose
absolute value has at most 32768 half-words. -/
theorem signedMultiply_exact (nb nb₂ m : ℕ) (hnb : 0 < nb) (hnb₂ : 0 < nb₂) (hm : m ≤ 32768) :
    (∀ x y : Intbv nb, x.Clean → y.Clean →
      (words nb ≤ 16384 ∨ x.toBitVec.toInt.natAbs < (2 ^ 16) ^ m ∨
        y.toBitVec.toInt.natAbs < (2 ^ 16) ^ m) →
      IsProduct x.toBitVec.toInt y.toBitVec.toInt (x.signedMultiply y)) ∧
    (∀ (x : Intbv nb) (y : Intbv nb₂), x.Clean → y.Clean →
      (words (max nb nb₂) ≤ 16384 ∨ x.toBitVec.toInt.natAbs < (2 ^ 16) ^ m ∨
        y.toBitVec.toInt.natAbs < (2 ^ 16) ^ m) →
      IsProduct x.toBitVec.toInt y.toBitVec.toInt (x.signedMultiplyOther y)) := by
  constructor
  · intro x y hx hy h
    have hle := Nat.le_refl nb
    rcases h with hwords | hshort
    · exact isProduct_signedMultiplyIn hnb hnb hle hle hx.holds hy.holds (by omega)
        (.inl (natAbs_toInt_lt hnb hle))
    · exact isProduct_signedMultiplyIn hnb hnb hle hle hx.holds hy.holds hm hshort
  · intro x y hx hy h
    have hle := Nat.le_max_left nb nb₂
    have hle₂ := Nat.le_max_right nb nb₂
    rcases h with hwords | hshort
    · exact isProduct_signedMultiplyIn hnb hnb₂ hle hle₂ hx.holds hy.holds (by omega)
        (.inl (natAbs_toInt_lt hnb hle))
    · exact isProduct_signedMultiplyIn hnb hnb₂ hle hle₂ hx.holds hy.holds hm hshort

/-- The product of -7 in 8 bits and 1000 in 70 bits. -/
theorem signedMultiply_exact_small :
    IsProduct (-7) 1000 ((ofUInt32 8 249).signedMultiplyOther (ofUInt32 70 1000)) := by
  have hx := @holds_ofUInt32 8 249 (by decide)
  have hy := @holds_ofUInt32 70 1000 (by decide)
  have hproduct := (signedMultiply_exact 8 70 0 (by decide) (by decide) (by decide)).2 _ _ hx.clean
    hy.clean (.inl (by decide))
  rw [hx.toBitVec_eq, hy.toBitVec_eq] at hproduct
  exact hproduct

/-- In vectors of 33026 words a product can be wrong. -/
theorem signedMultiply_of_33026_words :
    ∃ x : Intbv (32 * 33026), x.Clean ∧
      ¬ IsProduct x.toBitVec.toInt x.toBitVec.toInt (x.signedMultiply x) :=
  not_isProduct (k := 16512) (by decide) (by decide) (by decide)

end Adl.Helpers
