import Adl.Helpers.Intbv
import Adl.Helpers.Products
import Adl.Helpers.Quotients

/-!
# Division of bit vectors

The quotient is exact in every width. The remainder is the dividend without the product of quotient
and divisor, so it is right as long as this product is: up to 32768 words.
-/

namespace Adl.Helpers

open Math (limbs digit)
open IntbvBase (words Fault)

namespace IntbvBase

variable {n m : ℕ} {x y : IntbvBase n}

theorem exists_toNat {k : ℕ} (hk : k < 2 ^ (32 * n)) : ∃ x : IntbvBase n, x.toNat = k := by
  rcases n with _ | _ | _ | n
  · exact ⟨empty, (Nat.lt_one_iff.mp hk).symm⟩
  · exact ⟨one (BitVec.ofNatLT k hk), BitVec.toNat_ofNatLT ..⟩
  · exact ⟨two (BitVec.ofNatLT k hk), BitVec.toNat_ofNatLT ..⟩
  · obtain ⟨ws, hlength, hvalue⟩ := Math.exists_limbs hk
    exact ⟨many ws hlength, hvalue⟩

/-! ### Products -/

/-- The product of two storages is right modulo their size. -/
def Multiplies (x y : IntbvBase n) : Prop :=
  (x.multiply y).toNat = x.toNat * y.toNat % 2 ^ (32 * n)

theorem toNat_reset : (reset n).toNat = 0 := by
  rw [← toNat_toBitVec, toBitVec_reset, BitVec.toNat_zero]

theorem isEqual_reset_iff : x.isEqual (reset n) = true ↔ x.toNat = 0 := by
  rw [isEqual_iff, toNat_reset]

theorem isEqual_one_iff (h : 0 < n) : x.isEqual (ofUInt32 1 n) = true ↔ x.toNat = 1 := by
  rw [isEqual_iff, toNat_ofUInt32 h]
  rfl

theorem multiplies_of_short (h : x.toNat < (2 ^ 16) ^ m ∨ y.toNat < (2 ^ 16) ^ m)
    (hm : m ≤ 32768) : x.Multiplies y := by
  have hx := x.toNat_lt
  have hy := y.toNat_lt
  cases x with
  | empty => cases y; rfl
  | one w => cases y; exact BitVec.toNat_mul _ _
  | two w => cases y; exact BitVec.toNat_mul _ _
  | @many k w hw =>
    cases y with
    | many v hv =>
      rw [Multiplies]
      simp only [multiply, Bool.or_eq_true, isEqual_reset_iff, isEqual_one_iff (Nat.succ_pos _)]
      split
      case isTrue hzero =>
        rcases hzero with hzero | hzero <;> rw [hzero] <;> simp [toNat_reset]
      case isFalse =>
        split
        case isTrue hone => rw [hone, Nat.mul_one, Nat.mod_eq_of_lt hx]
        case isFalse =>
          split
          case isTrue hone => rw [hone, Nat.one_mul, Nat.mod_eq_of_lt hy]
          case isFalse =>
            have hproduct := limbs_multiplyWords (hw.trans hv.symm) h hm
            rwa [hw] at hproduct

/-- Two operands that overflow the column sums. -/
theorem multiply_loses {k : ℕ} (hx : x.toNat = repeated 0xff01 (2 * k + 2))
    (hy : y.toNat = repeated 0xff01 (2 * k + 2)) (hk : k < n) (hbig : 16512 ≤ k) :
    (x.multiply y).toNat + 2 ^ (32 * k + 48) ≤ x.toNat * y.toNat := by
  have hlarge : 1 < repeated 0xff01 (2 * k + 2) := one_lt_repeated
  cases x with
  | empty => cases hk
  | one w => omega
  | two w => omega
  | @many l w hw =>
    cases y with
    | many v hv =>
      simp only [multiply, Bool.or_eq_true, isEqual_reset_iff, isEqual_one_iff (Nat.succ_pos _)]
      rw [if_neg (by omega), if_neg (by omega), if_neg (by omega)]
      exact multiplyWords_loses (hw.trans hv.symm) hx hy (by omega) hbig

/-! ### Quotients -/

theorem toNat_divide (hy : y.toNat ≠ 0) :
    ∃ q, x.divide y = .ok q ∧ q.toNat = x.toNat / y.toNat := by
  cases x with
  | empty => cases y; exact absurd rfl hy
  | one w =>
    cases y with
    | one v =>
      have hv : v ≠ 0 := fun hzero => hy (congrArg BitVec.toNat hzero)
      exact ⟨one (w / v), if_neg hv, BitVec.toNat_udiv⟩
  | two w =>
    cases y with
    | two v =>
      have hv : v ≠ 0 := fun hzero => hy (congrArg BitVec.toNat hzero)
      exact ⟨two (w / v), if_neg hv, BitVec.toNat_udiv⟩
  | @many k w hw =>
    cases y with
    | many v hv =>
      simp only [divide, isEqual_reset_iff, isEqual_one_iff (Nat.succ_pos _)]
      rw [if_neg hy]
      split
      case isTrue hzero => exact ⟨_, rfl, by rw [hzero, Nat.zero_div, toNat_reset]⟩
      case isFalse =>
        split
        case isTrue hone => exact ⟨_, rfl, by rw [hone, Nat.div_one]⟩
        case isFalse =>
          exact ⟨_, rfl, limbs_divideWords (hw.trans hv.symm) (by omega) hy⟩

end IntbvBase

namespace Intbv

variable {nb : ℕ} {x y : Intbv nb} {v w : BitVec nb}

/-! ### Products and quotients of vectors -/

/-- The product of two vectors is right modulo `2 ^ nb`. -/
def Multiplies (x y : Intbv nb) : Prop := (x.multiply y).toBitVec = x.toBitVec * y.toBitVec

theorem toNat_toBitVec : x.toBitVec.toNat = x.base.toNat % 2 ^ nb := by
  rw [toBitVec, BitVec.toNat_setWidth, IntbvBase.toNat_toBitVec]

theorem multiply_clean : (x.multiply y).Clean := sanitize_clean

theorem toBitVec_sanitize : x.sanitize.toBitVec = x.toBitVec := holds_sanitize.toBitVec_eq

theorem multiplies_of_base (h : x.base.Multiplies y.base) : x.Multiplies y := by
  apply BitVec.eq_of_toNat_eq
  have hdvd : 2 ^ nb ∣ 2 ^ (32 * words nb) := Nat.pow_dvd_pow 2 (le_bits nb)
  rw [multiply, toBitVec_sanitize, toNat_toBitVec, BitVec.toNat_mul, toNat_toBitVec,
    toNat_toBitVec, ← Nat.mul_mod]
  dsimp only
  rw [h, Nat.mod_mod_of_dvd _ hdvd]

/-- Products that fit a width of up to 32768 words. -/
theorem multiplies_of_lt (h : words nb ≤ 32768) (hlt : x.base.toNat * y.base.toNat < 2 ^ nb) :
    x.Multiplies y := by
  refine multiplies_of_base (IntbvBase.multiplies_of_short (m := words nb) ?_ h)
  by_contra hlong
  rw [not_or, not_lt, not_lt] at hlong
  have hle : 2 ^ nb ≤ x.base.toNat * y.base.toNat := by
    calc 2 ^ nb ≤ 2 ^ (32 * words nb) := Nat.pow_le_pow_right (by decide) (le_bits nb)
      _ = (2 ^ 16) ^ words nb * (2 ^ 16) ^ words nb := by
          rw [← Nat.mul_pow, Nat.pow_mul]
          rfl
      _ ≤ x.base.toNat * y.base.toNat := Nat.mul_le_mul hlong.1 hlong.2
  exact absurd hlt (Nat.not_lt.mpr hle)

theorem divide_eq (hx : x.Holds v) (hy : y.Holds w) (hw : w ≠ 0) :
    ∃ q, x.divide y = .ok q ∧ q.Holds (v / w) := by
  have hne : y.base.toNat ≠ 0 := by
    rw [hy.toNat_eq]
    exact fun hzero => hw (BitVec.eq_of_toNat_eq hzero)
  obtain ⟨q, hq, hvalue⟩ := IntbvBase.toNat_divide (x := x.base) hne
  refine ⟨sanitize ⟨q⟩, by rw [divide, hq]; rfl, holds_sanitize_mk ?_⟩
  apply BitVec.eq_of_toNat_eq
  have hlt := Nat.lt_of_le_of_lt (Nat.div_le_self v.toNat w.toNat) v.isLt
  rw [BitVec.toNat_setWidth, IntbvBase.toNat_toBitVec, hvalue, hx.toNat_eq, hy.toNat_eq,
    BitVec.toNat_udiv, Nat.mod_eq_of_lt hlt]

/-! ### Remainders -/

theorem modulo_eq {q : Intbv nb} (hx : x.Clean) (hq : x.divide y = .ok q) :
    ∃ r, x.modulo y = .ok r ∧ r.Holds (x.toBitVec - (q.multiply y).toBitVec) := by
  refine ⟨sanitize (x.subtract (q.multiply y)), by rw [modulo, hq]; rfl, ?_⟩
  exact (holds_subtract hx.holds multiply_clean.holds).sanitize

theorem sub_div_mul : v - v / w * w = v % w := by
  apply BitVec.eq_of_toNat_eq
  have hle : v.toNat / w.toNat * w.toNat ≤ v.toNat := Nat.div_mul_le_self ..
  have hmul : (v / w * w).toNat = v.toNat / w.toNat * w.toNat := by
    rw [BitVec.toNat_mul, BitVec.toNat_udiv, Nat.mod_eq_of_lt (hle.trans_lt v.isLt)]
  rw [BitVec.toNat_sub_of_le (by rw [BitVec.le_def, hmul]; exact hle), hmul, BitVec.toNat_umod]
  exact Nat.sub_eq_of_eq_add (Nat.mod_add_div' ..).symm

/-- Quotient and remainder are there, and they make up the dividend. -/
def DivisionLaw (x y : Intbv nb) : Prop :=
  ∃ q r, x.divide y = .ok q ∧ x.modulo y = .ok r ∧ q.Clean ∧ r.Clean ∧
    x.toBitVec.toNat = q.toBitVec.toNat * y.toBitVec.toNat + r.toBitVec.toNat ∧
    r.toBitVec.toNat < y.toBitVec.toNat

theorem toNat_ne_zero (h : w ≠ 0) : w.toNat ≠ 0 := fun hzero => h (BitVec.eq_of_toNat_eq hzero)

theorem divisionLaw_iff {q : Intbv nb} (hx : x.Clean) (hy : y.Clean) (hne : y.toBitVec ≠ 0)
    (hq : x.divide y = .ok q) : x.DivisionLaw y ↔ q.Multiplies y := by
  obtain ⟨q', hq', hquotient⟩ := divide_eq hx.holds hy.holds hne
  obtain rfl : q' = q := Except.ok.inj (hq'.symm.trans hq)
  obtain ⟨r, hr, hremainder⟩ := modulo_eq hx hq
  constructor
  · rintro ⟨q'', r', hq'', hr', -, -, hsum, -⟩
    obtain rfl : q'' = q' := Except.ok.inj (hq''.symm.trans hq)
    obtain rfl : r' = r := Except.ok.inj (hr'.symm.trans hr)
    have hbits : x.toBitVec = q''.toBitVec * y.toBitVec + r'.toBitVec := by
      apply BitVec.eq_of_toNat_eq
      rw [BitVec.toNat_add, BitVec.toNat_mul, Nat.mod_add_mod, ← hsum,
        Nat.mod_eq_of_lt x.toBitVec.isLt]
    rw [hremainder.toBitVec_eq] at hbits
    rw [Multiplies]
    generalize (q''.multiply y).toBitVec = p at hbits ⊢
    grind
  · intro hproduct
    rw [hproduct, hquotient.toBitVec_eq, sub_div_mul] at hremainder
    refine ⟨q', r, hq, hr, hquotient.clean, hremainder.clean, ?_, ?_⟩
    · rw [hquotient.toBitVec_eq, hremainder.toBitVec_eq, BitVec.toNat_udiv, BitVec.toNat_umod]
      exact (Nat.div_add_mod' ..).symm
    · rw [hremainder.toBitVec_eq, BitVec.toNat_umod]
      exact Nat.mod_lt _ (Nat.pos_of_ne_zero (toNat_ne_zero hne))

theorem divisionLaw_of_words (h : words nb ≤ 32768) (hx : x.Clean) (hy : y.Clean)
    (hne : y.toBitVec ≠ 0) : x.DivisionLaw y := by
  obtain ⟨q, hq, hquotient⟩ := divide_eq hx.holds hy.holds hne
  refine (divisionLaw_iff hx hy hne hq).mpr (multiplies_of_lt h ?_)
  rw [hquotient.toNat_eq, hy.holds.toNat_eq, BitVec.toNat_udiv]
  exact (Nat.div_mul_le_self ..).trans_lt x.toBitVec.isLt

theorem exists_holds (v : BitVec nb) : ∃ x : Intbv nb, x.Holds v := by
  have hlt : v.toNat < 2 ^ (32 * words nb) :=
    v.isLt.trans_le (Nat.pow_le_pow_right (by decide) (le_bits nb))
  obtain ⟨b, hb⟩ := IntbvBase.exists_toNat hlt
  exact ⟨⟨b⟩, holds_of_toNat hb⟩

/-- The square of a number of equal half-words fits a width of twice the size. -/
theorem repeated_mul_self_lt {k : ℕ} (hk : 2 * k + 2 ≤ words nb) (hnb : 32 * words nb = nb) :
    repeated 0xff01 (2 * k + 2) * repeated 0xff01 (2 * k + 2) < 2 ^ nb := by
  have hlt : repeated 0xff01 (2 * k + 2) < (2 ^ 16) ^ (2 * k + 2) := repeated_lt (by decide)
  calc repeated 0xff01 (2 * k + 2) * repeated 0xff01 (2 * k + 2)
      < (2 ^ 16) ^ (2 * k + 2) * (2 ^ 16) ^ (2 * k + 2) := Nat.mul_self_lt_mul_self hlt
    _ = 2 ^ (32 * (2 * k + 2)) := by
        rw [← Nat.mul_pow, Nat.pow_mul]
        rfl
    _ ≤ 2 ^ nb := Nat.pow_le_pow_right (by decide) (by omega)

theorem not_divisionLaw {k : ℕ} (hk : 2 * k + 2 ≤ words nb) (hnb : 32 * words nb = nb)
    (hbig : 16512 ≤ k) :
    ∃ x y : Intbv nb, x.Clean ∧ y.Clean ∧ y.toBitVec ≠ 0 ∧ ¬ x.DivisionLaw y := by
  obtain ⟨d, hd⟩ : ∃ d, d = repeated 0xff01 (2 * k + 2) := ⟨_, rfl⟩
  have hone : 1 < d := hd ▸ one_lt_repeated
  have hsquare : d * d < 2 ^ nb := hd ▸ repeated_mul_self_lt hk hnb
  have hlt : d < 2 ^ nb := (Nat.le_mul_self d).trans_lt hsquare
  obtain ⟨x, hx⟩ := exists_holds (BitVec.ofNatLT (d * d) hsquare)
  obtain ⟨y, hy⟩ := exists_holds (BitVec.ofNatLT d hlt)
  have hne : BitVec.ofNatLT d hlt ≠ 0 := fun hzero => by
    have hnat : d = 0 := by simpa using congrArg BitVec.toNat hzero
    omega
  obtain ⟨q, hq, hquotient⟩ := divide_eq hx hy hne
  have hdivisor : y.base.toNat = d := hy.toNat_eq.trans (BitVec.toNat_ofNatLT ..)
  have hvalue : q.base.toNat = d := by
    rw [hquotient.toNat_eq, BitVec.toNat_udiv, BitVec.toNat_ofNatLT, BitVec.toNat_ofNatLT,
      Nat.mul_div_cancel _ (by omega)]
  refine ⟨x, y, hx.clean, hy.clean, hy.toBitVec_eq.symm ▸ hne, ?_⟩
  rw [divisionLaw_iff hx.clean hy.clean (hy.toBitVec_eq.symm ▸ hne) hq]
  intro hproduct
  -- the product would be the dividend, but the stored one is smaller
  have hloses := IntbvBase.multiply_loses (hvalue.trans hd) (hdivisor.trans hd) (by omega) hbig
  have hnat := congrArg BitVec.toNat hproduct
  rw [multiply, toBitVec_sanitize, toNat_toBitVec, BitVec.toNat_mul, toNat_toBitVec,
    toNat_toBitVec, ← Nat.mul_mod, hvalue, hdivisor, Nat.mod_eq_of_lt hsquare] at hnat
  have hle := Nat.mod_le (q.base.multiply y.base).toNat (2 ^ nb)
  have hpos := Nat.two_pow_pos (32 * k + 48)
  rw [hvalue, hdivisor] at hloses
  dsimp only at hnat
  omega

end Intbv

/-! ### The law -/

/-- Long division is exact for every number of words. The remainder is right in every width in which
the product of quotient and divisor is, and this is every width up to 32768 words. -/
theorem division_exact :
    (∀ x y : WordArray, 0 < x.length → x.length = y.length → limbs y ≠ 0 →
      limbs (divideWords x y) = limbs x / limbs y) ∧
    (∀ (nb : ℕ) (x y : Intbv nb), x.Clean → y.Clean → y.toBitVec ≠ 0 →
      (∃ q, x.divide y = .ok q ∧ q.Holds (x.toBitVec / y.toBitVec) ∧
        (x.DivisionLaw y ↔ q.Multiplies y)) ∧
      (words nb ≤ 32768 → x.DivisionLaw y)) := by
  refine ⟨fun x y hpos h hy => limbs_divideWords h hpos hy, fun nb x y hx hy hne => ⟨?_, ?_⟩⟩
  · obtain ⟨q, hq, hquotient⟩ := Intbv.divide_eq hx.holds hy.holds hne
    exact ⟨q, hq, hquotient, Intbv.divisionLaw_iff hx hy hne hq⟩
  · exact fun h => Intbv.divisionLaw_of_words h hx hy hne

/-- A vector of three words. -/
theorem division_exact_three_words :
    (Intbv.ofUInt32 70 1000).DivisionLaw (Intbv.ofUInt32 70 7) := by
  have hx := @Intbv.holds_ofUInt32 70 1000 (by decide)
  have hy := @Intbv.holds_ofUInt32 70 7 (by decide)
  have hne : (Intbv.ofUInt32 70 7).toBitVec ≠ 0 := by
    rw [hy.toBitVec_eq]
    decide
  exact (division_exact.2 70 _ _ hx.clean hy.clean hne).2 (by decide)

/-- In a vector of 33026 words the remainder can be larger than the divisor. -/
theorem modulo_of_33026_words : ∃ x y : Intbv (32 * 33026), x.Clean ∧ y.Clean ∧ y.toBitVec ≠ 0 ∧
    ¬ x.DivisionLaw y :=
  Intbv.not_divisionLaw (k := 16512) (by decide) (by decide) (by decide)

end Adl.Helpers
