import Adl.Helpers.Division
import Adl.Helpers.FieldLaws

/-!
# Signed division of bit vectors

A signed quotient is taken in whole words: one and two words are divided by the processor, an array
by its absolute values. A signed remainder is the unsigned one of the absolute values, with the sign
of the dividend. The processor has no quotient of the most negative integer and minus one.
-/

namespace Adl.Helpers

open Math (limbs)
open IntbvBase (words Fault)

/-! ### The functions -/

namespace Intbv

variable {nb nb₂ n : ℕ}

/-- The quotient in the whole words of `n` bits. -/
def signedDivideIn (n : ℕ) (x : Intbv nb) (y : Intbv nb₂) : Except Fault (Intbv n) := do
  let tmpX ← asserted (x.signExtendTo (wordAligned n))
  let tmpY ← asserted (y.signExtendTo (wordAligned n))
  let q ← tmpX.divideSignedAligned tmpY
  return copy n q

/-- The quotient of operands of the same size. -/
def signedDivide (x y : Intbv nb) : Except Fault (Intbv nb) := signedDivideIn nb x y

/-- The quotient of operands of different sizes. -/
def signedDivideOther (x : Intbv nb) (y : Intbv nb₂) : Except Fault (Intbv (max nb nb₂)) :=
  signedDivideIn (max nb nb₂) x y

/-- The remainder of operands of the same size. -/
def signedMod (x y : Intbv nb) : Except Fault (Intbv nb) := do
  let neg ← asserted (x.get 0)
  let tmpX := if neg then x.negate else x
  let negY ← asserted (y.get 0)
  let tmpY := if negY then y.negate else y
  let tmpX ← tmpX.modulo tmpY
  return if neg then tmpX.negate else tmpX

/-- The remainder of operands of different sizes. -/
def signedModOther (x : Intbv nb) (y : Intbv nb₂) : Except Fault (Intbv (max nb nb₂)) := do
  let tmpX ← asserted (x.signExtendTo (wordAligned (max nb nb₂)))
  let tmpY ← asserted (y.signExtendTo (wordAligned (max nb nb₂)))
  let r ← tmpX.signedMod tmpY
  return copy (max nb nb₂) r

end Intbv

/-! ### Quotients of whole words -/

namespace IntbvBase

variable {n : ℕ} {x y : IntbvBase n}

theorem toBitVec_one {w : BitVec 32} : (one w).toBitVec = w :=
  BitVec.eq_of_toNat_eq toNat_toBitVec

theorem toBitVec_two {w : BitVec 64} : (two w).toBitVec = w :=
  BitVec.eq_of_toNat_eq toNat_toBitVec

theorem toNat_first_word {w : WordArray} (h : w.length = n + 3) :
    (w.getD 0 0).toNat = limbs w / 2 ^ (32 * (n + 2)) := by
  have hlt : limbs w / 2 ^ (32 * (n + 2)) < 2 ^ 32 := by
    rw [Nat.div_lt_iff_lt_mul (Nat.two_pow_pos _), ← Nat.pow_add]
    exact lt_of_lt_of_eq Math.limbs_lt (by rw [h]; congr 1; omega)
  rw [← Nat.mod_eq_of_lt hlt, ← Math.toNat_getD (by omega), h,
    show n + 3 - 1 - (n + 2) = 0 by omega]

theorem msb_first_word {w : WordArray} (h : w.length = n + 3) :
    (w.getD 0 0).msb = (many w h).toBitVec.msb := by
  rw [BitVec.msb_eq_decide, BitVec.msb_eq_decide, toNat_toBitVec, toNat_first_word h,
    decide_eq_decide, Nat.le_div_iff_mul_le (Nat.two_pow_pos _), ← Nat.pow_add]
  exact iff_of_eq (congrArg (2 ^ · ≤ _) (by omega))

theorem toBitVec_divide (hy : y.toBitVec ≠ 0) :
    ∃ q, x.divide y = .ok q ∧ q.toBitVec = x.toBitVec / y.toBitVec := by
  have hne : y.toNat ≠ 0 := by
    rw [← toNat_toBitVec]
    exact Intbv.toNat_ne_zero hy
  obtain ⟨q, hq, hvalue⟩ := toNat_divide hne
  refine ⟨q, hq, BitVec.eq_of_toNat_eq ?_⟩
  rw [BitVec.toNat_udiv, toNat_toBitVec, toNat_toBitVec, toNat_toBitVec, hvalue]

/-- The processor has no quotient of the most negative integer and minus one. -/
def Overflows (x y : IntbvBase n) : Prop :=
  n ≤ 2 ∧ x.toBitVec = BitVec.intMin _ ∧ y.toBitVec = -1

theorem nativeDivide_eq {W : ℕ} {w v : BitVec W} (h : ¬ (w = BitVec.intMin W ∧ v = -1)) :
    nativeDivide w v = .ok (w.sdiv v) := if_neg h

theorem divideSigned_of_overflows (hn : 0 < n) (h : Overflows x y) :
    x.divideSigned y = .error .overflow := by
  obtain ⟨hn', hx, hy⟩ := h
  cases x with
  | empty => cases hn
  | one w =>
    cases y with
    | one v =>
      rw [toBitVec_one] at hx hy
      subst hx hy
      rfl
  | two w =>
    cases y with
    | two v =>
      rw [toBitVec_two] at hx hy
      subst hx hy
      rfl
  | many w hw => omega

theorem sdiv_eq_abs {W : ℕ} {v w : BitVec W} :
    v.sdiv w = if w.msb != v.msb then -(v.abs / w.abs) else v.abs / w.abs := by
  rw [BitVec.sdiv_eq, BitVec.abs_eq, BitVec.abs_eq]
  cases v.msb <;> cases w.msb <;> rfl

theorem abs_ne_zero {W : ℕ} {w : BitVec W} (h : w ≠ 0) : w.abs ≠ 0 := by
  rw [BitVec.abs_eq]
  split
  · exact fun hzero => h (BitVec.neg_eq_zero_iff.mp hzero)
  · exact h

theorem divideSigned_of_not_overflows (hy : y.toBitVec ≠ 0) (h : ¬ Overflows x y) :
    ∃ q, x.divideSigned y = .ok q ∧ q.toBitVec = x.toBitVec.sdiv y.toBitVec := by
  cases x with
  | empty => cases y; exact absurd rfl hy
  | one w =>
    cases y with
    | one v =>
      rw [Overflows, toBitVec_one, toBitVec_one] at h
      rw [toBitVec_one] at hy
      refine ⟨one (w.sdiv v), ?_, by rw [toBitVec_one, toBitVec_one, toBitVec_one]⟩
      rw [divideSigned, if_neg hy, nativeDivide_eq fun hmin => h ⟨by decide, hmin⟩]
      rfl
  | two w =>
    cases y with
    | two v =>
      rw [Overflows, toBitVec_two, toBitVec_two] at h
      rw [toBitVec_two] at hy
      refine ⟨two (w.sdiv v), ?_, by rw [toBitVec_two, toBitVec_two, toBitVec_two]⟩
      rw [divideSigned, if_neg hy, nativeDivide_eq fun hmin => h ⟨by decide, hmin⟩]
      rfl
  | @many k w hw =>
    cases y with
    | many v hv =>
      have habs {z : IntbvBase (k + 3)} :
          (if z.toBitVec.msb then z.negate else z).toBitVec = z.toBitVec.abs := by
        rw [BitVec.abs_eq, ← toBitVec_negate, apply_ite toBitVec]
      obtain ⟨q, hq, hvalue⟩ := toBitVec_divide
        (x := if (many w hw).toBitVec.msb then (many w hw).negate else many w hw)
        (y := if (many v hv).toBitVec.msb then (many v hv).negate else many v hv)
        (by rw [habs]; exact abs_ne_zero hy)
      rw [habs, habs] at hvalue
      simp only [divideSigned, msb_first_word hw, msb_first_word hv]
      refine ⟨_, by rw [hq]; rfl, ?_⟩
      rw [sdiv_eq_abs, ← hvalue, ← toBitVec_negate, apply_ite toBitVec]

end IntbvBase

/-! ### Extended signs -/

namespace Intbv

variable {nb nb₂ n : ℕ} {x y r : Intbv nb} {z : Intbv nb₂} {v w : BitVec nb} {u : BitVec nb₂}

theorem holds_of_clean (hclean : x.Clean)
    (h : ∀ i, i < nb → x.base.toBitVec.getLsbD i = v.getLsbD i) : x.Holds v := by
  intro i
  by_cases hi : i < nb
  · exact h i hi
  · rw [hclean i (by omega), BitVec.getLsbD_of_ge v i (by omega)]

theorem get_eq {i : ℕ} (hi : i < nb) (hx : x.Holds v) :
    x.get i = some (v.getLsbD (nb - 1 - i)) := by
  rw [get, if_pos hi, IntbvBase.uncheckedTest_eq rfl hi, hx]

theorem get_zero (hnb : 0 < nb) (hx : x.Holds v) : x.get 0 = some v.msb := by
  rw [get_eq hnb hx, BitVec.msb_eq_getLsbD_last, Nat.sub_zero]

theorem exists_signExtend {bit : ℕ} (hbit : bit < nb) (hx : x.Holds v) :
    ∃ r, x.signExtend bit = some r := by
  rw [signExtend, get_eq hbit hx, Option.bind_eq_bind, Option.bind_some]
  split
  · exact ⟨x, rfl⟩
  · split
    · exact exists_setField (Nat.zero_le _) hbit
    · exact exists_setField (Nat.zero_le _) hbit

theorem getLsbD_signExtend_setWidth {v : BitVec nb₂} {i : ℕ} (hi : i < nb) (hle : nb₂ ≤ i + 1) :
    (v.signExtend nb).getLsbD i = v.msb := by
  rw [BitVec.getLsbD_signExtend, decide_eq_true hi, Bool.true_and]
  split
  · rw [BitVec.msb_eq_getLsbD_last, show i = nb₂ - 1 by omega]
  · rfl

theorem holds_signExtendTo (hnb : 0 < nb) (hle : nb ≤ nb₂) (hx : x.Holds v) :
    ∃ r, x.signExtendTo nb₂ = some r ∧ r.Holds (v.signExtend nb₂) := by
  have hcopy := @holds_copy nb₂ _ _ _ (by omega) hnb hx
  rw [signExtendTo]
  rcases Nat.lt_or_eq_of_le hle with hlt | rfl
  · rw [if_pos hlt, get_zero hnb hx, Option.bind_eq_bind, Option.bind_some]
    cases hmsb : v.msb with
    | true =>
      obtain ⟨r, hr⟩ := exists_setField (x := copy nb₂ x) (y := ones nb₂)
        (Nat.zero_le (nb₂ - nb)) (by omega)
      refine ⟨r, hr, holds_of_clean (hcopy.clean.setField (by omega) hr) fun i hi => ?_⟩
      rw [getLsbD_setField_zero (b := true) (by omega) (fun j hj => by
        rw [holds_ones, BitVec.getLsbD_allOnes, decide_eq_true hj]) hr hi]
      split
      case isTrue hhigh => rw [getLsbD_signExtend_setWidth hi (by omega), hmsb]
      case isFalse hlow =>
        rw [hcopy, BitVec.getLsbD_setWidth, BitVec.getLsbD_signExtend, if_pos (by omega)]
    | false =>
      rw [BitVec.signExtend_eq_setWidth_of_msb_false hmsb]
      exact ⟨_, rfl, hcopy⟩
  · rw [if_neg (Nat.lt_irrefl _)]
    rw [BitVec.setWidth_eq] at hcopy
    exact ⟨_, rfl, by rwa [BitVec.signExtend_eq]⟩

/-- The sign that is extended in place. -/
theorem holds_extendFrom (hnb : 0 < nb) (hle : nb ≤ nb₂) (hx : x.Holds v) :
    ∃ r, extendFrom nb (copy nb₂ x) = some r ∧ r.Holds (v.signExtend nb₂) := by
  have hcopy := @holds_copy nb₂ _ _ _ (by omega) hnb hx
  rw [extendFrom]
  rcases Nat.lt_or_eq_of_le hle with hlt | rfl
  · rw [if_pos hlt]
    obtain ⟨r, hr⟩ := @exists_signExtend _ _ _ (nb₂ - nb) (by omega) hcopy
    refine ⟨r, hr, holds_of_clean (hcopy.clean.signExtend (by omega) hr) fun i hi => ?_⟩
    rw [getLsbD_signExtend hr (by omega) hi]
    split
    case isTrue hhigh =>
      rw [getLsbD_signExtend_setWidth hi (by omega), hcopy, BitVec.getLsbD_setWidth,
        decide_eq_true (by omega), Bool.true_and, BitVec.msb_eq_getLsbD_last,
        show nb₂ - 1 - (nb₂ - nb) = nb - 1 by omega]
    case isFalse hlow =>
      rw [hcopy, BitVec.getLsbD_setWidth, BitVec.getLsbD_signExtend, if_pos (by omega)]
  · rw [if_neg (Nat.lt_irrefl _)]
    rw [BitVec.setWidth_eq] at hcopy
    exact ⟨_, rfl, by rwa [BitVec.signExtend_eq]⟩

/-! ### Quotients -/

/-- The words of `n` bits are divided by the processor, which has no result. -/
def Overflows (n : ℕ) (v w : ℤ) : Prop := words n ≤ 2 ∧ v = -2 ^ (32 * words n - 1) ∧ w = -1

/-- The quotient of two integers in `n` bits, divided in the whole words of `m` bits. -/
def IsQuotient (m : ℕ) (v w : ℤ) (r : Except Fault (Intbv n)) : Prop :=
  (Overflows m v w → r = .error .overflow) ∧
  (¬ Overflows m v w → ∃ q, r = .ok q ∧ q.Holds (BitVec.ofInt n (v.tdiv w)))

theorem IsQuotient.eq {m : ℕ} {v w : ℤ} {r r' : Except Fault (Intbv n)} (h : IsQuotient m v w r)
    (h' : IsQuotient m v w r') : r = r' := by
  by_cases hover : Overflows m v w
  · rw [h.1 hover, h'.1 hover]
  · obtain ⟨q, rfl, hq⟩ := h.2 hover
    obtain ⟨q', rfl, hq'⟩ := h'.2 hover
    rw [hq.eq hq']

theorem setWidth_ofInt {m : ℕ} {z : ℤ} (h : n ≤ m) :
    (BitVec.ofInt m z).setWidth n = BitVec.ofInt n z := by
  apply BitVec.eq_of_toNat_eq
  have hdvd : ((2 ^ n : ℕ) : ℤ) ∣ ((2 ^ m : ℕ) : ℤ) :=
    Int.natCast_dvd_natCast.mpr (Nat.pow_dvd_pow 2 h)
  have hpos {k : ℕ} : ((2 ^ k : ℕ) : ℤ) ≠ 0 := Int.natCast_ne_zero.mpr (Nat.two_pow_pos k).ne'
  rw [BitVec.toNat_setWidth, BitVec.toNat_ofInt, BitVec.toNat_ofInt, ← Int.natCast_inj,
    Int.natCast_mod, Int.toNat_of_nonneg (Int.emod_nonneg _ hpos),
    Int.toNat_of_nonneg (Int.emod_nonneg _ hpos), Int.emod_emod_of_dvd _ hdvd]

theorem IsQuotient.copy {m : ℕ} {v w : ℤ} {r : Except Fault (Intbv nb)} (h : IsQuotient m v w r)
    (hn : 0 < n) (hle : n ≤ nb) : IsQuotient m v w (r.map (Intbv.copy n)) := by
  refine ⟨fun hover => by rw [h.1 hover]; rfl, fun hover => ?_⟩
  obtain ⟨q, rfl, hq⟩ := h.2 hover
  have hcopy := holds_copy hn (by omega) hq
  rw [setWidth_ofInt hle] at hcopy
  exact ⟨_, rfl, hcopy⟩

theorem toInt_base (hnb : 32 * words nb = nb) (hx : x.Holds v) :
    x.base.toBitVec.toInt = v.toInt := by
  rw [BitVec.toInt_eq_toNat_bmod, BitVec.toInt_eq_toNat_bmod, IntbvBase.toNat_toBitVec,
    hx.toNat_eq, hnb]

theorem toInt_neg_one {W : ℕ} (h : 0 < W) : (-1 : BitVec W).toInt = -1 := by
  have hones : (-1 : BitVec W) = BitVec.allOnes W := BitVec.neg_one_eq_allOnes
  rw [hones, BitVec.toInt_allOnes, if_pos h]

theorem overflows_iff (hpos : 0 < nb) (hnb : 32 * words nb = nb) (hx : x.Holds v)
    (hy : y.Holds w) : x.base.Overflows y.base ↔ Overflows nb v.toInt w.toInt := by
  rw [IntbvBase.Overflows, Overflows, ← BitVec.toInt_inj, ← BitVec.toInt_inj, toInt_base hnb hx,
    toInt_base hnb hy, BitVec.toInt_intMin_of_pos (by omega), toInt_neg_one (by omega)]

theorem sdiv_eq_ofInt : v.sdiv w = BitVec.ofInt nb (v.toInt.tdiv w.toInt) := by
  apply BitVec.eq_of_toInt_eq
  rw [BitVec.toInt_sdiv, BitVec.toInt_ofInt]

theorem isQuotient_divideSignedAligned (hpos : 0 < nb) (hnb : 32 * words nb = nb)
    (hx : x.Holds v) (hy : y.Holds w) (hw : w ≠ 0) :
    IsQuotient nb v.toInt w.toInt (x.divideSignedAligned y) := by
  rw [IsQuotient, ← overflows_iff hpos hnb hx hy, divideSignedAligned]
  constructor
  · intro hover
    rw [IntbvBase.divideSigned_of_overflows (words_pos hpos) hover]
    rfl
  · intro hover
    have hne : y.base.toBitVec ≠ 0 := by
      intro hzero
      apply hw
      rw [← hy.toBitVec_eq, toBitVec, hzero]
      exact BitVec.setWidth_zero ..
    obtain ⟨q, hq, hvalue⟩ := IntbvBase.divideSigned_of_not_overflows hne hover
    refine ⟨sanitize ⟨q⟩, by rw [hq]; rfl, holds_sanitize_mk ?_⟩
    rw [hvalue, sdiv_eq_ofInt, setWidth_ofInt hnb.ge, toInt_base hnb hx, toInt_base hnb hy]

theorem words_wordAligned : words (wordAligned n) = words n := by
  rw [wordAligned, words]
  omega

theorem bits_wordAligned : 32 * words (wordAligned n) = wordAligned n := by
  rw [words_wordAligned, wordAligned]

theorem toInt_ne_zero {W : ℕ} {u : BitVec W} (h : u ≠ 0) : u.toInt ≠ 0 := fun hzero =>
  h (BitVec.eq_of_toInt_eq (hzero.trans BitVec.toInt_zero.symm))

theorem signExtend_ne_zero (hle : nb₂ ≤ n) (hu : u ≠ 0) : u.signExtend n ≠ 0 := by
  intro hzero
  apply toInt_ne_zero hu
  rw [← BitVec.toInt_signExtend_of_le hle, hzero]
  exact BitVec.toInt_zero

theorem isQuotient_signedDivideIn (hnb : 0 < nb) (hnb₂ : 0 < nb₂) (hle : nb ≤ n) (hle₂ : nb₂ ≤ n)
    (hx : x.Holds v) (hz : z.Holds u) (hu : u ≠ 0) :
    IsQuotient n v.toInt u.toInt (signedDivideIn n x z) := by
  have hbits : n ≤ wordAligned n := le_bits n
  obtain ⟨x', hx', hvalue⟩ := holds_signExtendTo hnb (hle.trans hbits) hx
  obtain ⟨z', hz', hvalue'⟩ := holds_signExtendTo hnb₂ (hle₂.trans hbits) hz
  have hquotient := isQuotient_divideSignedAligned (by omega) bits_wordAligned hvalue hvalue'
    (signExtend_ne_zero (hle₂.trans hbits) hu)
  rw [BitVec.toInt_signExtend_of_le (hle.trans hbits),
    BitVec.toInt_signExtend_of_le (hle₂.trans hbits)] at hquotient
  have hcopy := hquotient.copy (n := n) (by omega) hbits
  rw [IsQuotient, Overflows, words_wordAligned] at hcopy
  have heq : signedDivideIn n x z = (x'.divideSignedAligned z').map (Intbv.copy n) := by
    rw [signedDivideIn, hx', hz']
    rfl
  rw [heq]
  exact hcopy

/-! ### Remainders -/

/-- The low `n` bits of the unsigned remainder that is taken in `m` bits are right. -/
def ModuloExact (m n a b : ℕ) : Prop :=
  ∀ x y : Intbv m, x.Holds (BitVec.ofNat m a) → y.Holds (BitVec.ofNat m b) →
    ∃ r, x.modulo y = .ok r ∧ r.toBitVec.setWidth n = BitVec.ofNat n (a % b)

theorem moduloExact_of_words {m a b : ℕ} (hm : words m ≤ 32768) (ha : a < 2 ^ m) (hb : b < 2 ^ m)
    (hpos : 0 < b) : ModuloExact m n a b := by
  intro x y hx hy
  have hne : y.toBitVec ≠ 0 := by
    intro hzero
    have hnat := congrArg BitVec.toNat hzero
    rw [hy.toBitVec_eq, BitVec.toNat_ofNat, Nat.mod_eq_of_lt hb] at hnat
    exact hpos.ne' (hnat.trans (Nat.zero_mod _))
  obtain ⟨q, r, hq, hr, -, -, hsum, hlt⟩ := divisionLaw_of_words hm hx.clean hy.clean hne
  refine ⟨r, hr, BitVec.eq_of_toNat_eq ?_⟩
  rw [hx.toBitVec_eq, hy.toBitVec_eq, BitVec.toNat_ofNat, BitVec.toNat_ofNat,
    Nat.mod_eq_of_lt ha, Nat.mod_eq_of_lt hb] at hsum
  rw [hy.toBitVec_eq, BitVec.toNat_ofNat, Nat.mod_eq_of_lt hb] at hlt
  rw [BitVec.toNat_setWidth, BitVec.toNat_ofNat, hsum, Nat.mul_add_mod_self_right,
    Nat.mod_eq_of_lt hlt]

theorem toNat_abs_eq : v.abs.toNat = v.toInt.natAbs := by
  have hlt := v.isLt
  rw [BitVec.toNat_abs, BitVec.toInt_eq_msb_cond]
  split <;> omega

theorem abs_eq_ofNat : v.abs = BitVec.ofNat nb v.toInt.natAbs := by
  rw [← toNat_abs_eq, BitVec.ofNat_toNat, BitVec.setWidth_eq]

theorem srem_eq_abs : v.srem w = if v.msb then -(v.abs % w.abs) else v.abs % w.abs := by
  rw [BitVec.srem_eq, BitVec.abs_eq, BitVec.abs_eq]
  cases v.msb <;> cases w.msb <;> rfl

theorem srem_eq_ofInt : v.srem w = BitVec.ofInt nb (v.toInt.tmod w.toInt) := by
  rw [← BitVec.toInt_srem, BitVec.ofInt_toInt]

theorem holds_absolute (hx : x.Holds v) : (if v.msb then x.negate else x).Holds v.abs := by
  rw [BitVec.abs_eq]
  split
  · exact holds_negate hx
  · exact hx

theorem setWidth_neg_inj {m : ℕ} {a b : BitVec m} (h : n ≤ m) :
    (-a).setWidth n = (-b).setWidth n ↔ a.setWidth n = b.setWidth n := by
  rw [BitVec.setWidth_neg_of_le h, BitVec.setWidth_neg_of_le h, BitVec.neg_inj]

/-- The signed remainder is right in the bits in which the unsigned one is. -/
theorem signedMod_eq_iff (hnb : 0 < nb) (hx : x.Holds v) (hy : y.Holds w) (hw : w ≠ 0) :
    ∃ r, x.signedMod y = .ok r ∧ r.Clean ∧ ∀ n, n ≤ nb →
      (r.toBitVec.setWidth n = (v.srem w).setWidth n ↔
        ModuloExact nb n v.toInt.natAbs w.toInt.natAbs) := by
  have hx' := holds_absolute hx
  have hy' := holds_absolute hy
  obtain ⟨q, hq, -⟩ := divide_eq hx' hy' (IntbvBase.abs_ne_zero hw)
  obtain ⟨r, hr, hvalue⟩ := modulo_eq hx'.clean hq
  refine ⟨if v.msb then r.negate else r, ?_, ?_, fun n hn => ?_⟩
  · rw [signedMod, get_zero hnb hx, get_zero hnb hy]
    change (do
      let tmpX ← Intbv.modulo (if v.msb then x.negate else x) (if w.msb then y.negate else y)
      return if v.msb then tmpX.negate else tmpX) = _
    rw [hr]
    rfl
  · split
    · exact (holds_negate hvalue).clean
    · exact hvalue.clean
  · have hsign : (if v.msb then r.negate else r).toBitVec.setWidth n = (v.srem w).setWidth n ↔
        r.toBitVec.setWidth n = (v.abs % w.abs).setWidth n := by
      rw [srem_eq_abs]
      split
      · rw [(holds_negate hvalue.clean.holds).toBitVec_eq, setWidth_neg_inj hn]
      · exact Iff.rfl
    have hvalue : (v.abs % w.abs).setWidth n =
        BitVec.ofNat n (v.toInt.natAbs % w.toInt.natAbs) := by
      apply BitVec.eq_of_toNat_eq
      rw [BitVec.toNat_setWidth, BitVec.toNat_umod, BitVec.toNat_ofNat, toNat_abs_eq, toNat_abs_eq]
    rw [abs_eq_ofNat] at hx' hy'
    rw [hsign, hvalue]
    -- clean vectors are determined by their values
    constructor
    · intro h x'' y'' hx'' hy''
      obtain rfl := hx'.eq hx''
      obtain rfl := hy'.eq hy''
      exact ⟨r, hr, h⟩
    · intro h
      obtain ⟨r', hr', h⟩ := h _ _ hx' hy'
      obtain rfl : r' = r := Except.ok.inj (hr'.symm.trans hr)
      exact h

/-- The remainder of different sizes is cut from the one of whole words. -/
theorem signedModOther_eq_iff (hnb : 0 < nb) (hnb₂ : 0 < nb₂) (hx : x.Holds v) (hz : z.Holds u)
    (hu : u ≠ 0) :
    ∃ r, x.signedModOther z = .ok r ∧ r.Clean ∧
      (r.toBitVec = BitVec.ofInt (max nb nb₂) (v.toInt.tmod u.toInt) ↔
        ModuloExact (wordAligned (max nb nb₂)) (max nb nb₂) v.toInt.natAbs u.toInt.natAbs) := by
  have hbits : max nb nb₂ ≤ wordAligned (max nb nb₂) := le_bits _
  have hleft : nb ≤ wordAligned (max nb nb₂) := (Nat.le_max_left ..).trans hbits
  have hright : nb₂ ≤ wordAligned (max nb nb₂) := (Nat.le_max_right ..).trans hbits
  obtain ⟨x', hx', hvalue⟩ := holds_signExtendTo hnb hleft hx
  obtain ⟨z', hz', hvalue'⟩ := holds_signExtendTo hnb₂ hright hz
  obtain ⟨r, hr, hclean, hiff⟩ := signedMod_eq_iff (hnb.trans_le hleft) hvalue hvalue'
    (signExtend_ne_zero hright hu)
  have hcopy := @holds_copy (max nb nb₂) _ _ _ (by omega) (hnb.trans_le hleft) hclean.holds
  refine ⟨copy _ r, ?_, hcopy.clean, ?_⟩
  · rw [signedModOther, hx', hz']
    change (x'.signedMod z').map (copy (max nb nb₂)) = _
    rw [hr]
    rfl
  · have hcut := hiff _ hbits
    rw [srem_eq_ofInt, setWidth_ofInt hbits, BitVec.toInt_signExtend_of_le hleft,
      BitVec.toInt_signExtend_of_le hright] at hcut
    rw [hcopy.toBitVec_eq, hcut]

/-! ### The law -/

/-- There are a quotient that is truncated and a remainder with the sign of the dividend, and they
make up the dividend. -/
def SignedDivisionLaw (v w : ℤ) (quotient remainder : Except Fault (Intbv n)) : Prop :=
  ∃ q r, quotient = .ok q ∧ remainder = .ok r ∧ q.Clean ∧ r.Clean ∧
    q.toBitVec = BitVec.ofInt n (v.tdiv w) ∧ r.toBitVec.toInt = v.tmod w ∧
    BitVec.ofInt n v = q.toBitVec * BitVec.ofInt n w + r.toBitVec ∧
    r.toBitVec.toInt.natAbs < w.natAbs

theorem natAbs_tmod_lt {v w : ℤ} (hw : w ≠ 0) : (v.tmod w).natAbs < w.natAbs := by
  rw [Int.natAbs_tmod]
  exact Nat.mod_lt _ (Int.natAbs_pos.mpr hw)

/-- A remainder is in the range of a divisor. -/
theorem toInt_ofInt_tmod {v w : ℤ} (hn : 0 < n) (hw : w ≠ 0) (hle : w.natAbs ≤ 2 ^ (n - 1)) :
    (BitVec.ofInt n (v.tmod w)).toInt = v.tmod w := by
  have hlt := natAbs_tmod_lt (v := v) hw
  have hcast : ((2 ^ (n - 1) : ℕ) : ℤ) = 2 ^ (n - 1) := by norm_num
  apply BitVec.toInt_ofInt_eq_self hn <;> omega

theorem signedDivisionLaw_iff_of {v w : ℤ} {quotient : Except Fault (Intbv n)} {r : Intbv n}
    (hn : 0 < n) (hw : w ≠ 0) (hle : w.natAbs ≤ 2 ^ (n - 1)) (hq : IsQuotient n v w quotient)
    (hr : r.Clean) : SignedDivisionLaw v w quotient (.ok r) ↔
      ¬ Overflows n v w ∧ r.toBitVec = BitVec.ofInt n (v.tmod w) := by
  constructor
  · rintro ⟨q, r', hq', hr', -, -, -, hvalue, -, -⟩
    obtain rfl := Except.ok.inj hr'
    refine ⟨fun hover => ?_, ?_⟩
    · rw [hq.1 hover] at hq'
      cases hq'
    · rw [← hvalue, BitVec.ofInt_toInt]
  · rintro ⟨hover, hvalue⟩
    obtain ⟨q, hok, hholds⟩ := hq.2 hover
    have hint : r.toBitVec.toInt = v.tmod w := by rw [hvalue, toInt_ofInt_tmod hn hw hle]
    refine ⟨q, r, hok, rfl, hholds.clean, hr, hholds.toBitVec_eq, hint, ?_, ?_⟩
    · rw [hholds.toBitVec_eq, hvalue, ← BitVec.ofInt_mul, ← BitVec.ofInt_add, Int.tdiv_mul_add_tmod]
    · rw [hint]
      exact natAbs_tmod_lt hw

theorem natAbs_toInt_le {W : ℕ} (v : BitVec W) : v.toInt.natAbs ≤ 2 ^ (W - 1) := by
  have hlow := v.le_toInt
  have hhigh := v.toInt_lt
  have hcast : ((2 ^ (W - 1) : ℕ) : ℤ) = 2 ^ (W - 1) := by norm_num
  omega

theorem signedDivide_law_iff (hnb : 0 < nb) (hx : x.Clean) (hy : y.Clean)
    (hne : y.toBitVec ≠ 0) :
    SignedDivisionLaw x.toBitVec.toInt y.toBitVec.toInt (x.signedDivide y) (x.signedMod y) ↔
      ¬ Overflows nb x.toBitVec.toInt y.toBitVec.toInt ∧
      ModuloExact nb nb x.toBitVec.toInt.natAbs y.toBitVec.toInt.natAbs := by
  obtain ⟨r, hr, hclean, hiff⟩ := signedMod_eq_iff hnb hx.holds hy.holds hne
  have hvalue := hiff nb (Nat.le_refl nb)
  rw [BitVec.setWidth_eq, BitVec.setWidth_eq, srem_eq_ofInt] at hvalue
  rw [hr, signedDivide, signedDivisionLaw_iff_of hnb (toInt_ne_zero hne) (natAbs_toInt_le _)
    (isQuotient_signedDivideIn hnb hnb (Nat.le_refl _) (Nat.le_refl _) hx.holds hy.holds hne)
    hclean, hvalue]

theorem signedDivideOther_law_iff (hnb : 0 < nb) (hnb₂ : 0 < nb₂) (hx : x.Clean) (hz : z.Clean)
    (hne : z.toBitVec ≠ 0) :
    SignedDivisionLaw x.toBitVec.toInt z.toBitVec.toInt (x.signedDivideOther z)
        (x.signedModOther z) ↔
      ¬ Overflows (max nb nb₂) x.toBitVec.toInt z.toBitVec.toInt ∧
      ModuloExact (wordAligned (max nb nb₂)) (max nb nb₂) x.toBitVec.toInt.natAbs
        z.toBitVec.toInt.natAbs := by
  have hleft : nb ≤ max nb nb₂ := Nat.le_max_left ..
  have hright : nb₂ ≤ max nb nb₂ := Nat.le_max_right ..
  obtain ⟨r, hr, hclean, hiff⟩ := signedModOther_eq_iff hnb hnb₂ hx.holds hz.holds hne
  rw [hr, signedDivideOther, signedDivisionLaw_iff_of (hnb.trans_le hleft) (toInt_ne_zero hne)
    ((natAbs_toInt_le _).trans (Nat.pow_le_pow_right (by decide) (Nat.sub_le_sub_right hright 1)))
    (isQuotient_signedDivideIn hnb hnb₂ hleft hright hx.holds hz.holds hne) hclean, hiff]

/-! ### Division in place -/

/-- An assignment, after which the storage is cleared. -/
theorem holds_assign (hnb : 0 < nb) (hnb₂ : 0 < nb₂) (hz : z.Holds u) :
    (x.assign z).sanitize.Holds (u.setWidth nb) := by
  have hvalue : (x.assign z).toBitVec = u.setWidth nb := by
    apply BitVec.eq_of_toNat_eq
    rw [BitVec.toNat_setWidth]
    rcases Nat.lt_or_ge nb₂ nb with hlt | hge
    · rw [assign, if_pos hlt, toBitVec_sanitize, toNat_toBitVec,
        IntbvBase.toNat_constructFromSmallerSized (words_pos hnb₂) (words_mono hlt.le),
        hz.toNat_eq]
    · rw [toNat_toBitVec, toNat_assign hnb hge, hz.toNat_eq,
        Nat.mod_mod_of_dvd _ (Nat.pow_dvd_pow 2 (le_bits nb))]
  rw [← hvalue]
  exact holds_sanitize

theorem signedDivideEqual_eq {x' z' : Intbv (wordAligned nb₂)}
    (hx : extendFrom nb (copy (wordAligned nb₂) x) = some x')
    (hz : extendFrom nb₂ (copy (wordAligned nb₂) z) = some z') :
    x.signedDivideEqual z = (x'.divideSignedAligned z').map fun q => sanitize (x.assign q) := by
  rw [signedDivideEqual, hx, hz]
  rfl

/-- The whole words of the divisor have room for the dividend. -/
theorem isQuotient_signedDivideEqual (hnb : 0 < nb) (hnb₂ : 0 < nb₂) (hle : nb ≤ wordAligned nb₂)
    (hx : x.Holds v) (hz : z.Holds u) (hu : u ≠ 0) :
    IsQuotient nb₂ v.toInt u.toInt (x.signedDivideEqual z) := by
  have hbits : nb₂ ≤ wordAligned nb₂ := le_bits nb₂
  obtain ⟨x', hx', hvalue⟩ := holds_extendFrom hnb hle hx
  obtain ⟨z', hz', hvalue'⟩ := holds_extendFrom hnb₂ hbits hz
  have hquotient := isQuotient_divideSignedAligned (by omega) bits_wordAligned hvalue hvalue'
    (signExtend_ne_zero hbits hu)
  rw [BitVec.toInt_signExtend_of_le hle, BitVec.toInt_signExtend_of_le hbits, IsQuotient,
    Overflows, words_wordAligned] at hquotient
  rw [signedDivideEqual_eq hx' hz']
  refine ⟨fun hover => by rw [hquotient.1 hover]; rfl, fun hover => ?_⟩
  obtain ⟨q, hok, hq⟩ := hquotient.2 hover
  have hassign := holds_assign (x := x) hnb (by omega) hq
  rw [setWidth_ofInt hle] at hassign
  exact ⟨_, by rw [hok]; rfl, hassign⟩

theorem words_max (hle : nb ≤ wordAligned nb₂) : words (max nb nb₂) = words nb₂ := by
  rw [wordAligned, words] at hle
  rw [words, words]
  omega

/-- The division in place gives the quotient of the function, cut to the dividend's width. -/
def EqualAgrees (x : Intbv nb) (z : Intbv nb₂) : Prop :=
  x.signedDivideEqual z = (x.signedDivideOther z).map (copy nb)

theorem equalAgrees_of_le (hnb : 0 < nb) (hnb₂ : 0 < nb₂) (hle : nb ≤ wordAligned nb₂)
    (hx : x.Clean) (hz : z.Clean) (hne : z.toBitVec ≠ 0) : EqualAgrees x z := by
  have hleft : nb ≤ max nb nb₂ := Nat.le_max_left ..
  have hfunction := (isQuotient_signedDivideIn hnb hnb₂ hleft (Nat.le_max_right ..) hx.holds
    hz.holds hne).copy hnb hleft
  have hequal := isQuotient_signedDivideEqual hnb hnb₂ hle hx.holds hz.holds hne
  rw [IsQuotient, Overflows, words_max hle] at hfunction
  exact hequal.eq hfunction

theorem toInt_ones (hnb : 0 < nb) : (BitVec.allOnes nb).toInt = -1 := by
  rw [BitVec.toInt_allOnes, if_pos hnb]

theorem ones_ne_zero (hnb : 0 < nb) : BitVec.allOnes nb ≠ 0 := by
  intro hzero
  have hint := toInt_ones hnb
  rw [hzero] at hint
  exact absurd (BitVec.toInt_zero.symm.trans hint) (by decide)

/-- A dividend of which the words of the divisor only keep zeros. -/
theorem not_equalAgrees (hnb₂ : 0 < nb₂) (hlt : wordAligned nb₂ < nb)
    (hx : x.Holds (BitVec.twoPow nb (wordAligned nb₂))) : ¬ EqualAgrees x (ones nb₂) := by
  intro h
  have hbits : nb₂ ≤ wordAligned nb₂ := le_bits nb₂
  have hpow : 2 ^ wordAligned nb₂ < 2 ^ nb := Nat.pow_lt_pow_right (by decide) hlt
  have hz : (ones nb₂).Holds (BitVec.allOnes nb₂) := holds_ones
  have hne := ones_ne_zero hnb₂
  -- in place the dividend is zero, and so is the quotient
  have hcut := @holds_copy (wordAligned nb₂) _ _ _ (by omega) (by omega) hx
  have hzero : (BitVec.twoPow nb (wordAligned nb₂)).setWidth (wordAligned nb₂) = 0#_ := by
    apply BitVec.eq_of_toNat_eq
    rw [BitVec.toNat_setWidth, BitVec.toNat_twoPow, Nat.mod_eq_of_lt hpow, Nat.mod_self,
      BitVec.toNat_zero]
  rw [hzero] at hcut
  obtain ⟨z', hz', hvalue'⟩ := holds_extendFrom hnb₂ hbits hz
  have hquotient := isQuotient_divideSignedAligned (by omega) bits_wordAligned hcut hvalue'
    (signExtend_ne_zero hbits hne)
  obtain ⟨q, hok, hq⟩ := hquotient.2 fun hover => by
    have hmin := hover.2.1
    rw [BitVec.toInt_zero] at hmin
    have hpos : (0 : ℤ) < 2 ^ (32 * words (wordAligned nb₂) - 1) := by positivity
    omega
  have hassign := @holds_assign nb _ x _ _ (by omega) (by omega) hq
  rw [BitVec.toInt_zero, Int.zero_tdiv, show BitVec.ofInt _ 0 = 0#_ from BitVec.ofInt_natCast _ 0,
    BitVec.setWidth_zero] at hassign
  have hequal : x.signedDivideEqual (ones nb₂) = .ok (sanitize (x.assign q)) := by
    rw [signedDivideEqual_eq (if_neg (by omega)) hz', hok]
    rfl
  -- the function keeps the dividend
  have hfunction := (isQuotient_signedDivideIn (n := max nb nb₂) (by omega) hnb₂
    (Nat.le_max_left ..) (Nat.le_max_right ..) hx hz hne).copy (n := nb) (by omega)
    (Nat.le_max_left ..)
  rw [EqualAgrees, hequal, signedDivideOther] at h
  rw [← h] at hfunction
  by_cases hover : Overflows (max nb nb₂) (BitVec.twoPow nb (wordAligned nb₂)).toInt
    (BitVec.allOnes nb₂).toInt
  · cases hfunction.1 hover
  · obtain ⟨q', hok', hq'⟩ := hfunction.2 hover
    obtain rfl := Except.ok.inj hok'
    have hvalue := hassign.toBitVec_eq.symm.trans hq'.toBitVec_eq
    rw [toInt_ones hnb₂, Int.tdiv_neg, Int.tdiv_one, BitVec.ofInt_neg, BitVec.ofInt_toInt] at hvalue
    have hnat := congrArg BitVec.toNat (BitVec.neg_eq_zero_iff.mp hvalue.symm)
    rw [BitVec.toNat_twoPow, Nat.mod_eq_of_lt hpow, BitVec.toNat_zero] at hnat
    exact absurd hnat (Nat.two_pow_pos _).ne'

end Intbv

/-! ### Results -/

open Intbv

/-- Quotient and remainder of signed vectors, of one size and of two. They are right unless the
processor divides the most negative integer by minus one or the unsigned remainder is wrong, which
needs more than 32768 words. -/
theorem signedDivision_law (nb nb₂ : ℕ) (hnb : 0 < nb) (hnb₂ : 0 < nb₂) :
    (∀ x y : Intbv nb, x.Clean → y.Clean → y.toBitVec ≠ 0 →
      (SignedDivisionLaw x.toBitVec.toInt y.toBitVec.toInt (x.signedDivide y) (x.signedMod y) ↔
        ¬ Overflows nb x.toBitVec.toInt y.toBitVec.toInt ∧
        ModuloExact nb nb x.toBitVec.toInt.natAbs y.toBitVec.toInt.natAbs)) ∧
    (∀ (x : Intbv nb) (y : Intbv nb₂), x.Clean → y.Clean → y.toBitVec ≠ 0 →
      (SignedDivisionLaw x.toBitVec.toInt y.toBitVec.toInt (x.signedDivideOther y)
          (x.signedModOther y) ↔
        ¬ Overflows (max nb nb₂) x.toBitVec.toInt y.toBitVec.toInt ∧
        ModuloExact (wordAligned (max nb nb₂)) (max nb nb₂) x.toBitVec.toInt.natAbs
          y.toBitVec.toInt.natAbs)) ∧
    (∀ m n a b : ℕ, words m ≤ 32768 → a < 2 ^ m → b < 2 ^ m → 0 < b → ModuloExact m n a b) :=
  ⟨fun _ _ hx hy hne => signedDivide_law_iff hnb hx hy hne,
    fun _ _ hx hy hne => signedDivideOther_law_iff hnb hnb₂ hx hy hne,
    fun _ _ _ _ hm ha hb hpos => moduloExact_of_words hm ha hb hpos⟩

/-- The number -7 divided by 2. -/
theorem signedDivision_law_small :
    SignedDivisionLaw (-7) 2 ((ofUInt32 8 249).signedDivide (ofUInt32 8 2))
      ((ofUInt32 8 249).signedMod (ofUInt32 8 2)) := by
  have hx := (@holds_ofUInt32 8 249 (by decide))
  have hy := (@holds_ofUInt32 8 2 (by decide))
  obtain ⟨hsame, -, hexact⟩ := signedDivision_law 8 8 (by decide) (by decide)
  have hlaw := hsame _ _ hx.clean hy.clean (by rw [hy.toBitVec_eq]; decide)
  rw [hx.toBitVec_eq, hy.toBitVec_eq] at hlaw
  refine hlaw.mpr ⟨by rw [Overflows]; decide, hexact _ _ _ _ ?_ ?_ ?_ ?_⟩ <;> decide

/-- The most negative vector of 32 bits divided by minus one. -/
theorem signedDivide_most_negative :
    (ofUInt32 32 0x80000000).signedDivide (ofUInt32 32 0xffffffff) = .error .overflow ∧
    ¬ SignedDivisionLaw (-2 ^ 31) (-1)
      ((ofUInt32 32 0x80000000).signedDivide (ofUInt32 32 0xffffffff))
      ((ofUInt32 32 0x80000000).signedMod (ofUInt32 32 0xffffffff)) := by
  have hx := (@holds_ofUInt32 32 0x80000000 (by decide))
  have hy := (@holds_ofUInt32 32 0xffffffff (by decide))
  have hfault : (ofUInt32 32 0x80000000).signedDivide (ofUInt32 32 0xffffffff) =
      .error .overflow :=
    (isQuotient_signedDivideIn (by decide) (by decide) (Nat.le_refl _) (Nat.le_refl _) hx hy
      (by decide)).1 (by rw [Overflows]; decide)
  refine ⟨hfault, ?_⟩
  rintro ⟨q, r, hq, -⟩
  rw [hfault] at hq
  cases hq

/-- The division in place agrees with the function on every operand exactly if the whole words of
the divisor have room for the dividend. Operands of one size always agree. -/
theorem signedDivideEqual_agrees_iff (nb nb₂ : ℕ) (hnb : 0 < nb) (hnb₂ : 0 < nb₂) :
    ((∀ (x : Intbv nb) (y : Intbv nb₂), x.Clean → y.Clean → y.toBitVec ≠ 0 → EqualAgrees x y) ↔
      nb ≤ wordAligned nb₂) ∧
    (∀ x y : Intbv nb, x.Clean → y.Clean → y.toBitVec ≠ 0 →
      x.signedDivideEqual y = x.signedDivide y) := by
  refine ⟨⟨fun h => ?_, fun hle x y hx hy hne => ?_⟩, fun x y hx hy hne => ?_⟩
  · by_contra hlt
    obtain ⟨x, hx⟩ := exists_holds (BitVec.twoPow nb (wordAligned nb₂))
    refine not_equalAgrees hnb₂ (by omega) hx (h x (ones nb₂) hx.clean holds_ones.clean ?_)
    rw [holds_ones.toBitVec_eq]
    exact ones_ne_zero hnb₂
  · exact equalAgrees_of_le hnb hnb₂ hle hx hy hne
  · exact (isQuotient_signedDivideEqual hnb hnb (le_bits nb) hx.holds hy.holds hne).eq
      (isQuotient_signedDivideIn hnb hnb (Nat.le_refl _) (Nat.le_refl _) hx.holds hy.holds hne)

/-- A dividend of 20 bits and a divisor of 8 bits. -/
theorem signedDivideEqual_agrees_of_room :
    EqualAgrees (ofUInt32 20 1000) (ofUInt32 8 7) := by
  have hx := (@holds_ofUInt32 20 1000 (by decide))
  have hy := (@holds_ofUInt32 8 7 (by decide))
  exact (signedDivideEqual_agrees_iff 20 8 (by decide) (by decide)).1.mpr (by decide) _ _ hx.clean
    hy.clean (by rw [hy.toBitVec_eq]; decide)

/-- A dividend of 64 bits and the divisor -1 of 8 bits. -/
theorem signedDivideEqual_loses_words :
    ∃ x : Intbv 64, x.Holds 0x100000000 ∧ ¬ EqualAgrees x (ones 8) := by
  obtain ⟨x, hx⟩ := exists_holds (0x100000000 : BitVec 64)
  exact ⟨x, hx, not_equalAgrees (by decide) (by decide) hx⟩

end Adl.Helpers
