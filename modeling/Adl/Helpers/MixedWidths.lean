import Adl.Helpers.SignedDivision

/-!
# Carries and signed comparisons of different widths

The vector of carries of an addition is computed from the operands and their sum alone. A signed
comparison of different widths writes the narrower vector into the low bits of a zero, and extends
its sign from there.
-/

namespace Adl.Helpers.Intbv

variable {nb nb₂ n : ℕ}

/-! ### Carries -/

/-- The carries of a sum in `n` bits: both bits are one, or one is and the sum lost it. -/
def carryIn (n : ℕ) (a : Intbv nb) (b : Intbv nb₂) (cin : Intbv 1) : Intbv n :=
  let x := copy n a
  let y := copy n b
  let sum := (x.add y).add (copy n cin)
  (x.bitAnd y).bitOr ((x.bitXor y).bitAnd sum.invert)

def carry (a : Intbv nb) (b : Intbv nb₂) (cin : Intbv 1) : Intbv (max nb nb₂) :=
  carryIn (max nb nb₂) a b cin

def carryUInt32 (a : Intbv nb) (b : BitVec 32) (cin : Intbv 1) : Intbv nb :=
  carryIn nb a (ofUInt32 nb b) cin

theorem carryBit_eq_atLeastTwo {a b c : Bool} :
    ((a && b) || ((a ^^ b) && !(a ^^ (b ^^ c)))) = Bool.atLeastTwo a b c := by
  cases a <;> cases b <;> cases c <;> rfl

theorem holds_carryIn {a : Intbv nb} {b : Intbv nb₂} {cin : Intbv 1} {v : BitVec nb}
    {w : BitVec nb₂} {c : Bool} (hn : 0 < n) (hnb : 0 < nb) (hnb₂ : 0 < nb₂) (ha : a.Holds v)
    (hb : b.Holds w) (hc : cin.Holds (BitVec.ofBool c)) :
    (carryIn n a b cin).Holds ((v.setWidth n &&& w.setWidth n) |||
      ((v.setWidth n ^^^ w.setWidth n) &&&
        ~~~(v.setWidth n + w.setWidth n + (BitVec.ofBool c).setWidth n))) := by
  have hx := @holds_copy n _ _ _ hn hnb ha
  have hy := @holds_copy n _ _ _ hn hnb₂ hb
  have hz := @holds_copy n _ _ _ hn Nat.one_pos hc
  exact holds_bitOr (holds_bitAnd hx hy)
    (holds_bitAnd (holds_bitXor hx hy) (holds_invert (holds_add (holds_add hx hy) hz)))

theorem exists_ofBool (c : BitVec 1) : ∃ b, c = BitVec.ofBool b := by
  refine ⟨c.getLsbD 0, BitVec.eq_of_getLsbD_eq fun i hi => ?_⟩
  obtain rfl : i = 0 := by omega
  rw [BitVec.getLsbD_ofBool, decide_eq_true rfl, Bool.true_and]

/-- The carry out of bit `i` when two numbers and a carry are added. -/
def carryOut (a b c i : ℕ) : Bool := 2 ^ (i + 1) ≤ a % 2 ^ (i + 1) + b % 2 ^ (i + 1) + c

theorem getLsbD_carryIn {a : Intbv nb} {b : Intbv nb₂} {cin : Intbv 1} {i : ℕ} (hnb : 0 < nb)
    (hnb₂ : 0 < nb₂) (hle : nb ≤ n) (hle₂ : nb₂ ≤ n) (ha : a.Clean) (hb : b.Clean)
    (hc : cin.Clean) (hi : i < n) :
    (carryIn n a b cin).toBitVec.getLsbD i =
      carryOut a.toBitVec.toNat b.toBitVec.toNat cin.toBitVec.toNat i := by
  obtain ⟨c, hcin⟩ := exists_ofBool cin.toBitVec
  have hholds := hc.holds
  rw [hcin] at hholds
  rw [(holds_carryIn (by omega) hnb hnb₂ ha.holds hb.holds hholds).toBitVec_eq, hcin,
    BitVec.getLsbD_or, BitVec.getLsbD_and, BitVec.getLsbD_and, BitVec.getLsbD_xor,
    BitVec.getLsbD_not, decide_eq_true hi, Bool.true_and, BitVec.getLsbD_add_add_bool hi,
    carryBit_eq_atLeastTwo, ← BitVec.carry_succ, BitVec.carry, carryOut]
  rw [BitVec.toNat_setWidth_of_le hle, BitVec.toNat_setWidth_of_le hle₂, BitVec.toNat_ofBool]

/-- Every bit of the carries is the carry out of its position, for vectors of all widths. -/
theorem carry_out {a : Intbv nb} {b : Intbv nb₂} {cin : Intbv 1} (hnb : 0 < nb) (hnb₂ : 0 < nb₂)
    (ha : a.Clean) (hb : b.Clean) (hc : cin.Clean) :
    (∀ i < max nb nb₂, (carry a b cin).toBitVec.getLsbD i =
      carryOut a.toBitVec.toNat b.toBitVec.toNat cin.toBitVec.toNat i) ∧
    (∀ val : BitVec 32, ∀ i < nb, (carryUInt32 a val cin).toBitVec.getLsbD i =
      carryOut a.toBitVec.toNat (val.setWidth nb).toNat cin.toBitVec.toNat i) := by
  refine ⟨fun i hi => ?_, fun val i hi => ?_⟩
  · exact getLsbD_carryIn hnb hnb₂ (Nat.le_max_left ..) (Nat.le_max_right ..) ha hb hc hi
  · have hval := @holds_ofUInt32 nb val hnb
    rw [← hval.toBitVec_eq]
    exact getLsbD_carryIn hnb hnb (Nat.le_refl _) (Nat.le_refl _) ha hval.clean hc hi

/-- The carries of 200 and 100 in 8 bits and a carry into the first bit. -/
theorem carry_out_byte :
    (carry (ofUInt32 8 200) (ofUInt32 8 100) (ofUInt32 1 1)).toBitVec.getLsbD 7 = true := by
  have ha := @holds_ofUInt32 8 200 (by decide)
  have hb := @holds_ofUInt32 8 100 (by decide)
  have hc := @holds_ofUInt32 1 1 (by decide)
  rw [(carry_out (by decide) (by decide) ha.clean hb.clean hc.clean).1 7 (by decide),
    ha.toBitVec_eq, hb.toBitVec_eq, hc.toBitVec_eq]
  decide

/-! ### Comparisons -/

/-- A narrower vector in the low bits of a zero, with its sign extended from there. -/
def widen (n : ℕ) (x : Intbv nb) : Option (Intbv n) := do
  let tmp ← ofInt32 n 0
  let tmp ← tmp.setField (n - nb) (n - 1) (copy n x)
  tmp.signExtend (n - nb)

def compareOther (compare : (n : ℕ) → Intbv n → Intbv n → Bool) (x : Intbv nb) (y : Intbv nb₂) :
    Option Bool :=
  if nb₂ < nb then (widen nb y).map (compare nb x) else (widen nb₂ x).map (compare nb₂ · y)

def signedLTOther (x : Intbv nb) (y : Intbv nb₂) : Option Bool :=
  compareOther (fun _ => signedLT) x y

def signedLEOther (x : Intbv nb) (y : Intbv nb₂) : Option Bool :=
  compareOther (fun _ => signedLE) x y

def signedGTOther (x : Intbv nb) (y : Intbv nb₂) : Option Bool :=
  compareOther (fun _ => signedGT) x y

def signedGEOther (x : Intbv nb) (y : Intbv nb₂) : Option Bool :=
  compareOther (fun _ => signedGE) x y

variable {x : Intbv nb} {y : Intbv nb₂} {v : BitVec nb} {w : BitVec nb₂}

theorem holds_ofInt32_zero : ∃ r, ofInt32 n 0 = some r ∧ r.Holds (BitVec.ofNat n 0) := by
  have hreset (k : ℕ) : IntbvBase.ofInt32 0 k = .reset k := by
    match k with
    | 0 => rfl
    | 1 => rfl
    | 2 => rfl
    | k + 3 =>
      have hlast : List.replicate (k + 2) (0 : BitVec 32) ++ [0] = List.replicate (k + 3) 0 :=
        List.replicate_succ'.symm
      simp only [IntbvBase.ofInt32, IntbvBase.reset, hlast]
  refine ⟨sanitize ⟨.ofInt32 0 _⟩, ?_, ?_⟩
  · rw [ofInt32, if_neg fun h => absurd h.1 (by decide)]
  · rw [hreset]
    exact holds_zero.sanitize

theorem setField_eq_copy {tmp : Intbv n} (hnb : 0 < nb) (hlt : nb < n) (hx : x.Holds v)
    (htmp : tmp.Holds (BitVec.ofNat n 0)) :
    tmp.setField (n - nb) (n - 1) (copy n x) = some (copy n x) := by
  have hcopy := @holds_copy n _ _ _ (by omega) hnb hx
  obtain ⟨r, hr⟩ := exists_setField (x := tmp) (y := copy n x) (show n - nb ≤ n - 1 by omega)
    (by omega)
  rw [hr]
  refine congrArg some (Holds.eq (fun i => ?_) hcopy)
  rw [getLsbD_of_setField (by omega) (by omega) hr, htmp, hcopy, BitVec.getLsbD_zero,
    show n - 1 - (n - 1) = 0 by omega, Nat.sub_zero]
  split
  · rfl
  case isFalse hi =>
    rw [BitVec.getLsbD_setWidth, BitVec.getLsbD_of_ge v i (by omega), Bool.and_false]

theorem holds_widen (hnb : 0 < nb) (hlt : nb < n) (hx : x.Holds v) :
    ∃ r, widen n x = some r ∧ r.Holds (v.signExtend n) := by
  obtain ⟨tmp, htmp, hzero⟩ := @holds_ofInt32_zero n
  obtain ⟨r, hr, hholds⟩ := holds_extendFrom hnb hlt.le hx
  rw [extendFrom, if_pos hlt] at hr
  refine ⟨r, ?_, hholds⟩
  rw [widen, htmp, Option.bind_eq_bind, Option.bind_some, setField_eq_copy hnb hlt hx hzero,
    Option.bind_some, hr]

theorem compareOther_eq {compare : (n : ℕ) → Intbv n → Intbv n → Bool} {R : ℤ → ℤ → Bool}
    (hcompare : ∀ {n : ℕ} {a b : Intbv n} {s t : BitVec n}, 0 < n → a.Holds s → b.Holds t →
      compare n a b = R s.toInt t.toInt)
    (hnb : 0 < nb) (hnb₂ : 0 < nb₂) (hne : nb ≠ nb₂) (hx : x.Holds v) (hy : y.Holds w) :
    compareOther compare x y = some (R v.toInt w.toInt) := by
  rw [compareOther]
  split
  case isTrue hlt =>
    obtain ⟨r, hr, hvalue⟩ := holds_widen hnb₂ hlt hy
    rw [hr, Option.map_some, hcompare hnb hx hvalue, BitVec.toInt_signExtend_of_le hlt.le]
  case isFalse hge =>
    have hlt : nb < nb₂ := by omega
    obtain ⟨r, hr, hvalue⟩ := holds_widen hnb hlt hx
    rw [hr, Option.map_some, hcompare hnb₂ hvalue hy, BitVec.toInt_signExtend_of_le hlt.le]

/-- The four comparisons are those of the integers, of which exactly one is less, equal or
greater. -/
structure ComparesSigned (x : Intbv nb) (y : Intbv nb₂) : Prop where
  lt : x.signedLTOther y = some (decide (x.toBitVec.toInt < y.toBitVec.toInt))
  gt : x.signedGTOther y = some (decide (x.toBitVec.toInt > y.toBitVec.toInt))
  le : x.signedLEOther y = some (decide (x.toBitVec.toInt ≤ y.toBitVec.toInt))
  ge : x.signedGEOther y = some (decide (x.toBitVec.toInt ≥ y.toBitVec.toInt))
  trichotomy : ∃! o : Ordering, match o with
    | .lt => x.signedLTOther y = some true
    | .eq => x.signedLEOther y = some true ∧ x.signedGEOther y = some true
    | .gt => x.signedGTOther y = some true

/-- Signed comparisons of different widths agree with the order of the integers. -/
theorem compares_signed (hnb : 0 < nb) (hnb₂ : 0 < nb₂) (hne : nb ≠ nb₂) (hx : x.Clean)
    (hy : y.Clean) : ComparesSigned x y := by
  have hlt : x.signedLTOther y = some (decide (x.toBitVec.toInt < y.toBitVec.toInt)) :=
    compareOther_eq (R := fun s t => decide (s < t))
      (fun hn ha hb => by rw [signedLT_eq hn ha hb, BitVec.slt]) hnb hnb₂ hne hx.holds hy.holds
  have hgt : x.signedGTOther y = some (decide (x.toBitVec.toInt > y.toBitVec.toInt)) :=
    compareOther_eq (R := fun s t => decide (s > t))
      (fun hn ha hb => by rw [signedGT_eq hn ha hb, BitVec.slt]) hnb hnb₂ hne hx.holds hy.holds
  have hle : x.signedLEOther y = some (decide (x.toBitVec.toInt ≤ y.toBitVec.toInt)) :=
    compareOther_eq (R := fun s t => decide (s ≤ t))
      (fun hn ha hb => by rw [signedLE_eq hn ha hb, BitVec.sle]) hnb hnb₂ hne hx.holds hy.holds
  have hge : x.signedGEOther y = some (decide (x.toBitVec.toInt ≥ y.toBitVec.toInt)) :=
    compareOther_eq (R := fun s t => decide (s ≥ t))
      (fun hn ha hb => by rw [signedGE_eq hn ha hb, BitVec.sle]) hnb hnb₂ hne hx.holds hy.holds
  refine ⟨hlt, hgt, hle, hge, ?_⟩
  rw [hlt, hgt, hle, hge]
  simp only [Option.some.injEq, decide_eq_true_eq]
  -- exactly one of the three orders holds
  rcases lt_trichotomy x.toBitVec.toInt y.toBitVec.toInt with h | h | h
  · refine ⟨.lt, h, fun o ho => ?_⟩
    cases o with
    | lt => rfl
    | eq => exact absurd h (not_lt.mpr ho.2)
    | gt => exact absurd h (not_lt.mpr ho.le)
  · refine ⟨.eq, ⟨h.le, h.ge⟩, fun o ho => ?_⟩
    cases o with
    | lt => exact absurd h ho.ne
    | eq => rfl
    | gt => exact absurd h ho.ne'
  · refine ⟨.gt, h, fun o ho => ?_⟩
    cases o with
    | lt => exact absurd h (not_lt.mpr ho.le)
    | eq => exact absurd h (not_lt.mpr ho.1)
    | gt => rfl

/-- Minus one in one bit and 200 in 70 bits. -/
theorem compares_signed_bit : ComparesSigned (ofUInt32 1 1) (ofUInt32 70 200) :=
  compares_signed (by decide) (by decide) (by decide) (holds_ofUInt32 (by decide)).clean
    (holds_ofUInt32 (by decide)).clean

end Adl.Helpers.Intbv
