import Adl.Helpers.Padding
import Adl.Helpers.SignedDivision

/-!
# Division of bit vectors by zero

Every form of a division comes down to one of two divisions of the storage, and each implementation
of the storage tests the divisor by itself. An array tests the dividend first, and the signed
division of one word has its error commented out.
-/

namespace Adl.Helpers

open IntbvBase (words Fault)

/-- The operation ends with the error of a division by zero. -/
def Reports {α : Type} (r : Except Fault α) : Prop :=
  ∃ message, r = .error (.divideByZero message)

theorem reports_map_iff {α β : Type} {r : Except Fault α} {f : α → β} :
    Reports (r.map f) ↔ Reports r := by
  cases r with
  | error e =>
    refine ⟨fun ⟨message, h⟩ => ⟨message, ?_⟩, fun ⟨message, h⟩ => ⟨message, ?_⟩⟩
    · exact congrArg Except.error (Except.error.inj h)
    · exact congrArg Except.error (Except.error.inj h)
  | ok a => exact ⟨nofun, nofun⟩

theorem not_reports_ok {α : Type} {a : α} : ¬ Reports (.ok a : Except Fault α) := nofun

theorem toNat_eq_zero_iff {W : ℕ} {u : BitVec W} : u.toNat = 0 ↔ u = 0 :=
  ⟨fun h => BitVec.eq_of_toNat_eq (h.trans (Nat.zero_mod _).symm), fun h => h ▸ Nat.zero_mod _⟩

/-! ### The divisions of a storage -/

namespace IntbvBase

variable {n : ℕ} {x y : IntbvBase n}

theorem reports_divide_iff (hn : 0 < n) (hy : y.toNat = 0) :
    Reports (x.divide y) ↔ n ≤ 2 ∨ x.toNat ≠ 0 := by
  cases x with
  | empty => cases hn
  | one w =>
    cases y with
    | one v =>
      have hv : v = 0 := BitVec.eq_of_toNat_eq hy
      rw [divide, if_pos hv]
      exact iff_of_true ⟨_, rfl⟩ (.inl (by decide))
  | two w =>
    cases y with
    | two v =>
      have hv : v = 0 := BitVec.eq_of_toNat_eq hy
      rw [divide, if_pos hv]
      exact iff_of_true ⟨_, rfl⟩ (.inl (by decide))
  | @many k w hw =>
    cases y with
    | many v hv =>
      simp only [divide, isEqual_reset_iff]
      by_cases hx : (many w hw).toNat = 0
      · rw [if_pos hx]
        exact iff_of_false not_reports_ok (by omega)
      · rw [if_neg hx, if_pos hy]
        exact iff_of_true ⟨_, rfl⟩ (.inr hx)

theorem toNat_absolute_eq_zero_iff {b : Bool} :
    (if b then x.negate else x).toNat = 0 ↔ x.toNat = 0 := by
  split
  · rw [← toNat_toBitVec, ← toNat_toBitVec, toNat_eq_zero_iff, toNat_eq_zero_iff,
      toBitVec_negate]
    exact BitVec.neg_eq_zero_iff
  · exact Iff.rfl

theorem reports_divideSigned_iff (hn : 0 < n) (hy : y.toNat = 0) :
    Reports (x.divideSigned y) ↔ n = 2 ∨ 2 < n ∧ x.toNat ≠ 0 := by
  cases x with
  | empty => cases hn
  | one w =>
    cases y with
    | one v =>
      have hv : v = 0 := BitVec.eq_of_toNat_eq hy
      rw [divideSigned, if_pos hv]
      exact iff_of_false not_reports_ok (by omega)
  | two w =>
    cases y with
    | two v =>
      have hv : v = 0 := BitVec.eq_of_toNat_eq hy
      rw [divideSigned, if_pos hv]
      exact iff_of_true ⟨_, rfl⟩ (.inl rfl)
  | @many k w hw =>
    cases y with
    | many v hv =>
      simp only [divideSigned]
      refine reports_map_iff.trans ?_
      rw [reports_divide_iff hn (toNat_absolute_eq_zero_iff.mpr hy), ne_eq,
        toNat_absolute_eq_zero_iff]
      omega

end IntbvBase

/-! ### The divisions of vectors -/

namespace Intbv

variable {nb nb₂ n : ℕ} {x y : Intbv nb} {v : BitVec nb}

/-- The quotient of operands of different sizes. -/
def divideMax (x : Intbv nb) (y : Intbv nb₂) : Except Fault (Intbv (max nb nb₂)) :=
  (copy (max nb nb₂) x).divide (copy (max nb nb₂) y)

/-- The remainder of operands of different sizes. -/
def moduloMax (x : Intbv nb) (y : Intbv nb₂) : Except Fault (Intbv (max nb nb₂)) :=
  (copy (max nb nb₂) x).modulo (copy (max nb nb₂) y)

theorem toNat_base_eq_zero_iff (hx : x.Holds v) : x.base.toNat = 0 ↔ v = 0 := by
  rw [hx.toNat_eq, toNat_eq_zero_iff]

theorem reports_divide_iff (hnb : 0 < nb) (hx : x.Holds v) (hy : y.Holds 0) :
    Reports (x.divide y) ↔ words nb ≤ 2 ∨ v ≠ 0 := by
  rw [divide, reports_map_iff,
    IntbvBase.reports_divide_iff (words_pos hnb) ((toNat_base_eq_zero_iff hy).mpr rfl), ne_eq,
    toNat_base_eq_zero_iff hx]

theorem reports_modulo_iff (hnb : 0 < nb) (hx : x.Holds v) (hy : y.Holds 0) :
    Reports (x.modulo y) ↔ words nb ≤ 2 ∨ v ≠ 0 := by
  rw [← reports_divide_iff hnb hx hy]
  exact reports_map_iff

theorem reports_divideSignedAligned_iff (hnb : 0 < nb) (hx : x.Holds v) (hy : y.Holds 0) :
    Reports (x.divideSignedAligned y) ↔ words nb = 2 ∨ 2 < words nb ∧ v ≠ 0 := by
  rw [divideSignedAligned, reports_map_iff,
    IntbvBase.reports_divideSigned_iff (words_pos hnb) ((toNat_base_eq_zero_iff hy).mpr rfl),
    ne_eq, toNat_base_eq_zero_iff hx]

theorem setWidth_ne_zero_iff (h : nb ≤ n) : v.setWidth n ≠ 0 ↔ v ≠ 0 := by
  rw [ne_eq, ne_eq, ← toNat_eq_zero_iff, ← toNat_eq_zero_iff, BitVec.toNat_setWidth_of_le h]

theorem signExtend_zero : (0 : BitVec nb).signExtend n = 0 := by
  have hmsb : (0 : BitVec nb).msb = false := BitVec.msb_zero
  rw [BitVec.signExtend_eq_setWidth_of_msb_false hmsb]
  exact BitVec.setWidth_zero ..

theorem signExtend_ne_zero_iff (h : nb ≤ n) : v.signExtend n ≠ 0 ↔ v ≠ 0 :=
  ⟨fun hne hzero => hne (hzero ▸ signExtend_zero), signExtend_ne_zero h⟩

theorem abs_zero : (0 : BitVec nb).abs = 0 := by
  rw [BitVec.abs_eq]
  split
  · exact BitVec.neg_zero ..
  · rfl

theorem holds_copy_zero {z : Intbv nb₂} (hnb : 0 < nb) (hnb₂ : 0 < nb₂) (hz : z.Holds 0) :
    (copy nb z).Holds 0 := by
  have hcopy := holds_copy hnb hnb₂ hz
  rwa [show (0 : BitVec nb₂).setWidth nb = 0 by simp] at hcopy

/-! ### Operands of different sizes -/

section

variable {z : Intbv nb₂}

theorem reports_divideMax_iff (hnb : 0 < nb) (hnb₂ : 0 < nb₂) (hx : x.Holds v) (hz : z.Holds 0) :
    Reports (x.divideMax z) ↔ words (max nb nb₂) ≤ 2 ∨ v ≠ 0 := by
  have hmax : 0 < max nb nb₂ := hnb.trans_le (Nat.le_max_left ..)
  rw [divideMax, reports_divide_iff hmax (holds_copy hmax hnb hx) (holds_copy_zero hmax hnb₂ hz),
    setWidth_ne_zero_iff (Nat.le_max_left ..)]

theorem reports_moduloMax_iff (hnb : 0 < nb) (hnb₂ : 0 < nb₂) (hx : x.Holds v) (hz : z.Holds 0) :
    Reports (x.moduloMax z) ↔ words (max nb nb₂) ≤ 2 ∨ v ≠ 0 := by
  rw [← reports_divideMax_iff hnb hnb₂ hx hz]
  exact reports_map_iff

theorem reports_divideOther_iff : Reports (x.divideOther z) ↔ Reports (x.divideMax z) :=
  reports_map_iff

theorem reports_moduloOther_iff : Reports (x.moduloOther z) ↔ Reports (x.moduloMax z) :=
  reports_map_iff

theorem reports_signedDivideIn_iff (hnb : 0 < nb) (hnb₂ : 0 < nb₂) (hle : nb ≤ n) (hle₂ : nb₂ ≤ n)
    (hx : x.Holds v) (hz : z.Holds 0) :
    Reports (signedDivideIn n x z) ↔ words n = 2 ∨ 2 < words n ∧ v ≠ 0 := by
  have hbits : n ≤ wordAligned n := le_bits n
  obtain ⟨x', hx', hvalue⟩ := holds_signExtendTo hnb (hle.trans hbits) hx
  obtain ⟨z', hz', hvalue'⟩ := holds_signExtendTo hnb₂ (hle₂.trans hbits) hz
  rw [signExtend_zero] at hvalue'
  have haligned := reports_divideSignedAligned_iff (by omega) hvalue hvalue'
  rw [words_wordAligned, signExtend_ne_zero_iff (hle.trans hbits)] at haligned
  rw [← haligned, signedDivideIn, hx', hz']
  exact reports_map_iff

theorem reports_signedMod_iff (hnb : 0 < nb) (hx : x.Holds v) (hy : y.Holds 0) :
    Reports (x.signedMod y) ↔ words nb ≤ 2 ∨ v ≠ 0 := by
  have hx' := holds_absolute hx
  have hy' := holds_absolute hy
  rw [abs_zero] at hy'
  have hmodulo := reports_modulo_iff hnb hx' hy'
  have habs : v.abs ≠ 0 ↔ v ≠ 0 :=
    ⟨fun hne hzero => hne (hzero ▸ abs_zero), IntbvBase.abs_ne_zero⟩
  rw [← habs, ← hmodulo, signedMod, get_zero hnb hx, get_zero hnb hy]
  exact reports_map_iff

theorem reports_signedModOther_iff (hnb : 0 < nb) (hnb₂ : 0 < nb₂) (hx : x.Holds v)
    (hz : z.Holds 0) : Reports (x.signedModOther z) ↔ words (max nb nb₂) ≤ 2 ∨ v ≠ 0 := by
  have hbits : max nb nb₂ ≤ wordAligned (max nb nb₂) := le_bits _
  have hleft : nb ≤ wordAligned (max nb nb₂) := (Nat.le_max_left ..).trans hbits
  have hright : nb₂ ≤ wordAligned (max nb nb₂) := (Nat.le_max_right ..).trans hbits
  obtain ⟨x', hx', hvalue⟩ := holds_signExtendTo hnb hleft hx
  obtain ⟨z', hz', hvalue'⟩ := holds_signExtendTo hnb₂ hright hz
  rw [signExtend_zero] at hvalue'
  have hsame := reports_signedMod_iff (hnb.trans_le hleft) hvalue hvalue'
  rw [words_wordAligned, signExtend_ne_zero_iff hleft] at hsame
  rw [← hsame, signedModOther, hx', hz']
  exact reports_map_iff

theorem holds_extendFrom_copy {W : ℕ} (hnb : 0 < nb) (hW : 0 < W) (hx : x.Holds v) :
    ∃ r u, extendFrom nb (copy W x) = some r ∧ r.Holds u ∧ (u ≠ 0 ↔ v.setWidth W ≠ 0) := by
  rcases Nat.le_total nb W with hle | hge
  · obtain ⟨r, hr, hvalue⟩ := holds_extendFrom hnb hle hx
    refine ⟨r, _, hr, hvalue, ?_⟩
    rw [signExtend_ne_zero_iff hle, setWidth_ne_zero_iff hle]
  · exact ⟨_, _, if_neg (by omega), holds_copy hW hnb hx, Iff.rfl⟩

theorem reports_signedDivideEqual_iff (hnb : 0 < nb) (hnb₂ : 0 < nb₂) (hx : x.Holds v)
    (hz : z.Holds 0) : Reports (x.signedDivideEqual z) ↔
      words nb₂ = 2 ∨ 2 < words nb₂ ∧ v.setWidth (wordAligned nb₂) ≠ 0 := by
  have hbits : nb₂ ≤ wordAligned nb₂ := le_bits nb₂
  obtain ⟨x', u, hx', hvalue, hu⟩ := holds_extendFrom_copy (W := wordAligned nb₂) hnb (by omega) hx
  obtain ⟨z', hz', hvalue'⟩ := holds_extendFrom hnb₂ hbits hz
  rw [signExtend_zero] at hvalue'
  have haligned := reports_divideSignedAligned_iff (by omega) hvalue hvalue'
  rw [words_wordAligned, hu] at haligned
  rw [signedDivideEqual_eq hx' hz', reports_map_iff, haligned]

end

end Intbv

/-! ### Forms -/

/-- The operators and their assignments. -/
inductive UnsignedForm where
  | divide
  | divideEqual
  | modulo
  | moduloEqual
deriving DecidableEq, Repr

/-- The functions on signed vectors. -/
inductive SignedForm where
  | signedDivide
  | signedMod
deriving DecidableEq, Repr

/-- A vector of any width. -/
abbrev AnyIntbv := Σ n, Intbv n

namespace UnsignedForm

variable {nb nb₂ : ℕ}

/-- Operands of one size have an overload of their own. -/
def apply (form : UnsignedForm) (x : Intbv nb) (y : Intbv nb₂) : Except Fault AnyIntbv :=
  if h : nb₂ = nb then
    match form with
    | divide | divideEqual => (x.divide (h ▸ y)).map (⟨nb, ·⟩)
    | modulo | moduloEqual => (x.modulo (h ▸ y)).map (⟨nb, ·⟩)
  else
    match form with
    | divide => (x.divideMax y).map (⟨max nb nb₂, ·⟩)
    | divideEqual => (x.divideOther y).map (⟨nb, ·⟩)
    | modulo => (x.moduloMax y).map (⟨max nb nb₂, ·⟩)
    | moduloEqual => (x.moduloOther y).map (⟨nb, ·⟩)

end UnsignedForm

namespace SignedForm

variable {nb nb₂ : ℕ}

def apply (form : SignedForm) (x : Intbv nb) (y : Intbv nb₂) : Except Fault AnyIntbv :=
  if h : nb₂ = nb then
    match form with
    | signedDivide => (x.signedDivide (h ▸ y)).map (⟨nb, ·⟩)
    | signedMod => (x.signedMod (h ▸ y)).map (⟨nb, ·⟩)
  else
    match form with
    | signedDivide => (x.signedDivideOther y).map (⟨max nb nb₂, ·⟩)
    | signedMod => (x.signedModOther y).map (⟨max nb nb₂, ·⟩)

end SignedForm

/-- An integer operand. -/
inductive Scalar where
  | uint32 (val : BitVec 32)
  | int32 (val : BitVec 32)
  | uint64 (val : BitVec 64)
  | int64 (val : BitVec 64)
deriving DecidableEq, Repr

namespace Scalar

def size : Scalar → ℕ
  | int64 _ | uint64 _ => 64
  | int32 _ | uint32 _ => 32

def IsZero : Scalar → Prop
  | int64 val | uint64 val => val = 0
  | int32 val | uint32 val => val = 0

/-- The conversion to a vector of `n` bits. -/
def convert (n : ℕ) : Scalar → Except Fault (Intbv n)
  | int64 val => Intbv.asserted (Intbv.ofInt64 n val)
  | uint64 val => .ok (Intbv.ofUInt64 n val)
  | int32 val => Intbv.asserted (Intbv.ofInt32 n val)
  | uint32 val => .ok (Intbv.ofUInt32 n val)

end Scalar

namespace Intbv

variable {nb : ℕ}

/-- The signed division in place by an integer, in the whole words of `n` bits. -/
def signedDivideEqualBy (n : ℕ) (x : Intbv nb) (y : Scalar) : Except Fault (Intbv nb) := do
  let tmp ← asserted (extendFrom nb (copy (wordAligned n) x))
  let rhs ← y.convert (wordAligned n)
  let q ← tmp.divideSignedAligned rhs
  return sanitize (x.assign q)

def signedDivideEqualUInt64 (x : Intbv nb) (rhs : BitVec 64) : Except Fault (Intbv nb) :=
  signedDivideEqualBy (max nb 64) x (.int64 rhs)

def signedDivideEqualUInt32 (x : Intbv nb) (rhs : BitVec 32) : Except Fault (Intbv nb) :=
  signedDivideEqualBy (max nb 32) x (.int32 rhs)

end Intbv

/-- A division of a vector of `nb` bits, with its divisor. An integer as the dividend is converted,
and its division is one of these. -/
inductive Division (nb : ℕ) where
  | unsigned (form : UnsignedForm) {nb₂ : ℕ} (y : Intbv nb₂)
  | unsignedScalar (form : UnsignedForm) (y : Scalar)
  | signed (form : SignedForm) {nb₂ : ℕ} (y : Intbv nb₂)
  | signedUInt64 (form : SignedForm) (y : BitVec 64)
  | signedUInt32 (form : SignedForm) (y : BitVec 32)
  | signedInt32 (form : SignedForm) (y : BitVec 32)
  | signedDivideEqual {nb₂ : ℕ} (y : Intbv nb₂)
  | signedDivideEqualUInt64 (y : BitVec 64)
  | signedDivideEqualUInt32 (y : BitVec 32)
  | divideSignedAligned (y : Intbv nb)

namespace Division

variable {nb : ℕ}

def run (x : Intbv nb) : Division nb → Except Fault AnyIntbv
  | unsigned form y => form.apply x y
  | unsignedScalar form y => do form.apply x (← y.convert (max nb y.size))
  | signed form y => form.apply x y
  | signedUInt64 form y => form.apply x (Intbv.ofUInt64 64 y)
  | signedUInt32 form y => form.apply x (Intbv.ofUInt32 32 y)
  | signedInt32 form y => do
    let x ← Intbv.asserted (x.signExtendTo (Intbv.wordAligned (max nb 32)))
    let y ← (Scalar.int32 y).convert 32
    form.apply x y
  | signedDivideEqual y => (x.signedDivideEqual y).map (⟨nb, ·⟩)
  | signedDivideEqualUInt64 y => (x.signedDivideEqualUInt64 y).map (⟨nb, ·⟩)
  | signedDivideEqualUInt32 y => (x.signedDivideEqualUInt32 y).map (⟨nb, ·⟩)
  | divideSignedAligned y => (x.divideSignedAligned y).map (⟨nb, ·⟩)

/-- The divisor is zero. -/
def ByZero : Division nb → Prop
  | @unsigned _ _ nb₂ y | @signed _ _ nb₂ y | @signedDivideEqual _ nb₂ y => 0 < nb₂ ∧ y.Holds 0
  | unsignedScalar _ y => y.IsZero
  | signedUInt64 _ y | signedDivideEqualUInt64 y => y = 0
  | signedUInt32 _ y | signedInt32 _ y | signedDivideEqualUInt32 y => y = 0
  | divideSignedAligned y => y.Holds 0

end Division

/-! ### Tests -/

/-- An unsigned division of `k` words tests its divisor. -/
def UnsignedTested (k : ℕ) (nonzero : Prop) : Prop := k ≤ 2 ∨ nonzero

/-- A signed division of `k` words tests its divisor. -/
def SignedTested (k : ℕ) (nonzero : Prop) : Prop := k = 2 ∨ 2 < k ∧ nonzero

/-- A signed remainder is an unsigned one of absolute values. -/
def SignedForm.Tested : SignedForm → ℕ → Prop → Prop
  | signedDivide => SignedTested
  | signedMod => UnsignedTested

/-- The words that are divided, and the dividend as they hold it, lead to a test of the divisor. -/
def Division.Tested {nb : ℕ} (v : BitVec nb) : Division nb → Prop
  | @unsigned _ _ nb₂ _ => UnsignedTested (words (max nb nb₂)) (v ≠ 0)
  | unsignedScalar _ y => UnsignedTested (words (max nb y.size)) (v ≠ 0)
  | @signed _ form nb₂ _ => form.Tested (words (max nb nb₂)) (v ≠ 0)
  | signedUInt64 form _ => form.Tested (words (max nb 64)) (v ≠ 0)
  | signedUInt32 form _ | signedInt32 form _ => form.Tested (words (max nb 32)) (v ≠ 0)
  | @signedDivideEqual _ nb₂ _ =>
    SignedTested (words nb₂) (v.setWidth (Intbv.wordAligned nb₂) ≠ 0)
  | signedDivideEqualUInt64 _ => SignedTested (words (max nb 64)) (v ≠ 0)
  | signedDivideEqualUInt32 _ => SignedTested (words (max nb 32)) (v ≠ 0)
  | divideSignedAligned _ => SignedTested (words nb) (v ≠ 0)

section

open Intbv

variable {nb nb₂ : ℕ} {x : Intbv nb} {z : Intbv nb₂} {v : BitVec nb}

theorem UnsignedForm.reports_iff {form : UnsignedForm} (hnb : 0 < nb) (hnb₂ : 0 < nb₂)
    (hx : x.Holds v) (hz : z.Holds 0) :
    Reports (form.apply x z) ↔ UnsignedTested (words (max nb nb₂)) (v ≠ 0) := by
  rw [UnsignedForm.apply.eq_def]
  by_cases h : nb₂ = nb
  · subst h
    rw [dif_pos rfl, Nat.max_self]
    cases form with
    | divide | divideEqual => exact reports_map_iff.trans (reports_divide_iff hnb hx hz)
    | modulo | moduloEqual => exact reports_map_iff.trans (reports_modulo_iff hnb hx hz)
  · rw [dif_neg h]
    have hdivide := reports_divideMax_iff hnb hnb₂ hx hz
    have hmodulo := reports_moduloMax_iff hnb hnb₂ hx hz
    cases form with
    | divide => exact reports_map_iff.trans hdivide
    | divideEqual => exact reports_map_iff.trans (reports_divideOther_iff.trans hdivide)
    | modulo => exact reports_map_iff.trans hmodulo
    | moduloEqual => exact reports_map_iff.trans (reports_moduloOther_iff.trans hmodulo)

theorem SignedForm.reports_iff {form : SignedForm} (hnb : 0 < nb) (hnb₂ : 0 < nb₂)
    (hx : x.Holds v) (hz : z.Holds 0) :
    Reports (form.apply x z) ↔ form.Tested (words (max nb nb₂)) (v ≠ 0) := by
  rw [SignedForm.apply.eq_def]
  by_cases h : nb₂ = nb
  · subst h
    rw [dif_pos rfl, Nat.max_self]
    cases form with
    | signedDivide =>
      exact reports_map_iff.trans
        (reports_signedDivideIn_iff hnb hnb (Nat.le_refl _) (Nat.le_refl _) hx hz)
    | signedMod => exact reports_map_iff.trans (reports_signedMod_iff hnb hx hz)
  · rw [dif_neg h]
    cases form with
    | signedDivide =>
      exact reports_map_iff.trans
        (reports_signedDivideIn_iff hnb hnb₂ (Nat.le_max_left ..) (Nat.le_max_right ..) hx hz)
    | signedMod => exact reports_map_iff.trans (reports_signedModOther_iff hnb hnb₂ hx hz)

theorem holds_zero_of_toNat {b : IntbvBase (words nb)} (h : b.toNat = 0) :
    (sanitize (⟨b⟩ : Intbv nb)).Holds 0 := by
  apply holds_sanitize_mk
  apply BitVec.eq_of_toNat_eq
  rw [BitVec.toNat_setWidth, IntbvBase.toNat_toBitVec, h]
  rfl

theorem toNat_eq_zero_of_getwords {n : ℕ} {b : IntbvBase n} (h : ∀ w ∈ b.getwords, w = 0) :
    b.toNat = 0 := by
  rw [← IntbvBase.limbs_getwords, List.eq_replicate_of_mem h, Math.limbs_replicate_zero]

theorem convert_of_isZero {y : Scalar} (h : y.IsZero) :
    ∃ r, y.convert nb = .ok r ∧ r.Holds 0 := by
  cases y with
  | int64 val | uint64 val | int32 val | uint32 val =>
    obtain rfl : val = 0 := h
    refine ⟨_, rfl, holds_zero_of_toNat (toNat_eq_zero_of_getwords ?_)⟩
    rcases words nb with _ | _ | _ | n <;>
      simp [IntbvBase.getwords, IntbvBase.ofInt64, IntbvBase.ofUInt64, IntbvBase.ofInt32,
        IntbvBase.ofUInt32]

theorem reports_signedDivideEqualBy_iff {n : ℕ} {y : Scalar} (hnb : 0 < nb) (hle : nb ≤ n)
    (hx : x.Holds v) (hy : y.IsZero) :
    Reports (signedDivideEqualBy n x y) ↔ SignedTested (words n) (v ≠ 0) := by
  have hbits : nb ≤ wordAligned n := hle.trans (le_bits n)
  obtain ⟨x', hx', hvalue⟩ := holds_extendFrom hnb hbits hx
  obtain ⟨y', hy', hvalue'⟩ := @convert_of_isZero (wordAligned n) _ hy
  have haligned := reports_divideSignedAligned_iff (by omega) hvalue hvalue'
  rw [words_wordAligned, signExtend_ne_zero_iff hbits] at haligned
  rw [SignedTested, ← haligned, signedDivideEqualBy, hx', hy']
  exact reports_map_iff

theorem reports_signedInt32_iff {form : SignedForm} {y : BitVec 32} (hnb : 0 < nb)
    (hx : x.Holds v) (hy : y = 0) : Reports (Division.run x (.signedInt32 form y)) ↔
      form.Tested (words (max nb 32)) (v ≠ 0) := by
  have hbits : max nb 32 ≤ wordAligned (max nb 32) := le_bits _
  have hleft : nb ≤ wordAligned (max nb 32) := (Nat.le_max_left ..).trans hbits
  have hright : 32 ≤ wordAligned (max nb 32) := (Nat.le_max_right ..).trans hbits
  obtain ⟨x', hx', hvalue⟩ := holds_signExtendTo hnb hleft hx
  obtain ⟨y', hy', hvalue'⟩ := @convert_of_isZero 32 (.int32 y) hy
  have happly := @SignedForm.reports_iff _ _ _ _ _ form (hnb.trans_le hleft) (by decide) hvalue
    hvalue'
  rw [Nat.max_eq_left hright, words_wordAligned, signExtend_ne_zero_iff hleft] at happly
  rw [← happly, Division.run, hx', hy']
  rfl

end

/-- Every form of a division by zero ends with its error exactly if the words that are divided test
the divisor: the signed quotient of one word never does, and more than two words only do so for a
dividend that is not zero. -/
theorem reports_iff_tested {nb : ℕ} (hnb : 0 < nb) (x : Intbv nb) (hx : x.Clean)
    (d : Division nb) (hd : d.ByZero) : Reports (d.run x) ↔ d.Tested x.toBitVec := by
  have hholds := hx.holds
  cases d with
  | unsigned form y => exact UnsignedForm.reports_iff hnb hd.1 hholds hd.2
  | unsignedScalar form y =>
    obtain ⟨y', hy', hvalue⟩ := @convert_of_isZero (max nb y.size) _ hd
    have happly := @UnsignedForm.reports_iff _ _ _ _ _ form
      hnb (hnb.trans_le (Nat.le_max_left ..)) hholds hvalue
    rw [← Nat.max_assoc, Nat.max_self] at happly
    rw [Division.Tested, ← happly, Division.run, hy']
    rfl
  | signed form y => exact SignedForm.reports_iff hnb hd.1 hholds hd.2
  | signedUInt64 form y =>
    obtain ⟨y', hy', hvalue⟩ := @convert_of_isZero 64 (.uint64 y) hd
    obtain rfl := Except.ok.inj hy'
    exact SignedForm.reports_iff hnb (by decide) hholds hvalue
  | signedUInt32 form y =>
    obtain ⟨y', hy', hvalue⟩ := @convert_of_isZero 32 (.uint32 y) hd
    obtain rfl := Except.ok.inj hy'
    exact SignedForm.reports_iff hnb (by decide) hholds hvalue
  | signedInt32 form y => exact reports_signedInt32_iff hnb hholds hd
  | signedDivideEqual y =>
    exact reports_map_iff.trans (Intbv.reports_signedDivideEqual_iff hnb hd.1 hholds hd.2)
  | signedDivideEqualUInt64 y =>
    exact reports_map_iff.trans
      (reports_signedDivideEqualBy_iff (y := .int64 y) hnb (Nat.le_max_left ..) hholds hd)
  | signedDivideEqualUInt32 y =>
    exact reports_map_iff.trans
      (reports_signedDivideEqualBy_iff (y := .int32 y) hnb (Nat.le_max_left ..) hholds hd)
  | divideSignedAligned y =>
    exact reports_map_iff.trans (Intbv.reports_divideSignedAligned_iff hnb hholds hd)

/-- The remainder of a vector of 70 bits. -/
theorem reports_modulo_seventy :
    Reports (Division.run (Intbv.ofUInt32 70 5) (.unsigned .modulo (Intbv.zero 70))) := by
  have hx := @Intbv.holds_ofUInt32 70 5 (by decide)
  have hzero : (@Division.unsigned 70 .modulo _ (Intbv.zero 70)).ByZero :=
    ⟨by decide, Intbv.holds_zero⟩
  refine (reports_iff_tested (by decide) _ hx.clean _ hzero).mpr ?_
  rw [hx.toBitVec_eq]
  exact .inr (by decide)

/-- One word divided by zero stays as it is, and so does a zero of three words. -/
theorem divideByZero_not_reported :
    (Intbv.ofUInt32 32 5).signedDivide (Intbv.zero 32) = .ok (Intbv.ofUInt32 32 5) ∧
    (Intbv.zero 96).divide (Intbv.zero 96) = .ok (Intbv.zero 96) :=
  ⟨rfl, rfl⟩

end Adl.Helpers
