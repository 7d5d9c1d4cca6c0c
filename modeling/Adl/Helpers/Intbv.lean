import Adl.Helpers.IntbvFields

/-!
# Bit vectors of a fixed width

A bit vector of `nb` bits keeps its value in whole words. Most operations work on the storage and
then clear the bits above the width. Positions count from the most significant bit, which is bit 0.
An assertion that fails gives `none`.
-/

namespace Adl.Helpers

open IntbvBase (words Fault)

/-- A bit vector of `nb` bits in whole words. -/
structure Intbv (nb : ℕ) where
  base : IntbvBase (words nb)

namespace Intbv

variable {nb nb₂ : ℕ}

/-! ### Construction -/

/-- The number without the unused bits. -/
def toBitVec (x : Intbv nb) : BitVec nb := x.base.toBitVec.setWidth nb

def sanitize (x : Intbv nb) : Intbv nb := ⟨x.base.sanitize nb⟩

def zero (nb : ℕ) : Intbv nb := ⟨.reset _⟩

/-- A vector of ones. -/
def ones (nb : ℕ) : Intbv nb := sanitize ⟨.set _⟩

def ofUInt32 (nb : ℕ) (val : BitVec 32) : Intbv nb := sanitize ⟨.ofUInt32 val _⟩

/-- The constructor that leaves the storage as it comes. -/
def ofUInt32Unsafe (nb : ℕ) (val : BitVec 32) : Intbv nb := ⟨.ofUInt32 val _⟩

def ofUInt64 (nb : ℕ) (val : BitVec 64) : Intbv nb := sanitize ⟨.ofUInt64 val _⟩

/-- The copy constructor. Vectors of the same width are copied word by word. -/
def copy (nb : ℕ) (x : Intbv nb₂) : Intbv nb :=
  if nb₂ < nb then sanitize ⟨(IntbvBase.reset _).constructFromSmallerSized x.base⟩
  else if nb < nb₂ then sanitize ⟨(IntbvBase.reset _).constructFromLargerSized x.base⟩
  else ⟨(IntbvBase.reset _).constructFromLargerSized x.base⟩

/-- Assignment. Only a narrower vector is followed by clearing the storage. -/
def assign (this : Intbv nb) (x : Intbv nb₂) : Intbv nb :=
  if nb₂ < nb then sanitize ⟨this.base.constructFromSmallerSized x.base⟩
  else ⟨this.base.constructFromLargerSized x.base⟩

/-- The low 32 bits of the storage. -/
def uint32 (x : Intbv nb) : ℕ := x.base.toNat % 2 ^ 32

/-! ### Fields and bits -/

def get (x : Intbv nb) (position : ℕ) : Option Bool :=
  if position < nb then some (x.base.uncheckedTest nb position) else none

def uncheckedSet (x : Intbv nb) (position : ℕ) (val : Bool) : Option (Intbv nb) :=
  (x.base.uncheckedSet nb position val).map mk

def set (x : Intbv nb) (position : ℕ) (val : Bool) : Option (Intbv nb) :=
  if position < nb then x.uncheckedSet position val else none

def setField (x : Intbv nb) (start stop : ℕ) (y : Intbv nb) : Option (Intbv nb) :=
  (x.base.setField nb (start % nb) (stop % nb) y.base).map mk

def getField (x : Intbv nb) (start stop : ℕ) : Option (Intbv nb) :=
  (x.base.getField nb (start % nb) (stop % nb)).map fun r => sanitize ⟨r⟩

/-- A field as a vector of another width. -/
def getFieldAs (x : Intbv nb) (nb₂ start stop : ℕ) : Option (Intbv nb₂) :=
  (x.base.getField nb (start % nb) (stop % nb)).map fun r => copy nb₂ (mk r : Intbv nb)

/-- Write every bit from `start` to `stop`, around the end if `stop` comes first. -/
def fill (x value : Intbv nb) (start stop : ℕ) : Option (Intbv nb) :=
  if start ≤ stop then x.setField start stop value
  else do
    let x ← x.setField start (nb - 1) value
    x.setField 0 stop value

/-- Set the bits from `start` to `stop`, around the end if need be. -/
def mask (x : Intbv nb) (start stop : ℕ) : Option (Intbv nb) := x.fill (ones nb) start stop

/-- Clear the bits from `start` to `stop`, around the end if need be. -/
def maskInv (x : Intbv nb) (start stop : ℕ) : Option (Intbv nb) := x.fill (zero nb) start stop

def simpleMask (x : Intbv nb) (start stop : ℕ) : Option (Intbv nb) :=
  if start ≤ stop then x.setField start stop (ones nb) else none

def simpleMaskInv (x : Intbv nb) (start stop : ℕ) : Option (Intbv nb) :=
  if start ≤ stop then x.setField start stop (zero nb) else none

/-- Extend the sign at `bit` over the bits before it. -/
def signExtend (x : Intbv nb) (bit : ℕ) : Option (Intbv nb) :=
  if nb = 1 then some x
  else do
    if ← x.get bit then x.simpleMask 0 bit else x.simpleMaskInv 0 bit

/-- The value in another width, with its sign extended if that is wider. -/
def signExtendTo (x : Intbv nb) (nb₂ : ℕ) : Option (Intbv nb₂) :=
  let y := copy nb₂ x
  if nb < nb₂ then do
    if ← x.get 0 then y.simpleMask 0 (nb₂ - nb) else some y
  else some y

def ofInt32 (nb : ℕ) (val : BitVec 32) : Option (Intbv nb) :=
  let x : Intbv nb := sanitize ⟨.ofInt32 val _⟩
  if val.msb ∧ 32 < nb then x.signExtend (nb - 32) else some x

def ofInt64 (nb : ℕ) (val : BitVec 64) : Option (Intbv nb) :=
  let x : Intbv nb := sanitize ⟨.ofInt64 val _⟩
  if val.msb ∧ 64 < nb then x.signExtend (nb - 64) else some x

/-! ### Arithmetic and logic -/

def add (x y : Intbv nb) : Intbv nb := sanitize ⟨x.base.add y.base⟩

def subtract (x y : Intbv nb) : Intbv nb := sanitize ⟨x.base.subtract y.base⟩

def multiply (x y : Intbv nb) : Intbv nb := sanitize ⟨x.base.multiply y.base⟩

def signedMultiplyEqual (x y : Intbv nb) : Intbv nb := sanitize ⟨x.base.multiplySigned y.base⟩

/-- The product with an unsigned integer, of which the storage takes 32 bits. -/
def signedMultiplyEqualUInt64 (x : Intbv nb) (y : BitVec 64) : Intbv nb :=
  sanitize ⟨x.base.multiplySignedUInt32 (y.setWidth 32)⟩

def divide (x y : Intbv nb) : Except Fault (Intbv nb) :=
  (x.base.divide y.base).map fun q => sanitize ⟨q⟩

def modulo (x y : Intbv nb) : Except Fault (Intbv nb) := do
  let q ← x.divide y
  return sanitize (x.subtract (q.multiply y))

/-- A quotient of another width: divide in the larger width, then truncate. -/
def divideOther (x : Intbv nb) (y : Intbv nb₂) : Except Fault (Intbv nb) := do
  let q ← (copy (max nb nb₂) x).divide (copy (max nb nb₂) y)
  return sanitize (x.assign q)

def moduloOther (x : Intbv nb) (y : Intbv nb₂) : Except Fault (Intbv nb) := do
  let r ← (copy (max nb nb₂) x).modulo (copy (max nb nb₂) y)
  return sanitize (x.assign r)

def divideSignedAligned (x y : Intbv nb) : Except Fault (Intbv nb) :=
  (x.base.divideSigned y.base).map fun q => sanitize ⟨q⟩

/-- The whole words of `nb` bits. -/
def wordAligned (nb : ℕ) : ℕ := 32 * words nb

/-- Extend the sign of a vector of `nb` bits that was copied to a larger width. -/
def extendFrom (nb : ℕ) (x : Intbv nb₂) : Option (Intbv nb₂) :=
  if nb < nb₂ then x.signExtend (nb₂ - nb) else some x

/-- An assertion that fails is a fault. -/
def asserted {α : Type} (r : Option α) : Except Fault α := r.elim (.error .assertion) .ok

/-- The signed quotient, in the whole words of the divisor. -/
def signedDivideEqual (x : Intbv nb) (y : Intbv nb₂) : Except Fault (Intbv nb) := do
  let tmp ← asserted (extendFrom nb (copy (wordAligned nb₂) x))
  let rhs ← asserted (extendFrom nb₂ (copy (wordAligned nb₂) y))
  let q ← tmp.divideSignedAligned rhs
  return sanitize (x.assign q)

def bitAnd (x y : Intbv nb) : Intbv nb := ⟨x.base.and y.base⟩

def bitOr (x y : Intbv nb) : Intbv nb := ⟨x.base.or y.base⟩

def bitXor (x y : Intbv nb) : Intbv nb := ⟨x.base.xor y.base⟩

def invert (x : Intbv nb) : Intbv nb := sanitize ⟨x.base.invert⟩

def negate (x : Intbv nb) : Intbv nb := sanitize ⟨x.base.negate⟩

/-! ### Shifts, rotations and swaps -/

def leftShift (x : Intbv nb) (position : ℕ) : Intbv nb :=
  if position < nb then sanitize ⟨x.base.leftShift position⟩ else zero nb

def rightShift (x : Intbv nb) (position : ℕ) : Intbv nb :=
  if position < nb then sanitize ⟨x.base.rightShift position⟩ else zero nb

/-- The sign bit moves to the position, and is extended from there. -/
def signedRightShiftEqual (x : Intbv nb) (position : ℕ) : Option (Intbv nb) :=
  let sbit := x.base.uncheckedTest nb 0
  let y := x.rightShift position
  if position < nb then y.signExtend position
  else if sbit then some y.invert else some y

def leftRotate (x : Intbv nb) (position : ℕ) : Intbv nb :=
  let position := position % nb
  sanitize (if position ≠ 0 ∧ position ≠ nb then ⟨x.base.leftRotate position nb⟩ else x)

def rightRotate (x : Intbv nb) (position : ℕ) : Intbv nb :=
  let position := position % nb
  sanitize (if position ≠ 0 ∧ position ≠ nb then ⟨x.base.rightRotate position nb⟩ else x)

/-- The number of storage bits that do not belong to the vector. -/
def adjust (nb : ℕ) : ℕ := 32 * words nb - nb

def swapBytes (x : Intbv nb) : Intbv nb :=
  let res := x.base.swapBytes
  if nb % 32 ≠ 0 then ⟨res.rightShift (adjust nb)⟩ else ⟨res⟩

def swapWords (x : Intbv nb) : Intbv nb :=
  let adjust := if nb % 32 ≠ 0 then adjust nb else 0
  let res := x.base.swapWords adjust
  if adjust ≠ 0 then ⟨res.rightShift adjust⟩ else ⟨res⟩

/-! ### Comparison -/

def isEqual (x y : Intbv nb) : Bool := x.base.isEqual y.base

def lessThan (x y : Intbv nb) : Bool := x.base.lessThan y.base

def lessThanEqual (x y : Intbv nb) : Bool := x.base.lessThanEqual y.base

def greaterThan (x y : Intbv nb) : Bool := x.base.greaterThan y.base

def greaterThanEqual (x y : Intbv nb) : Bool := x.base.greaterThanEqual y.base

def signedLT (x y : Intbv nb) : Bool := x.base.signedLessThan nb y.base

def signedLE (x y : Intbv nb) : Bool := x.base.signedLessThanEqual nb y.base

def signedGT (x y : Intbv nb) : Bool := x.base.signedGreaterThan nb y.base

def signedGE (x y : Intbv nb) : Bool := x.base.signedGreaterThanEqual nb y.base

/-! ### Values -/

/-- The storage holds a value, and its other bits are zero. -/
def Holds (x : Intbv nb) (v : BitVec nb) : Prop :=
  ∀ i, x.base.toBitVec.getLsbD i = v.getLsbD i

/-- The unused bits are zero. -/
def Clean (x : Intbv nb) : Prop := ∀ i, nb ≤ i → x.base.toBitVec.getLsbD i = false

variable {x y : Intbv nb} {v w : BitVec nb}

theorem words_pos (h : 0 < nb) : 0 < words nb := by
  rw [words]
  omega

theorem le_bits (nb : ℕ) : nb ≤ 32 * words nb := IntbvBase.le_bits_of_words rfl

theorem getLsbD_toBitVec {i : ℕ} :
    x.toBitVec.getLsbD i = (decide (i < nb) && x.base.toBitVec.getLsbD i) := by
  rw [toBitVec, BitVec.getLsbD_setWidth]

theorem Holds.toBitVec_eq (h : x.Holds v) : x.toBitVec = v := by
  apply BitVec.eq_of_getLsbD_eq
  intro i hi
  rw [getLsbD_toBitVec, decide_eq_true hi, Bool.true_and, h i]

/-- A vector that holds a number has no unused bits set. -/
theorem Holds.clean (h : x.Holds v) : x.Clean := by
  intro i hi
  rw [h i, BitVec.getLsbD_of_ge v i hi]

/-- Without unused bits the words are the number. -/
theorem Clean.holds (h : x.Clean) : x.Holds x.toBitVec := by
  intro i
  rw [getLsbD_toBitVec]
  by_cases hi : i < nb
  · rw [decide_eq_true hi, Bool.true_and]
  · rw [h i (by omega), Bool.and_false]

/-- The words are determined by the number. -/
theorem Holds.eq (h : x.Holds v) (h' : y.Holds v) : x = y := by
  have hbase : x.base = y.base := IntbvBase.toBitVec_injective
    (BitVec.eq_of_getLsbD_eq fun i _ => (h i).trans (h' i).symm)
  cases x
  cases y
  exact congrArg mk hbase

theorem Holds.toNat_eq (h : x.Holds v) : x.base.toNat = v.toNat := by
  apply Nat.eq_of_testBit_eq
  intro i
  rw [← IntbvBase.getLsbD_toBitVec, h i, BitVec.getLsbD]

theorem holds_of_toNat (h : x.base.toNat = v.toNat) : x.Holds v := by
  intro i
  rw [IntbvBase.getLsbD_toBitVec, h, BitVec.getLsbD]

/-- Clearing the storage keeps the value. -/
theorem holds_sanitize : x.sanitize.Holds x.toBitVec := by
  intro i
  rw [getLsbD_toBitVec]
  exact IntbvBase.getLsbD_sanitize rfl

theorem holds_sanitize_mk {b : IntbvBase (words nb)} (h : b.toBitVec.setWidth nb = v) :
    (sanitize ⟨b⟩).Holds v :=
  h ▸ holds_sanitize

/-- What `sanitize` is for. -/
theorem sanitize_clean : x.sanitize.Clean := holds_sanitize.clean

theorem Holds.sanitize (h : x.Holds v) : x.sanitize.Holds v := by
  have hsanitize := holds_sanitize (x := x)
  rwa [h.toBitVec_eq] at hsanitize

theorem holds_zero : (zero nb).Holds (BitVec.ofNat nb 0) := by
  intro i
  rw [zero, IntbvBase.toBitVec_reset, BitVec.getLsbD_zero, BitVec.getLsbD_zero]

theorem holds_ones : (ones nb).Holds (BitVec.allOnes nb) := by
  apply holds_sanitize_mk
  apply BitVec.eq_of_getLsbD_eq
  intro i hi
  have hbits := le_bits nb
  rw [BitVec.getLsbD_setWidth, IntbvBase.toBitVec_set, BitVec.getLsbD_allOnes,
    BitVec.getLsbD_allOnes, decide_eq_true hi, decide_eq_true (by omega), Bool.and_true]

theorem holds_ofUInt32 {val : BitVec 32} (h : 0 < nb) :
    (ofUInt32 nb val).Holds (val.setWidth nb) := by
  apply holds_sanitize_mk
  apply BitVec.eq_of_getLsbD_eq
  intro i hi
  rw [BitVec.getLsbD_setWidth, BitVec.getLsbD_setWidth, IntbvBase.getLsbD_toBitVec,
    IntbvBase.toNat_ofUInt32 (words_pos h), BitVec.testBit_toNat]

/-! ### Arithmetic and logic on values -/

theorem holds_add (hx : x.Holds v) (hy : y.Holds w) : (x.add y).Holds (v + w) := by
  apply holds_sanitize_mk
  rw [IntbvBase.toBitVec_add, BitVec.setWidth_add _ _ (le_bits nb)]
  exact congrArg₂ (· + ·) hx.toBitVec_eq hy.toBitVec_eq

theorem holds_subtract (hx : x.Holds v) (hy : y.Holds w) : (x.subtract y).Holds (v - w) := by
  apply holds_sanitize_mk
  rw [IntbvBase.toBitVec_subtract, BitVec.sub_eq_add_neg, BitVec.setWidth_add _ _ (le_bits nb),
    BitVec.setWidth_neg_of_le (le_bits nb), ← BitVec.sub_eq_add_neg]
  exact congrArg₂ (· - ·) hx.toBitVec_eq hy.toBitVec_eq

theorem holds_negate (hx : x.Holds v) : x.negate.Holds (-v) := by
  apply holds_sanitize_mk
  rw [IntbvBase.toBitVec_negate, BitVec.setWidth_neg_of_le (le_bits nb)]
  exact congrArg (- ·) hx.toBitVec_eq

theorem holds_bitAnd (hx : x.Holds v) (hy : y.Holds w) : (x.bitAnd y).Holds (v &&& w) := by
  intro i
  rw [bitAnd, IntbvBase.toBitVec_and, BitVec.getLsbD_and, BitVec.getLsbD_and, hx i, hy i]

theorem holds_bitOr (hx : x.Holds v) (hy : y.Holds w) : (x.bitOr y).Holds (v ||| w) := by
  intro i
  rw [bitOr, IntbvBase.toBitVec_or, BitVec.getLsbD_or, BitVec.getLsbD_or, hx i, hy i]

theorem holds_bitXor (hx : x.Holds v) (hy : y.Holds w) : (x.bitXor y).Holds (v ^^^ w) := by
  intro i
  rw [bitXor, IntbvBase.toBitVec_xor, BitVec.getLsbD_xor, BitVec.getLsbD_xor, hx i, hy i]

theorem holds_invert (hx : x.Holds v) : x.invert.Holds (~~~v) := by
  apply holds_sanitize_mk
  rw [IntbvBase.toBitVec_invert, BitVec.setWidth_not (le_bits nb)]
  exact congrArg (~~~ ·) hx.toBitVec_eq

theorem holds_leftShift {s : ℕ} (hx : x.Holds v) : (x.leftShift s).Holds (v <<< s) := by
  have hbits := le_bits nb
  rw [leftShift]
  split
  case isTrue hs =>
    apply holds_sanitize_mk
    apply BitVec.eq_of_getLsbD_eq
    intro i hi
    rw [BitVec.getLsbD_setWidth, IntbvBase.toBitVec_leftShift (by omega), BitVec.getLsbD_shiftLeft,
      BitVec.getLsbD_shiftLeft, hx, decide_eq_true hi,
      decide_eq_true (by omega : i < 32 * words nb),
      Bool.true_and]
  case isFalse hs =>
    rw [BitVec.shiftLeft_eq_zero (by omega)]
    exact holds_zero

theorem holds_rightShift {s : ℕ} (hx : x.Holds v) : (x.rightShift s).Holds (v >>> s) := by
  have hbits := le_bits nb
  rw [rightShift]
  split
  case isTrue hs =>
    apply holds_sanitize_mk
    apply BitVec.eq_of_getLsbD_eq
    intro i hi
    rw [BitVec.getLsbD_setWidth, IntbvBase.toBitVec_rightShift (by omega),
      BitVec.getLsbD_ushiftRight, BitVec.getLsbD_ushiftRight, hx, decide_eq_true hi, Bool.true_and]
  case isFalse hs =>
    rw [BitVec.ushiftRight_eq_zero (by omega)]
    exact holds_zero

/-! ### Comparison of values -/

theorem isEqual_eq (hx : x.Holds v) (hy : y.Holds w) : x.isEqual y = (v == w) := by
  rw [Bool.eq_iff_iff, isEqual, IntbvBase.isEqual_iff, hx.toNat_eq, hy.toNat_eq, beq_iff_eq,
    BitVec.toNat_inj]

theorem lessThan_eq (h : 0 < nb) (hx : x.Holds v) (hy : y.Holds w) :
    x.lessThan y = v.ult w := by
  rw [Bool.eq_iff_iff, lessThan, IntbvBase.lessThan_iff (words_pos h), hx.toNat_eq, hy.toNat_eq,
    BitVec.ult_iff_lt, BitVec.lt_def]

theorem lessThanEqual_eq (h : 0 < nb) (hx : x.Holds v) (hy : y.Holds w) :
    x.lessThanEqual y = v.ule w := by
  rw [Bool.eq_iff_iff, lessThanEqual, IntbvBase.lessThanEqual_iff (words_pos h), hx.toNat_eq,
    hy.toNat_eq, BitVec.ule_iff_le, BitVec.le_def]

theorem greaterThan_eq (h : 0 < nb) : x.greaterThan y = y.lessThan x :=
  IntbvBase.greaterThan_eq (words_pos h)

theorem greaterThanEqual_eq (h : 0 < nb) : x.greaterThanEqual y = y.lessThanEqual x :=
  IntbvBase.greaterThanEqual_eq (words_pos h)

/-- The sign is the highest bit that is used. -/
theorem msb_eq (h : 0 < nb) (hx : x.Holds v) : x.base.msb nb = v.msb := by
  rw [IntbvBase.msb_eq rfl h, hx, BitVec.msb_eq_getLsbD_last]

theorem signedLT_eq (h : 0 < nb) (hx : x.Holds v) (hy : y.Holds w) :
    x.signedLT y = v.slt w := by
  have hunsigned : x.base.lessThan y.base = v.ult w := lessThan_eq h hx hy
  rw [signedLT, IntbvBase.signedLessThan, if_neg (words_pos h).ne', msb_eq h hx, msb_eq h hy,
    hunsigned]
  by_cases hsign : v.msb = w.msb
  · rw [BitVec.slt_eq_ult_of_msb_eq hsign, hsign]
    cases w.msb <;> rfl
  · rw [BitVec.slt_eq_not_ult_of_msb_neq hsign, BitVec.ult_eq_msb_of_msb_neq hsign]
    cases hv : v.msb <;> cases hw : w.msb <;> simp_all

/-- The greater of two numbers, with the operands of the comparison exchanged. -/
theorem signedGT_eq (h : 0 < nb) (hx : x.Holds v) (hy : y.Holds w) : x.signedGT y = w.slt v := by
  rw [← signedLT_eq h hy hx, signedGT, signedLT, IntbvBase.signedGreaterThan,
    IntbvBase.signedLessThan, IntbvBase.greaterThan_eq (words_pos h)]
  cases x.base.msb nb <;> cases y.base.msb nb <;> simp

theorem signedLE_eq (h : 0 < nb) (hx : x.Holds v) (hy : y.Holds w) :
    x.signedLE y = v.sle w := by
  have hless : x.base.signedLessThan nb y.base = v.slt w := signedLT_eq h hx hy
  have hequal : x.base.isEqual y.base = (v == w) := isEqual_eq hx hy
  rw [signedLE, IntbvBase.signedLessThanEqual, hless, hequal, BitVec.sle_eq_slt_or_eq]

theorem signedGE_eq (h : 0 < nb) (hx : x.Holds v) (hy : y.Holds w) :
    x.signedGE y = w.sle v := by
  have hgreater : x.base.signedGreaterThan nb y.base = w.slt v := signedGT_eq h hx hy
  have hequal : x.base.isEqual y.base = (v == w) := isEqual_eq hx hy
  rw [signedGE, IntbvBase.signedGreaterThanEqual, hgreater, hequal, BitVec.sle_eq_slt_or_eq,
    Bool.beq_comm]

/-! ### Fields and conversions -/

/-- The bits that a field is written to come from the low bits of the written value. -/
theorem getLsbD_setField {r : Intbv nb} {start stop : ℕ} (hnb : 0 < nb)
    (h : x.setField start stop y = some r) :
    start % nb ≤ stop % nb ∧ ∀ i, r.base.toBitVec.getLsbD i =
      if nb - 1 - stop % nb ≤ i ∧ i ≤ nb - 1 - start % nb then
        y.base.toBitVec.getLsbD (i - (nb - 1 - stop % nb))
      else x.base.toBitVec.getLsbD i := by
  have hstart := Nat.mod_lt start hnb
  have hstop := Nat.mod_lt stop hnb
  by_cases hle : start % nb ≤ stop % nb
  · obtain ⟨b, hb, hbits⟩ := IntbvBase.setField_eq (x := x.base) (y := y.base) rfl hle hstop
    rw [setField, hb, Option.map_some] at h
    obtain rfl := Option.some.inj h
    exact ⟨hle, hbits⟩
  · rw [setField, IntbvBase.setField, IntbvBase.fieldPosition_eq hstart,
      IntbvBase.fieldPosition_eq hstop, if_pos ⟨(words_pos hnb).ne', by omega⟩] at h
    cases h

/-- A field that is read has no bits beyond its own. -/
theorem getLsbD_getField {b : IntbvBase (words nb)} {start stop : ℕ} (hnb : 0 < nb)
    (h : x.base.getField nb (start % nb) (stop % nb) = some b) :
    start % nb ≤ stop % nb ∧ ∀ i, b.toBitVec.getLsbD i =
      (decide (i ≤ stop % nb - start % nb) &&
        x.base.toBitVec.getLsbD (nb - 1 - stop % nb + i)) := by
  have hstart := Nat.mod_lt start hnb
  have hstop := Nat.mod_lt stop hnb
  by_cases hle : start % nb ≤ stop % nb
  · obtain ⟨b', hb', hbits⟩ := IntbvBase.getField_eq (x := x.base) rfl hle hstop
    rw [hb'] at h
    obtain rfl := Option.some.inj h
    exact ⟨hle, hbits⟩
  · rw [IntbvBase.getField, IntbvBase.fieldPosition_eq hstart,
      IntbvBase.fieldPosition_eq hstop, if_pos ⟨(words_pos hnb).ne', by omega⟩] at h
    cases h

theorem words_mono (h : nb ≤ nb₂) : words nb ≤ words nb₂ := by
  rw [words, words]
  omega

/-- A vector that is not narrower is assigned its low words. -/
theorem toNat_assign {z : Intbv nb₂} (hnb : 0 < nb) (h : nb ≤ nb₂) :
    (x.assign z).base.toNat = z.base.toNat % 2 ^ (32 * words nb) := by
  rw [assign, if_neg (Nat.not_lt.mpr h)]
  exact IntbvBase.toNat_constructFromLargerSized (words_pos hnb) (words_mono h)

/-- A copy holds the value in the other width. -/
theorem holds_copy {z : Intbv nb₂} {u : BitVec nb₂} (hnb : 0 < nb) (hnb₂ : 0 < nb₂)
    (hz : z.Holds u) : (copy nb z).Holds (u.setWidth nb) := by
  have hvalue {b : IntbvBase (words nb)} (hb : b.toNat = u.toNat % 2 ^ (32 * words nb)) :
      b.toBitVec.setWidth nb = u.setWidth nb := by
    apply BitVec.eq_of_getLsbD_eq
    intro i hi
    have hbits := le_bits nb
    rw [BitVec.getLsbD_setWidth, BitVec.getLsbD_setWidth, IntbvBase.getLsbD_toBitVec, hb,
      Nat.testBit_mod_two_pow, decide_eq_true (by omega : i < 32 * words nb), Bool.true_and,
      BitVec.testBit_toNat]
  have hu := u.isLt
  rw [copy]
  split
  case isTrue hlt =>
    refine holds_sanitize_mk (hvalue ?_)
    rw [IntbvBase.toNat_constructFromSmallerSized (words_pos hnb₂) (words_mono hlt.le),
      hz.toNat_eq, Nat.mod_eq_of_lt]
    exact hu.trans_le (Nat.pow_le_pow_right (by decide) (hlt.le.trans (le_bits nb)))
  case isFalse hge =>
    have hlarger : ((IntbvBase.reset _).constructFromLargerSized z.base : IntbvBase
        (words nb)).toNat = u.toNat % 2 ^ (32 * words nb) := by
      rw [IntbvBase.toNat_constructFromLargerSized (words_pos hnb) (words_mono (by omega)),
        hz.toNat_eq]
    split
    case isTrue hlt => exact holds_sanitize_mk (hvalue hlarger)
    case isFalse hge' =>
      obtain rfl : nb = nb₂ := by omega
      apply holds_of_toNat
      rw [hlarger, BitVec.setWidth_eq, Nat.mod_eq_of_lt]
      exact hu.trans_le (Nat.pow_le_pow_right (by decide) (le_bits nb))

/-! ### Signs -/

/-- A field from the most significant bit on that is filled with one bit. -/
theorem getLsbD_setField_zero {r : Intbv nb} {bit : ℕ} {b : Bool} (hbit : bit < nb)
    (hy : ∀ i, i < nb → y.base.toBitVec.getLsbD i = b)
    (h : x.setField 0 bit y = some r) {i : ℕ} (hi : i < nb) :
    r.base.toBitVec.getLsbD i =
      if nb - 1 - bit ≤ i then b else x.base.toBitVec.getLsbD i := by
  obtain ⟨-, hbits⟩ := getLsbD_setField (by omega) h
  rw [hbits, Nat.zero_mod, Nat.mod_eq_of_lt hbit]
  split
  case isTrue hfield => rw [if_pos hfield.1, hy _ (by omega)]
  case isFalse hfield => rw [if_neg (by omega)]

/-- The bits from the sign on are copies of it. -/
theorem getLsbD_signExtend {r : Intbv nb} {bit : ℕ} (h : x.signExtend bit = some r)
    (hbit : bit < nb) {i : ℕ} (hi : i < nb) :
    r.base.toBitVec.getLsbD i = if nb - 1 - bit ≤ i then x.base.toBitVec.getLsbD (nb - 1 - bit)
      else x.base.toBitVec.getLsbD i := by
  rw [signExtend] at h
  split at h
  case isTrue hone =>
    obtain rfl := Option.some.inj h
    obtain rfl : i = nb - 1 - bit := by omega
    rw [ite_self]
  case isFalse =>
    obtain ⟨sign, hsign, h⟩ := Option.bind_eq_some_iff.mp h
    rw [get, if_pos hbit, IntbvBase.uncheckedTest_eq rfl hbit] at hsign
    have hsign := Option.some.inj hsign
    split at h
    case isTrue htrue =>
      rw [simpleMask, if_pos (Nat.zero_le _)] at h
      rw [hsign, htrue]
      refine getLsbD_setField_zero hbit (fun j hj => ?_) h hi
      rw [holds_ones, BitVec.getLsbD_allOnes, decide_eq_true hj]
    case isFalse hfalse =>
      rw [simpleMaskInv, if_pos (Nat.zero_le _)] at h
      rw [hsign, Bool.eq_false_of_not_eq_true hfalse]
      refine getLsbD_setField_zero hbit (fun j _ => ?_) h hi
      rw [holds_zero, BitVec.getLsbD_zero]

theorem holds_signedRightShiftEqual {r : Intbv nb} {s : ℕ} (hnb : 0 < nb) (hx : x.Holds v)
    (h : x.signedRightShiftEqual s = some r) : r.toBitVec = v.sshiftRight s := by
  have hshift := holds_rightShift (s := s) hx
  have hsign : x.base.uncheckedTest nb 0 = v.msb := by
    rw [IntbvBase.uncheckedTest_eq rfl hnb, hx, BitVec.msb_eq_getLsbD_last, Nat.sub_zero]
  apply BitVec.eq_of_getLsbD_eq
  intro i hi
  rw [getLsbD_toBitVec, decide_eq_true hi, Bool.true_and, BitVec.getLsbD_sshiftRight,
    decide_eq_false (Nat.not_le.mpr hi), Bool.not_false, Bool.true_and]
  rw [signedRightShiftEqual, hsign] at h
  split at h
  case isTrue hs =>
    rw [getLsbD_signExtend h hs hi, hshift, hshift, BitVec.getLsbD_ushiftRight,
      BitVec.getLsbD_ushiftRight, BitVec.msb_eq_getLsbD_last,
      show s + (nb - 1 - s) = nb - 1 by omega]
    by_cases hlast : s + i < nb
    · rw [if_pos hlast]
      split
      · rw [show s + i = nb - 1 by omega]
      · rfl
    · rw [if_neg hlast, if_pos (by omega)]
  case isFalse hs =>
    have hzero : v >>> s = BitVec.ofNat nb 0 := BitVec.ushiftRight_eq_zero (by omega)
    rw [hzero] at hshift
    rw [if_neg (by omega)]
    split at h
    case isTrue hmsb =>
      obtain rfl := Option.some.inj h
      rw [holds_invert hshift, BitVec.not_zero, BitVec.getLsbD_allOnes, decide_eq_true hi, hmsb]
    case isFalse hmsb =>
      obtain rfl := Option.some.inj h
      rw [hshift, BitVec.getLsbD_zero, Bool.eq_false_of_not_eq_true hmsb]

end Intbv

end Adl.Helpers
