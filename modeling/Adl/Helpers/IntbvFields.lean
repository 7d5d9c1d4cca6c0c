import Mathlib.Tactic.IntervalCases
import Adl.Helpers.IntbvBase

/-!
# Fields, rotations, swaps and products of the storage

A field of a vector is read by a shift to the left and a shift to the right; it is written through a
mask that is shifted in the same way. A rotation puts together two shifts. Positions count from the
most significant bit of the vector and so depend on its width `nb`.
-/

namespace Adl.Helpers.IntbvBase

variable {n nb : ℕ}

/-! ### Fields -/

/-- The one-word implementation takes a position as it is. -/
def fieldPosition (n nb pos : ℕ) : ℕ := if n = 1 then pos else pos % nb

def getField (nb start stop : ℕ) (x : IntbvBase n) : Option (IntbvBase n) :=
  let start := fieldPosition n nb start
  let stop := fieldPosition n nb stop
  if n ≠ 0 ∧ stop < start then none
  else some ((x.leftShift (32 * n - nb + start)).rightShift
    ((32 * n - nb + start) + (nb - 1 - stop)))

/-- The mask of a field: ones that are shifted into its place. -/
def fieldMask (nb start stop n : ℕ) : IntbvBase n :=
  (((set n).leftShift (32 * n - nb + start)).rightShift
    ((32 * n - nb + start) + (nb - 1 - stop))).leftShift (nb - 1 - stop)

def setField (nb start stop : ℕ) (this x : IntbvBase n) : Option (IntbvBase n) :=
  let start := fieldPosition n nb start
  let stop := fieldPosition n nb stop
  if n ≠ 0 ∧ stop < start then none
  else
    let mask := fieldMask nb start stop n
    some ((this.and mask.invert).or ((x.leftShift (nb - 1 - stop)).and mask))

/-! ### Rotations and swaps -/

def leftRotate (shift nb : ℕ) (this : IntbvBase n) : IntbvBase n :=
  let mask := (set n).leftShift (nb - shift)
  (this.leftShift shift).or ((this.and mask).rightShift (nb - shift))

def rightRotate (shift nb : ℕ) (this : IntbvBase n) : IntbvBase n :=
  let mask := (set n).rightShift (nb - shift)
  (this.rightShift shift).or ((this.and mask).leftShift (nb - shift))

def swapUInt32 (x : BitVec 32) : BitVec 32 :=
  (x <<< 24) ||| ((x &&& 0x0000ff00) <<< 8) ||| ((x &&& 0x00ff0000) >>> 8) ||| (x >>> 24)

def swapUInt64 (x : BitVec 64) : BitVec 64 :=
  (x <<< 56) |||
    ((x &&& 0x000000000000ff00) <<< 40) |||
    ((x &&& 0x0000000000ff0000) <<< 24) |||
    ((x &&& 0x00000000ff000000) <<< 8) |||
    ((x &&& 0x000000ff00000000) >>> 8) |||
    ((x &&& 0x0000ff0000000000) >>> 24) |||
    ((x &&& 0x00ff000000000000) >>> 40) |||
    (x >>> 56)

def swapBytes : IntbvBase n → IntbvBase n :=
  map swapUInt32 swapUInt64 (fun w => w.reverse.map swapUInt32) fun _ _ => by simp

/-- Reverse the words; the new last word is shifted to make up for the shift that follows. -/
def swapWords (adjust : ℕ) : IntbvBase n → IntbvBase n :=
  map id (fun w => ((w <<< adjust) >>> 32) ||| (w <<< 32))
    (fun w => w.reverse.modify (w.length - 1) (· <<< adjust)) fun _ _ => by simp

/-! ### Products and quotients -/

/-- The product; an array has shortcuts for zero and one. -/
def multiply (this x : IntbvBase n) : IntbvBase n :=
  match this, x with
  | empty, empty => empty
  | one w, one x => one (w * x)
  | two w, two x => two (w * x)
  | many w hw, many x hx =>
    let this := many w hw
    let rhs := many x hx
    if this.isEqual (reset _) || rhs.isEqual (reset _) then reset _
    else if rhs.isEqual (ofUInt32 1 _) then this
    else if this.isEqual (ofUInt32 1 _) then rhs
    else many (multiplyWords w x) (by rw [length_multiplyWords, hw])

/-- The product of absolute values with its sign. An array takes a first word that is not zero for a
negative number; the other implementations use the multiplication of signed integers, which has the
bits of the unsigned one. -/
def multiplySigned (this x : IntbvBase n) : IntbvBase n :=
  match this, x with
  | many w hw, many x hx =>
    let negativeY := w.getD 0 0 != 0
    let negativeX := x.getD 0 0 != 0
    let this := if negativeY then (many w hw).negate else many w hw
    let tmp := if negativeX then (many x hx).negate else many x hx
    let product := this.multiply tmp
    if negativeX != negativeY then product.negate else product
  | this, x => this.multiply x

/-- As `multiplySigned`, by a number that is not negative. -/
def multiplySignedUInt32 (this : IntbvBase n) (x : BitVec 32) : IntbvBase n :=
  match this with
  | many w hw =>
    let negativeY := w.getD 0 0 != 0
    let this := if negativeY then (many w hw).negate else many w hw
    let product := this.multiply (ofUInt32 x _)
    if negativeY then product.negate else product
  | this => this.multiply (ofUInt32 x _)

/-- Why an operation has no result. -/
inductive Fault where
  /-- The error of a division by zero, with its text. -/
  | divideByZero (message : String)
  /-- The processor divides the most negative integer by minus one. -/
  | overflow
  /-- An assertion fails. -/
  | assertion
deriving DecidableEq, Repr

theorem length_divideWords_many {w x : WordArray} {n : ℕ} (hw : w.length = n + 3) :
    (divideWords w x).length = n + 3 := by
  rw [length_divideWords (by omega), hw]

/-- The quotient. An array tests its dividend for zero before the divisor. -/
def divide (this x : IntbvBase n) : Except Fault (IntbvBase n) :=
  match this, x with
  | empty, empty => .ok empty
  | one w, one x =>
    if x = 0 then .error (.divideByZero "ERROR3: attempt to divide by zero.")
    else .ok (one (w / x))
  | two w, two x =>
    if x = 0 then .error (.divideByZero "ERROR7: attempt to divide by zero.")
    else .ok (two (w / x))
  | many w hw, many x hx =>
    let this := many w hw
    let rhs := many x hx
    if this.isEqual (reset _) then .ok (reset _)
    else if rhs.isEqual (reset _) then
      .error (.divideByZero "ERROR8: attempt to divide by zero.")
    else if rhs.isEqual (ofUInt32 1 _) then .ok this
    else .ok (many (divideWords w x) (length_divideWords_many hw))

/-- The quotient of two signed integers of the processor. -/
def nativeDivide {W : ℕ} (w x : BitVec W) : Except Fault (BitVec W) :=
  if w = BitVec.intMin W ∧ x = -1 then .error .overflow else .ok (w.sdiv x)

/-- The quotient of signed numbers. One word divided by zero stays as it is. -/
def divideSigned (this x : IntbvBase n) : Except Fault (IntbvBase n) :=
  match this, x with
  | empty, empty => .ok empty
  | one w, one x => if x = 0 then .ok (one w) else (nativeDivide w x).map one
  | two w, two x =>
    if x = 0 then .error (.divideByZero "ERROR6: attempt to divide by zero.")
    else (nativeDivide w x).map two
  | many w hw, many x hx => do
    let negativeY := (w.getD 0 0).msb
    let negativeX := (x.getD 0 0).msb
    let this := if negativeY then (many w hw).negate else many w hw
    let tmp := if negativeX then (many x hx).negate else many x hx
    let quotient ← this.divide tmp
    return if negativeX != negativeY then quotient.negate else quotient

/-! ### Bits of fields -/

section

variable {x y : IntbvBase n} {i start stop : ℕ}

theorem fieldPosition_eq {pos : ℕ} (h : pos < nb) : fieldPosition n nb pos = pos := by
  rw [fieldPosition]
  split
  · rfl
  · exact Nat.mod_eq_of_lt h

theorem le_bits_of_words (h : n = words nb) : nb ≤ 32 * n := by
  rw [h, words]
  omega

theorem getField_eq (h : n = words nb) (hle : start ≤ stop) (hstop : stop < nb) :
    ∃ r, x.getField nb start stop = some r ∧ ∀ i, r.toBitVec.getLsbD i =
      (decide (i ≤ stop - start) && x.toBitVec.getLsbD (nb - 1 - stop + i)) := by
  have hbits := le_bits_of_words h
  rw [getField, fieldPosition_eq (by omega : start < nb), fieldPosition_eq hstop, if_neg (by omega)]
  refine ⟨_, rfl, fun i => ?_⟩
  rw [toBitVec_rightShift (by omega), toBitVec_leftShift (by omega), BitVec.getLsbD_ushiftRight,
    BitVec.getLsbD_shiftLeft]
  have hplace : 32 * n - nb + start + (nb - 1 - stop) + i - (32 * n - nb + start) =
      nb - 1 - stop + i := by omega
  have hlow : 32 * n - nb + start + (nb - 1 - stop) + i < 32 * n ↔ i ≤ stop - start := by omega
  have hhigh : ¬ 32 * n - nb + start + (nb - 1 - stop) + i < 32 * n - nb + start := by omega
  rw [hplace, decide_eq_false hhigh, decide_eq_decide.mpr hlow, Bool.not_false, Bool.and_true]

theorem getLsbD_fieldMask (h : n = words nb) (hle : start ≤ stop) (hstop : stop < nb) :
    (fieldMask nb start stop n).toBitVec.getLsbD i =
      decide (nb - 1 - stop ≤ i ∧ i ≤ nb - 1 - start) := by
  have hbits := le_bits_of_words h
  rw [fieldMask, toBitVec_leftShift (by omega), toBitVec_rightShift (by omega),
    toBitVec_leftShift (by omega), toBitVec_set, BitVec.getLsbD_shiftLeft,
    BitVec.getLsbD_ushiftRight, BitVec.getLsbD_shiftLeft, BitVec.getLsbD_allOnes]
  rw [Bool.eq_iff_iff]
  simp only [Bool.and_eq_true, Bool.not_eq_true', decide_eq_true_eq, decide_eq_false_iff_not]
  omega

theorem setField_eq (h : n = words nb) (hle : start ≤ stop) (hstop : stop < nb) :
    ∃ r, x.setField nb start stop y = some r ∧ ∀ i, r.toBitVec.getLsbD i =
      if nb - 1 - stop ≤ i ∧ i ≤ nb - 1 - start then y.toBitVec.getLsbD (i - (nb - 1 - stop))
      else x.toBitVec.getLsbD i := by
  have hbits := le_bits_of_words h
  rw [setField, fieldPosition_eq (by omega : start < nb), fieldPosition_eq hstop, if_neg (by omega)]
  refine ⟨_, rfl, fun i => ?_⟩
  rw [toBitVec_or, toBitVec_and, toBitVec_invert, toBitVec_and, toBitVec_leftShift (by omega),
    BitVec.getLsbD_or, BitVec.getLsbD_and, BitVec.getLsbD_and, BitVec.getLsbD_not,
    BitVec.getLsbD_shiftLeft, getLsbD_fieldMask h hle hstop]
  by_cases hi : i < 32 * n
  · split
    case isTrue hfield =>
      simp [hi, hfield, show ¬ i < nb - 1 - stop by omega]
    case isFalse hfield =>
      rw [decide_eq_false hfield, decide_eq_true hi]
      simp
  · rw [if_neg (by omega), BitVec.getLsbD_of_ge x.toBitVec _ (by omega), decide_eq_false hi]
    simp

/-! ### Bits of rotations and swaps -/

theorem getLsbD_leftRotate {s : ℕ} (h : n = words nb) (hpos : 0 < s) (hs : s < nb) :
    (x.leftRotate s nb).toBitVec.getLsbD i =
      ((decide (s ≤ i ∧ i < 32 * n) && x.toBitVec.getLsbD (i - s)) ||
        x.toBitVec.getLsbD (nb - s + i)) := by
  have hbits := le_bits_of_words h
  rw [leftRotate, toBitVec_or, toBitVec_leftShift (by omega), toBitVec_rightShift (by omega),
    toBitVec_and, toBitVec_leftShift (by omega), toBitVec_set, BitVec.getLsbD_or,
    BitVec.getLsbD_shiftLeft, BitVec.getLsbD_ushiftRight, BitVec.getLsbD_and,
    BitVec.getLsbD_shiftLeft, BitVec.getLsbD_allOnes]
  congr 1
  · congr 1
    rw [Bool.eq_iff_iff]
    simp only [Bool.and_eq_true, Bool.not_eq_true', decide_eq_true_eq, decide_eq_false_iff_not]
    omega
  · by_cases hi : nb - s + i < 32 * n
    · simp [hi, show i < 32 * n by omega]
    · rw [BitVec.getLsbD_of_ge _ _ (by omega), Bool.false_and]

theorem getLsbD_rightRotate {s : ℕ} (h : n = words nb) (hpos : 0 < s) (hs : s < nb) :
    (x.rightRotate s nb).toBitVec.getLsbD i =
      (x.toBitVec.getLsbD (s + i) ||
        (decide (nb - s ≤ i ∧ i < 32 * n) && x.toBitVec.getLsbD (i - (nb - s)))) := by
  have hbits := le_bits_of_words h
  rw [rightRotate, toBitVec_or, toBitVec_leftShift (by omega), toBitVec_rightShift (by omega),
    toBitVec_and, toBitVec_rightShift (by omega), toBitVec_set, BitVec.getLsbD_or,
    BitVec.getLsbD_shiftLeft, BitVec.getLsbD_ushiftRight, BitVec.getLsbD_and,
    BitVec.getLsbD_ushiftRight, BitVec.getLsbD_allOnes]
  congr 1
  by_cases hi : nb - s ≤ i ∧ i < 32 * n
  · rw [decide_eq_true hi.2, decide_eq_false (by omega), decide_eq_true (by omega),
      decide_eq_true hi]
    simp
  · rw [decide_eq_false hi]
    by_cases hlt : i < 32 * n
    · rw [decide_eq_true (show i < nb - s by omega)]
      simp
    · rw [decide_eq_false hlt]
      simp

theorem getLsbD_swapUInt32 {w : BitVec 32} (hi : i < 32) :
    (swapUInt32 w).getLsbD i = w.getLsbD (8 * (3 - i / 8) + i % 8) := by
  interval_cases i <;> simp [swapUInt32]

theorem getLsbD_swapUInt64 {w : BitVec 64} (hi : i < 64) :
    (swapUInt64 w).getLsbD i = w.getLsbD (8 * (7 - i / 8) + i % 8) := by
  interval_cases i <;> simp [swapUInt64]

theorem getLsbD_swapBytes (hi : i < 32 * n) :
    x.swapBytes.toBitVec.getLsbD i = x.toBitVec.getLsbD (8 * (4 * n - 1 - i / 8) + i % 8) := by
  cases x with
  | empty => cases hi
  | one w => rw [getLsbD_toBitVec, getLsbD_toBitVec]; exact getLsbD_swapUInt32 hi
  | two w => rw [getLsbD_toBitVec, getLsbD_toBitVec]; exact getLsbD_swapUInt64 hi
  | @many k w hw =>
    rw [getLsbD_eq_getwords hi, getLsbD_eq_getwords (by omega)]
    change ((w.reverse.map swapUInt32).getD _ 0).getLsbD _ = (w.getD _ 0).getLsbD _
    rw [List.getD_eq_getElem _ _ (by simp; omega), List.getD_eq_getElem _ _ (by omega),
      List.getElem_map, List.getElem_reverse, getLsbD_swapUInt32 (Nat.mod_lt _ (by decide))]
    congr 2
    · omega
    · omega

end

end Adl.Helpers.IntbvBase
