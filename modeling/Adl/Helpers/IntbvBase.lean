import Adl.Helpers.WordArrays

/-!
# The storage of bit vectors

A bit vector is stored in words of 32 bits, with separate implementations for one word, for two
words in a 64-bit integer and for an array of three and more words. The operations work on all bits
of the storage; `sanitize` clears those above the width.

An assertion that fails gives `none`. Where the source asserts that sizes exclude a case, the
storage is left as it is.
-/

namespace Adl.Helpers

open Math (limbs)

/-- The storage of a bit vector of `n` words. -/
inductive IntbvBase : ℕ → Type
  | empty : IntbvBase 0
  | one (w : BitVec 32) : IntbvBase 1
  | two (w : BitVec 64) : IntbvBase 2
  | many {n : ℕ} (w : WordArray) (length : w.length = n + 3) : IntbvBase (n + 3)

namespace IntbvBase

variable {n m nb : ℕ}

/-! ### Storage -/

/-- The words as one number, with the last word lowest. -/
def toNat : IntbvBase n → ℕ
  | empty => 0
  | one w => w.toNat
  | two w => w.toNat
  | many w _ => limbs w

theorem toNat_lt (x : IntbvBase n) : x.toNat < 2 ^ (32 * n) := by
  cases x with
  | empty => exact Nat.one_pos
  | one w => exact w.isLt
  | two w => exact w.isLt
  | many w length => exact Math.limbs_lt.trans_eq (by rw [length])

def toBitVec (x : IntbvBase n) : BitVec (32 * n) := BitVec.ofNat _ x.toNat

@[simp] theorem toNat_toBitVec {x : IntbvBase n} : x.toBitVec.toNat = x.toNat := by
  rw [toBitVec, BitVec.toNat_ofNat, Nat.mod_eq_of_lt x.toNat_lt]

/-- The storage of a number is unique. -/
theorem ext_toNat {x y : IntbvBase n} (h : x.toNat = y.toNat) : x = y := by
  cases x with
  | empty => cases y; rfl
  | one w => cases y; exact congrArg one (BitVec.eq_of_toNat_eq h)
  | two w => cases y; exact congrArg two (BitVec.eq_of_toNat_eq h)
  | many w hw =>
    cases y with
    | many v hv => simpa using (Math.limbs_inj (hw.trans hv.symm)).mp h

theorem toBitVec_injective {x y : IntbvBase n} (h : x.toBitVec = y.toBitVec) : x = y :=
  ext_toNat (by rw [← toNat_toBitVec, h, toNat_toBitVec])

theorem getLsbD_toBitVec {x : IntbvBase n} {i : ℕ} :
    x.toBitVec.getLsbD i = x.toNat.testBit i := by
  rw [BitVec.getLsbD, toNat_toBitVec]

/-- Apply a function of each implementation. -/
def map (f : BitVec 32 → BitVec 32) (g : BitVec 64 → BitVec 64) (h : WordArray → WordArray)
    (length : ∀ w, 0 < w.length → (h w).length = w.length) : IntbvBase n → IntbvBase n
  | empty => empty
  | one w => one (f w)
  | two w => two (g w)
  | many w hw => many (h w) (by rw [length w (by omega), hw])

/-- Apply a function of two arguments of each implementation. -/
def map₂ (f : BitVec 32 → BitVec 32 → BitVec 32) (g : BitVec 64 → BitVec 64 → BitVec 64)
    (h : WordArray → WordArray → WordArray)
    (length : ∀ w x, 0 < w.length → w.length = x.length → (h w x).length = w.length) :
    IntbvBase n → IntbvBase n → IntbvBase n
  | empty, empty => empty
  | one w, one x => one (f w x)
  | two w, two x => two (g w x)
  | many w hw, many x hx => many (h w x) (by rw [length w x (by omega) (hw.trans hx.symm), hw])

def reset : (n : ℕ) → IntbvBase n
  | 0 => empty
  | 1 => one 0
  | 2 => two 0
  | n + 3 => many (List.replicate (n + 3) 0) List.length_replicate

def set : (n : ℕ) → IntbvBase n
  | 0 => empty
  | 1 => one (~~~0)
  | 2 => two (~~~0)
  | n + 3 => many (List.replicate (n + 3) (~~~0)) List.length_replicate

/-! ### Constructors -/

def ofUInt32 (val : BitVec 32) : (n : ℕ) → IntbvBase n
  | 0 => empty
  | 1 => one val
  | 2 => two (val.setWidth 64)
  | n + 3 => many (List.replicate (n + 2) 0 ++ [val]) (by simp)

def ofUInt64 (val : BitVec 64) : (n : ℕ) → IntbvBase n
  | 0 => empty
  | 1 => one (val.setWidth 32)
  | 2 => two val
  | n + 3 =>
    many (List.replicate (n + 1) (0 : BitVec 32) ++ [(val >>> 32).setWidth 32, val.setWidth 32])
      (by simp)

/-- The conversion to 64 bits extends the sign, an array takes the number as its last word. -/
def ofInt32 (val : BitVec 32) : (n : ℕ) → IntbvBase n
  | 0 => empty
  | 1 => one val
  | 2 => two (val.signExtend 64)
  | n + 3 => many (List.replicate (n + 2) 0 ++ [val]) (by simp)

def ofInt64 (val : BitVec 64) : (n : ℕ) → IntbvBase n
  | 0 => empty
  | 1 => one (val.setWidth 32)
  | 2 => two val
  | n + 3 =>
    many (List.replicate (n + 1) 0 ++ [(val.sshiftRight 32).setWidth 32, val.setWidth 32])
      (by simp)

/-- The words of a storage, the most significant one first. -/
def getwords : IntbvBase n → WordArray
  | empty => []
  | one w => [w]
  | two w => [(w >>> 32).setWidth 32, w.setWidth 32]
  | many w _ => w

@[simp] theorem length_getwords {x : IntbvBase n} : x.getwords.length = n := by
  cases x with
  | empty => rfl
  | one w => rfl
  | two w => rfl
  | many w length => exact length

/-- Overwrite the storage with one that is not larger: the words before are zero. -/
def constructFromSmallerSized (this : IntbvBase n) (x : IntbvBase m) : IntbvBase n :=
  match this, x with
  | empty, _ => empty
  | one _, one x => one x
  | one w, _ => one w
  | two _, one x => two (x.setWidth 64)
  | two _, two x => two x
  | two w, _ => two w
  | many (n := k) w hw, x =>
    if h : 0 < m ∧ m ≤ k + 3 then
      many (List.replicate (k + 3 - m) 0 ++ x.getwords) (by simp; omega)
    else many w hw

/-- Overwrite the storage with the last words of one that is not smaller. -/
def constructFromLargerSized (this : IntbvBase n) (x : IntbvBase m) : IntbvBase n :=
  match this, x with
  | empty, _ => empty
  | one w, empty => one w
  | one _, one x => one x
  | one _, two x => one (x.setWidth 32)
  | one _, many (n := k) x _ => one (x.getD (k + 2) 0)
  | two _, two x => two x
  | two _, many (n := k) x _ =>
    two (((x.getD (k + 1) 0).setWidth 64 <<< 32) ||| (x.getD (k + 2) 0).setWidth 64)
  | two w, _ => two w
  | many (n := k) w hw, x =>
    if h : k + 3 ≤ m then many (x.getwords.drop (m - (k + 3))) (by simp; omega) else many w hw

/-- The words are the limbs of the number, whatever the storage. -/
theorem limbs_getwords {x : IntbvBase n} : limbs x.getwords = x.toNat := by
  cases x with
  | empty => rfl
  | one w => exact Math.limbs_singleton
  | two w =>
    have hw := w.isLt
    simp only [getwords, limbs, List.length_cons, List.length_nil, BitVec.toNat_setWidth,
      BitVec.toNat_ushiftRight, Nat.shiftRight_eq_div_pow, toNat]
    omega
  | many w length => rfl

theorem drop_last {w : WordArray} (h : w.length = n + 1) : w.drop n = [w.getD n 0] := by
  rw [List.drop_eq_getElem_cons (by omega), List.drop_eq_nil_of_le (by omega),
    List.getD_eq_getElem _ _ (by omega)]

theorem drop_last_two {w : WordArray} (h : w.length = n + 2) :
    w.drop n = [w.getD n 0, w.getD (n + 1) 0] := by
  rw [List.drop_eq_getElem_cons (by omega), drop_last h,
    List.getD_eq_getElem _ _ (by omega : n < w.length)]

/-- Two words next to each other. -/
theorem toNat_shiftLeft_or {high low : BitVec 32} :
    ((high.setWidth 64 <<< 32) ||| low.setWidth 64).toNat = 2 ^ 32 * high.toNat + low.toNat := by
  have hhigh := high.isLt
  have hlow := low.isLt
  rw [BitVec.toNat_or, BitVec.toNat_shiftLeft, BitVec.toNat_setWidth, BitVec.toNat_setWidth,
    Nat.mod_eq_of_lt (by omega : high.toNat < 2 ^ 64),
    Nat.mod_eq_of_lt (by omega : low.toNat < 2 ^ 64), Nat.shiftLeft_eq,
    Nat.mod_eq_of_lt (by omega), ← Nat.shiftLeft_eq, ← Nat.shiftLeft_add_eq_or_of_lt hlow,
    Nat.shiftLeft_eq, Nat.mul_comm]

theorem toNat_constructFromSmallerSized {x : IntbvBase m} {this : IntbvBase n} (hm : 0 < m)
    (h : m ≤ n) : (this.constructFromSmallerSized x).toNat = x.toNat := by
  cases this with
  | empty => omega
  | one w =>
    cases x with
    | empty => cases hm
    | one w' => rfl
    | two w' => omega
    | many w' _ => omega
  | two w =>
    cases x with
    | empty => cases hm
    | one w' =>
      simp only [constructFromSmallerSized, toNat, BitVec.toNat_setWidth]
      exact Nat.mod_eq_of_lt (Nat.lt_trans w'.isLt (by decide))
    | two w' => rfl
    | many w' _ => omega
  | many w hw =>
    rw [constructFromSmallerSized, dif_pos ⟨hm, h⟩, toNat, Math.limbs_append,
      Math.limbs_replicate_zero, limbs_getwords, Nat.mul_zero, Nat.zero_add]

theorem toNat_constructFromLargerSized {x : IntbvBase m} {this : IntbvBase n} (hn : 0 < n)
    (h : n ≤ m) : (this.constructFromLargerSized x).toNat = x.toNat % 2 ^ (32 * n) := by
  have hwords := limbs_getwords (x := x)
  cases this with
  | empty => cases hn
  | one w =>
    cases x with
    | empty => omega
    | one w' => exact (Nat.mod_eq_of_lt w'.isLt).symm
    | two w' => simp [constructFromLargerSized, toNat]
    | many w' hw' =>
      rw [constructFromLargerSized, toNat, toNat, ← Math.limbs_singleton, ← drop_last hw',
        Math.limbs_drop, hw']
      congr 3
      omega
  | two w =>
    cases x with
    | empty => omega
    | one w' => omega
    | two w' => exact (Nat.mod_eq_of_lt w'.isLt).symm
    | many w' hw' =>
      have hlast := congrArg limbs (drop_last_two hw')
      rw [Math.limbs_drop, hw', limbs, Math.limbs_singleton] at hlast
      rw [constructFromLargerSized, toNat, toNat, toNat_shiftLeft_or]
      refine hlast.symm.trans ?_
      congr 3
      omega
  | many w hw =>
    rw [constructFromLargerSized, dif_pos h, toNat, Math.limbs_drop, hwords, length_getwords,
      Nat.sub_sub_self h]

/-! ### Arithmetic and logic -/

def add : IntbvBase n → IntbvBase n → IntbvBase n :=
  map₂ (· + ·) (· + ·) addWords fun _ _ _ => length_addWords

def subtract : IntbvBase n → IntbvBase n → IntbvBase n :=
  map₂ (· - ·) (· - ·) subtractWords fun _ _ _ => length_subtractWords

private theorem length_zipWith {f : BitVec 32 → BitVec 32 → BitVec 32} {w x : WordArray}
    (h : w.length = x.length) : (List.zipWith f w x).length = w.length := by
  rw [List.length_zipWith, ← h, Nat.min_self]

/-- An operation that works on each bit alone. -/
def bitwise (op : (W : ℕ) → BitVec W → BitVec W → BitVec W) :
    IntbvBase n → IntbvBase n → IntbvBase n :=
  map₂ (op 32) (op 64) (List.zipWith (op 32)) fun _ _ _ => length_zipWith

def and : IntbvBase n → IntbvBase n → IntbvBase n := bitwise fun _ w x => w &&& x

def or : IntbvBase n → IntbvBase n → IntbvBase n := bitwise fun _ w x => w ||| x

def xor : IntbvBase n → IntbvBase n → IntbvBase n := bitwise fun _ w x => w ^^^ x

def invert : IntbvBase n → IntbvBase n :=
  map (~~~·) (~~~·) (List.map (~~~·)) fun _ _ => List.length_map _

def negate (x : IntbvBase n) : IntbvBase n :=
  x.invert.add (ofUInt32 1 n)

def leftShift (shift : ℕ) : IntbvBase n → IntbvBase n :=
  map (· <<< shift) (· <<< shift) (leftShiftWords shift) fun _ => length_leftShiftWords

def rightShift (shift : ℕ) : IntbvBase n → IntbvBase n :=
  map (· >>> shift) (· >>> shift) (rightShiftWords shift) fun _ _ => length_rightShiftWords

section

variable {x y : IntbvBase n}

@[simp] theorem toBitVec_add : (x.add y).toBitVec = x.toBitVec + y.toBitVec := by
  apply BitVec.eq_of_toNat_eq
  rw [toNat_toBitVec, BitVec.toNat_add, toNat_toBitVec, toNat_toBitVec]
  cases x with
  | empty => cases y; rfl
  | one w => cases y; exact BitVec.toNat_add _ _
  | two w => cases y; exact BitVec.toNat_add _ _
  | many w hw =>
    cases y with
    | many v hv => exact (limbs_addWords (hw.trans hv.symm)).trans (by rw [hw]; rfl)

@[simp] theorem toBitVec_subtract : (x.subtract y).toBitVec = x.toBitVec - y.toBitVec := by
  apply BitVec.eq_of_toNat_eq
  rw [toNat_toBitVec, BitVec.toNat_sub, toNat_toBitVec, toNat_toBitVec]
  cases x with
  | empty => cases y; rfl
  | one w => cases y; exact BitVec.toNat_sub _ _
  | two w => cases y; exact BitVec.toNat_sub _ _
  | many w hw =>
    cases y with
    | many v hv => exact (limbs_subtractWords (hw.trans hv.symm)).trans (by rw [hw]; rfl)

/-- An operation on bits does not depend on the size of the words. -/
theorem toBitVec_bitwise {op : (W : ℕ) → BitVec W → BitVec W → BitVec W} {b : Bool → Bool → Bool}
    (hop : ∀ W w x i, (op W w x).getLsbD i = b (w.getLsbD i) (x.getLsbD i)) :
    (bitwise op x y).toBitVec = op (32 * n) x.toBitVec y.toBitVec := by
  apply BitVec.eq_of_getLsbD_eq
  intro i hi
  rw [hop, getLsbD_toBitVec, getLsbD_toBitVec, getLsbD_toBitVec]
  cases x with
  | empty => cases hi
  | one w => cases y; exact hop 32 w _ i
  | two w => cases y; exact hop 64 w _ i
  | many w hw =>
    cases y with
    | many v hv =>
      have hlength := hw.trans hv.symm
      refine (Math.testBit_limbs (by decide) i).trans ?_
      rw [Math.limbBit_zipWith (fun w x i _ => hop 32 w x i) (by decide) hlength (by rwa [hw]),
        ← Math.testBit_limbs (by decide), ← Math.testBit_limbs (by decide)]
      rfl

@[simp] theorem toBitVec_and : (x.and y).toBitVec = x.toBitVec &&& y.toBitVec :=
  toBitVec_bitwise (b := (· && ·)) fun _ _ _ _ => BitVec.getLsbD_and

@[simp] theorem toBitVec_or : (x.or y).toBitVec = x.toBitVec ||| y.toBitVec :=
  toBitVec_bitwise (b := (· || ·)) fun _ _ _ _ => BitVec.getLsbD_or

@[simp] theorem toBitVec_xor : (x.xor y).toBitVec = x.toBitVec ^^^ y.toBitVec :=
  toBitVec_bitwise (b := (· ^^ ·)) fun _ _ _ _ => BitVec.getLsbD_xor

@[simp] theorem toBitVec_invert : x.invert.toBitVec = ~~~x.toBitVec := by
  apply BitVec.eq_of_toNat_eq
  rw [toNat_toBitVec, BitVec.toNat_not, toNat_toBitVec]
  cases x with
  | empty => rfl
  | one w => exact BitVec.toNat_not
  | two w => exact BitVec.toNat_not
  | many w hw => exact Math.limbs_map_not.trans (by rw [hw]; rfl)

@[simp] theorem toBitVec_leftShift {shift : ℕ} (h : shift < 32 * n) :
    (x.leftShift shift).toBitVec = x.toBitVec <<< shift := by
  apply BitVec.eq_of_toNat_eq
  rw [toNat_toBitVec, BitVec.toNat_shiftLeft, toNat_toBitVec]
  cases x with
  | empty => cases h
  | one w => exact BitVec.toNat_shiftLeft
  | two w => exact BitVec.toNat_shiftLeft
  | many w hw =>
    rw [Nat.shiftLeft_eq]
    exact (limbs_leftShiftWords (by rwa [hw])).trans (by rw [hw]; rfl)

@[simp] theorem toBitVec_rightShift {shift : ℕ} (h : shift < 32 * n) :
    (x.rightShift shift).toBitVec = x.toBitVec >>> shift := by
  apply BitVec.eq_of_toNat_eq
  rw [toNat_toBitVec, BitVec.toNat_ushiftRight, toNat_toBitVec]
  cases x with
  | empty => cases h
  | one w => exact BitVec.toNat_ushiftRight ..
  | two w => exact BitVec.toNat_ushiftRight ..
  | many w hw =>
    rw [Nat.shiftRight_eq_div_pow]
    exact limbs_rightShiftWords (by rwa [hw])

theorem toNat_ofUInt32 {val : BitVec 32} (h : 0 < n) : (ofUInt32 val n).toNat = val.toNat := by
  match n with
  | 1 => rfl
  | 2 => exact BitVec.toNat_setWidth_of_le (by decide)
  | n + 3 =>
    rw [ofUInt32, toNat, Math.limbs_append, Math.limbs_replicate_zero, Math.limbs_singleton,
      Nat.mul_zero, Nat.zero_add]

@[simp] theorem toBitVec_reset : (reset n).toBitVec = 0#(32 * n) := by
  apply BitVec.eq_of_toNat_eq
  rw [toNat_toBitVec, BitVec.toNat_zero]
  match n with
  | 0 => rfl
  | 1 => rfl
  | 2 => rfl
  | n + 3 => exact Math.limbs_replicate_zero

@[simp] theorem toBitVec_set : (set n).toBitVec = BitVec.allOnes (32 * n) := by
  have hinvert : set n = (reset n).invert := by
    match n with
    | 0 => rfl
    | 1 => rfl
    | 2 => rfl
    | n + 3 => simp [set, reset, invert, map]
  rw [hinvert, toBitVec_invert, toBitVec_reset, BitVec.not_zero]

@[simp] theorem toBitVec_negate : x.negate.toBitVec = -x.toBitVec := by
  have hone (h : 0 < n) : (ofUInt32 1 n).toBitVec = 1#(32 * n) :=
    BitVec.eq_of_toNat_eq (by
      rw [toNat_toBitVec, toNat_ofUInt32 h, BitVec.toNat_ofNat, Nat.mod_eq_of_lt]
      · rfl
      · exact Nat.one_lt_two_pow (by omega))
  cases n with
  | zero => exact BitVec.eq_of_zero_length rfl
  | succ n => rw [negate, toBitVec_add, toBitVec_invert, hone (by omega), BitVec.neg_eq_not_add]

end

/-! ### Comparison -/

def isEqual : IntbvBase n → IntbvBase n → Bool
  | empty, empty => true
  | one w, one x => w == x
  | two w, two x => w == x
  | many w _, many x _ => w == x

/-- Compare with the function of each implementation; vectors without bits compare as true. -/
def compare (f : (W : ℕ) → BitVec W → BitVec W → Bool) (h : WordArray → WordArray → Bool) :
    IntbvBase n → IntbvBase n → Bool
  | empty, empty => true
  | one w, one x => f 32 w x
  | two w, two x => f 64 w x
  | many w _, many x _ => h w x

def lessThan : IntbvBase n → IntbvBase n → Bool :=
  compare (fun _ w x => decide (w < x)) lessThanWords

def lessThanEqual : IntbvBase n → IntbvBase n → Bool :=
  compare (fun _ w x => decide (w ≤ x)) lessThanEqualWords

def greaterThan : IntbvBase n → IntbvBase n → Bool :=
  compare (fun _ w x => decide (w > x)) greaterThanWords

def greaterThanEqual : IntbvBase n → IntbvBase n → Bool :=
  compare (fun _ w x => decide (w ≥ x)) greaterThanEqualWords

/-- The place of a bit in a word; bit 0 is the most significant one. The subtraction wraps. -/
def whichbit (bits nb pos : ℕ) : ℕ := (((nb : ℤ) - 1 - pos) % bits).toNat

def maskbit (W nb pos : ℕ) : BitVec W := 1#W <<< whichbit W nb pos

/-- The most significant bit of a vector of `nb` bits. -/
def msb (nb : ℕ) : IntbvBase n → Bool
  | empty => false
  | one w => (w &&& maskbit 32 nb 0) != 0
  | two w => (w &&& maskbit 64 nb 0) != 0
  | many w _ => (w.getD 0 0 &&& maskbit 32 nb 0) != 0

/-- Different signs decide, and equal signs leave it to the unsigned comparison. -/
def signedLessThan (nb : ℕ) (this x : IntbvBase n) : Bool :=
  if n = 0 then true
  else if this.msb nb && !x.msb nb then true
  else if !this.msb nb && x.msb nb then false
  else this.lessThan x

def signedLessThanEqual (nb : ℕ) (this x : IntbvBase n) : Bool :=
  this.signedLessThan nb x || this.isEqual x

def signedGreaterThan (nb : ℕ) (this x : IntbvBase n) : Bool :=
  if n = 0 then true
  else if this.msb nb && !x.msb nb then false
  else if !this.msb nb && x.msb nb then true
  else this.greaterThan x

def signedGreaterThanEqual (nb : ℕ) (this x : IntbvBase n) : Bool :=
  this.signedGreaterThan nb x || this.isEqual x

section

variable {x y : IntbvBase n}

theorem isEqual_iff : x.isEqual y = true ↔ x.toNat = y.toNat := by
  cases x with
  | empty => cases y; exact iff_of_true rfl rfl
  | one w => cases y; exact beq_iff_eq.trans BitVec.toNat_inj.symm
  | two w => cases y; exact beq_iff_eq.trans BitVec.toNat_inj.symm
  | many w hw =>
    cases y with
    | many v hv => exact beq_iff_eq.trans (Math.limbs_inj (hw.trans hv.symm)).symm

theorem lessThan_iff (h : 0 < n) : x.lessThan y = true ↔ x.toNat < y.toNat := by
  cases x with
  | empty => cases h
  | one w => cases y; exact decide_eq_true_iff
  | two w => cases y; exact decide_eq_true_iff
  | many w hw =>
    cases y with
    | many v hv =>
      have hcompare := Math.limbsCompare_eq (e := false) (hw.trans hv.symm)
      exact (Bool.eq_iff_iff.mp hcompare).trans (by simp [toNat])

theorem lessThanEqual_iff (h : 0 < n) : x.lessThanEqual y = true ↔ x.toNat ≤ y.toNat := by
  cases x with
  | empty => cases h
  | one w => cases y; exact decide_eq_true_iff
  | two w => cases y; exact decide_eq_true_iff
  | many w hw =>
    cases y with
    | many v hv =>
      have hcompare := Math.limbsCompare_eq (e := true) (hw.trans hv.symm)
      exact (Bool.eq_iff_iff.mp hcompare).trans (by simp [toNat, Nat.le_iff_lt_or_eq])

theorem greaterThan_eq (h : 0 < n) : x.greaterThan y = y.lessThan x := by
  cases x with
  | empty => cases h
  | one w => cases y; rfl
  | two w => cases y; rfl
  | many w hw => cases y; rfl

theorem greaterThanEqual_eq (h : 0 < n) : x.greaterThanEqual y = y.lessThanEqual x := by
  cases x with
  | empty => cases h
  | one w => cases y; rfl
  | two w => cases y; rfl
  | many w hw => cases y; rfl

end

/-! ### Bits -/

/-- The number of words for `nb` bits. -/
def words (nb : ℕ) : ℕ := (nb + 31) / 32

theorem whichbit_eq {bits pos : ℕ} (h : pos < nb) :
    whichbit bits nb pos = (nb - 1 - pos) % bits := by
  rw [whichbit, show ((nb : ℤ) - 1 - pos) = ((nb - 1 - pos : ℕ) : ℤ) by omega]
  rfl

theorem whichbit_lt {bits pos : ℕ} (h : 0 < bits) : whichbit bits nb pos < bits := by
  have hlt := Int.emod_lt_of_pos ((nb : ℤ) - 1 - pos) (by omega : (0 : ℤ) < bits)
  rw [whichbit]
  omega

/-- A mask of one bit tests this bit. -/
theorem and_maskbit {W pos : ℕ} {w : BitVec W} (hW : 0 < W) :
    ((w &&& maskbit W nb pos) != 0) = w.getLsbD (whichbit W nb pos) := by
  have htwo : maskbit W nb pos = BitVec.twoPow W (whichbit W nb pos) := rfl
  rw [htwo, BitVec.and_twoPow]
  cases w.getLsbD (whichbit W nb pos) with
  | false => simp
  | true =>
    have hpow : BitVec.twoPow W (whichbit W nb pos) ≠ 0 := by
      intro hzero
      have hbit := congrArg (·.getLsbD (whichbit W nb pos)) hzero
      simp [whichbit_lt hW] at hbit
    simpa using hpow

/-- The index of the word that holds a bit of an array of `nb` bits. -/
def whichword (nb pos : ℕ) : ℕ :=
  let leading_bits := nb % 32
  if leading_bits ≠ 0 ∧ pos ≤ leading_bits - 1 then 0
  else if leading_bits ≠ 0 then (pos - leading_bits) / 32 + 1
  else pos / 32

/-- The word that holds a bit. -/
def getword (nb pos : ℕ) : IntbvBase n → BitVec 32
  | empty => 0
  | one w => w
  | two w => if pos < nb - 32 then (w >>> 32).setWidth 32 else w.setWidth 32
  | many w _ => w.getD (whichword nb pos) 0

/-- Overwrite the word that holds a bit; outside of an array this is undefined. -/
def setword (nb pos : ℕ) (v : BitVec 32) : IntbvBase n → Option (IntbvBase n)
  | empty => some empty
  | one _ => some (one v)
  | two w =>
    if pos < nb - 32 then some (two ((w &&& (BitVec.allOnes 64 >>> 32)) ||| (v.setWidth 64 <<< 32)))
    else some (two ((w &&& (BitVec.allOnes 64 <<< 32)) ||| v.setWidth 64))
  | many w hw =>
    if whichword nb pos < w.length then
      some (many (w.set (whichword nb pos) v) (by rw [List.length_set, hw]))
    else none

/-- Test a bit without a check of its position. -/
def uncheckedTest (nb pos : ℕ) (x : IntbvBase n) : Bool :=
  (x.getword nb pos &&& maskbit 32 nb pos) != 0

/-- Set or clear a bit without a check of its position. -/
def uncheckedSet (nb pos : ℕ) (val : Bool) (x : IntbvBase n) : Option (IntbvBase n) :=
  let w := x.getword nb pos
  x.setword nb pos (if val then w ||| maskbit 32 nb pos else w &&& ~~~maskbit 32 nb pos)

/-- Clear the bits of a word from `bits` on. -/
def doSanitize (W bits : ℕ) (val : BitVec W) : BitVec W := val &&& ~~~(BitVec.allOnes W <<< bits)

/-- Clear the storage bits above a vector of `nb` bits. -/
def sanitize (nb : ℕ) (x : IntbvBase n) : IntbvBase n :=
  if nb % 32 = 0 then x else
    match x with
    | empty => empty
    | one w => one (doSanitize 32 (nb % 32) w)
    | two w => two (doSanitize 64 (32 + nb % 32) w)
    | many w hw => many (w.modify 0 (doSanitize 32 (nb % 32))) (by rw [List.length_modify, hw])

section

variable {x : IntbvBase n} {i pos : ℕ}

/-- The word of a position, which is counted from the highest bit. -/
theorem whichword_eq (h : n = words nb) (hpos : pos < nb) :
    whichword nb pos = n - 1 - (nb - 1 - pos) / 32 := by
  rw [words] at h
  simp only [whichword]
  split
  · omega
  · split <;> omega

/-- A storage bit in the word that holds it. -/
theorem getLsbD_eq_getwords (hi : i < 32 * n) :
    x.toBitVec.getLsbD i = (x.getwords.getD (n - 1 - i / 32) 0).getLsbD (i % 32) := by
  rw [getLsbD_toBitVec, ← limbs_getwords, Math.testBit_limbs (by decide), Math.limbBit,
    length_getwords, decide_eq_true (by omega : i / 32 < n), Bool.true_and]

theorem getLsbD_doSanitize {W bits : ℕ} {val : BitVec W} :
    (doSanitize W bits val).getLsbD i = (decide (i < bits) && val.getLsbD i) := by
  by_cases hi : i < W
  · by_cases hlow : i < bits <;> simp [doSanitize, hi, hlow]
  · rw [BitVec.getLsbD_of_ge _ _ (by omega), BitVec.getLsbD_of_ge _ _ (by omega), Bool.and_false]

/-- Only the unused bits are cleared. -/
theorem getLsbD_sanitize (h : n = words nb) :
    (x.sanitize nb).toBitVec.getLsbD i = (decide (i < nb) && x.toBitVec.getLsbD i) := by
  by_cases hi : i < 32 * n
  · rw [words] at h
    unfold sanitize
    split
    case isTrue hmod => rw [decide_eq_true (by omega), Bool.true_and]
    case isFalse hmod =>
      cases x with
      | empty => cases hi
      | one w =>
        rw [getLsbD_toBitVec, getLsbD_toBitVec]
        exact getLsbD_doSanitize.trans (by rw [show nb % 32 = nb by omega]; rfl)
      | two w =>
        rw [getLsbD_toBitVec, getLsbD_toBitVec]
        exact getLsbD_doSanitize.trans (by rw [show 32 + nb % 32 = nb by omega]; rfl)
      | @many k w hw =>
        rw [getLsbD_eq_getwords hi, getLsbD_eq_getwords hi, getwords, getwords]
        have hindex : k + 3 - 1 - i / 32 < w.length := by omega
        rw [List.getD_eq_getElem _ _ (by rwa [List.length_modify]), List.getD_eq_getElem _ _ hindex,
          List.getElem_modify]
        -- only the first word has bits to clear
        split
        case isTrue hfirst =>
          rw [getLsbD_doSanitize]
          congr 2
          exact propext (by omega)
        case isFalse hrest =>
          rw [decide_eq_true (by omega), Bool.true_and]
  · rw [BitVec.getLsbD_of_ge _ _ (by omega), BitVec.getLsbD_of_ge _ _ (by omega), Bool.and_false]

theorem getword_eq (h : n = words nb) (hpos : pos < nb) :
    x.getword nb pos = x.getwords.getD (n - 1 - (nb - 1 - pos) / 32) 0 := by
  rw [words] at h
  cases x with
  | empty => omega
  | one w =>
    rw [show 1 - 1 - (nb - 1 - pos) / 32 = 0 by omega]
    rfl
  | two w =>
    rw [getword]
    split
    case isTrue hlow =>
      rw [show 2 - 1 - (nb - 1 - pos) / 32 = 0 by omega]
      rfl
    case isFalse hhigh =>
      rw [show 2 - 1 - (nb - 1 - pos) / 32 = 1 by omega]
      rfl
  | @many k w hw =>
    rw [getword, getwords, whichword_eq h hpos]

theorem uncheckedTest_eq (h : n = words nb) (hpos : pos < nb) :
    x.uncheckedTest nb pos = x.toBitVec.getLsbD (nb - 1 - pos) := by
  have hbit : nb - 1 - pos < 32 * n := by rw [h, words]; omega
  rw [uncheckedTest, and_maskbit (by decide), whichbit_eq hpos, getword_eq h hpos,
    getLsbD_eq_getwords hbit]

theorem msb_eq (h : n = words nb) (hnb : 0 < nb) :
    x.msb nb = x.toBitVec.getLsbD (nb - 1) := by
  have hwords : n = (nb + 31) / 32 := h
  cases x with
  | empty => omega
  | one w =>
    rw [msb, and_maskbit (by decide), whichbit_eq hnb, getLsbD_toBitVec, Nat.sub_zero,
      Nat.mod_eq_of_lt (by omega)]
    rfl
  | two w =>
    rw [msb, and_maskbit (by decide), whichbit_eq hnb, getLsbD_toBitVec, Nat.sub_zero,
      Nat.mod_eq_of_lt (by omega)]
    rfl
  | @many k w hw =>
    rw [msb, and_maskbit (by decide), whichbit_eq hnb, getLsbD_eq_getwords (by omega), Nat.sub_zero,
      show k + 3 - 1 - (nb - 1) / 32 = 0 by omega]
    rfl

theorem getwords_setHigh {w : BitVec 64} {v : BitVec 32} :
    (two ((w &&& (BitVec.allOnes 64 >>> 32)) ||| (v.setWidth 64 <<< 32))).getwords =
      [v, w.setWidth 32] := by
  refine congrArg₂ (fun high low => [high, low]) ?_ ?_
  · ext i hi
    simp only [BitVec.getElem_setWidth, BitVec.getLsbD_ushiftRight, BitVec.getLsbD_or,
      BitVec.getLsbD_and, BitVec.getLsbD_allOnes, BitVec.getLsbD_shiftLeft,
      BitVec.getLsbD_setWidth, Nat.add_sub_cancel_left]
    simp [hi, show i < 64 by omega, show 32 + i < 64 by omega, show ¬ 32 + (32 + i) < 64 by omega]
  · ext i hi
    simp only [BitVec.getElem_setWidth, BitVec.getLsbD_ushiftRight, BitVec.getLsbD_or,
      BitVec.getLsbD_and, BitVec.getLsbD_allOnes, BitVec.getLsbD_shiftLeft, hi]
    simp
    omega

theorem getwords_setLow {w : BitVec 64} {v : BitVec 32} :
    (two ((w &&& (BitVec.allOnes 64 <<< 32)) ||| v.setWidth 64)).getwords =
      [(w >>> 32).setWidth 32, v] := by
  refine congrArg₂ (fun high low => [high, low]) ?_ ?_
  · ext i hi
    simp only [BitVec.getElem_setWidth, BitVec.getLsbD_ushiftRight, BitVec.getLsbD_or,
      BitVec.getLsbD_and, BitVec.getLsbD_allOnes, BitVec.getLsbD_shiftLeft,
      BitVec.getLsbD_setWidth, BitVec.getLsbD_of_ge v (32 + i) (by omega)]
    simp
    omega
  · ext i hi
    simp

/-- The word of a position is replaced in all storage classes. -/
theorem setword_eq {v : BitVec 32} (h : n = words nb) (hpos : pos < nb) :
    ∃ r, x.setword nb pos v = some r ∧
      r.getwords = x.getwords.set (n - 1 - (nb - 1 - pos) / 32) v := by
  have hwords : n = (nb + 31) / 32 := h
  cases x with
  | empty => omega
  | one w =>
    refine ⟨_, rfl, ?_⟩
    rw [show 1 - 1 - (nb - 1 - pos) / 32 = 0 by omega]
    rfl
  | two w =>
    rw [setword]
    split
    case isTrue hlow =>
      refine ⟨_, rfl, ?_⟩
      rw [show 2 - 1 - (nb - 1 - pos) / 32 = 0 by omega, getwords_setHigh]
      rfl
    case isFalse hhigh =>
      refine ⟨_, rfl, ?_⟩
      rw [show 2 - 1 - (nb - 1 - pos) / 32 = 1 by omega, getwords_setLow]
      rfl
  | @many k w hw =>
    have hword := whichword_eq h hpos
    rw [setword, if_pos (by omega)]
    exact ⟨_, rfl, by rw [getwords, hword]; rfl⟩

theorem getLsbD_set_maskbit {w : BitVec 32} {val : Bool} :
    (if val then w ||| maskbit 32 nb pos else w &&& ~~~maskbit 32 nb pos).getLsbD i =
      if i = whichbit 32 nb pos then val else w.getLsbD i := by
  have hplace : whichbit 32 nb pos < 32 := whichbit_lt (by decide)
  have hmask : (maskbit 32 nb pos).getLsbD i = decide (i = whichbit 32 nb pos) := by
    rw [maskbit, ← BitVec.twoPow, BitVec.getLsbD_twoPow, decide_eq_true hplace, Bool.true_and]
    exact decide_eq_decide.mpr eq_comm
  cases val with
  | false =>
    rw [if_neg Bool.false_ne_true, BitVec.getLsbD_and, BitVec.getLsbD_not, hmask]
    by_cases hi : i < 32
    · split <;> simp [*]
    · rw [BitVec.getLsbD_of_ge w i (by omega)]
      simp
  | true =>
    rw [if_pos rfl, BitVec.getLsbD_or, hmask]
    split <;> simp [*]

/-- One bit of the word at an index is set and every other storage bit is kept. -/
theorem getLsbD_of_getwords_set {r : IntbvBase n} {k : ℕ} {val : Bool} (hk : k < n)
    (h : r.getwords = x.getwords.set (n - 1 - k)
      (if val then x.getwords.getD (n - 1 - k) 0 ||| maskbit 32 nb pos
        else x.getwords.getD (n - 1 - k) 0 &&& ~~~maskbit 32 nb pos)) :
    r.toBitVec.getLsbD i =
      if i = 32 * k + whichbit 32 nb pos then val else x.toBitVec.getLsbD i := by
  have hplace : whichbit 32 nb pos < 32 := whichbit_lt (by decide)
  by_cases hi : i < 32 * n
  · have hindex : n - 1 - i / 32 < x.getwords.length := by rw [length_getwords]; omega
    rw [getLsbD_eq_getwords hi, getLsbD_eq_getwords hi, h,
      List.getD_eq_getElem _ _ (by rwa [List.length_set]), List.getElem_set]
    split
    case isTrue hword =>
      rw [hword, getLsbD_set_maskbit]
      congr 1
      exact propext (by omega)
    case isFalse hword =>
      have hother : i ≠ 32 * k + whichbit 32 nb pos := by omega
      rw [if_neg hother, List.getD_eq_getElem _ _ hindex]
  · rw [BitVec.getLsbD_of_ge _ _ (by omega), BitVec.getLsbD_of_ge _ _ (by omega),
      if_neg (by omega)]

/-- A bit of the vector is set and every other storage bit is kept. -/
theorem uncheckedSet_eq {val : Bool} (h : n = words nb) (hpos : pos < nb) :
    ∃ r, x.uncheckedSet nb pos val = some r ∧ ∀ i, r.toBitVec.getLsbD i =
      if i = nb - 1 - pos then val else x.toBitVec.getLsbD i := by
  obtain ⟨r, hr, hwords⟩ := setword_eq (x := x) (v := if val then
    x.getword nb pos ||| maskbit 32 nb pos else x.getword nb pos &&& ~~~maskbit 32 nb pos) h hpos
  refine ⟨r, hr, fun i => ?_⟩
  rw [getword_eq h hpos] at hwords
  rw [getLsbD_of_getwords_set (by rw [h, words]; omega) hwords, whichbit_eq hpos, Nat.div_add_mod]

/-- Without a check of the position one bit of the storage is set, perhaps outside of the vector. -/
theorem uncheckedSet_cases {val : Bool} {r : IntbvBase n} (h : n = words nb) (hnb : 0 < nb)
    (hr : x.uncheckedSet nb pos val = some r) :
    ∃ place, (place < nb ↔ 32 < nb ∨ whichbit 32 nb pos < nb) ∧ ∀ i, r.toBitVec.getLsbD i =
      if i = place then val else x.toBitVec.getLsbD i := by
  by_cases hpos : pos < nb
  · obtain ⟨r', hr', hbits⟩ := @uncheckedSet_eq _ _ x _ val h hpos
    obtain rfl := Option.some.inj (hr'.symm.trans hr)
    refine ⟨nb - 1 - pos, ?_, hbits⟩
    rw [whichbit_eq hpos]
    omega
  · have hwords : n = (nb + 31) / 32 := h
    have hplace : whichbit 32 nb pos < 32 := whichbit_lt (by decide)
    refine ⟨whichbit 32 nb pos, by omega, fun i => ?_⟩
    cases x with
    | empty => omega
    | one w =>
      obtain rfl := Option.some.inj hr
      refine (@getLsbD_of_getwords_set 1 nb (one w) i pos _ 0 val (by decide) rfl).trans ?_
      rw [Nat.mul_zero, Nat.zero_add]
    | two w =>
      have hlow : ¬ pos < nb - 32 := by omega
      have hword : (two w).getword nb pos = w.setWidth 32 := if_neg hlow
      rw [uncheckedSet, hword, setword, if_neg hlow] at hr
      obtain rfl := Option.some.inj hr
      refine (@getLsbD_of_getwords_set 2 nb (two w) i pos _ 0 val
        (by decide) getwords_setLow).trans ?_
      rw [Nat.mul_zero, Nat.zero_add]
    | @many k w hw =>
      -- behind the last bit there is no word of the array
      have hword : ¬ whichword nb pos < w.length := by
        rw [hw]
        simp only [whichword]
        split
        · omega
        · split <;> omega
      rw [uncheckedSet, setword, if_neg hword] at hr
      cases hr

end

end IntbvBase

end Adl.Helpers
