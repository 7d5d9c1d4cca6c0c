import Mathlib.Data.BitVec
import Adl.Math.Limbs

/-!
# Routines on arrays of words

Arrays of words have the most significant word first. Addition and subtraction run with a carry from
the last word to the first one, the product is summed by columns of half-words, and the quotient
comes from a long division by bytes.

The byte buffers of the division are as long as its indices need, and the byte behind the dividend,
which the source leaves uninitialised, is zero.
-/

namespace Adl.Helpers

open Math (limbs addCarry)

/-- An array of words, the most significant word first. -/
abbrev WordArray := List (BitVec 32)

variable {w x y : WordArray} {shift : ℕ}

/-! ### Sums and differences -/

def addWords (x y : WordArray) : WordArray := (addCarry 0 x y).1

/-- The complement of the second operand and a carry of one. -/
def subtractWords (x y : WordArray) : WordArray := (addCarry 1 x (y.map (~~~·))).1

theorem length_addWords (h : x.length = y.length) : (addWords x y).length = x.length :=
  Math.length_addCarry h

theorem length_subtractWords (h : x.length = y.length) :
    (subtractWords x y).length = x.length :=
  Math.length_addCarry (by rw [List.length_map, h])

theorem limbs_addWords (h : x.length = y.length) :
    limbs (addWords x y) = (limbs x + limbs y) % 2 ^ (32 * x.length) :=
  Math.limbs_addCarry_mod (by decide) (by decide) h

theorem limbs_subtractWords (h : x.length = y.length) :
    limbs (subtractWords x y) =
      (2 ^ (32 * x.length) - limbs y + limbs x) % 2 ^ (32 * x.length) := by
  have hy : limbs y < 2 ^ (32 * x.length) := h ▸ Math.limbs_lt
  have hsum := @Math.limbs_addCarry_mod 32 x (y.map (~~~·)) (by decide) 1 (by decide)
    (by rw [List.length_map, h])
  have hone : (1 : BitVec 32).toNat = 1 := rfl
  rw [subtractWords, hsum, Math.limbs_map_not, ← h, hone]
  congr 1
  omega

/-! ### Products -/

def lowHalf (x : BitVec 32) : BitVec 32 := x &&& 0xffff

def highHalf (x : BitVec 32) : BitVec 32 := x >>> 16

def highLowConcat (high low : BitVec 32) : BitVec 32 := (high <<< 16) ||| lowHalf low

def indexHalf (x : WordArray) (pos : ℕ) : BitVec 32 :=
  let word := x.getD (x.length - 1 - pos / 2) 0
  if pos % 2 = 0 then lowHalf word else highHalf word

/-- The accumulators of two neighbouring columns and the carry to the next pair. -/
structure Columns where
  lw : BitVec 32
  hw : BitVec 32
  carry : BitVec 32
deriving DecidableEq, Repr

/-- One step of the inner loop of `multiplyWords` for the columns `i` and `i + 1`. -/
def Columns.add (a b : WordArray) (i : ℕ) (c : Columns) (j : ℕ) : Columns :=
  let mult1 := indexHalf a j * indexHalf b (i - j)
  let mult2 := indexHalf a j * indexHalf b (i - j + 1)
  { lw := c.lw + lowHalf mult1
    hw := c.hw + (lowHalf mult2 + highHalf mult1)
    carry := c.carry + highHalf mult2 }

def multiplyColumn (a b : WordArray) (i : ℕ) (carry : BitVec 32) : BitVec 32 × BitVec 32 :=
  let c := (List.range (i + 1)).foldl (Columns.add a b i) ⟨lowHalf carry, highHalf carry, 0⟩
  let mult2 := indexHalf a (i + 1) * indexHalf b 0
  let hw := c.hw + lowHalf mult2 + highHalf c.lw
  let carry := c.carry + highHalf mult2 + highHalf hw
  (highLowConcat (lowHalf hw) (lowHalf c.lw), carry)

def multiplyWords (a b : WordArray) : WordArray :=
  ((List.range a.length).foldl
    (fun (result, carry) n =>
      let (word, carry) := multiplyColumn a b (2 * n) carry
      (word :: result, carry))
    ([], 0)).1

theorem length_multiplyWords : (multiplyWords x y).length = x.length := by
  have hloop (ns : List ℕ) (result : WordArray) (carry : BitVec 32) :
      (ns.foldl (fun (result, carry) n =>
        let (word, carry) := multiplyColumn x y (2 * n) carry
        (word :: result, carry)) (result, carry)).1.length = result.length + ns.length := by
    induction ns generalizing result carry with
    | nil => rfl
    | cons n ns ih =>
      rw [List.foldl_cons, ih, List.length_cons, List.length_cons]
      omega
  rw [multiplyWords, hloop, List.length_nil, List.length_range, Nat.zero_add]

/-! ### Quotients -/

/-- A byte of the buffers that the division works on. -/
abbrev Buffer := List (BitVec 8)

def convertToBytes (words : WordArray) : Buffer :=
  words.flatMap fun (w : BitVec 32) =>
    [(w >>> 24).setWidth 8, (w >>> 16).setWidth 8, (w >>> 8).setWidth 8, w.setWidth 8]

def skipLeadingZeroBytes : Buffer → ℕ
  | [] => 0
  | [_] => 1
  | b :: rest => if b = 0 then skipLeadingZeroBytes rest else rest.length + 1

/-- Shift the bytes into words, from the last byte on. -/
def convertFromBytes (wordCount : ℕ) (bytes : Buffer) : WordArray :=
  -- the count of the bytes is never reset, so the processor takes the shift modulo the word size
  bytes.reverse.zipIdx.foldl
    (fun words (b, shift) =>
      words.modify (wordCount - 1 - shift / 4) (· ||| (b.setWidth 32 <<< (8 * shift % 32))))
    (List.replicate wordCount 0)

/-- The dividend during the long division: its bytes and the byte before the current position. -/
structure Remainder where
  xb : Buffer
  firstByte : BitVec 8
deriving DecidableEq, Repr

/-- Subtract `qk` times the divisor at position `k`; the second part is the carry that is left. -/
def subtractMultiple (yb : Buffer) (k qk : ℕ) (xb : Buffer) : Buffer × ℤ :=
  (List.range yb.length).reverse.foldl
    (fun (xb, carry) i =>
      let carry : ℤ := carry + (yb.getD i 0).toNat * qk
      let diff : ℤ := (xb.getD (k + i) 0).toNat + 256 - carry % 256
      (xb.set (k + i) (BitVec.ofInt 8 diff), carry / 256 + (1 - diff / 256)))
    (xb, 0)

/-- Add the divisor back at position `k`; the second part is the carry that is left. -/
def addBack (yb : Buffer) (k : ℕ) (xb : Buffer) : Buffer × ℕ :=
  (List.range yb.length).reverse.foldl
    (fun (xb, carry) i =>
      let carry := carry + (xb.getD (k + i) 0).toNat + (yb.getD i 0).toNat
      (xb.set (k + i) (BitVec.ofNat 8 carry), carry / 256))
    (xb, 0)

/-- The guess for a byte of the quotient from three bytes of the dividend and two of the divisor. -/
def guessByte (yb : Buffer) (k : ℕ) (r : Remainder) : ℕ :=
  let y2 := (yb.getD 0 0).toNat * 256 + (yb.getD 1 0).toNat
  let x3 := r.firstByte.toNat * 65536 + (r.xb.getD k 0).toNat * 256 + (r.xb.getD (k + 1) 0).toNat
  let qk := x3 / y2
  if 256 ≤ qk then 255 else qk

/-- One step of the long division: the byte of the quotient at `k` and the dividend that is left. -/
def divideByte (yb : Buffer) (k : ℕ) (r : Remainder) : BitVec 8 × Remainder :=
  let qk := guessByte yb k r
  let (qk, xb) :=
    if qk = 0 then (qk, r.xb) else
      let (xb, carry) := subtractMultiple yb k qk r.xb
      if carry = 0 then (qk, xb) else
        let carry : ℤ := r.firstByte.toNat + 256 - carry
        if 1 - carry / 256 = 0 then (qk, xb) else (qk - 1, (addBack yb k xb).1)
  -- the byte before the next position is taken from the dividend, so the corrections that the
  -- source makes to it here are lost
  (BitVec.ofNat 8 qk, { xb := xb, firstByte := xb.getD k 0 })

/-- The bytes of the quotient of two numbers without leading zeros. -/
def doDivide (xb yb : Buffer) : Buffer :=
  ((List.range (xb.length - yb.length + 1)).foldl
    (fun (q, r) k =>
      let (qk, r) := divideByte yb k r
      (q ++ [qk], r))
    ([], { xb := xb, firstByte := 0 })).1

def divideWords (x y : WordArray) : WordArray :=
  let xb := (convertToBytes x).drop (4 * x.length - skipLeadingZeroBytes (convertToBytes x))
  let yb := (convertToBytes y).drop (4 * x.length - skipLeadingZeroBytes (convertToBytes y))
  if xb.length ≤ 4 ∧ yb.length ≤ 4 then
    List.replicate (x.length - 1) 0 ++ [x.getD (x.length - 1) 0 / y.getD (x.length - 1) 0]
  else if xb.length < yb.length then List.replicate x.length 0
  else convertFromBytes x.length (doDivide xb yb)

theorem length_convertFromBytes {n : ℕ} {bytes : Buffer} :
    (convertFromBytes n bytes).length = n := by
  have hloop (bs : List (BitVec 8 × ℕ)) (words : WordArray) :
      (bs.foldl (fun words (b, shift) =>
        words.modify (n - 1 - shift / 4) (· ||| (b.setWidth 32 <<< (8 * shift % 32))))
        words).length = words.length := by
    induction bs generalizing words with
    | nil => rfl
    | cons b bs ih => rw [List.foldl_cons, ih, List.length_modify]
  rw [convertFromBytes, hloop, List.length_replicate]

theorem length_divideWords (hx : 0 < x.length) : (divideWords x y).length = x.length := by
  rw [divideWords]
  split
  · rw [List.length_append, List.length_replicate, List.length_singleton, Nat.sub_add_cancel hx]
  · split
    · exact List.length_replicate
    · exact length_convertFromBytes

/-! ### Shifts -/

/-- Move the words to the left, from the first one on, for a shift below the size of the array. -/
def leftShiftWords (shift : ℕ) (w : WordArray) : WordArray :=
  if shift = 0 then w else
    let wshift := shift / 32
    let offset := shift % 32
    let limit := w.length - wshift - 1
    let w :=
      if offset = 0 then
        (List.range (limit + 1)).foldl (fun w n => w.set n (w.getD (n + wshift) 0)) w
      else
        let w := (List.range limit).foldl
          (fun w n => w.set n ((w.getD (n + wshift) 0 <<< offset) |||
            (w.getD (n + wshift + 1) 0 >>> (32 - offset)))) w
        w.set limit (w.getD (limit + wshift) 0 <<< offset)
    w.take (limit + 1) ++ List.replicate (w.length - (limit + 1)) 0

/-- Move the words to the right, from the last one on, for a shift below the size of the array. -/
def rightShiftWords (shift : ℕ) (w : WordArray) : WordArray :=
  if shift = 0 then w else
    let wshift := shift / 32
    let offset := shift % 32
    let limit := w.length - wshift - 1
    let w :=
      if offset = 0 then
        (List.range (limit + 1)).reverse.foldl (fun w n => w.set (n + wshift) (w.getD n 0)) w
      else
        let w := (List.range limit).reverse.foldl
          (fun w n => w.set (n + 1 + wshift) ((w.getD (n + 1) 0 >>> offset) |||
            (w.getD n 0 <<< (32 - offset)))) w
        w.set wshift (w.getD 0 0 >>> offset)
    -- the words that are filled with zeros, within the array
    List.replicate (min wshift w.length) 0 ++ w.drop wshift

private theorem getD_of_drop_eq {l l' : WordArray} {n k : ℕ} (h : l.drop n = l'.drop n)
    (hk : n ≤ k) : l.getD k 0 = l'.getD k 0 := by
  have hget := congrArg (·.getD (k - n) 0) h
  simpa [List.getD_eq_getElem?_getD, Nat.add_sub_cancel' hk] using hget

private theorem getD_of_take_eq {l l' : WordArray} {n k : ℕ} (h : l.take n = l'.take n)
    (hk : k < n) : l.getD k 0 = l'.getD k 0 := by
  have hget := congrArg (·.getD k 0) h
  simpa [List.getD_eq_getElem?_getD, List.getElem?_take, hk] using hget

/-- A word of the array that is shifted to the left by `s` words and `o` bits. -/
def leftShifted (s o : ℕ) (w : WordArray) (n : ℕ) : BitVec 32 :=
  (w.getD (n + s) 0 <<< o) ||| (w.getD (n + s + 1) 0 >>> (32 - o))

/-- A word of the array that is shifted to the right by `o` bits. -/
def rightShifted (o : ℕ) (w : WordArray) (n : ℕ) : BitVec 32 :=
  (w.getD n 0 >>> o) ||| (if n = 0 then 0 else w.getD (n - 1) 0 <<< (32 - o))

private theorem length_foldl_set {f : WordArray → ℕ → BitVec 32} {g : ℕ → ℕ} {ns : List ℕ}
    {w : WordArray} : (ns.foldl (fun w n => w.set (g n) (f w n)) w).length = w.length := by
  induction ns generalizing w with
  | nil => rfl
  | cons n ns ih => rw [List.foldl_cons, ih, List.length_set]

theorem leftShifted_zero {s n : ℕ} {w : WordArray} : leftShifted s 0 w n = w.getD (n + s) 0 := by
  rw [leftShifted, BitVec.ushiftRight_eq_zero (by decide)]
  simp

theorem rightShifted_zero {n : ℕ} {w : WordArray} : rightShifted 0 w n = w.getD n 0 := by
  rw [rightShifted, BitVec.shiftLeft_eq_zero (by decide)]
  simp

theorem leftShiftWords_eq (h : shift < 32 * w.length) :
    leftShiftWords shift w =
      (List.range w.length).map (leftShifted (shift / 32) (shift % 32) w) := by
  have hwords : shift / 32 < w.length := by omega
  rw [leftShiftWords]
  split
  case isTrue hzero =>
    subst hzero
    refine List.ext_getElem (by simp) fun n hn _ => ?_
    rw [List.getElem_map, List.getElem_range, Nat.zero_div, Nat.zero_mod, leftShifted_zero,
      Nat.add_zero, List.getD_eq_getElem _ _ hn]
  case isFalse hshift =>
    dsimp only
    generalize hs : shift / 32 = s at *
    generalize ho : shift % 32 = o
    generalize hlimit : w.length - s - 1 = limit
    -- in both forms of the loop each word is computed from words that are still unchanged
    have hloop : (if o = 0 then
          (List.range (limit + 1)).foldl (fun w n => w.set n (w.getD (n + s) 0)) w
        else
          ((List.range limit).foldl (fun w n => w.set n ((w.getD (n + s) 0 <<< o) |||
            (w.getD (n + s + 1) 0 >>> (32 - o)))) w).set limit
          (((List.range limit).foldl (fun w n => w.set n ((w.getD (n + s) 0 <<< o) |||
            (w.getD (n + s + 1) 0 >>> (32 - o)))) w).getD (limit + s) 0 <<< o)) =
        (List.range (limit + 1)).map (leftShifted s o w) ++ w.drop (limit + 1) := by
      rw [← Math.foldl_set_up (f := leftShifted s o) _ (by omega)]
      · split
        case isTrue hoffset =>
          simp only [hoffset, leftShifted_zero]
        case isFalse =>
          rw [List.range_succ, List.foldl_append, List.foldl_cons, List.foldl_nil]
          change List.set _ limit _ = List.set _ limit (leftShifted s o _ limit)
          have hlast {w' : WordArray} (hw' : w'.length = w.length) :
              w'.getD (limit + s) 0 <<< o = leftShifted s o w' limit := by
            rw [leftShifted, List.getD_eq_default w' 0 (by omega : w'.length ≤ limit + s + 1)]
            simp
          exact congrArg _ (hlast (length_foldl_set (g := id)))
      · intro l l' n hdrop
        rw [leftShifted, leftShifted, getD_of_drop_eq hdrop (by omega),
          getD_of_drop_eq hdrop (by omega)]
    rw [hloop]
    have htake : (List.range (limit + 1)).map (leftShifted s o w) =
        ((List.range (limit + 1)).map (leftShifted s o w) ++ w.drop (limit + 1)).take
          (limit + 1) := by
      rw [List.take_left' (by simp)]
    rw [← htake]
    refine List.ext_getElem (by simp; omega) fun n hn hn' => ?_
    rw [List.getElem_map, List.getElem_range, List.getElem_append]
    split
    case isTrue => rw [List.getElem_map, List.getElem_range]
    case isFalse hge =>
      have hge' : limit + 1 ≤ n := by simpa using hge
      rw [List.getElem_replicate, leftShifted, List.getD_eq_default w 0 (by omega),
        List.getD_eq_default w 0 (by omega)]
      simp

theorem rightShiftWords_eq (h : shift < 32 * w.length) :
    rightShiftWords shift w = (List.range w.length).map fun n =>
      if n < shift / 32 then 0 else rightShifted (shift % 32) w (n - shift / 32) := by
  have hwords : shift / 32 < w.length := by omega
  rw [rightShiftWords]
  split
  case isTrue hzero =>
    subst hzero
    refine List.ext_getElem (by simp) fun n hn _ => ?_
    rw [List.getElem_map, List.getElem_range, Nat.zero_div, Nat.zero_mod, rightShifted_zero,
      Nat.sub_zero, if_neg (Nat.not_lt_zero n), List.getD_eq_getElem _ _ hn]
  case isFalse hshift =>
    dsimp only
    generalize hs : shift / 32 = s at *
    generalize ho : shift % 32 = o
    generalize hlimit : w.length - s - 1 = limit
    -- the loop runs downwards, so that a word is read before it is overwritten
    have hloop : (if o = 0 then
          (List.range (limit + 1)).reverse.foldl (fun w n => w.set (n + s) (w.getD n 0)) w
        else
          ((List.range limit).reverse.foldl (fun w n => w.set (n + 1 + s)
            ((w.getD (n + 1) 0 >>> o) ||| (w.getD n 0 <<< (32 - o)))) w).set s
          (((List.range limit).reverse.foldl (fun w n => w.set (n + 1 + s)
            ((w.getD (n + 1) 0 >>> o) ||| (w.getD n 0 <<< (32 - o)))) w).getD 0 0 >>> o)) =
        w.take s ++ ((List.range (limit + 1)).map (rightShifted o w) ++
          w.drop (limit + 1 + s)) := by
      rw [← Math.foldl_set_down (f := rightShifted o) _ (by omega)]
      · split
        case isTrue hoffset =>
          simp only [hoffset, rightShifted_zero]
        case isFalse =>
          rw [List.range_succ_eq_map, List.reverse_cons, List.foldl_append, List.foldl_cons,
            List.foldl_nil, ← List.map_reverse, List.foldl_map, Nat.zero_add]
          simp only [rightShifted, Nat.succ_eq_add_one, Nat.add_sub_cancel, Nat.succ_ne_zero,
            if_false, if_true, BitVec.ofNat_eq_ofNat, BitVec.or_zero]
      · intro l l' n htake
        rw [rightShifted, rightShifted, getD_of_take_eq htake (by omega),
          getD_of_take_eq htake (by omega)]
    have hlength : (w.take s ++ ((List.range (limit + 1)).map (rightShifted o w) ++
        w.drop (limit + 1 + s))).length = w.length := by
      simp
      omega
    rw [hloop, hlength, Nat.min_eq_left hwords.le, List.drop_left' (by simp; omega),
      List.drop_eq_nil_of_le (by omega), List.append_nil]
    -- the words in front are cleared afterwards
    refine List.ext_getElem (by simp; omega) fun n hn hn' => ?_
    rw [List.getElem_map, List.getElem_range, List.getElem_append]
    split
    case isTrue hlt =>
      rw [List.getElem_replicate, if_pos (by simpa using hlt)]
    case isFalse hge =>
      have hge' : s ≤ n := by simpa using hge
      rw [List.getElem_map, List.getElem_range, if_neg (by omega), List.length_replicate]

theorem length_leftShiftWords (h : 0 < w.length) :
    (leftShiftWords shift w).length = w.length := by
  rw [leftShiftWords]
  split
  · rfl
  · dsimp only
    split
    · rw [List.length_append, List.length_take, List.length_replicate, length_foldl_set]
      omega
    · rw [List.length_append, List.length_take, List.length_replicate, List.length_set,
        length_foldl_set]
      omega

theorem length_rightShiftWords : (rightShiftWords shift w).length = w.length := by
  rw [rightShiftWords]
  split
  · rfl
  · dsimp only
    split
    · rw [List.length_append, List.length_drop, List.length_replicate, length_foldl_set]
      omega
    · rw [List.length_append, List.length_drop, List.length_replicate, List.length_set,
        length_foldl_set]
      omega

theorem limbs_leftShiftWords (h : shift < 32 * w.length) :
    limbs (leftShiftWords shift w) = limbs w * 2 ^ shift % 2 ^ (32 * w.length) := by
  have hsum : 32 * (shift / 32) + shift % 32 = shift := Nat.div_add_mod shift 32
  rw [leftShiftWords_eq h]
  exact (Math.limbs_shiftLeft (by decide) (Nat.mod_lt _ (by decide))).trans (by rw [hsum])

theorem limbs_rightShiftWords (h : shift < 32 * w.length) :
    limbs (rightShiftWords shift w) = limbs w / 2 ^ shift := by
  have hsum : 32 * (shift / 32) + shift % 32 = shift := Nat.div_add_mod shift 32
  rw [rightShiftWords_eq h]
  exact (Math.limbs_shiftRight (by decide) (Nat.mod_lt _ (by decide))).trans (by rw [hsum])

/-! ### Comparison -/

def lessThanWords (w x : WordArray) : Bool := Math.limbsCompare false w x

def lessThanEqualWords (w x : WordArray) : Bool := Math.limbsCompare true w x

def greaterThanWords (w x : WordArray) : Bool := Math.limbsCompare false x w

def greaterThanEqualWords (w x : WordArray) : Bool := Math.limbsCompare true x w

end Adl.Helpers
