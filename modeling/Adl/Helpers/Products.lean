import Adl.Helpers.WordArrays
import Adl.Math.Columns

/-!
# Products of word arrays

`multiplyWords` adds up half-word products column by column in accumulators of 32 bits. Nothing is
lost as long as one of the operands has at most 32768 half-words.
-/

namespace Adl.Helpers

open Finset
open Math (limbs digit column)

variable {a b : WordArray} {carry : BitVec 32} {i j k l m n : ℕ}

/-! ### Half-words -/

theorem toNat_lowHalf {x : BitVec 32} : (lowHalf x).toNat = x.toNat % 2 ^ 16 := by
  rw [lowHalf, BitVec.toNat_and]
  exact Nat.and_two_pow_sub_one_eq_mod x.toNat 16

theorem toNat_highHalf {x : BitVec 32} : (highHalf x).toNat = x.toNat / 2 ^ 16 := by
  rw [highHalf, BitVec.toNat_ushiftRight, Nat.shiftRight_eq_div_pow]

theorem toNat_highLowConcat {x y : BitVec 32} :
    (highLowConcat (lowHalf x) (lowHalf y)).toNat =
      2 ^ 16 * (x.toNat % 2 ^ 16) + y.toNat % 2 ^ 16 := by
  have hx := Nat.mod_lt x.toNat (Nat.two_pow_pos 16)
  have hy := Nat.mod_lt y.toNat (Nat.two_pow_pos 16)
  rw [highLowConcat, BitVec.toNat_or, BitVec.toNat_shiftLeft, toNat_lowHalf, toNat_lowHalf,
    toNat_lowHalf, Nat.mod_mod, Nat.shiftLeft_eq, Nat.mod_eq_of_lt (by omega), ← Nat.shiftLeft_eq,
    ← Nat.shiftLeft_add_eq_or_of_lt hy, Nat.shiftLeft_eq, Nat.mul_comm]

/-- The half-words are the digits of the number in base `2 ^ 16`. -/
theorem toNat_indexHalf (h : j < 2 * a.length) :
    (indexHalf a j).toNat = digit (2 ^ 16) (limbs a) j := by
  have hword := @Math.toNat_getD _ a _ (show j / 2 < a.length by omega)
  have hpow : (2 ^ 16) ^ j = 2 ^ (32 * (j / 2)) * 2 ^ (16 * (j % 2)) := by
    rw [← Nat.pow_mul, ← Nat.pow_add]
    congr 1
    omega
  simp only [indexHalf]
  rw [digit, hpow, ← Nat.div_div_eq_div_mul]
  generalize a.getD (a.length - 1 - j / 2) 0 = w at hword ⊢
  generalize limbs a / 2 ^ (32 * (j / 2)) = v at hword ⊢
  split
  case isTrue heven =>
    rw [toNat_lowHalf, hword, heven]
    omega
  case isFalse hodd =>
    rw [toNat_highHalf, hword, show j % 2 = 1 by omega]
    omega

def halfProduct (a b : WordArray) (j l : ℕ) : ℕ :=
  digit (2 ^ 16) (limbs a) j * digit (2 ^ 16) (limbs b) l

theorem halfProduct_le : halfProduct a b j l ≤ 65535 * 65535 :=
  Nat.mul_le_mul (Nat.le_of_lt_succ (Math.digit_lt (by decide)))
    (Nat.le_of_lt_succ (Math.digit_lt (by decide)))

theorem toNat_mul_indexHalf (hj : j < 2 * a.length) (hl : l < 2 * b.length) :
    (indexHalf a j * indexHalf b l).toNat = halfProduct a b j l := by
  have hle := halfProduct_le (a := a) (b := b) (j := j) (l := l)
  rw [halfProduct] at hle ⊢
  rw [BitVec.toNat_mul, toNat_indexHalf hj, toNat_indexHalf hl, Nat.mod_eq_of_lt (by omega)]

/-! ### The accumulators -/

/-- The accumulators of the columns `i` and `i + 1` after `k` steps of the inner loop. -/
def columnsAfter (a b : WordArray) (i : ℕ) (carry : BitVec 32) (k : ℕ) : Columns :=
  (List.range k).foldl (Columns.add a b i) ⟨lowHalf carry, highHalf carry, 0⟩

theorem columnsAfter_succ :
    columnsAfter a b i carry (k + 1) = Columns.add a b i (columnsAfter a b i carry k) k := by
  rw [columnsAfter, List.range_succ, List.foldl_append, List.foldl_cons, List.foldl_nil]
  rfl

/-- The sums that `k` steps add up in the accumulators. -/
def lowSum (a b : WordArray) (i : ℕ) (carry : BitVec 32) (k : ℕ) : ℕ :=
  carry.toNat % 2 ^ 16 + ∑ j ∈ range k, halfProduct a b j (i - j) % 2 ^ 16

@[inherit_doc lowSum]
def highSum (a b : WordArray) (i : ℕ) (carry : BitVec 32) (k : ℕ) : ℕ :=
  carry.toNat / 2 ^ 16 +
    ∑ j ∈ range k, (halfProduct a b j (i - j + 1) % 2 ^ 16 + halfProduct a b j (i - j) / 2 ^ 16)

@[inherit_doc lowSum]
def carrySum (a b : WordArray) (i k : ℕ) : ℕ :=
  ∑ j ∈ range k, halfProduct a b j (i - j + 1) / 2 ^ 16

theorem columnsAfter_toNat (h : a.length = b.length) (hi : i + 1 < 2 * a.length)
    (hk : k ≤ i + 1) :
    (columnsAfter a b i carry k).lw.toNat = lowSum a b i carry k % 2 ^ 32 ∧
      (columnsAfter a b i carry k).hw.toNat = highSum a b i carry k % 2 ^ 32 ∧
      (columnsAfter a b i carry k).carry.toNat = carrySum a b i k % 2 ^ 32 := by
  induction k with
  | zero =>
    have hcarry := carry.isLt
    simp only [columnsAfter, lowSum, highSum, carrySum, List.range_zero, List.foldl_nil,
      sum_range_zero, Nat.add_zero, toNat_lowHalf, toNat_highHalf]
    refine ⟨(Nat.mod_eq_of_lt (by omega)).symm, (Nat.mod_eq_of_lt (by omega)).symm, rfl⟩
  | succ k ih =>
    obtain ⟨hlw, hhw, hcarry⟩ := ih (by omega)
    have hmult1 : (indexHalf a k * indexHalf b (i - k)).toNat = halfProduct a b k (i - k) :=
      toNat_mul_indexHalf (by omega) (by omega)
    have hmult2 : (indexHalf a k * indexHalf b (i - k + 1)).toNat =
        halfProduct a b k (i - k + 1) := toNat_mul_indexHalf (by omega) (by omega)
    simp only [columnsAfter_succ, Columns.add, BitVec.toNat_add, toNat_lowHalf, toNat_highHalf,
      hmult1, hmult2, hlw, hhw, hcarry, lowSum, highSum, carrySum, sum_range_succ]
    omega

/-- The overflows of the three accumulators of a column pair, with their weights. -/
def columnLoss (a b : WordArray) (i : ℕ) (carry : BitVec 32) : ℕ :=
  let last := halfProduct a b (i + 1) 0
  let lw := lowSum a b i carry (i + 1)
  let hw := highSum a b i carry (i + 1) + last % 2 ^ 16 + lw % 2 ^ 32 / 2 ^ 16
  let carry' := carrySum a b i (i + 1) + last / 2 ^ 16 + hw % 2 ^ 32 / 2 ^ 16
  2 ^ 32 * (lw / 2 ^ 32) + 2 ^ 48 * (hw / 2 ^ 32) + 2 ^ 64 * (carry' / 2 ^ 32)

theorem sum_halfProduct_succ {f : ℕ → ℕ} :
    ∑ j ∈ range (i + 1), f (halfProduct a b j (i - j + 1)) + f (halfProduct a b (i + 1) 0) =
      ∑ j ∈ range (i + 1 + 1), f (halfProduct a b j (i + 1 - j)) := by
  rw [sum_range_succ _ (i + 1), Nat.sub_self]
  congr 1
  refine sum_congr rfl fun j hj => ?_
  rw [Nat.sub_add_comm (Nat.le_of_lt_succ (mem_range.mp hj))]

theorem multiplyColumn_add_loss (h : a.length = b.length) (hi : i + 1 < 2 * a.length) :
    (multiplyColumn a b i carry).1.toNat + 2 ^ 32 * (multiplyColumn a b i carry).2.toNat +
        columnLoss a b i carry =
      carry.toNat + column (2 ^ 16) (limbs a) (limbs b) i +
        2 ^ 16 * column (2 ^ 16) (limbs a) (limbs b) (i + 1) := by
  obtain ⟨hlw, hhw, hcarry⟩ := @columnsAfter_toNat _ _ carry _ _ h hi (Nat.le_refl (i + 1))
  have hlast : (indexHalf a (i + 1) * indexHalf b 0).toNat = halfProduct a b (i + 1) 0 :=
    toNat_mul_indexHalf (by omega) (by omega)
  -- each product is split into its halves
  have hfirst : column (2 ^ 16) (limbs a) (limbs b) i =
      ∑ j ∈ range (i + 1), halfProduct a b j (i - j) % 2 ^ 16 +
        2 ^ 16 * ∑ j ∈ range (i + 1), halfProduct a b j (i - j) / 2 ^ 16 := by
    rw [mul_sum, ← sum_add_distrib]
    exact sum_congr rfl fun j _ => (Nat.mod_add_div _ _).symm
  have hsecond : column (2 ^ 16) (limbs a) (limbs b) (i + 1) =
      ∑ j ∈ range (i + 1), halfProduct a b j (i - j + 1) % 2 ^ 16 +
        halfProduct a b (i + 1) 0 % 2 ^ 16 +
        2 ^ 16 * (∑ j ∈ range (i + 1), halfProduct a b j (i - j + 1) / 2 ^ 16 +
          halfProduct a b (i + 1) 0 / 2 ^ 16) := by
    rw [sum_halfProduct_succ (f := (· % 2 ^ 16)), sum_halfProduct_succ (f := (· / 2 ^ 16)), mul_sum,
      ← sum_add_distrib]
    exact sum_congr rfl fun j _ => (Nat.mod_add_div _ _).symm
  have hwords : multiplyColumn a b i carry =
      (highLowConcat (lowHalf ((columnsAfter a b i carry (i + 1)).hw +
          lowHalf (indexHalf a (i + 1) * indexHalf b 0) +
          highHalf (columnsAfter a b i carry (i + 1)).lw))
        (lowHalf (columnsAfter a b i carry (i + 1)).lw),
      (columnsAfter a b i carry (i + 1)).carry +
        highHalf (indexHalf a (i + 1) * indexHalf b 0) +
        highHalf ((columnsAfter a b i carry (i + 1)).hw +
          lowHalf (indexHalf a (i + 1) * indexHalf b 0) +
          highHalf (columnsAfter a b i carry (i + 1)).lw)) := rfl
  rw [hwords]
  simp only [toNat_highLowConcat, BitVec.toNat_add, toNat_lowHalf, toNat_highHalf, hlast, hlw, hhw,
    hcarry, columnLoss]
  rw [hfirst, hsecond]
  simp only [lowSum, highSum, carrySum, sum_add_distrib]
  have hc := carry.isLt
  omega

/-! ### The product -/

/-- The carry into a word of the product, counted from the least significant one. -/
def carryInto (a b : WordArray) : ℕ → BitVec 32
  | 0 => 0
  | n + 1 => (multiplyColumn a b (2 * n) (carryInto a b n)).2

/-- What the accumulators lose in the first `n` words of the product. -/
def lostBelow (a b : WordArray) (n : ℕ) : ℕ :=
  ∑ k ∈ range n, 2 ^ (32 * k) * columnLoss a b (2 * k) (carryInto a b k)

/-- What the accumulators lose in all. -/
def lostCarries (a b : WordArray) : ℕ := lostBelow a b a.length

def productWords (a b : WordArray) : ℕ → WordArray
  | 0 => []
  | n + 1 => (multiplyColumn a b (2 * n) (carryInto a b n)).1 :: productWords a b n

theorem length_productWords : (productWords a b n).length = n := by
  induction n with
  | zero => rfl
  | succ n ih => rw [productWords, List.length_cons, ih]

theorem multiplyWords_eq : multiplyWords a b = productWords a b a.length := by
  have hloop (n : ℕ) :
      (List.range n).foldl (fun s n => ((multiplyColumn a b (2 * n) s.2).1 :: s.1,
        (multiplyColumn a b (2 * n) s.2).2)) ([], 0) = (productWords a b n, carryInto a b n) := by
    induction n with
    | zero => rfl
    | succ n ih =>
      rw [List.range_succ, List.foldl_append, ih]
      rfl
  exact congrArg Prod.fst (hloop a.length)

theorem limbs_productWords (h : a.length = b.length) (hn : n ≤ a.length) :
    limbs (productWords a b n) + 2 ^ (32 * n) * (carryInto a b n).toNat + lostBelow a b n =
      ∑ k ∈ range (2 * n), column (2 ^ 16) (limbs a) (limbs b) k * (2 ^ 16) ^ k := by
  induction n with
  | zero => rfl
  | succ n ih =>
    have hcolumn := @multiplyColumn_add_loss _ _ (carryInto a b n) _ h
      (show 2 * n + 1 < 2 * a.length by omega)
    have hpow : (2 ^ 16) ^ (2 * n) = 2 ^ (32 * n) := by rw [← Nat.pow_mul]; congr 1; omega
    rw [show 2 * (n + 1) = 2 * n + 1 + 1 by ring, sum_range_succ, sum_range_succ, ← ih (by omega),
      productWords, limbs, length_productWords, carryInto, lostBelow, sum_range_succ, ← lostBelow,
      Nat.pow_succ (2 ^ 16) (2 * n), hpow, Nat.mul_succ, Nat.pow_add]
    generalize (multiplyColumn a b (2 * n) (carryInto a b n)).1.toNat = word at hcolumn ⊢
    generalize (multiplyColumn a b (2 * n) (carryInto a b n)).2.toNat = out at hcolumn ⊢
    generalize 2 ^ (32 * n) = weight
    have hscaled := congrArg (weight * ·) hcolumn
    simp only [Nat.mul_add] at hscaled
    calc weight * word + limbs (productWords a b n) + weight * 2 ^ 32 * out +
          (lostBelow a b n + weight * columnLoss a b (2 * n) (carryInto a b n))
        = limbs (productWords a b n) + lostBelow a b n + (weight * word + weight * (2 ^ 32 * out) +
            weight * columnLoss a b (2 * n) (carryInto a b n)) := by ring
      _ = _ := by rw [hscaled]; ring

theorem limbs_multiplyWords_add_lost (h : a.length = b.length) :
    (limbs (multiplyWords a b) + lostCarries a b) % 2 ^ (32 * a.length) =
      limbs a * limbs b % 2 ^ (32 * a.length) := by
  have hwords := limbs_productWords (n := a.length) h (Nat.le_refl _)
  have hpow : (2 ^ 16) ^ (2 * a.length) = 2 ^ (32 * a.length) := by
    rw [← Nat.pow_mul]
    congr 1
    omega
  rw [← hpow, ← Math.sum_column_mod, ← hwords, hpow, multiplyWords_eq, lostCarries,
    Nat.add_right_comm, Nat.add_mul_mod_self_left]

/-! ### Operands without overflow -/

/-- One of the operands has at most `m` half-words. -/
def Short (m : ℕ) (a b : WordArray) : Prop := limbs a < (2 ^ 16) ^ m ∨ limbs b < (2 ^ 16) ^ m

theorem short_of_length (h : 2 * a.length ≤ m) : Short m a b := by
  refine .inl (Math.limbs_lt.trans_le ?_)
  rw [← Nat.pow_mul]
  exact Nat.pow_le_pow_right (by decide) (by omega)

/-- A column has at most `m` terms that are not zero. -/
theorem Short.sum_le {C : ℕ} {f : ℕ → ℕ} (h : Short m a b) (hzero : f 0 = 0)
    (hf : ∀ p ≤ 65535 * 65535, f p ≤ C) :
    ∑ j ∈ range (k + 1), f (halfProduct a b j (k - j)) ≤ m * C := by
  apply Math.sum_antidiagonal_le (f := fun j l => f (halfProduct a b j l))
  · exact fun j l => hf _ halfProduct_le
  · rcases h with h | h
    · exact .inl fun j l hj => by
        rw [halfProduct, Math.digit_eq_zero h hj, Nat.zero_mul, hzero]
    · exact .inr fun j l hl => by
        rw [halfProduct, Math.digit_eq_zero h hl, Nat.mul_zero, hzero]

/-- The accumulators of a column pair at the end of their loop, as sums over the integers. -/
theorem Short.sums_lt (h : Short m a b) (hm : m ≤ 32768) :
    lowSum a b i carry (i + 1) < 2 ^ 32 ∧
      highSum a b i carry (i + 1) + halfProduct a b (i + 1) 0 % 2 ^ 16 +
        lowSum a b i carry (i + 1) / 2 ^ 16 < 2 ^ 32 ∧
      carrySum a b i (i + 1) + halfProduct a b (i + 1) 0 / 2 ^ 16 + 65535 < 2 ^ 32 := by
  have hcarry := carry.isLt
  have hlow (k : ℕ) : ∑ j ∈ range (k + 1), halfProduct a b j (k - j) % 2 ^ 16 ≤ m * 65535 :=
    h.sum_le (f := (· % 2 ^ 16)) rfl fun p _ => Nat.le_of_lt_succ (Nat.mod_lt p (by decide))
  have hhigh (k : ℕ) : ∑ j ∈ range (k + 1), halfProduct a b j (k - j) / 2 ^ 16 ≤ m * 65534 :=
    h.sum_le (f := (· / 2 ^ 16)) rfl fun p hp => by omega
  have hlow' := sum_halfProduct_succ (a := a) (b := b) (i := i) (f := (· % 2 ^ 16))
  have hhigh' := sum_halfProduct_succ (a := a) (b := b) (i := i) (f := (· / 2 ^ 16))
  have h₁ := hlow i
  have h₂ := hlow (i + 1)
  have h₃ := hhigh i
  have h₄ := hhigh (i + 1)
  simp only [lowSum, highSum, carrySum, sum_add_distrib]
  omega

theorem Short.columnLoss_eq_zero (h : Short m a b) (hm : m ≤ 32768) :
    columnLoss a b i carry = 0 := by
  obtain ⟨hlw, hhw, hcarry⟩ := @Short.sums_lt _ _ carry i _ h hm
  simp only [columnLoss]
  rw [Nat.mod_eq_of_lt hlw, Nat.div_eq_of_lt hlw, Nat.mod_eq_of_lt hhw, Nat.div_eq_of_lt hhw,
    Nat.div_eq_of_lt (by omega)]
  rfl

theorem limbs_multiplyWords (h : a.length = b.length) (hshort : Short m a b) (hm : m ≤ 32768) :
    limbs (multiplyWords a b) = limbs a * limbs b % 2 ^ (32 * a.length) := by
  have hlost : lostCarries a b = 0 := by
    rw [lostCarries, lostBelow]
    refine sum_eq_zero fun k _ => ?_
    rw [hshort.columnLoss_eq_zero hm, Nat.mul_zero]
  have hlt : limbs (multiplyWords a b) < 2 ^ (32 * a.length) := by
    have hlt : limbs (multiplyWords a b) < _ := Math.limbs_lt
    rwa [length_multiplyWords] at hlt
  rw [← limbs_multiplyWords_add_lost h, hlost, Nat.add_zero, Nat.mod_eq_of_lt hlt]

/-! ### Operands with an overflow -/

/-- A number of `h` equal half-words. -/
def repeated (c h : ℕ) : ℕ := ∑ j ∈ range h, c * (2 ^ 16) ^ j

theorem repeated_lt {c : ℕ} (hc : c < 2 ^ 16) : repeated c k < (2 ^ 16) ^ k :=
  Math.sum_mul_pow_lt fun _ => hc

theorem one_lt_repeated : 1 < repeated 0xff01 (k + 1) := by
  rw [repeated, sum_range_succ', Nat.pow_zero]
  omega

theorem halfProduct_repeated {c h : ℕ} (hc : c < 2 ^ 16) (ha : limbs a = repeated c h)
    (hb : limbs b = repeated c h) (hj : j < h) (hl : l < h) : halfProduct a b j l = c * c := by
  have hdigit {k : ℕ} (hk : k < h) : digit (2 ^ 16) (repeated c h) k = c :=
    Math.digit_sum (fun _ => hc) hk
  rw [halfProduct, ha, hb, hdigit hj, hdigit hl]

theorem le_columnLoss
    (h : 2 ^ 32 ≤ highSum a b i carry (i + 1) + halfProduct a b (i + 1) 0 % 2 ^ 16) :
    2 ^ 48 ≤ columnLoss a b i carry := by
  simp only [columnLoss]
  omega

/-- Enough half-words of which both halves of the product are large. -/
theorem le_highSum_repeated {h : ℕ} (ha : limbs a = repeated 0xff01 h)
    (hb : limbs b = repeated 0xff01 h) (hi : i + 1 < h) (hbig : 33024 ≤ i) :
    2 ^ 32 ≤ highSum a b i carry (i + 1) + halfProduct a b (i + 1) 0 % 2 ^ 16 := by
  have hterm (j : ℕ) (hj : j ∈ range (i + 1)) :
      halfProduct a b j (i - j + 1) % 2 ^ 16 + halfProduct a b j (i - j) / 2 ^ 16 = 130051 := by
    rw [mem_range] at hj
    rw [halfProduct_repeated (by decide) ha hb (by omega) (by omega),
      halfProduct_repeated (by decide) ha hb (by omega) (by omega)]
    rfl
  rw [highSum, sum_congr rfl hterm, sum_const, card_range, smul_eq_mul,
    halfProduct_repeated (by decide) ha hb (by omega) (by omega)]
  omega

theorem multiplyWords_loses (h : a.length = b.length) (ha : limbs a = repeated 0xff01 (2 * n + 2))
    (hb : limbs b = repeated 0xff01 (2 * n + 2)) (hn : n < a.length) (hbig : 16512 ≤ n) :
    limbs (multiplyWords a b) + 2 ^ (32 * n + 48) ≤ limbs a * limbs b := by
  have hloss : 2 ^ 48 ≤ columnLoss a b (2 * n) (carryInto a b n) :=
    le_columnLoss (le_highSum_repeated ha hb (by omega) (by omega))
  have hlost : 2 ^ (32 * n + 48) ≤ lostBelow a b a.length := by
    rw [Nat.pow_add]
    calc 2 ^ (32 * n) * 2 ^ 48
        ≤ 2 ^ (32 * n) * columnLoss a b (2 * n) (carryInto a b n) := Nat.mul_le_mul_left _ hloss
      _ ≤ lostBelow a b a.length :=
          single_le_sum (f := fun k => 2 ^ (32 * k) * columnLoss a b (2 * k) (carryInto a b k))
            (fun _ _ => Nat.zero_le _) (mem_range.mpr hn)
  have hsum := limbs_productWords (n := a.length) h (Nat.le_refl _)
  have hle := Math.sum_column_le (B := 2 ^ 16) (x := limbs a) (y := limbs b) (m := 2 * a.length)
  rw [multiplyWords_eq]
  generalize 2 ^ (32 * a.length) * (carryInto a b a.length).toNat = top at hsum
  generalize 2 ^ (32 * n + 48) = loss at hlost ⊢
  omega

/-! ### Every addition -/

/-- Every addition to an accumulator of the columns `i` and `i + 1` stays below `2 ^ 32`. -/
structure Lossless (a b : WordArray) (i : ℕ) (carry : BitVec 32) : Prop where
  step : ∀ j ≤ i,
    let c := columnsAfter a b i carry j
    let mult1 := indexHalf a j * indexHalf b (i - j)
    let mult2 := indexHalf a j * indexHalf b (i - j + 1)
    c.lw.toNat + (lowHalf mult1).toNat < 2 ^ 32 ∧
      c.hw.toNat + ((lowHalf mult2).toNat + (highHalf mult1).toNat) < 2 ^ 32 ∧
      c.carry.toNat + (highHalf mult2).toNat < 2 ^ 32
  last :
    let c := columnsAfter a b i carry (i + 1)
    let mult2 := indexHalf a (i + 1) * indexHalf b 0
    let hw := c.hw + lowHalf mult2 + highHalf c.lw
    c.hw.toNat + (lowHalf mult2).toNat + (highHalf c.lw).toNat < 2 ^ 32 ∧
      c.carry.toNat + (highHalf mult2).toNat + (highHalf hw).toNat < 2 ^ 32

theorem sums_mono (h : k ≤ n) :
    lowSum a b i carry k ≤ lowSum a b i carry n ∧ highSum a b i carry k ≤ highSum a b i carry n ∧
      carrySum a b i k ≤ carrySum a b i n := by
  have hsubset := range_subset_range.mpr h
  exact ⟨Nat.add_le_add_left (sum_le_sum_of_subset hsubset) _,
    Nat.add_le_add_left (sum_le_sum_of_subset hsubset) _, sum_le_sum_of_subset hsubset⟩

theorem lossless_of_short (h : a.length = b.length) (hi : i + 1 < 2 * a.length)
    (hshort : Short m a b) (hm : m ≤ 32768) : Lossless a b i carry := by
  obtain ⟨hlw, hhw, hcarry⟩ := @Short.sums_lt _ _ carry i _ hshort hm
  refine ⟨fun j hj => ?_, ?_⟩
  · obtain ⟨hlw', hhw', hcarry'⟩ := @columnsAfter_toNat _ _ carry _ _ h hi (by omega : j ≤ i + 1)
    have hmult1 : (indexHalf a j * indexHalf b (i - j)).toNat = halfProduct a b j (i - j) :=
      toNat_mul_indexHalf (by omega) (by omega)
    have hmult2 : (indexHalf a j * indexHalf b (i - j + 1)).toNat =
        halfProduct a b j (i - j + 1) := toNat_mul_indexHalf (by omega) (by omega)
    -- one more step gives sums that are still in range
    have hmono := @sums_mono a b carry i _ _ (Nat.succ_le_succ hj)
    simp only [toNat_lowHalf, toNat_highHalf, hmult1, hmult2, hlw', hhw', hcarry']
    simp only [lowSum, highSum, carrySum, Nat.succ_eq_add_one, sum_range_succ _ j] at *
    omega
  · obtain ⟨hlw', hhw', hcarry'⟩ := @columnsAfter_toNat _ _ carry _ _ h hi (Nat.le_refl (i + 1))
    have hlast : (indexHalf a (i + 1) * indexHalf b 0).toNat = halfProduct a b (i + 1) 0 :=
      toNat_mul_indexHalf (by omega) (by omega)
    simp only [toNat_lowHalf, toNat_highHalf, BitVec.toNat_add, hlast, hlw', hhw', hcarry']
    omega

/-- Up to 8192 words the product is right modulo the size of the array, and no addition to an
accumulator overflows. -/
theorem multiplyWords_exact (h : a.length = b.length) (hpos : 1 ≤ a.length)
    (hle : a.length ≤ 8192) :
    limbs (multiplyWords a b) = limbs a * limbs b % 2 ^ (32 * a.length) ∧
      ∀ n < a.length, Lossless a b (2 * n) (carryInto a b n) := by
  have hshort : Short (2 * a.length) a b := short_of_length (Nat.le_refl _)
  exact ⟨limbs_multiplyWords h hshort (by omega),
    fun n hn => lossless_of_short h (by omega) hshort (by omega)⟩

theorem multiplyWords_exact_two :
    limbs (multiplyWords [0xffffffff, 0xffffffff] [0, 0xffffffff]) =
        (2 ^ 64 - 1) * (2 ^ 32 - 1) % 2 ^ 64 ∧
      Lossless [0xffffffff, 0xffffffff] [0, 0xffffffff] 2
        (carryInto [0xffffffff, 0xffffffff] [0, 0xffffffff] 1) := by
  obtain ⟨hproduct, hlossless⟩ := multiplyWords_exact (a := [0xffffffff, 0xffffffff])
    (b := [0, 0xffffffff]) rfl (by decide) (by decide)
  exact ⟨hproduct, hlossless 1 (by decide)⟩

end Adl.Helpers
