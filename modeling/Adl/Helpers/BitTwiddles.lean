import Mathlib.Data.BitVec
import Adl.Math.Halting

/-!
# Bit counts without builtins

Loops that count the ones, the trailing zeros and the leading zeros of an integer for compilers
without builtins. For the trailing zeros of 64 bits the first test finds 32 zeros and shifts out 16
of them. The leading zeros are shifted out until the integer, which has no sign, is negative.
-/

namespace Adl.Helpers

open Math (Finishes)

variable {W : ℕ} {x : BitVec W} {s : BitVec W × ℕ} {t : ℕ × ℕ}

/-! ### The functions -/

/-- `is_power_2` -/
def isPower2 (v : BitVec 32) : Bool := v &&& (v - 1) = 0 && v ≠ 0

/-- `x &= x - 1`, as long as there is a one. -/
def countOnesStep (s : BitVec W × ℕ) : BitVec W × ℕ ⊕ ℕ :=
  if s.1 = 0 then .inr s.2 else .inl (s.1 &&& (s.1 - 1), s.2 + 1)

/-- Shift `n` zeros out if the bits of the mask are zero. -/
def skipZeros (mask : BitVec W) (n : ℕ) (s : BitVec W × ℕ) : BitVec W × ℕ :=
  if s.1 &&& mask = 0 then (s.1 >>> n, s.2 + n) else s

def lastZero (s : BitVec W × ℕ) : ℕ := if s.1 &&& 0x1 = 0 then s.2 + 1 else s.2

def countTrailingZerosUInt32 (x : BitVec 32) : ℕ :=
  if x &&& 0x1 ≠ 0 then 0
  else
    lastZero <| skipZeros 0x3 2 <| skipZeros 0xf 4 <| skipZeros 0xff 8 <| skipZeros 0xffff 16 (x, 0)

def countTrailingZerosUInt64 (x : BitVec 64) : ℕ :=
  if x &&& 0x1 ≠ 0 then 0
  else
    lastZero <| skipZeros 0x3 2 <| skipZeros 0xf 4 <| skipZeros 0xff 8 <| skipZeros 0xffff 16 <|
      skipZeros 0xffffffff 16 (x, 0)

/-- The test `x < 0` of an integer without sign. -/
def countLeadingZerosStep (s : BitVec W × BitVec 32) : BitVec W × BitVec 32 ⊕ BitVec 32 :=
  if s.1 < 0 then .inr s.2 else .inl (s.1 <<< 1, s.2 + 1)

/-! ### Ones -/

theorem concat_true_sub_one : x.concat true - 1#(W + 1) = x.concat false := by
  rw [BitVec.sub_eq_iff_eq_add]
  apply BitVec.eq_of_toNat_eq
  have hx := x.isLt
  rw [BitVec.toNat_add, BitVec.toNat_concat, BitVec.toNat_concat, BitVec.toNat_one (by omega),
    Nat.mod_eq_of_lt (by rw [Nat.pow_succ, Bool.toNat_false]; omega)]
  rfl

theorem concat_false_sub_one : x.concat false - 1#(W + 1) = (x - 1#W).concat true := by
  rw [BitVec.sub_eq_iff_eq_add]
  apply BitVec.eq_of_toNat_eq
  have hsucc : x.toNat = ((x - 1#W).toNat + 1) % 2 ^ W := by
    conv_lhs => rw [← BitVec.sub_add_cancel x 1#W, BitVec.toNat_add]
    rw [BitVec.toNat_ofNat, Nat.add_mod_mod]
  rw [BitVec.toNat_add, BitVec.toNat_concat, BitVec.toNat_concat, BitVec.toNat_one (by omega),
    Bool.toNat_false, Bool.toNat_true, hsucc, Nat.pow_succ, Nat.add_zero,
    ← Nat.mul_mod_mul_right]
  congr 1
  omega

theorem toNat_cpop_and_sub_one (hx : x ≠ 0#W) :
    (x &&& (x - 1#W)).cpop.toNat + 1 = x.cpop.toNat := by
  induction x using BitVec.concat_induction with
  | nil => exact absurd rfl hx
  | @concat w x b ih =>
    cases b with
    | true =>
      rw [concat_true_sub_one, BitVec.concat_and_concat, BitVec.and_self, BitVec.toNat_cpop_concat,
        BitVec.toNat_cpop_concat, Bool.and_false, Bool.toNat_false, Bool.toNat_true, Nat.zero_add,
        Nat.add_comm]
    | false =>
      have hrest : x ≠ 0#w := by
        rintro rfl
        exact hx BitVec.zero_concat_false
      rw [concat_false_sub_one, BitVec.concat_and_concat, BitVec.toNat_cpop_concat,
        BitVec.toNat_cpop_concat, Bool.false_and, Nat.add_assoc, ih hrest]

theorem finishes_countOnes (x : BitVec W) (c : ℕ) :
    Finishes countOnesStep (x, c) (c + x.cpop.toNat) := by
  induction hn : x.cpop.toNat generalizing x c with
  | zero =>
    have hzero : x = 0#W := by
      by_contra hx
      have hones := toNat_cpop_and_sub_one hx
      omega
    subst hzero
    exact .done (if_pos rfl)
  | succ n ih =>
    have hx : x ≠ 0#W := by
      rintro rfl
      rw [BitVec.cpop_zero] at hn
      cases hn
    have hones := toNat_cpop_and_sub_one hx
    refine .next (if_neg hx) ?_
    have hrest := ih (x &&& (x - 1#W)) (c + 1) (by omega)
    rwa [Nat.add_right_comm] at hrest

/-! ### Trailing zeros -/

theorem toNat_ctz_eq {t : ℕ} (hone : x.getLsbD t = true) (hzeros : ∀ i < t, x.getLsbD i = false) :
    x.ctz.toNat = t := by
  have hx : x ≠ 0#W := by
    rintro rfl
    simp at hone
  have hctz := BitVec.getLsbD_true_ctz_of_ne_zero hx
  rcases lt_trichotomy x.ctz.toNat t with h | h | h
  · rw [hzeros _ h] at hctz
    cases hctz
  · exact h
  · rw [BitVec.getLsbD_false_of_lt_ctz h] at hone
    cases hone

theorem and_low_eq_zero_iff {k : ℕ} (hx : x ≠ 0) :
    x &&& BitVec.ofNat W (2 ^ k - 1) = 0 ↔ k ≤ x.ctz.toNat := by
  constructor
  · intro h
    by_contra hlt
    have hctz := BitVec.getLsbD_true_ctz_of_ne_zero hx
    have hbit := congrArg (·.getLsbD x.ctz.toNat) h
    have hwidth := BitVec.lt_of_getLsbD hctz
    simp only [BitVec.getLsbD_and, hctz, Bool.true_and, BitVec.getLsbD_ofNat,
      Nat.testBit_two_pow_sub_one] at hbit
    simp [hwidth] at hbit
    omega
  · intro h
    apply BitVec.eq_of_getLsbD_eq
    intro i _
    rw [BitVec.getLsbD_and, BitVec.getLsbD_ofNat, Nat.testBit_two_pow_sub_one,
      show (0 : BitVec W) = 0#W from rfl, BitVec.getLsbD_zero]
    by_cases hi : i < k
    · rw [BitVec.getLsbD_false_of_lt_ctz (by omega), Bool.false_and]
    · rw [decide_eq_false hi, Bool.and_false, Bool.and_false]

theorem isPower2_iff {v : BitVec 32} : isPower2 v = true ↔ v.toNat.isPowerOfTwo := by
  have hzero : v ≠ 0 ↔ v.toNat ≠ 0 := not_congr BitVec.toNat_eq
  rw [← Nat.ne_zero_and_sub_one_eq_zero_iff_isPowerOfTwo, isPower2, Bool.and_eq_true, and_comm,
    decide_eq_true_eq, decide_eq_true_eq, hzero]
  refine and_congr_right fun hv => ?_
  have hsub : (v - 1).toNat = v.toNat - 1 := by
    rw [BitVec.toNat_sub_of_le (Nat.pos_of_ne_zero hv)]
    rfl
  rw [BitVec.toNat_eq, BitVec.toNat_and, hsub]
  rfl

theorem toNat_ctz_of_two_pow {k : ℕ} (hx : x.toNat = 2 ^ k) : x.ctz.toNat = k := by
  have hbit (i : ℕ) : x.getLsbD i = decide (k = i) := by
    rw [BitVec.getLsbD, hx, Nat.testBit_two_pow]
  refine toNat_ctz_eq (by rw [hbit]; exact decide_eq_true rfl) fun i hi => ?_
  rw [hbit]
  exact decide_eq_false (by omega)

/-- A state with an integer that has `t.1` trailing zeros, and with the count `t.2`. -/
def Follows (s : BitVec W × ℕ) (t : ℕ × ℕ) : Prop :=
  s.1 ≠ 0 ∧ s.1.ctz.toNat = t.1 ∧ s.2 = t.2

/-- The test for `k` zeros on the number of zeros. -/
def skip (k n : ℕ) (t : ℕ × ℕ) : ℕ × ℕ := if k ≤ t.1 then (t.1 - n, t.2 + n) else t

def last (t : ℕ × ℕ) : ℕ := if 1 ≤ t.1 then t.2 + 1 else t.2

theorem follows_skipZeros {k n : ℕ} (hn : n ≤ k) (h : Follows s t) :
    Follows (skipZeros (BitVec.ofNat W (2 ^ k - 1)) n s) (skip k n t) := by
  obtain ⟨hx, hzeros, hcount⟩ := h
  have htest := @and_low_eq_zero_iff _ _ k hx
  rw [hzeros] at htest
  rw [skipZeros, skip]
  by_cases hk : k ≤ t.1
  · rw [if_pos (htest.mpr hk), if_pos hk]
    -- the one after the zeros moves to the right with them
    have hone : (s.1 >>> n).getLsbD (t.1 - n) = true := by
      rw [BitVec.getLsbD_ushiftRight, show n + (t.1 - n) = t.1 by omega, ← hzeros]
      exact BitVec.getLsbD_true_ctz_of_ne_zero hx
    refine ⟨?_, toNat_ctz_eq hone fun i hi => ?_, by rw [hcount]⟩
    · intro hzero
      dsimp only at hzero
      rw [hzero] at hone
      simp at hone
    · rw [BitVec.getLsbD_ushiftRight]
      exact BitVec.getLsbD_false_of_lt_ctz (by omega)
  · rw [if_neg (htest.not.mpr hk), if_neg hk]
    exact ⟨hx, hzeros, hcount⟩

theorem lastZero_eq (h : Follows s t) : lastZero s = last t := by
  obtain ⟨hx, hzeros, hcount⟩ := h
  have htest := @and_low_eq_zero_iff _ _ 1 hx
  rw [hzeros] at htest
  rw [lastZero, last, hcount]
  exact if_congr htest rfl rfl

theorem lastZero_skipZeros (h : Follows s t) :
    lastZero (skipZeros (BitVec.ofNat W (2 ^ 2 - 1)) 2 <|
      skipZeros (BitVec.ofNat W (2 ^ 4 - 1)) 4 <| skipZeros (BitVec.ofNat W (2 ^ 8 - 1)) 8 <|
      skipZeros (BitVec.ofNat W (2 ^ 16 - 1)) 16 s) =
    last (skip 2 2 (skip 4 4 (skip 8 8 (skip 16 16 t)))) :=
  lastZero_eq <| follows_skipZeros le_rfl <| follows_skipZeros le_rfl <|
    follows_skipZeros le_rfl <| follows_skipZeros le_rfl h

theorem ctz_eq_zero_of_odd (hx : x ≠ 0) (hodd : ¬ x &&& BitVec.ofNat W (2 ^ 1 - 1) = 0) :
    x.ctz.toNat = 0 :=
  Nat.lt_one_iff.mp (Nat.lt_of_not_le ((@and_low_eq_zero_iff _ _ 1 hx).not.mp hodd))

theorem countTrailingZerosUInt32_eq {x : BitVec 32} (hx : x ≠ 0) :
    countTrailingZerosUInt32 x = x.ctz.toNat := by
  have hwidth : x.ctz.toNat < 32 := BitVec.lt_of_getLsbD (BitVec.getLsbD_true_ctz_of_ne_zero hx)
  have hstart : Follows (x, 0) (x.ctz.toNat, 0) := ⟨hx, rfl, rfl⟩
  have hnumbers : ∀ t < 32, last (skip 2 2 (skip 4 4 (skip 8 8 (skip 16 16 (t, 0))))) = t := by
    decide
  rw [countTrailingZerosUInt32]
  split
  case isTrue hlast => exact (ctz_eq_zero_of_odd hx hlast).symm
  case isFalse hlast => exact (lastZero_skipZeros hstart).trans (hnumbers _ hwidth)

theorem countTrailingZerosUInt64_eq {x : BitVec 64} (hx : x ≠ 0) :
    countTrailingZerosUInt64 x = min x.ctz.toNat 47 := by
  have hwidth : x.ctz.toNat < 64 := BitVec.lt_of_getLsbD (BitVec.getLsbD_true_ctz_of_ne_zero hx)
  have hstart : Follows (x, 0) (x.ctz.toNat, 0) := ⟨hx, rfl, rfl⟩
  have hskip := @follows_skipZeros _ _ _ 32 16 (by decide) hstart
  have hnumbers : ∀ t < 64,
      last (skip 2 2 (skip 4 4 (skip 8 8 (skip 16 16 (skip 32 16 (t, 0)))))) = min t 47 := by
    decide
  rw [countTrailingZerosUInt64]
  split
  case isTrue hlast => rw [ctz_eq_zero_of_odd hx hlast, Nat.zero_min]
  case isFalse hlast => exact (lastZero_skipZeros hskip).trans (hnumbers _ hwidth)

/-! ### Leading zeros -/

theorem not_finishes_countLeadingZeros (s : BitVec W × BitVec 32) :
    ¬ ∃ r, Finishes countLeadingZerosStep s r := by
  refine Math.not_finishes_of_closed (P := fun _ => True) (fun s _ => ?_) trivial
  exact ⟨(s.1 <<< 1, s.2 + 1), if_neg BitVec.not_lt_zero, trivial⟩

/-! ### Results -/

/-- What is counted. -/
inductive BitCount where
  | ones
  | trailingZeros
  | leadingZeros
deriving DecidableEq, Repr

/-- The integer types that have a loop of their own. -/
inductive Operand where
  | uint32 (x : BitVec 32)
  | uint64 (x : BitVec 64)
deriving DecidableEq, Repr

def Operand.NonZero : Operand → Prop
  | uint32 x => x ≠ 0
  | uint64 x => x ≠ 0

namespace BitCount

def Returns : BitCount → Operand → ℕ → Prop
  | ones, .uint32 x, r => Finishes countOnesStep (x, 0) r
  | ones, .uint64 x, r => Finishes countOnesStep (x, 0) r
  | trailingZeros, .uint32 x, r => countTrailingZerosUInt32 x = r
  | trailingZeros, .uint64 x, r => countTrailingZerosUInt64 x = r
  | leadingZeros, .uint32 x, r =>
    if x = 0 then r = 32 else ∃ n, Finishes countLeadingZerosStep (x, 0) n ∧ n.toNat = r
  | leadingZeros, .uint64 x, r =>
    if x = 0 then r = 64 else ∃ n, Finishes countLeadingZerosStep (x, 0) n ∧ n.toNat = r

def count : BitCount → Operand → ℕ
  | ones, .uint32 x => x.cpop.toNat
  | ones, .uint64 x => x.cpop.toNat
  | trailingZeros, .uint32 x => x.ctz.toNat
  | trailingZeros, .uint64 x => x.ctz.toNat
  | leadingZeros, .uint32 x => x.clz.toNat
  | leadingZeros, .uint64 x => x.clz.toNat

/-- The operands that are counted: leading zeros never, trailing zeros of 64 bits up to 47. -/
def Right : BitCount → Operand → Prop
  | ones, _ => True
  | trailingZeros, .uint32 _ => True
  | trailingZeros, .uint64 x => x.ctz.toNat < 48
  | leadingZeros, _ => False

end BitCount

/-- The functions end and return the number of ones or zeros of an integer exactly as follows. -/
theorem returns_iff (b : BitCount) (x : Operand) (hx : x.NonZero) :
    b.Returns x (b.count x) ↔ b.Right x := by
  cases b with
  | ones =>
    refine iff_of_true ?_ trivial
    cases x with
    | uint32 x =>
      have hfinishes := finishes_countOnes x 0
      rwa [Nat.zero_add] at hfinishes
    | uint64 x =>
      have hfinishes := finishes_countOnes x 0
      rwa [Nat.zero_add] at hfinishes
  | trailingZeros =>
    cases x with
    | uint32 x => exact iff_of_true (countTrailingZerosUInt32_eq hx) trivial
    | uint64 x =>
      change countTrailingZerosUInt64 x = x.ctz.toNat ↔ x.ctz.toNat < 48
      rw [countTrailingZerosUInt64_eq hx]
      omega
  | leadingZeros =>
    refine iff_of_false ?_ id
    cases x with
    | uint32 x =>
      rw [BitCount.Returns, if_neg hx]
      exact fun ⟨n, hn, _⟩ => not_finishes_countLeadingZeros _ ⟨n, hn⟩
    | uint64 x =>
      rw [BitCount.Returns, if_neg hx]
      exact fun ⟨n, hn, _⟩ => not_finishes_countLeadingZeros _ ⟨n, hn⟩

/-- The trailing zeros of `2 ^ 40`. -/
theorem returns_trailing_forty :
    BitCount.trailingZeros.Returns (.uint64 0x10000000000) 40 := by
  have hcount : BitCount.trailingZeros.count (.uint64 0x10000000000) = 40 := by decide +kernel
  have hx : (0x10000000000 : BitVec 64) ≠ 0 := by decide
  have hright : (0x10000000000 : BitVec 64).ctz.toNat < 48 := by decide +kernel
  rw [← hcount]
  exact (returns_iff .trailingZeros (.uint64 0x10000000000) hx).mpr hright

/-- The loop for the leading zeros of one does not end, and `2 ^ 48` has one trailing zero more than
are counted. -/
theorem counts_wrong :
    (¬ ∃ r, BitCount.leadingZeros.Returns (.uint32 1) r) ∧
      BitCount.trailingZeros.Returns (.uint64 0x1000000000000) 47 ∧
      BitCount.trailingZeros.count (.uint64 0x1000000000000) = 48 := by
  refine ⟨?_, ?_, ?_⟩
  · rintro ⟨r, hr⟩
    rw [BitCount.Returns, if_neg (by decide)] at hr
    obtain ⟨n, hn, -⟩ := hr
    exact not_finishes_countLeadingZeros _ ⟨n, hn⟩
  · rw [BitCount.Returns]
    decide +kernel
  · decide +kernel

end Adl.Helpers
