import Adl.Helpers.Intbv

/-!
# Bit vectors compute modulo a power of two

For operands whose other storage bits are zero the operations are those on two's-complement integers
of `nb` bits. Of an amount that is a bit vector a shift uses the low 32 bits.
-/

namespace Adl.Helpers

/-- An amount to shift by: an integer, or a bit vector. -/
inductive Amount where
  | size (position : ℕ)
  | vector {nb : ℕ} (position : Intbv nb)

namespace Amount

def value : Amount → ℕ
  | size position => position
  | vector position => position.toBitVec.toNat

def position : Amount → ℕ
  | size position => position
  | vector position => position.uint32

def Clean : Amount → Prop
  | size _ => True
  | vector position => position.Clean

/-- The shift of a vector of `nb` bits is called with the amount, or both push out every bit. -/
def Kept (nb : ℕ) : Amount → Prop
  | size _ => True
  | vector position =>
    position.toBitVec.toNat < 2 ^ 32 ∨ nb ≤ position.toBitVec.toNat % 2 ^ 32

theorem position_eq_mod {nb : ℕ} {z : Intbv nb} (h : z.Clean) :
    (vector z).position = z.toBitVec.toNat % 2 ^ 32 := by
  rw [position, Intbv.uint32, h.holds.toNat_eq]

/-- Both numbers shift a vector of `nb` bits alike. -/
theorem Kept.position_eq {nb : ℕ} {a : Amount} (h : a.Kept nb) (hclean : a.Clean) :
    a.position = a.value ∨ nb ≤ a.position ∧ nb ≤ a.value := by
  cases a with
  | size position => exact .inl rfl
  | vector z =>
    rw [position_eq_mod hclean, value]
    rcases h with hlt | hge
    · exact .inl (Nat.mod_eq_of_lt hlt)
    · exact .inr ⟨hge, hge.trans (Nat.mod_le _ _)⟩

end Amount

namespace Intbv

variable {nb : ℕ} {x y : Intbv nb} {a : Amount}

/-- The operations on two vectors, and shifts by an amount, agree with those on their values. -/
structure Refines (x y : Intbv nb) (a : Amount) : Prop where
  add : (x.add y).Holds (x.toBitVec + y.toBitVec)
  subtract : (x.subtract y).Holds (x.toBitVec - y.toBitVec)
  negate : x.negate.Holds (-x.toBitVec)
  bitAnd : (x.bitAnd y).Holds (x.toBitVec &&& y.toBitVec)
  bitOr : (x.bitOr y).Holds (x.toBitVec ||| y.toBitVec)
  bitXor : (x.bitXor y).Holds (x.toBitVec ^^^ y.toBitVec)
  invert : x.invert.Holds (~~~x.toBitVec)
  leftShift : (x.leftShift a.position).Holds (x.toBitVec <<< a.value)
  rightShift : (x.rightShift a.position).Holds (x.toBitVec >>> a.value)
  isEqual : x.isEqual y = (x.toBitVec == y.toBitVec)
  lessThan : x.lessThan y = x.toBitVec.ult y.toBitVec
  lessThanEqual : x.lessThanEqual y = x.toBitVec.ule y.toBitVec
  greaterThan : x.greaterThan y = y.toBitVec.ult x.toBitVec
  greaterThanEqual : x.greaterThanEqual y = y.toBitVec.ule x.toBitVec
  signedLT : x.signedLT y = x.toBitVec.slt y.toBitVec
  signedLE : x.signedLE y = x.toBitVec.sle y.toBitVec
  signedGT : x.signedGT y = y.toBitVec.slt x.toBitVec
  signedGE : x.signedGE y = y.toBitVec.sle x.toBitVec

theorem Clean.leftShift (hx : x.Clean) (ha : a.Kept nb) (hclean : a.Clean) :
    (x.leftShift a.position).Holds (x.toBitVec <<< a.value) := by
  rcases ha.position_eq hclean with heq | ⟨hposition, hvalue⟩
  · rw [heq]
    exact holds_leftShift hx.holds
  · rw [BitVec.shiftLeft_eq_zero hvalue, ← BitVec.shiftLeft_eq_zero hposition]
    exact holds_leftShift hx.holds

theorem Clean.rightShift (hx : x.Clean) (ha : a.Kept nb) (hclean : a.Clean) :
    (x.rightShift a.position).Holds (x.toBitVec >>> a.value) := by
  rcases ha.position_eq hclean with heq | ⟨hposition, hvalue⟩
  · rw [heq]
    exact holds_rightShift hx.holds
  · rw [BitVec.ushiftRight_eq_zero hvalue, ← BitVec.ushiftRight_eq_zero hposition]
    exact holds_rightShift hx.holds

theorem Clean.refines (hnb : 0 < nb) (hx : x.Clean) (hy : y.Clean) (ha : a.Kept nb)
    (hclean : a.Clean) : Refines x y a where
  add := holds_add hx.holds hy.holds
  subtract := holds_subtract hx.holds hy.holds
  negate := holds_negate hx.holds
  bitAnd := holds_bitAnd hx.holds hy.holds
  bitOr := holds_bitOr hx.holds hy.holds
  bitXor := holds_bitXor hx.holds hy.holds
  invert := holds_invert hx.holds
  leftShift := hx.leftShift ha hclean
  rightShift := hx.rightShift ha hclean
  isEqual := isEqual_eq hx.holds hy.holds
  lessThan := lessThan_eq hnb hx.holds hy.holds
  lessThanEqual := lessThanEqual_eq hnb hx.holds hy.holds
  greaterThan := (greaterThan_eq hnb).trans (lessThan_eq hnb hy.holds hx.holds)
  greaterThanEqual := (greaterThanEqual_eq hnb).trans (lessThanEqual_eq hnb hy.holds hx.holds)
  signedLT := signedLT_eq hnb hx.holds hy.holds
  signedLE := signedLE_eq hnb hx.holds hy.holds
  signedGT := signedGT_eq hnb hx.holds hy.holds
  signedGE := signedGE_eq hnb hx.holds hy.holds

/-- A shift of one by a smaller number is seen at the bit that it moves to. -/
theorem kept_of_leftShift (hnb : 0 < nb) (hclean : a.Clean)
    (h : ((ofUInt32 nb 1).leftShift a.position).Holds ((ofUInt32 nb 1).toBitVec <<< a.value)) :
    a.Kept nb := by
  cases a with
  | size position => trivial
  | vector z =>
    by_contra hkept
    rw [Amount.Kept, not_or, Nat.not_lt, Nat.not_le] at hkept
    have hone : (ofUInt32 nb 1).Holds (BitVec.setWidth nb 1#32) := holds_ofUInt32 hnb
    have hshift := holds_leftShift (s := (Amount.vector z).position) hone
    have heq := h.toBitVec_eq.symm.trans hshift.toBitVec_eq
    rw [Amount.position_eq_mod hclean, hone.toBitVec_eq, Amount.value] at heq
    have hlt : z.toBitVec.toNat % 2 ^ 32 < z.toBitVec.toNat :=
      (Nat.mod_lt _ (by decide)).trans_le hkept.1
    have hbit := congrArg (BitVec.getLsbD · (z.toBitVec.toNat % 2 ^ 32)) heq
    rw [BitVec.getLsbD_shiftLeft, BitVec.getLsbD_shiftLeft, decide_eq_true hkept.2,
      decide_eq_true hlt, decide_eq_false (Nat.lt_irrefl _), Nat.sub_self,
      BitVec.getLsbD_setWidth, BitVec.getLsbD_setWidth, decide_eq_true hnb] at hbit
    simp at hbit

/-- All the operations on clean vectors agree with those on their values exactly if the amount of a
shift is an integer, or a bit vector that the shift does not cut to a smaller amount. -/
theorem refines_iff (hnb : 0 < nb) (hclean : a.Clean) :
    (∀ x y : Intbv nb, x.Clean → y.Clean → Refines x y a) ↔ a.Kept nb := by
  constructor
  · intro hrefines
    refine kept_of_leftShift hnb hclean (hrefines _ (zero nb) ?_ ?_).leftShift
    · exact (holds_ofUInt32 hnb).clean
    · exact holds_zero.clean
  · intro ha x y hx hy
    exact hx.refines hnb hy ha hclean

theorem refines_iff_size : Refines (ofUInt32 70 5) (ofUInt32 70 7) (.size 33) :=
  (refines_iff (a := .size 33) (by decide) trivial).mpr trivial _ _
    (holds_ofUInt32 (by decide)).clean (holds_ofUInt32 (by decide)).clean

/-- One shifted to the left by `2 ^ 32` stays one. -/
theorem refines_vector_cut :
    (ofUInt32 8 1).Clean ∧ (ofUInt64 64 0x100000000).Clean ∧
      (Amount.vector (ofUInt64 64 0x100000000)).value = 2 ^ 32 ∧
      ¬ Refines (ofUInt32 8 1) (zero 8) (.vector (ofUInt64 64 0x100000000)) := by
  have hvalue : (Amount.vector (ofUInt64 64 0x100000000)).value = 2 ^ 32 := by decide +kernel
  refine ⟨sanitize_clean, sanitize_clean, hvalue, fun hrefines => ?_⟩
  have hbit := hrefines.leftShift 0
  rw [hvalue, BitVec.shiftLeft_eq_zero (by decide)] at hbit
  revert hbit
  decide +kernel

end Intbv

end Adl.Helpers
