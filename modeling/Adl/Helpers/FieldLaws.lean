import Adl.Helpers.Padding

/-!
# Laws of fields

A field from `start` to `stop` counts its bits from the most significant one. What is written to a
field is read back, nothing else changes, and writing back what was read changes nothing.
-/

namespace Adl.Helpers

namespace Intbv

variable {nb nb₂ : ℕ} {x y r : Intbv nb} {start stop : ℕ}

/-- Write a value of another width, which is converted first. -/
def setFieldOther (x : Intbv nb) (start stop : ℕ) (y : Intbv nb₂) : Option (Intbv nb) :=
  x.setField start stop (copy nb y)

theorem exists_setField (hle : start ≤ stop) (hstop : stop < nb) :
    ∃ r, x.setField start stop y = some r := by
  obtain ⟨b, hb, -⟩ := IntbvBase.setField_eq (x := x.base) (y := y.base) rfl hle hstop
  refine ⟨⟨b⟩, ?_⟩
  rw [setField, Nat.mod_eq_of_lt hstop, Nat.mod_eq_of_lt (by omega), hb]
  rfl

theorem getLsbD_of_setField (hle : start ≤ stop) (hstop : stop < nb)
    (h : x.setField start stop y = some r) (i : ℕ) : r.base.toBitVec.getLsbD i =
      if nb - 1 - stop ≤ i ∧ i ≤ nb - 1 - start then
        y.base.toBitVec.getLsbD (i - (nb - 1 - stop))
      else x.base.toBitVec.getLsbD i := by
  obtain ⟨-, hbits⟩ := getLsbD_setField (by omega) h
  rw [hbits, Nat.mod_eq_of_lt hstop, Nat.mod_eq_of_lt (by omega)]

/-- A field that is read is there, and has the bits from its last one on. -/
theorem holds_getField (hle : start ≤ stop) (hstop : stop < nb) :
    ∃ g, x.getField start stop = some g ∧ g.Clean ∧ ∀ i, g.base.toBitVec.getLsbD i =
      (decide (i ≤ stop - start) && x.base.toBitVec.getLsbD (nb - 1 - stop + i)) := by
  obtain ⟨b, hb, hbits⟩ := IntbvBase.getField_eq (x := x.base) rfl hle hstop
  refine ⟨sanitize ⟨b⟩, ?_, sanitize_clean, fun i => ?_⟩
  · rw [getField, Nat.mod_eq_of_lt hstop, Nat.mod_eq_of_lt (by omega), hb]
    rfl
  · rw [holds_sanitize, getLsbD_toBitVec]
    by_cases hi : i < nb
    · rw [decide_eq_true hi, Bool.true_and, hbits]
    · rw [decide_eq_false hi, decide_eq_false (by omega), Bool.false_and, Bool.false_and]

theorem getField_setField (hle : start ≤ stop) (hstop : stop < nb)
    (h : x.setField start stop y = some r) :
    ∃ g, r.getField start stop = some g ∧ g.Clean ∧
      g.toBitVec.toNat = y.toBitVec.toNat % 2 ^ (stop - start + 1) := by
  obtain ⟨g, hg, hclean, hbits⟩ := holds_getField (x := r) hle hstop
  refine ⟨g, hg, hclean, Nat.eq_of_testBit_eq fun i => ?_⟩
  rw [Nat.testBit_mod_two_pow, BitVec.testBit_toNat, BitVec.testBit_toNat, ← hclean.holds, hbits,
    getLsbD_toBitVec]
  by_cases hi : i ≤ stop - start
  · rw [getLsbD_of_setField hle hstop h, if_pos (by omega), Nat.add_sub_cancel_left,
      decide_eq_true hi, decide_eq_true (by omega : i < stop - start + 1),
      decide_eq_true (by omega : i < nb), Bool.true_and, Bool.true_and]
  · rw [decide_eq_false hi, decide_eq_false (by omega : ¬ i < stop - start + 1), Bool.false_and,
      Bool.false_and]

theorem get_setField {i : ℕ} (hle : start ≤ stop) (hstop : stop < nb)
    (h : x.setField start stop y = some r) (hi : i < nb) (hout : i < start ∨ stop < i) :
    r.get i = x.get i := by
  rw [get, get, if_pos hi, if_pos hi, IntbvBase.uncheckedTest_eq rfl hi,
    IntbvBase.uncheckedTest_eq rfl hi, getLsbD_of_setField hle hstop h, if_neg (by omega)]

theorem setField_getField {g : Intbv nb} (hle : start ≤ stop) (hstop : stop < nb)
    (h : x.getField start stop = some g) : x.setField start stop g = some x := by
  obtain ⟨g', hg', -, hbits⟩ := holds_getField (x := x) hle hstop
  obtain rfl : g' = g := Option.some.inj (hg'.symm.trans h)
  obtain ⟨r, hr⟩ := exists_setField (x := x) (y := g') hle hstop
  have hbase : r.base = x.base := by
    apply IntbvBase.toBitVec_injective
    apply BitVec.eq_of_getLsbD_eq
    intro i _
    rw [getLsbD_of_setField hle hstop hr]
    split
    case isTrue hfield =>
      rw [hbits, decide_eq_true (by omega), Bool.true_and, Nat.add_sub_cancel' hfield.1]
    case isFalse => rfl
  rw [hr]
  cases r
  cases x
  exact congrArg (fun b => some (mk b)) hbase

/-- A value is written to a field: it is read back modulo the size of the field, and the other bits
are kept. -/
def FieldLaw (x : Intbv nb) (start stop : ℕ) (written : Option (Intbv nb)) (value : ℕ) : Prop :=
  ∃ r g, written = some r ∧ (x.Clean → r.Clean) ∧ r.getField start stop = some g ∧ g.Clean ∧
    g.toBitVec.toNat = value % 2 ^ (stop - start + 1) ∧
    ∀ i, i < nb → (i < start ∨ stop < i) → r.get i = x.get i

theorem fieldLaw_setField (hle : start ≤ stop) (hstop : stop < nb) :
    FieldLaw x start stop (x.setField start stop y) y.toBitVec.toNat := by
  obtain ⟨r, hr⟩ := exists_setField (x := x) (y := y) hle hstop
  obtain ⟨g, hg, hclean, hvalue⟩ := getField_setField hle hstop hr
  exact ⟨r, g, hr, fun hx => hx.setField (by omega) hr, hg, hclean, hvalue,
    fun i hi hout => get_setField hle hstop hr hi hout⟩

theorem fieldLaw_setFieldOther {z : Intbv nb₂} (hnb₂ : 0 < nb₂) (hz : z.Clean)
    (hle : start ≤ stop) (hstop : stop < nb) :
    FieldLaw x start stop (x.setFieldOther start stop z) z.toBitVec.toNat := by
  obtain ⟨r, g, hr, hclean, hg, hclean', hvalue, hout⟩ :=
    fieldLaw_setField (x := x) (y := copy nb z) hle hstop
  refine ⟨r, g, hr, hclean, hg, hclean', hvalue.trans ?_, hout⟩
  rw [(holds_copy (by omega) hnb₂ hz.holds).toBitVec_eq, BitVec.toNat_setWidth,
    Nat.mod_mod_of_dvd _ (Nat.pow_dvd_pow 2 (by omega))]

end Intbv

/-- Writing and reading a field, with a value of the same width and of another one. -/
theorem field_laws {nb start stop : ℕ} (hle : start ≤ stop) (hstop : stop < nb) (x : Intbv nb) :
    (∀ y : Intbv nb, x.FieldLaw start stop (x.setField start stop y) y.toBitVec.toNat) ∧
    (∀ (nb₂ : ℕ) (y : Intbv nb₂), 0 < nb₂ → y.Clean →
      x.FieldLaw start stop (x.setFieldOther start stop y) y.toBitVec.toNat) ∧
    ∃ g, x.getField start stop = some g ∧ x.setField start stop g = some x := by
  refine ⟨fun y => Intbv.fieldLaw_setField hle hstop,
    fun nb₂ y hnb₂ hy => Intbv.fieldLaw_setFieldOther hnb₂ hy hle hstop, ?_⟩
  obtain ⟨g, hg, -⟩ := Intbv.holds_getField (x := x) hle hstop
  exact ⟨g, hg, Intbv.setField_getField hle hstop hg⟩

/-- A field that covers the words of an array. -/
theorem field_laws_seventy :
    ∃ g, (Intbv.ones 70).getField 3 66 = some g ∧
      (Intbv.ones 70).setField 3 66 g = some (Intbv.ones 70) :=
  (@field_laws 70 3 66 (by decide) (by decide) (Intbv.ones 70)).2.2

end Adl.Helpers
