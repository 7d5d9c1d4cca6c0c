import Mathlib.Logic.Function.Basic
import Adl.Math.Machine
import Adl.Helpers.Modular

/-!
# The storage bits above a bit vector

As long as a program makes no assignment that cuts ones of a wider vector into the last word, the
storage bits above the width stay zero in every vector. Operations between vectors of different
widths copy them to the larger width first, so that a program makes them in several steps.
-/

namespace Adl.Helpers

open IntbvBase (words whichbit)

/-! ### Programs -/

/-- A variable for a bit vector of `nb` bits. -/
structure Reg where
  nb : ℕ
  index : ℕ
  pos : 0 < nb
deriving DecidableEq

/-- The values of all variables. -/
abbrev Store := (r : Reg) → Intbv r.nb

/-- Another variable of the same width. -/
def Reg.sibling (r : Reg) (index : ℕ) : Reg := { r with index := index }

/-- A new value for a variable. Operands of the same width are named by their index. -/
inductive Op where
  | ofUInt32 (val : BitVec 32)
  | ofUInt32Unsafe (val : BitVec 32)
  | ofUInt64 (val : BitVec 64)
  | ofInt32 (val : BitVec 32)
  | ofInt64 (val : BitVec 64)
  | copy (r : Reg)
  | assign (r : Reg)
  | set (position : ℕ) (val : Bool)
  | uncheckedSet (position : ℕ) (val : Bool)
  | setField (start stop : ℕ) (r : Reg)
  | getField (k start stop : ℕ)
  | getFieldAs (r : Reg) (start stop : ℕ)
  | setAll
  | reset
  | mask (start stop : ℕ)
  | maskInv (start stop : ℕ)
  | simpleMask (start stop : ℕ)
  | simpleMaskInv (start stop : ℕ)
  | add (k : ℕ)
  | subtract (k : ℕ)
  | multiply (k : ℕ)
  | signedMultiplyEqual (k : ℕ)
  | signedMultiplyEqualUInt64 (val : BitVec 64)
  | divide (k : ℕ)
  | modulo (k : ℕ)
  | divideOther (r : Reg)
  | moduloOther (r : Reg)
  | divideSignedAligned (k : ℕ)
  | signedDivideEqual (r : Reg)
  | bitAnd (k : ℕ)
  | bitOr (k : ℕ)
  | bitXor (k : ℕ)
  | invert
  | negate
  | leftShift (position : ℕ)
  | rightShift (position : ℕ)
  | signedRightShiftEqual (position : ℕ)
  | leftRotate (position : ℕ)
  | rightRotate (position : ℕ)
  | swapBytes
  | swapWords
  | signExtend (bit : ℕ)
  | signExtendTo (r : Reg)

/-- What an operation on a variable computes. -/
def Op.eval (s : Store) (d : Reg) : Op → Option (Intbv d.nb)
  | ofUInt32 val => some (.ofUInt32 _ val)
  | ofUInt32Unsafe val => some (.ofUInt32Unsafe _ val)
  | ofUInt64 val => some (.ofUInt64 _ val)
  | ofInt32 val => Intbv.ofInt32 _ val
  | ofInt64 val => Intbv.ofInt64 _ val
  | copy r => some (.copy _ (s r))
  | assign r => some ((s d).assign (s r))
  | set position val => (s d).set position val
  | uncheckedSet position val => (s d).uncheckedSet position val
  | setField start stop r => (s d).setField start stop (.copy _ (s r))
  | getField k start stop => (s (d.sibling k)).getField start stop
  | getFieldAs r start stop => (s r).getFieldAs _ start stop
  | setAll => some (.ones _)
  | reset => some (.zero _)
  | mask start stop => (s d).mask start stop
  | maskInv start stop => (s d).maskInv start stop
  | simpleMask start stop => (s d).simpleMask start stop
  | simpleMaskInv start stop => (s d).simpleMaskInv start stop
  | add k => some ((s d).add (s (d.sibling k)))
  | subtract k => some ((s d).subtract (s (d.sibling k)))
  | multiply k => some ((s d).multiply (s (d.sibling k)))
  | signedMultiplyEqual k => some ((s d).signedMultiplyEqual (s (d.sibling k)))
  | signedMultiplyEqualUInt64 val => some ((s d).signedMultiplyEqualUInt64 val)
  | divide k => ((s d).divide (s (d.sibling k))).toOption
  | modulo k => ((s d).modulo (s (d.sibling k))).toOption
  | divideOther r => ((s d).divideOther (s r)).toOption
  | moduloOther r => ((s d).moduloOther (s r)).toOption
  | divideSignedAligned k => ((s d).divideSignedAligned (s (d.sibling k))).toOption
  | signedDivideEqual r => ((s d).signedDivideEqual (s r)).toOption
  | bitAnd k => some ((s d).bitAnd (s (d.sibling k)))
  | bitOr k => some ((s d).bitOr (s (d.sibling k)))
  | bitXor k => some ((s d).bitXor (s (d.sibling k)))
  | invert => some (s d).invert
  | negate => some (s d).negate
  | leftShift position => some ((s d).leftShift position)
  | rightShift position => some ((s d).rightShift position)
  | signedRightShiftEqual position => (s d).signedRightShiftEqual position
  | leftRotate position => some ((s d).leftRotate position)
  | rightRotate position => some ((s d).rightRotate position)
  | swapBytes => some (s d).swapBytes
  | swapWords => some (s d).swapWords
  | signExtend bit => (s d).signExtend bit
  | signExtendTo r => (s r).signExtendTo _

/-- An operation and the variable that it changes. -/
structure Instruction where
  dest : Reg
  op : Op

namespace Store

def exec (s : Store) (i : Instruction) : Option Store :=
  (i.op.eval s i.dest).map (Function.update s i.dest)

/-- Every variable as its default constructor leaves it. -/
def init : Store := fun _ => .zero _

/-- The storage bits above the width are zero in every variable. -/
def Clean (s : Store) : Prop := ∀ r, (s r).Clean

/-- The operation leaves zeros above the width: an assignment from a wider vector brings no ones
there, and neither does a constructor or a write of a bit that are not checked. -/
def Keeps (s : Store) (i : Instruction) : Prop :=
  match i.op with
  | .ofUInt32Unsafe val => val.toNat < 2 ^ i.dest.nb
  | .assign r => r.nb < i.dest.nb ∨ (s r).base.toNat % 2 ^ (32 * words i.dest.nb) < 2 ^ i.dest.nb
  | .uncheckedSet position val =>
    val = true → 32 < i.dest.nb ∨ whichbit 32 i.dest.nb position < i.dest.nb
  | _ => True

instance : ∀ (s : Store) (i : Instruction), Decidable (s.Keeps i) := fun _ ⟨_, op⟩ => by
  cases op <;> dsimp only [Keeps] <;> infer_instance

end Store

/-! ### Operations that keep the zeros -/

namespace Intbv

variable {nb nb₂ : ℕ} {x y r : Intbv nb} {z : Intbv nb₂} {start stop : ℕ}

theorem clean_iff_toNat : x.Clean ↔ x.base.toNat < 2 ^ nb := by
  constructor
  · intro h
    rw [h.holds.toNat_eq]
    exact x.toBitVec.isLt
  · intro h i hi
    rw [IntbvBase.getLsbD_toBitVec]
    exact Nat.testBit_lt_two_pow (h.trans_le (Nat.pow_le_pow_right (by decide) hi))

theorem Clean.copy (hnb : 0 < nb) (hnb₂ : 0 < nb₂) (hz : z.Clean) : (copy nb z).Clean :=
  (holds_copy hnb hnb₂ hz.holds).clean

theorem Clean.setField (hnb : 0 < nb) (hx : x.Clean) (h : x.setField start stop y = some r) :
    r.Clean := by
  obtain ⟨-, hbits⟩ := getLsbD_setField hnb h
  intro i hi
  rw [hbits, if_neg (by omega), hx i hi]

theorem Clean.fill (hnb : 0 < nb) (hx : x.Clean) (h : x.fill y start stop = some r) :
    r.Clean := by
  rw [Intbv.fill] at h
  split at h
  · exact hx.setField hnb h
  · obtain ⟨z, hz, h⟩ := Option.bind_eq_some_iff.mp h
    exact (hx.setField hnb hz).setField hnb h

theorem Clean.simpleMask (hnb : 0 < nb) (hx : x.Clean) (h : x.simpleMask start stop = some r) :
    r.Clean := by
  rw [Intbv.simpleMask, Option.ite_none_right_eq_some] at h
  exact hx.setField hnb h.2

theorem Clean.simpleMaskInv (hnb : 0 < nb) (hx : x.Clean)
    (h : x.simpleMaskInv start stop = some r) : r.Clean := by
  rw [Intbv.simpleMaskInv, Option.ite_none_right_eq_some] at h
  exact hx.setField hnb h.2

theorem Clean.signExtend {bit : ℕ} (hnb : 0 < nb) (hx : x.Clean)
    (h : x.signExtend bit = some r) : r.Clean := by
  rw [Intbv.signExtend] at h
  split at h
  · exact Option.some.inj h ▸ hx
  · obtain ⟨sign, -, h⟩ := Option.bind_eq_some_iff.mp h
    split at h
    · exact hx.simpleMask hnb h
    · exact hx.simpleMaskInv hnb h

theorem Clean.signExtendTo (hnb : 0 < nb) (hnb₂ : 0 < nb₂) (hz : z.Clean)
    (h : z.signExtendTo nb = some r) : r.Clean := by
  have hcopy := @Intbv.Clean.copy nb _ _ hnb hnb₂ hz
  rw [Intbv.signExtendTo] at h
  split at h
  · obtain ⟨sign, -, h⟩ := Option.bind_eq_some_iff.mp h
    split at h
    · exact hcopy.simpleMask hnb h
    · exact Option.some.inj h ▸ hcopy
  · exact Option.some.inj h ▸ hcopy

theorem ofInt32_clean {val : BitVec 32} (hnb : 0 < nb) (h : ofInt32 nb val = some r) :
    r.Clean := by
  rw [ofInt32] at h
  split at h
  · exact sanitize_clean.signExtend hnb h
  · exact Option.some.inj h ▸ sanitize_clean

theorem ofInt64_clean {val : BitVec 64} (hnb : 0 < nb) (h : ofInt64 nb val = some r) :
    r.Clean := by
  rw [ofInt64] at h
  split at h
  · exact sanitize_clean.signExtend hnb h
  · exact Option.some.inj h ▸ sanitize_clean

/-- A result that is cleared in the end. -/
theorem clean_of_map {α : Type*} {o : Option α} {f : α → Intbv nb}
    (h : o.map (fun a => sanitize (f a)) = some r) : r.Clean := by
  obtain ⟨a, -, rfl⟩ := Option.map_eq_some_iff.mp h
  exact sanitize_clean

theorem clean_of_toOption_map {ε α : Type*} {e : Except ε α} {f : α → Intbv nb}
    (h : (e.map fun a => sanitize (f a)).toOption = some r) : r.Clean := by
  cases e with
  | error _ => cases h
  | ok a => exact Option.some.inj h ▸ sanitize_clean

theorem Clean.getFieldAs (hnb : 0 < nb) (hnb₂ : 0 < nb₂) (h : z.getFieldAs nb start stop = some r) :
    r.Clean := by
  obtain ⟨b, hb, rfl⟩ := Option.map_eq_some_iff.mp h
  obtain ⟨-, hbits⟩ := getLsbD_getField hnb₂ hb
  refine Clean.copy hnb hnb₂ fun i hi => ?_
  have hstop := Nat.mod_lt stop hnb₂
  rw [hbits, decide_eq_false (by omega), Bool.false_and]

theorem Clean.uncheckedSet_iff {pos : ℕ} {val : Bool} (hnb : 0 < nb) (hx : x.Clean)
    (h : x.uncheckedSet pos val = some r) :
    r.Clean ↔ (val = true → 32 < nb ∨ whichbit 32 nb pos < nb) := by
  obtain ⟨b, hb, rfl⟩ := Option.map_eq_some_iff.mp h
  obtain ⟨place, hplace, hbits⟩ := IntbvBase.uncheckedSet_cases rfl hnb hb
  rw [← hplace]
  constructor
  · intro hclean hval
    by_contra hge
    have hbit := hbits place
    rw [if_pos rfl, hval, hclean place (by omega)] at hbit
    cases hbit
  · intro hlt i hi
    rw [hbits]
    split
    case isTrue heq =>
      by_contra hval
      have := hlt (Bool.not_eq_false _ ▸ hval)
      omega
    case isFalse => exact hx i hi

theorem Clean.set {pos : ℕ} {val : Bool} (hx : x.Clean) (h : x.set pos val = some r) :
    r.Clean := by
  rw [Intbv.set, Option.ite_none_right_eq_some] at h
  refine (hx.uncheckedSet_iff (by omega) h.2).mpr fun _ => ?_
  rw [IntbvBase.whichbit_eq h.1]
  omega

theorem Clean.assign_iff (hnb : 0 < nb) :
    (x.assign z).Clean ↔ nb₂ < nb ∨ z.base.toNat % 2 ^ (32 * words nb) < 2 ^ nb := by
  by_cases hlt : nb₂ < nb
  · refine iff_of_true ?_ (.inl hlt)
    rw [assign, if_pos hlt]
    exact sanitize_clean
  · rw [clean_iff_toNat, toNat_assign hnb (by omega)]
    exact (or_iff_right hlt).symm

theorem clean_of_wordAligned (h : nb % 32 = 0) : x.Clean := by
  intro i hi
  apply BitVec.getLsbD_of_ge
  rw [words]
  omega

theorem rightShift_adjust_clean {b : IntbvBase (words nb)} (hnb : 0 < nb) :
    (⟨b.rightShift (adjust nb)⟩ : Intbv nb).Clean := by
  intro i hi
  have hbits := le_bits nb
  rw [IntbvBase.toBitVec_rightShift (by rw [adjust]; omega), BitVec.getLsbD_ushiftRight]
  apply BitVec.getLsbD_of_ge
  rw [adjust]
  omega

theorem swapBytes_clean (hnb : 0 < nb) : x.swapBytes.Clean := by
  rw [swapBytes]
  split
  · exact rightShift_adjust_clean hnb
  case isFalse h => exact clean_of_wordAligned (not_not.mp h)

theorem getLsbD_swapBytes {i : ℕ} (hi : i < nb) :
    x.swapBytes.toBitVec.getLsbD i = x.base.toBitVec.getLsbD
      (8 * (4 * words nb - 1 - (adjust nb + i) / 8) + (adjust nb + i) % 8) := by
  have hbits := le_bits nb
  have hadjust : adjust nb = 32 * words nb - nb := rfl
  rw [getLsbD_toBitVec, decide_eq_true hi, Bool.true_and, swapBytes]
  split
  case isTrue =>
    rw [IntbvBase.toBitVec_rightShift (by omega), BitVec.getLsbD_ushiftRight,
      IntbvBase.getLsbD_swapBytes (by omega)]
  case isFalse haligned =>
    have hzero : adjust nb = 0 := by
      rw [adjust, words]
      omega
    rw [IntbvBase.getLsbD_swapBytes (by omega), hzero, Nat.zero_add]

theorem swapWords_clean (hnb : 0 < nb) : x.swapWords.Clean := by
  by_cases h : nb % 32 = 0
  · exact clean_of_wordAligned h
  · have hadjust : adjust nb ≠ 0 := by
      rw [adjust, words]
      omega
    simp only [swapWords, if_pos h, if_pos hadjust, ne_eq]
    exact rightShift_adjust_clean hnb

theorem signedDivideEqual_clean (h : (x.signedDivideEqual z).toOption = some r) : r.Clean := by
  rw [signedDivideEqual] at h
  cases htmp : asserted (extendFrom nb (copy (wordAligned nb₂) x)) with
  | error _ => simp [htmp, bind, Except.bind, Except.toOption] at h
  | ok tmp =>
    cases hrhs : asserted (extendFrom nb₂ (copy (wordAligned nb₂) z)) with
    | error _ => simp [htmp, hrhs, bind, Except.bind, Except.toOption] at h
    | ok rhs =>
      rw [htmp, hrhs] at h
      exact clean_of_toOption_map (f := fun q => x.assign q) h

theorem Clean.signedRightShiftEqual {position : ℕ} (hnb : 0 < nb) (hx : x.Clean)
    (h : x.signedRightShiftEqual position = some r) : r.Clean := by
  have hshift := (holds_rightShift (s := position) hx.holds).clean
  rw [Intbv.signedRightShiftEqual] at h
  split at h
  · exact hshift.signExtend hnb h
  · split at h
    · exact Option.some.inj h ▸ sanitize_clean
    · exact Option.some.inj h ▸ hshift

end Intbv

/-! ### Runs -/

namespace Store

variable {s s' : Store} {i : Instruction}

/-- A value that an operation computes from clean variables is clean if the operation keeps the
zeros, and only then. -/
theorem eval_clean_iff {v : Intbv i.dest.nb} (hs : s.Clean) (h : i.op.eval s i.dest = some v) :
    v.Clean ↔ s.Keeps i := by
  obtain ⟨d, op⟩ := i
  have hd := hs d
  have hnb := d.pos
  cases op with
  -- the three operations that can leave bits above the width
  | ofUInt32Unsafe val =>
    obtain rfl := Option.some.inj h
    rw [Intbv.clean_iff_toNat]
    exact iff_of_eq (congrArg (· < _) (IntbvBase.toNat_ofUInt32 (Intbv.words_pos hnb)))
  | assign r => exact Option.some.inj h ▸ Intbv.Clean.assign_iff hnb
  | uncheckedSet position val => exact hd.uncheckedSet_iff hnb h
  -- operations that end with `sanitize`
  | ofUInt32 _ | ofUInt64 _ | setAll | add _ | subtract _ | multiply _ | signedMultiplyEqual _
  | signedMultiplyEqualUInt64 _ | invert | negate | leftRotate _ | rightRotate _ =>
    exact iff_of_true (Option.some.inj h ▸ Intbv.sanitize_clean) trivial
  | getField _ _ _ => exact iff_of_true (Intbv.clean_of_map h) trivial
  | divide _ | modulo _ | divideOther _ | moduloOther _ | divideSignedAligned _ =>
    exact iff_of_true (Intbv.clean_of_toOption_map h) trivial
  | ofInt32 val => exact iff_of_true (Intbv.ofInt32_clean hnb h) trivial
  | ofInt64 val => exact iff_of_true (Intbv.ofInt64_clean hnb h) trivial
  | copy r => exact iff_of_true (Option.some.inj h ▸ (hs r).copy hnb r.pos) trivial
  | set position val => exact iff_of_true (hd.set h) trivial
  | setField start stop r => exact iff_of_true (hd.setField hnb h) trivial
  | getFieldAs r start stop => exact iff_of_true (Intbv.Clean.getFieldAs hnb r.pos h) trivial
  | reset => exact iff_of_true (Option.some.inj h ▸ Intbv.holds_zero.clean) trivial
  | mask _ _ | maskInv _ _ => exact iff_of_true (hd.fill hnb h) trivial
  | simpleMask start stop => exact iff_of_true (hd.simpleMask hnb h) trivial
  | simpleMaskInv start stop => exact iff_of_true (hd.simpleMaskInv hnb h) trivial
  | signedDivideEqual r => exact iff_of_true (Intbv.signedDivideEqual_clean h) trivial
  -- operations that have nothing to clear
  | bitAnd k =>
    have hvalue := Intbv.holds_bitAnd hd.holds (hs (d.sibling k)).holds
    exact iff_of_true (Option.some.inj h ▸ hvalue.clean) trivial
  | bitOr k =>
    have hvalue := Intbv.holds_bitOr hd.holds (hs (d.sibling k)).holds
    exact iff_of_true (Option.some.inj h ▸ hvalue.clean) trivial
  | bitXor k =>
    have hvalue := Intbv.holds_bitXor hd.holds (hs (d.sibling k)).holds
    exact iff_of_true (Option.some.inj h ▸ hvalue.clean) trivial
  | leftShift position =>
    exact iff_of_true (Option.some.inj h ▸ (Intbv.holds_leftShift hd.holds).clean) trivial
  | rightShift position =>
    exact iff_of_true (Option.some.inj h ▸ (Intbv.holds_rightShift hd.holds).clean) trivial
  | signedRightShiftEqual position => exact iff_of_true (hd.signedRightShiftEqual hnb h) trivial
  | swapBytes => exact iff_of_true (Option.some.inj h ▸ Intbv.swapBytes_clean hnb) trivial
  | swapWords => exact iff_of_true (Option.some.inj h ▸ Intbv.swapWords_clean hnb) trivial
  | signExtend bit => exact iff_of_true (hd.signExtend hnb h) trivial
  | signExtendTo r => exact iff_of_true ((hs r).signExtendTo hnb r.pos h) trivial

theorem exec_clean_iff (hs : s.Clean) (h : s.exec i = some s') : s'.Clean ↔ s.Keeps i := by
  obtain ⟨v, hv, rfl⟩ := Option.map_eq_some_iff.mp h
  rw [← eval_clean_iff hs hv]
  constructor
  · intro hclean
    have hdest := hclean i.dest
    rwa [Function.update_self] at hdest
  · intro hclean r
    by_cases hr : r = i.dest
    · subst hr
      rwa [Function.update_self]
    · rw [Function.update_of_ne hr]
      exact hs r

theorem init_clean : init.Clean := fun _ => Intbv.holds_zero.clean

/-- In a run from clean variables whose operations all keep the zeros above the width, they are zero
in every variable, comparisons agree with those of the values, and a further operation leaves them
zero exactly if it is one of those that do. -/
theorem padding_zero_iff {is : List Instruction} (hs : s.Clean)
    (his : Math.Allowed exec Keeps s is) (hrun : is.foldlM exec s = some s') :
    s'.Clean ∧ (∀ r k n, Intbv.Refines (s' r) (s' (r.sibling k)) (.size n)) ∧
      ∀ i s'', s'.exec i = some s'' → (s''.Clean ↔ s'.Keeps i) := by
  have hclean : s'.Clean := Math.foldlM_along
    (fun _ _ _ hkeeps hclean hstep => (exec_clean_iff hclean hstep).mpr hkeeps) his hs hrun
  exact ⟨hclean, fun r k n => (hclean r).refines r.pos (hclean _) trivial trivial,
    fun i s'' hstep => exec_clean_iff hclean hstep⟩

/-- A narrower vector is assigned, shifted and negated. -/
def narrowed : List Instruction :=
  [⟨⟨5, 0, by decide⟩, .ofUInt32 0x1f⟩, ⟨⟨70, 0, by decide⟩, .assign ⟨5, 0, by decide⟩⟩,
    ⟨⟨70, 0, by decide⟩, .leftShift 68⟩, ⟨⟨70, 0, by decide⟩, .negate⟩]

theorem padding_zero_narrowed : ∃ s', narrowed.foldlM exec init = some s' ∧ s'.Clean := by
  have hrun : narrowed.foldlM exec init = some _ :=
    (Option.some_get (by decide +kernel : (narrowed.foldlM exec init).isSome)).symm
  exact ⟨_, hrun, (padding_zero_iff init_clean (by decide +kernel) hrun).1⟩

/-- The ones of a wider vector above the width stay in the storage, and the vector differs from the
one with the same value. -/
theorem assign_wider_padding : ∃ s',
    [⟨⟨16, 0, by decide⟩, .ofUInt32 0xffff⟩, ⟨⟨5, 0, by decide⟩, .assign ⟨16, 0, by decide⟩⟩].foldlM
        exec init = some s' ∧ ¬ s'.Clean ∧
      (s' ⟨5, 0, by decide⟩).toBitVec = 0x1f#5 ∧
      (s' ⟨5, 0, by decide⟩).isEqual (.ofUInt32 5 0x1f) = false := by
  refine ⟨_, rfl, fun hclean => ?_, by decide +kernel, by decide +kernel⟩
  have hbit := hclean ⟨5, 0, by decide⟩ 5 (by decide)
  revert hbit
  decide +kernel

end Store

end Adl.Helpers
