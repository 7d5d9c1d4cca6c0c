import Mathlib.Algebra.GroupWithZero.Nat
import Mathlib.Data.BitVec
import Mathlib.Data.List.Basic
import Mathlib.Tactic.Common
import Mathlib.Tactic.Ring

/-!
# Numbers in texts

The characters of files and packets are bytes. A number is a list of digits, the highest one first.
The C library skips the spaces before a number, takes a sign, and gives the largest number if the
value is out of range.
-/

namespace Adl.Math

abbrev Byte := BitVec 8

def code (c : Char) : Byte := BitVec.ofNat 8 c.toNat

/-- The value of a hexadecimal digit. -/
def hexDigit? (ch : Byte) : Option Byte :=
  if code '0' ≤ ch ∧ ch ≤ code '9' then some (ch - code '0')
  else if code 'a' ≤ ch ∧ ch ≤ code 'f' then some (ch - code 'a' + 10)
  else if code 'A' ≤ ch ∧ ch ≤ code 'F' then some (ch - code 'A' + 10)
  else none

/-- `isspace` of the code of a character. -/
def isSpace (c : ℕ) : Bool := c = 32 ∨ 9 ≤ c ∧ c ≤ 13

section Sign

variable {α : Type*} [DecidableEq α] {minus plus : α}

/-- Whether a number has a minus sign, and what follows a sign. -/
def signOf (minus plus : α) : List α → Bool × List α
  | [] => (false, [])
  | c :: rest =>
    if c = minus then (true, rest)
    else if c = plus then (false, rest)
    else (false, c :: rest)

theorem signOf_append {text : List α} (h : text ≠ []) (rest : List α) :
    signOf minus plus (text ++ rest) =
      ((signOf minus plus text).1, (signOf minus plus text).2 ++ rest) := by
  obtain ⟨c, text, rfl⟩ := List.exists_cons_of_ne_nil h
  rw [List.cons_append, signOf, signOf]
  split_ifs <;> rfl

theorem length_signOf_le (text : List α) : (signOf minus plus text).2.length ≤ text.length := by
  cases text with
  | nil => exact le_rfl
  | cons c rest =>
    rw [signOf]
    split_ifs <;> simp

end Sign

def numeral (base : ℕ) (ds : List ℕ) : ℕ := ds.foldl (fun n d => n * base + d) 0

/-- What the C library gives for a value. -/
def clamp (negative : Bool) (value : ℕ) : BitVec 64 :=
  if 2 ^ 64 ≤ value then BitVec.allOnes 64
  else if negative then - BitVec.ofNat 64 value else BitVec.ofNat 64 value

section Numeral

variable {base d : ℕ} {ds ds' : List ℕ}

theorem numeral_append :
    numeral base (ds ++ ds') = numeral base ds * base ^ ds'.length + numeral base ds' := by
  have hfold (n : ℕ) : ds'.foldl (fun n d => n * base + d) n =
      n * base ^ ds'.length + numeral base ds' := by
    rw [numeral]
    induction ds' generalizing n with
    | nil => simp
    | cons d ds' ih =>
      rw [List.foldl_cons, List.foldl_cons, ih, ih (0 * base + d), List.length_cons, Nat.pow_succ]
      ring
  rw [numeral, List.foldl_append, hfold]
  rfl

theorem numeral_eq_zero_iff (hbase : 0 < base) : numeral base ds = 0 ↔ ∀ d ∈ ds, d = 0 := by
  induction ds with
  | nil => simp [numeral]
  | cons d ds ih =>
    have hcons : numeral base (d :: ds) = d * base ^ ds.length + numeral base ds := by
      rw [← List.singleton_append, numeral_append]
      simp [numeral]
    rw [hcons, Nat.add_eq_zero_iff, Nat.mul_eq_zero, ih, List.forall_mem_cons,
      or_iff_left (Nat.pow_pos hbase).ne']

/-- A number with more digits is larger, unless all of them are zero. -/
theorem numeral_append_eq_iff (hbase : 1 < base) (hds' : ds' ≠ []) :
    numeral base (ds ++ ds') = numeral base ds ↔ ∀ d ∈ ds ++ ds', d = 0 := by
  have hpow : 1 < base ^ ds'.length :=
    Nat.one_lt_pow (List.length_pos_iff.mpr hds').ne' hbase
  rw [← numeral_eq_zero_iff (Nat.zero_lt_of_lt hbase)]
  constructor
  · intro h
    rw [h]
    by_contra hne
    have hlt := Nat.mul_lt_mul_of_pos_left hpow (Nat.pos_of_ne_zero hne)
    rw [numeral_append] at h
    omega
  · intro h
    have hle : numeral base ds * 1 ≤ numeral base ds * base ^ ds'.length :=
      Nat.mul_le_mul_left _ hpow.le
    rw [h]
    rw [numeral_append] at h
    omega

theorem numeral_le_append (hbase : 0 < base) : numeral base ds ≤ numeral base (ds ++ ds') := by
  rw [numeral_append]
  exact (Nat.le_mul_of_pos_right _ (Nat.pow_pos hbase)).trans (Nat.le_add_right _ _)

end Numeral

section Clamp

variable {negative : Bool} {m n : ℕ}

theorem clamp_inj (hm : m < 2 ^ 64) (hn : n < 2 ^ 64) :
    clamp negative m = clamp negative n ↔ m = n := by
  rw [clamp, clamp, if_neg (Nat.not_le.mpr hm), if_neg (Nat.not_le.mpr hn)]
  have hof : BitVec.ofNat 64 m = BitVec.ofNat 64 n ↔ m = n := by
    rw [← BitVec.toNat_inj, BitVec.toNat_ofNat, BitVec.toNat_ofNat, Nat.mod_eq_of_lt hm,
      Nat.mod_eq_of_lt hn]
  cases negative with
  | false => exact hof
  | true => exact BitVec.neg_inj.trans hof

theorem clamp_of_le (h : 2 ^ 64 ≤ n) : clamp negative n = BitVec.allOnes 64 := if_pos h

end Clamp

end Adl.Math
