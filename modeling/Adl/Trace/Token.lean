import Adl.Math.KeyedList
import Adl.Math.SetDifference
import Adl.Math.Text
import Mathlib.Data.String.Basic

/-!
# Tokens and the fields of trace cards

A card of a trace is a list of keys and values, all of them texts, which are compared as numbers
where possible. The conversion of the C library leaves a mark in `errno` when a number is out of
range; it is never cleared, and conversions that have to be exact are refused as long as it stands.
-/

namespace Adl.Trace

open Adl.Math

abbrev Token := String

abbrev TokPair := Token × Token

/-- The fields of a card, in the order of their keys. -/
abbrev Pairs := List TokPair

/-- `errno`, of which only the value `ERANGE` is told apart. -/
abbrev Errno := Bool

/-- What the C library makes of a text: the number, how many characters belong to it, and whether
it was out of range. -/
structure Conversion where
  val : BitVec 64
  used : Nat
  outOfRange : Bool
  deriving DecidableEq

def digitValue (c : Char) : Option Nat :=
  if '0' ≤ c ∧ c ≤ '9' then some (c.toNat - '0'.toNat)
  else if 'a' ≤ c ∧ c ≤ 'z' then some (c.toNat - 'a'.toNat + 10)
  else if 'A' ≤ c ∧ c ≤ 'Z' then some (c.toNat - 'A'.toNat + 10)
  else none

def digits (base : Nat) : List Char → List Nat
  | [] => []
  | c :: rest =>
    match digitValue c with
    | some d => if d < base then d :: digits base rest else []
    | none => []

/-- The base of a number, and its digits. -/
def baseOf (number : List Char) : Nat × List Char :=
  match number with
  | '0' :: x :: rest => if x = 'x' ∨ x = 'X' then (16, rest) else (8, number)
  | ['0'] => (8, number)
  | _ => (10, number)

/-- The number at the start of `body`, in a text of a given length that ends with `body`. -/
def convert (length : Nat) (negative : Bool) (base : Nat) (body : List Char) : Conversion :=
  let ds := digits base body
  if ds = [] then
    -- in a `0x` without a digit behind it the zero is the number
    ⟨0, if base = 16 then length - body.length - 1 else 0, false⟩
  else
    ⟨clamp negative (numeral base ds), length - body.length + ds.length,
      decide (2 ^ 64 ≤ numeral base ds)⟩

/-- `strtoull` with base 0. -/
def strtoull (text : List Char) : Conversion :=
  let (negative, number) := signOf '-' '+' (text.dropWhile fun c => isSpace c.toNat)
  let (base, body) := baseOf number
  convert text.length negative base body

@[simp] theorem strtoull_nil : strtoull [] = ⟨0, 0, false⟩ := rfl

/-- `atoi64` without a message: a text that is no number gives zero. -/
def atoi64 (t : Token) (errno : Errno) : BitVec 64 × Errno :=
  let c := strtoull t.toList
  (c.val, errno || c.outOfRange)

def atoi64Exact (t : Token) (errno : Errno) : Option (BitVec 64) × Errno :=
  let c := strtoull t.toList
  let errno := errno || c.outOfRange
  (if c.used = 0 ∨ c.used < t.length ∨ errno = true then none else some c.val, errno)

/-- `IntPairComp`: by key, then by value. Whether values are compared as numbers is decided by the
first one alone. -/
def intPairComp : Comparison TokPair Errno := fun x y errno =>
  if x.1 = y.1 then
    match atoi64Exact x.2 errno with
    | (none, errno) => (decide (x.2 < y.2), errno)
    | (some xd, errno) =>
      let (yd, errno) := atoi64 y.2 errno
      (decide (xd < yd), errno)
  else (decide (x.1 < y.1), errno)

/-! ### What the answers depend on -/

/-- The number of a token that is one, as the conversion sees it in a given state. -/
def exact (errno : Errno) (t : Token) : Option (BitVec 64) :=
  (atoi64Exact t errno).1

def leading (t : Token) : BitVec 64 :=
  (strtoull t.toList).val

def outOfRange (t : Token) : Bool :=
  (strtoull t.toList).outOfRange

@[simp] theorem atoi64_fst (t : Token) (errno : Errno) : (atoi64 t errno).1 = leading t := rfl

@[simp] theorem atoi64_snd (t : Token) (errno : Errno) :
    (atoi64 t errno).2 = (errno || outOfRange t) := rfl

@[simp] theorem atoi64Exact_fst (t : Token) (errno : Errno) :
    (atoi64Exact t errno).1 = exact errno t := rfl

@[simp] theorem atoi64Exact_snd (t : Token) (errno : Errno) :
    (atoi64Exact t errno).2 = (errno || outOfRange t) := rfl

@[simp] theorem exact_true (t : Token) : exact true t = none := by
  simp [exact, atoi64Exact]

/-- An exact conversion reads the number at the start, and is in range. -/
theorem exact_eq_some {errno : Errno} {t : Token} {n : BitVec 64} (h : exact errno t = some n) :
    n = leading t ∧ errno = false ∧ outOfRange t = false := by
  rw [exact, atoi64Exact] at h
  dsimp only at h
  split_ifs at h with hbad
  rw [not_or, not_or, Bool.not_eq_true, Bool.or_eq_false_iff] at hbad
  exact ⟨(Option.some.inj h).symm, hbad.2.2.1, hbad.2.2.2⟩

/-- How two values of the same key are compared. -/
def valueLt (errno : Errno) (v w : Token) : Bool :=
  match exact errno v with
  | none => decide (v < w)
  | some n => decide (n < leading w)

theorem intPairComp_fst (x y : TokPair) (errno : Errno) :
    (intPairComp x y errno).1 =
      if x.1 = y.1 then valueLt errno x.2 y.2 else decide (x.1 < y.1) := by
  rw [intPairComp, valueLt, exact]
  split_ifs with hkey
  · rcases atoi64Exact x.2 errno with ⟨_ | _, _⟩ <;> rfl
  · rfl

/-- A comparison can only set the mark, and only for a number out of range. -/
theorem intPairComp_snd (x y : TokPair) (errno : Errno) :
    (intPairComp x y errno).2 =
      if x.1 = y.1 then
        errno || outOfRange x.2 || ((exact errno x.2).isSome && outOfRange y.2)
      else errno := by
  rw [intPairComp]
  split_ifs with hkey
  · rcases hx : atoi64Exact x.2 errno with ⟨_ | n, errno'⟩
    · have hexact : exact errno x.2 = none := by rw [exact, hx]
      have herrno : errno' = (errno || outOfRange x.2) := by
        rw [← atoi64Exact_snd, hx]
      simp [hexact, herrno]
    · have hexact : exact errno x.2 = some n := by rw [exact, hx]
      have herrno : errno' = (errno || outOfRange x.2) := by
        rw [← atoi64Exact_snd, hx]
      simp [hexact, herrno]
  · rfl

end Adl.Trace
