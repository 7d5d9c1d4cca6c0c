import Adl.Trace.Token
import Mathlib.Data.List.TakeWhile

/-!
# What a conversion depends on

The C library reads on into the text behind a token, and the mark of an earlier number out of range
is still in `errno`. A conversion depends on its token alone only where neither matters: the token
is read to its end only if it is a number so far, and then a digit behind it counts.
-/

namespace Adl.Trace

open Adl.Math

/-- `errno` after conversions of some texts. -/
def errnoAfter (history : List (List Char)) : Errno :=
  history.any fun text => (strtoull text).outOfRange

/-- `atoi64` with a flag, for the token `t` and the text `r` behind it. -/
def atoi64Flag (t r : List Char) (errno : Errno) : Bool × BitVec 64 :=
  let c := strtoull (t ++ r)
  (!decide (c.used = 0 ∨ (errno || c.outOfRange) = true), c.val)

/-- `atoi64_exact`, for the token `t` and the text `r` behind it. -/
def atoi64ExactFlag (t r : List Char) (errno : Errno) : Bool × BitVec 64 :=
  let c := strtoull (t ++ r)
  (!decide (c.used = 0 ∨ c.used < t.length ∨ (errno || c.outOfRange) = true), c.val)

/-! ### The parts of a token -/

/-- What follows the spaces. -/
def trimmed (text : List Char) : List Char := text.dropWhile fun c => isSpace c.toNat

/-- What follows the spaces and the sign. -/
def numberOf (text : List Char) : List Char := (signOf '-' '+' (trimmed text)).2

/-- The digits behind a token, if it is read to its end. Its last zero may be that of a `0x`. -/
def digitsBehind (number r : List Char) : List ℕ :=
  if number = ['0'] ∧ (r.head? = some 'x' ∨ r.head? = some 'X') then digits 16 r.tail
  else digits (baseOf number).1 r

/-- The text `r` behind a token does not matter. If the token has only spaces and a sign, no number
must follow. Otherwise it is not read to its end, or no digit follows, or it is a number that is out
of range anyway, or all digits are zero. -/
def Ends (t r : List Char) : Prop :=
  let number := numberOf t
  let (base, body) := baseOf number
  let ds := digits base body
  if number = [] then digits 10 (if trimmed t = [] then numberOf r else r) = []
  else
    ds.length < body.length ∨ digitsBehind number r = [] ∨
      ds ≠ [] ∧ (2 ^ 64 ≤ numeral base ds ∨ ∀ d ∈ ds ++ digitsBehind number r, d = 0)

/-! ### Conversions that are not told apart -/

/-- A number in range with a given length at least. -/
def Conversion.IsNumber (c : Conversion) (len : ℕ) : Prop :=
  c.used ≠ 0 ∧ len ≤ c.used ∧ c.outOfRange = false

instance (c : Conversion) (len : ℕ) : Decidable (c.IsNumber len) :=
  inferInstanceAs (Decidable (_ ∧ _))

/-- The same value and the same flags for a token of a given length. -/
structure Same (len : ℕ) (c c' : Conversion) : Prop where
  val : c.val = c'.val
  number : c.IsNumber 0 ↔ c'.IsNumber 0
  exact : c.IsNumber len ↔ c'.IsNumber len

section Behind

variable {t r number body : List Char} {base len : ℕ} {negative : Bool}

theorem Same.refl {c : Conversion} : Same len c c := ⟨rfl, .rfl, .rfl⟩

theorem Conversion.not_isNumber {c : Conversion} (h : c.outOfRange = true) : ¬ c.IsNumber len :=
  fun hnumber => Bool.false_ne_true (hnumber.2.2.symm.trans h)

/-- A longer number is not told apart if both are out of range or both are the same. -/
theorem same_longer_iff {v v' used : ℕ} (hlen : len ≠ 0) (hused : len ≤ used) (hv : v ≤ v') :
    Same len ⟨clamp negative v', used, decide (2 ^ 64 ≤ v')⟩
      ⟨clamp negative v, len, decide (2 ^ 64 ≤ v)⟩ ↔ 2 ^ 64 ≤ v ∨ v' = v := by
  constructor
  · intro h
    by_contra hne
    rw [not_or, Nat.not_le] at hne
    obtain ⟨hlt, hne⟩ := hne
    have hnumber := h.number.mpr ⟨hlen, Nat.zero_le _, decide_eq_false (Nat.not_le.mpr hlt)⟩
    have hlt' := Nat.not_le.mp (of_decide_eq_false hnumber.2.2)
    exact hne ((clamp_inj hlt' hlt).mp h.val)
  · rintro (hrange | rfl)
    · have hrange' := hrange.trans hv
      have hout (n : ℕ) := iff_of_false
        (@Conversion.not_isNumber n ⟨clamp negative v', used, _⟩ (decide_eq_true hrange'))
        (@Conversion.not_isNumber n ⟨clamp negative v, len, _⟩ (decide_eq_true hrange))
      exact ⟨(clamp_of_le hrange').trans (clamp_of_le hrange).symm, hout 0, hout len⟩
    · have hpos : used ≠ 0 := by omega
      exact ⟨rfl, by simp [Conversion.IsNumber, hlen, hpos],
        by simp [Conversion.IsNumber, hlen, hpos, hused]⟩

theorem convert_of_nil (h : digits base body = []) :
    convert len negative base body =
      ⟨0, if base = 16 then len - body.length - 1 else 0, false⟩ := if_pos h

theorem convert_of_ne_nil (h : digits base body ≠ []) :
    convert len negative base body =
      ⟨clamp negative (numeral base (digits base body)),
        len - body.length + (digits base body).length,
        decide (2 ^ 64 ≤ numeral base (digits base body))⟩ := if_neg h

theorem convert_val (h : (convert len negative base body).used = 0) :
    (convert len negative base body).val = 0 := by
  by_cases hnone : digits base body = []
  · rw [convert_of_nil hnone]
  · rw [convert_of_ne_nil hnone] at h
    exact absurd (List.length_eq_zero_iff.mp (Nat.eq_zero_of_add_eq_zero_left h)) hnone

/-- With nothing read of the token, a number behind it makes a difference. -/
theorem same_none_iff {len' : ℕ} :
    Same len' (convert len negative base body) ⟨0, 0, false⟩ ↔
      (convert len negative base body).used = 0 := by
  constructor
  · intro h
    by_contra hused
    have hrange : (convert len negative base body).outOfRange = true := by
      by_contra hin
      exact (h.number.mp ⟨hused, Nat.zero_le _, by simpa using hin⟩).1 rfl
    have hval := h.val
    by_cases hnone : digits base body = []
    · rw [convert_of_nil hnone] at hrange
      cases hrange
    · rw [convert_of_ne_nil hnone] at hval hrange
      have hones : BitVec.allOnes 64 = 0 :=
        (clamp_of_le (of_decide_eq_true hrange)).symm.trans hval
      exact absurd hones (by decide)
  · intro hused
    exact ⟨convert_val hused, by simp [Conversion.IsNumber, hused],
      by simp [Conversion.IsNumber, hused]⟩

/-! ### Digits and bases -/

theorem length_digits_le (base : ℕ) (body : List Char) :
    (digits base body).length ≤ body.length := by
  induction body with
  | nil => exact le_rfl
  | cons c body ih =>
    rw [digits]
    split
    · split
      · exact Nat.succ_le_succ ih
      · exact Nat.zero_le _
    · exact Nat.zero_le _

theorem digits_append_of_lt (h : (digits base body).length < body.length) (r : List Char) :
    digits base (body ++ r) = digits base body := by
  induction body with
  | nil => cases h
  | cons c body ih =>
    rw [digits] at h
    rw [List.cons_append, digits, digits]
    split at h
    · split at h
      · rw [ih (Nat.lt_of_succ_lt_succ h)]
      case isFalse hbase => rw [if_neg hbase, if_neg hbase]
    · rfl

theorem digits_append_of_eq (h : (digits base body).length = body.length) (r : List Char) :
    digits base (body ++ r) = digits base body ++ digits base r := by
  induction body with
  | nil => rfl
  | cons c body ih =>
    rw [digits] at h
    rw [List.cons_append, digits, digits]
    split at h
    · split at h
      case isTrue hbase =>
        rw [if_pos hbase, if_pos hbase, ih (Nat.succ.inj h), List.cons_append]
      · cases h
    · cases h

theorem baseOf_append (hnumber : number ≠ [])
    (hx : ¬ (number = ['0'] ∧ (r.head? = some 'x' ∨ r.head? = some 'X'))) :
    baseOf (number ++ r) = ((baseOf number).1, (baseOf number).2 ++ r) := by
  obtain ⟨a, number, rfl⟩ := List.exists_cons_of_ne_nil hnumber
  by_cases hzero : a = '0'
  swap
  · simp [baseOf, hzero]
  subst hzero
  rcases number with _ | ⟨b, number⟩
  · rcases r with _ | ⟨c, r⟩
    · rfl
    · have hc : ¬ (c = 'x' ∨ c = 'X') := by simpa using hx
      simp [baseOf, hc]
  · simp only [List.cons_append, baseOf]
    split_ifs <;> rfl

/-- A number starts with `0x`, or all of it is its digits. -/
theorem baseOf_cases (number : List Char) :
    (∃ x, number = '0' :: x :: (baseOf number).2 ∧ (baseOf number).1 = 16) ∨
      (baseOf number).2 = number ∧ ((baseOf number).1 = 10 ∨
        (baseOf number).1 = 8 ∧ ∃ rest, number = '0' :: rest) := by
  fun_cases baseOf number <;> simp_all

theorem length_baseOf_le : (baseOf number).2.length ≤ number.length := by
  rcases baseOf_cases number with ⟨x, h, -⟩ | ⟨h, -⟩
  · have := congrArg List.length h
    rw [List.length_cons, List.length_cons] at this
    omega
  · rw [h]

theorem length_numberOf_le (text : List Char) : (numberOf text).length ≤ text.length :=
  (length_signOf_le _).trans (List.length_dropWhile_le _ _)

theorem convert_used_eq_zero_iff (hlen : number.length ≤ len) :
    (convert len negative (baseOf number).1 (baseOf number).2).used = 0 ↔
      digits 10 number = [] := by
  have hbody := @length_baseOf_le number
  rcases baseOf_cases number with ⟨x, h, hbase⟩ | ⟨h, hbase⟩
  · -- the zero is a digit in any case
    have hzero : digits 10 number ≠ [] := by
      rw [h, digits]
      simp [digitValue]
    have hlength := congrArg List.length h
    rw [List.length_cons, List.length_cons] at hlength
    refine iff_of_false ?_ hzero
    by_cases hnone : digits (baseOf number).1 (baseOf number).2 = []
    · rw [convert_of_nil hnone, if_pos hbase]
      dsimp only
      omega
    · rw [convert_of_ne_nil hnone]
      dsimp only
      omega
  · have hdigits : digits (baseOf number).1 (baseOf number).2 = [] ↔ digits 10 number = [] := by
      rcases hbase with hbase | ⟨hbase, rest, hzero⟩
      · rw [h, hbase]
      · rw [h, hbase, hzero]
        exact iff_of_false (by simp [digits, digitValue]) (by simp [digits, digitValue])
    have hbase : (baseOf number).1 ≠ 16 := by
      rcases hbase with hbase | ⟨hbase, -⟩ <;> rw [hbase] <;> decide
    by_cases hnone : digits (baseOf number).1 (baseOf number).2 = []
    · rw [convert_of_nil hnone, if_neg hbase]
      exact iff_of_true rfl (hdigits.mp hnone)
    · refine iff_of_false (fun hused => hnone ?_) (mt hdigits.mpr hnone)
      rw [convert_of_ne_nil hnone] at hused
      exact List.length_eq_zero_iff.mp (Nat.eq_zero_of_add_eq_zero_left hused)

theorem strtoull_eq (t : List Char) :
    strtoull t = convert t.length (signOf '-' '+' (trimmed t)).1 (baseOf (numberOf t)).1
      (baseOf (numberOf t)).2 :=
  rfl

theorem trimmed_append (t r : List Char) :
    trimmed (t ++ r) = if trimmed t = [] then trimmed r else trimmed t ++ r := by
  rw [trimmed, List.dropWhile_append]
  simp only [List.isEmpty_iff]
  rfl

theorem trimmed_ne_nil (h : numberOf t ≠ []) : trimmed t ≠ [] := by
  intro hnil
  rw [numberOf, hnil] at h
  exact h rfl

theorem strtoull_append (h : trimmed t ≠ []) (r : List Char) :
    strtoull (t ++ r) = convert (t.length + r.length) (signOf '-' '+' (trimmed t)).1
      (baseOf (numberOf t ++ r)).1 (baseOf (numberOf t ++ r)).2 := by
  rw [strtoull_eq, numberOf, trimmed_append, if_neg h, signOf_append h,
    List.length_append, ← numberOf]

/-- Nothing is read of a token with only spaces and a sign. -/
theorem same_iff_of_numberOf_nil (h : numberOf t = []) :
    Same t.length (strtoull (t ++ r)) (strtoull t) ↔
      digits 10 (if trimmed t = [] then numberOf r else r) = [] := by
  have ht : strtoull t = ⟨0, 0, false⟩ := by
    rw [strtoull_eq, h]
    rfl
  rw [ht]
  by_cases hspace : trimmed t = []
  · rw [strtoull_eq, numberOf, trimmed_append, if_pos hspace, ← numberOf, same_none_iff,
      if_pos hspace]
    refine convert_used_eq_zero_iff ?_
    rw [List.length_append]
    exact (length_numberOf_le r).trans (Nat.le_add_left _ _)
  · rw [strtoull_append hspace, h, List.nil_append, same_none_iff, if_neg hspace]
    exact convert_used_eq_zero_iff (Nat.le_add_left _ _)

/-- A token that is not read to its end. -/
theorem strtoull_append_of_lt (hnumber : numberOf t ≠ [])
    (hlt : (digits (baseOf (numberOf t)).1 (baseOf (numberOf t)).2).length <
      (baseOf (numberOf t)).2.length) : strtoull (t ++ r) = strtoull t := by
  have hx : ¬ (numberOf t = ['0'] ∧ (r.head? = some 'x' ∨ r.head? = some 'X')) := by
    rintro ⟨hzero, -⟩
    rw [hzero] at hlt
    exact absurd hlt (by decide)
  rw [strtoull_append (trimmed_ne_nil hnumber), baseOf_append hnumber hx]
  dsimp only
  rw [strtoull_eq, convert, convert, digits_append_of_lt hlt, List.length_append,
    Nat.add_sub_add_right]

section Zero

variable (hzero : numberOf t = ['0'])

include hzero

theorem strtoull_of_zero : strtoull t = ⟨0, t.length, false⟩ := by
  have hlen := length_numberOf_le t
  rw [hzero, List.length_singleton] at hlen
  rw [strtoull_eq, hzero, convert_of_ne_nil (by decide)]
  congr 1
  · cases (signOf '-' '+' (trimmed t)).1 <;> rfl
  · exact Nat.sub_add_cancel hlen

/-- The zero of a token becomes that of a `0x`. -/
theorem strtoull_append_of_zero (hx : r.head? = some 'x' ∨ r.head? = some 'X') :
    strtoull (t ++ r) =
      convert (t.length + r.length) (signOf '-' '+' (trimmed t)).1 16 r.tail := by
  have hnumber : numberOf t ≠ [] := hzero.symm ▸ List.cons_ne_nil _ _
  rw [strtoull_append (trimmed_ne_nil hnumber), hzero]
  rcases r with _ | ⟨x, r⟩
  · rcases hx with hx | hx <;> cases hx
  · have hx : x = 'x' ∨ x = 'X' := by simpa using hx
    rw [List.singleton_append, baseOf, if_pos hx, List.tail_cons]

end Zero

section ToTheEnd

variable (hnumber : numberOf t ≠ [])
  (heq : (digits (baseOf (numberOf t)).1 (baseOf (numberOf t)).2).length =
    (baseOf (numberOf t)).2.length)

include hnumber heq

/-- Nothing changes if no digit follows. -/
theorem strtoull_append_of_nil (hnone : digitsBehind (numberOf t) r = []) :
    strtoull (t ++ r) = strtoull t := by
  rw [digitsBehind] at hnone
  split_ifs at hnone with hx
  · obtain ⟨hzero, hx⟩ := hx
    have hr : r ≠ [] := by
      rintro rfl
      rcases hx with hx | hx <;> cases hx
    have htail : r.tail.length + 1 = r.length := by
      rw [List.length_tail, Nat.sub_add_cancel (List.length_pos_iff.mpr hr)]
    rw [strtoull_append_of_zero hzero hx, convert_of_nil hnone, strtoull_of_zero hzero, if_pos rfl]
    congr 1
    omega
  · rw [strtoull_append (trimmed_ne_nil hnumber), strtoull_eq t, baseOf_append hnumber hx]
    dsimp only
    rw [convert, convert, digits_append_of_eq heq, hnone, List.append_nil, List.length_append,
      Nat.add_sub_add_right]

/-- The digits that follow belong to the number. -/
theorem strtoull_append_of_ne_nil (hmore : digitsBehind (numberOf t) r ≠ []) :
    ∃ base used, 1 < base ∧ t.length < used ∧
      numeral base (digits (baseOf (numberOf t)).1 (baseOf (numberOf t)).2) =
        numeral (baseOf (numberOf t)).1 (digits (baseOf (numberOf t)).1 (baseOf (numberOf t)).2) ∧
      strtoull (t ++ r) = ⟨clamp (signOf '-' '+' (trimmed t)).1 (numeral base
          (digits (baseOf (numberOf t)).1 (baseOf (numberOf t)).2 ++ digitsBehind (numberOf t) r)),
        used, decide (2 ^ 64 ≤ numeral base (digits (baseOf (numberOf t)).1
          (baseOf (numberOf t)).2 ++ digitsBehind (numberOf t) r))⟩ := by
  have hpos := List.length_pos_iff.mpr hmore
  have hlen := length_numberOf_le t
  have hbody := @length_baseOf_le (numberOf t)
  rw [digitsBehind] at hmore hpos ⊢
  split_ifs at hmore hpos ⊢ with hx
  · -- behind the token 0, an x and digits make a number in base 16
    obtain ⟨hzero, hx⟩ := hx
    refine ⟨16, t.length + r.length - r.tail.length + (digits 16 r.tail).length, by decide, ?_,
      by rw [hzero]; rfl, ?_⟩
    · have htail := r.length_tail
      omega
    · have hnumeral (ds : List ℕ) : numeral 16 (digits 8 ['0'] ++ ds) = numeral 16 ds := by
        rw [numeral_append, show numeral 16 (digits 8 ['0']) = 0 from rfl, Nat.zero_mul,
          Nat.zero_add]
      rw [strtoull_append_of_zero hzero hx, convert_of_ne_nil hmore, hzero,
        show baseOf ['0'] = (8, ['0']) from rfl, hnumeral]
  · have hdigits := (digits_append_of_eq heq r).symm
    have hnil : digits (baseOf (numberOf t)).1 ((baseOf (numberOf t)).2 ++ r) ≠ [] :=
      hdigits ▸ List.append_ne_nil_of_right_ne_nil _ hmore
    refine ⟨(baseOf (numberOf t)).1, t.length + r.length - ((baseOf (numberOf t)).2 ++ r).length +
      (digits (baseOf (numberOf t)).1 ((baseOf (numberOf t)).2 ++ r)).length, ?_, ?_, rfl, ?_⟩
    · rcases baseOf_cases (numberOf t) with ⟨-, -, h⟩ | ⟨-, h | ⟨h, -⟩⟩ <;> rw [h] <;> decide
    · rw [digits_append_of_eq heq, List.length_append, List.length_append]
      omega
    · rw [strtoull_append (trimmed_ne_nil hnumber), baseOf_append hnumber hx, hdigits]
      exact convert_of_ne_nil hnil

end ToTheEnd

/-- The text behind a token is not told apart from none exactly if it does not matter. -/
theorem same_iff (t r : List Char) :
    Same t.length (strtoull (t ++ r)) (strtoull t) ↔ Ends t r := by
  rw [Ends]
  dsimp only
  split_ifs with hnumber hspace
  · rw [same_iff_of_numberOf_nil hnumber, if_pos hspace]
  · rw [same_iff_of_numberOf_nil hnumber, if_neg hspace]
  rcases (length_digits_le (baseOf (numberOf t)).1 (baseOf (numberOf t)).2).lt_or_eq with hlt | heq
  · -- the number ends inside of the token
    rw [strtoull_append_of_lt hnumber hlt]
    exact iff_of_true .refl (.inl hlt)
  rw [or_iff_right heq.not_lt]
  by_cases hnone : digitsBehind (numberOf t) r = []
  · -- the number ends with the token
    rw [strtoull_append_of_nil hnumber heq hnone]
    exact iff_of_true .refl (.inl hnone)
  rw [or_iff_right hnone]
  obtain ⟨base, used, hbase, hused, hvalue, happend⟩ :=
    strtoull_append_of_ne_nil hnumber heq hnone
  have hlen := length_numberOf_le t
  have hbody := @length_baseOf_le (numberOf t)
  have hpos := List.length_pos_iff.mpr hnumber
  rw [happend]
  by_cases hds : digits (baseOf (numberOf t)).1 (baseOf (numberOf t)).2 = []
  · -- only the zero of a `0x` has been read, and now all of the token
    refine iff_of_false (fun h => ?_) (fun h => h.1 hds)
    rw [strtoull_eq t, convert_of_nil hds] at h
    have hshort : ¬ t.length ≤ if (baseOf (numberOf t)).1 = 16 then
        t.length - (baseOf (numberOf t)).2.length - 1 else 0 := by
      split_ifs <;> omega
    by_cases hrange : 2 ^ 64 ≤ numeral base
        (digits (baseOf (numberOf t)).1 (baseOf (numberOf t)).2 ++ digitsBehind (numberOf t) r)
    · have hones : BitVec.allOnes 64 = 0 := (clamp_of_le hrange).symm.trans h.val
      exact absurd hones (by decide)
    · exact hshort (h.exact.mp ⟨Nat.ne_zero_of_lt hused, hused.le, decide_eq_false hrange⟩).2.1
  · rw [strtoull_eq t, convert_of_ne_nil hds, heq, Nat.sub_add_cancel (hbody.trans hlen), ← hvalue,
      same_longer_iff (by omega) hused.le (numeral_le_append (Nat.zero_lt_of_lt hbase)),
      numeral_append_eq_iff hbase hnone, and_iff_right hds]

end Behind

/-! ### Flags and values -/

theorem atoi64Flag_eq (t r : List Char) (errno : Errno) :
    atoi64Flag t r errno =
      (decide ((strtoull (t ++ r)).IsNumber 0 ∧ errno = false), (strtoull (t ++ r)).val) := by
  rw [atoi64Flag, Prod.mk.injEq]
  refine ⟨?_, rfl⟩
  rw [← decide_not, decide_eq_decide, Conversion.IsNumber]
  cases errno <;> simp

theorem atoi64ExactFlag_eq (t r : List Char) (errno : Errno) :
    atoi64ExactFlag t r errno =
      (decide ((strtoull (t ++ r)).IsNumber t.length ∧ errno = false),
        (strtoull (t ++ r)).val) := by
  rw [atoi64ExactFlag, Prod.mk.injEq]
  refine ⟨?_, rfl⟩
  rw [← decide_not, decide_eq_decide, Conversion.IsNumber]
  cases errno <;> simp

/-- Flag and value depend on the token only, for histories and texts behind the token from given
sets, exactly if no history has a number out of range or the token is no number anyway, and no text
goes on with the number of the token. -/
theorem atoi64_history_free_iff (t : List Char) {H : Set (List (List Char))} {R : Set (List Char)}
    (hH : [] ∈ H) (hR : [] ∈ R) :
    (∀ h ∈ H, ∀ r ∈ R, atoi64Flag t r (errnoAfter h) = atoi64Flag t [] false ∧
      atoi64ExactFlag t r (errnoAfter h) = atoi64ExactFlag t [] false) ↔
      ((∀ h ∈ H, errnoAfter h = false) ∨ ¬ (strtoull t).IsNumber 0) ∧ ∀ r ∈ R, Ends t r := by
  simp only [atoi64Flag_eq, atoi64ExactFlag_eq, Prod.mk.injEq, decide_eq_decide, List.append_nil,
    and_true, ← same_iff]
  constructor
  · intro h
    -- histories are told apart with nothing behind the token, texts with no history
    refine ⟨Classical.or_iff_not_imp_right.mpr fun hnumber hist hhist => ?_, fun r hr => ?_⟩
    · exact ((h hist hhist [] hR).1.1.mpr (by simpa using not_not.mp hnumber)).2
    · obtain ⟨⟨hnumber, hval⟩, hexact, -⟩ := h [] hH r hr
      exact ⟨hval, by simpa [errnoAfter] using hnumber, by simpa [errnoAfter] using hexact⟩
  · rintro ⟨hclear, hends⟩ hist hhist r hr
    obtain ⟨hval, hnumber, hexact⟩ := hends r hr
    rw [hnumber, hexact]
    refine ⟨⟨?_, hval⟩, ?_, hval⟩
    · exact and_iff_left_of_imp fun h => (hclear.resolve_right (not_not.mpr h)) hist hhist
    · exact and_iff_left_of_imp fun h =>
        (hclear.resolve_right (not_not.mpr ⟨h.1, Nat.zero_le _, h.2.2⟩)) hist hhist

/-- A number at the end of its line, after conversions that stayed in range. -/
theorem atoi64_history_free_line :
    let t := "12".toList
    let H : Set (List (List Char)) := {[], ["7".toList]}
    let R : Set (List Char) := {[], "\n5".toList}
    ((∀ h ∈ H, errnoAfter h = false) ∧ ∀ r ∈ R, Ends t r) ∧
    ∀ h ∈ H, ∀ r ∈ R, atoi64Flag t r (errnoAfter h) = atoi64Flag t [] false ∧
      atoi64ExactFlag t r (errnoAfter h) = atoi64ExactFlag t [] false := by
  have hclear : ∀ h ∈ ({[], ["7".toList]} : Set (List (List Char))), errnoAfter h = false := by
    rintro h (rfl | rfl) <;> decide
  have hends : ∀ r ∈ ({[], "\n5".toList} : Set (List Char)), Ends "12".toList r := by
    rintro r (rfl | rfl) <;> exact .inr (.inl (by decide))
  exact ⟨⟨hclear, hends⟩,
    (atoi64_history_free_iff "12".toList (.inl rfl) (.inl rfl)).mpr ⟨.inl hclear, hends⟩⟩

/-- An earlier number out of range, and a digit behind the token. -/
theorem atoi64_disturbed :
    atoi64ExactFlag "12".toList [] (errnoAfter ["99999999999999999999".toList]) ≠
        atoi64ExactFlag "12".toList [] false ∧
      atoi64ExactFlag "12".toList ['3'] false = (true, 123) := by
  decide +kernel

end Adl.Trace
