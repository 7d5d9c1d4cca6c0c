import Adl.Trace.Token
import Mathlib.Order.RelClasses

/-!
# When the order of card fields is an order

`intPairComp` compares two values of a key as numbers when the first one is a number, whatever the
second one is, and as texts otherwise.
-/

namespace Adl.Trace

open Adl.Math

def SameValue (v w : Token) : Prop :=
  (∃ n, exact false v = some n ∧ exact false w = some n) ∨ v = w

/-- The order of fields in a state of `errno`. -/
def fieldLt (errno : Errno) (x y : TokPair) : Prop :=
  (intPairComp x y errno).1 = true

instance (errno : Errno) (x y : TokPair) : Decidable (fieldLt errno x y) :=
  inferInstanceAs (Decidable ((intPairComp x y errno).1 = true))

def SameField (x y : TokPair) : Prop :=
  x.1 = y.1 ∧ SameValue x.2 y.2

/-- What the comparison of cards relies on, for cards with values in `S`. -/
structure OrdersFields (S : Set Token) (errno : Errno) : Prop where
  strictWeak : IsStrictWeakOrder {x : TokPair // x.2 ∈ S} fun x y => fieldLt errno x.1 y.1
  same_of_equivalent : ∀ x y : TokPair, x.2 ∈ S → y.2 ∈ S →
    ¬ fieldLt errno x y → ¬ fieldLt errno y x → SameField x y
  same_of_noDifference : ∀ expect found : Pairs,
    (expect.map Prod.fst).Pairwise (· < ·) → (found.map Prod.fst).Pairwise (· < ·) →
    (∀ x ∈ expect, x.2 ∈ S) → (∀ x ∈ found, x.2 ∈ S) →
    (setSymmetricDifference intPairComp expect found errno).1 = [] →
    List.Forall₂ SameField expect found

/-- Of a number and a text that is none, exactly one is smaller than the other. -/
def Consistent (S : Set Token) (errno : Errno) : Prop :=
  ∀ n ∈ S, ∀ t ∈ S, (exact errno n).isSome → exact errno t = none →
    (valueLt errno n t = true ↔ valueLt errno t n = false)

/-! ### Values -/

section Values

variable {S : Set Token} {errno : Errno} {u v w : Token}

theorem valueLt_of_number {n : BitVec 64} (hv : exact errno v = some n) :
    valueLt errno v w = decide ((leading v).toNat < (leading w).toNat) := by
  rw [valueLt, hv, (exact_eq_some hv).1]
  simp only [BitVec.lt_def]

theorem valueLt_of_text (hv : exact errno v = none) : valueLt errno v w = decide (v < w) := by
  rw [valueLt, hv]

theorem Consistent.asymm (h : Consistent S errno) (hv : v ∈ S) (hw : w ∈ S)
    (hlt : valueLt errno v w = true) : valueLt errno w v = false := by
  rcases hev : exact errno v with _ | n
  · rcases hew : exact errno w with _ | m
    · rw [valueLt_of_text hev, decide_eq_true_iff] at hlt
      rw [valueLt_of_text hew, decide_eq_false_iff_not]
      exact lt_asymm hlt
    · have hmixed := h w hw v hv (by rw [hew]; rfl) hev
      exact Bool.eq_false_of_not_eq_true fun hgt => by simp [hmixed.mp hgt] at hlt
  · rcases hew : exact errno w with _ | m
    · exact (h v hv w hw (by rw [hev]; rfl) hew).mp hlt
    · rw [valueLt_of_number hev, decide_eq_true_iff] at hlt
      rw [valueLt_of_number hew, decide_eq_false_iff_not]
      exact lt_asymm hlt

/-- Every value is comparable to one of two others that are ordered. A value that is read in the
other way than the two is moved to their side by consistency. -/
theorem Consistent.connected (h : Consistent S errno) (hu : u ∈ S) (hv : v ∈ S) (hw : w ∈ S)
    (hlt : valueLt errno u w = true) : valueLt errno u v = true ∨ valueLt errno v w = true := by
  by_contra hnone
  obtain ⟨huv, hvw⟩ := not_or.mp hnone
  have hwu := h.asymm hu hw hlt
  -- the left value decides how a pair is compared, and each of the three can be either way
  rcases heu : exact errno u with _ | a
  · rw [valueLt_of_text heu, decide_eq_true_iff] at hlt huv
    rcases hew : exact errno w with _ | c
    · rcases hev : exact errno v with _ | b
      · rw [valueLt_of_text hev, decide_eq_true_iff] at hvw
        exact huv (lt_of_lt_of_le hlt (not_lt.mp hvw))
      · have hwv : valueLt errno w v = true := by
          by_contra hnot
          exact hvw ((h v hv w hw (by rw [hev]; rfl) hew).mpr (Bool.eq_false_of_not_eq_true hnot))
        rw [valueLt_of_text hew, decide_eq_true_iff] at hwv
        exact huv (lt_trans hlt hwv)
    · rw [valueLt_of_number hew, decide_eq_false_iff_not] at hwu
      rcases hev : exact errno v with _ | b
      · rw [valueLt_of_text hev, decide_eq_true_iff] at hvw
        exact huv (lt_of_lt_of_le hlt (not_lt.mp hvw))
      · have hvu : valueLt errno v u = true :=
          (h v hv u hu (by rw [hev]; rfl) heu).mpr
            (by rw [valueLt_of_text heu, decide_eq_false_iff_not]; exact huv)
        rw [valueLt_of_number hev, decide_eq_true_iff] at hvu hvw
        exact hvw (lt_of_lt_of_le hvu (not_lt.mp hwu))
  · rw [valueLt_of_number heu, decide_eq_true_iff] at hlt huv
    rcases hew : exact errno w with _ | c
    · rw [valueLt_of_text hew, decide_eq_false_iff_not] at hwu
      rcases hev : exact errno v with _ | b
      · have hvu : valueLt errno v u = true := by
          by_contra hnot
          have huv' := (h u hu v hv (by rw [heu]; rfl) hev).mpr (Bool.eq_false_of_not_eq_true hnot)
          rw [valueLt_of_number heu, decide_eq_true_iff] at huv'
          exact huv huv'
        rw [valueLt_of_text hev, decide_eq_true_iff] at hvu hvw
        exact hvw (lt_of_lt_of_le hvu (not_lt.mp hwu))
      · rw [valueLt_of_number hev, decide_eq_true_iff] at hvw
        exact huv (lt_of_lt_of_le hlt (not_lt.mp hvw))
    · rcases hev : exact errno v with _ | b
      · have hwv : valueLt errno w v = true :=
          (h w hw v hv (by rw [hew]; rfl) hev).mpr (Bool.eq_false_of_not_eq_true hvw)
        rw [valueLt_of_number hew, decide_eq_true_iff] at hwv
        exact huv (lt_trans hlt hwv)
      · rw [valueLt_of_number hev, decide_eq_true_iff] at hvw
        exact huv (lt_of_lt_of_le hlt (not_lt.mp hvw))

end Values

/-! ### Fields -/

section Fields

variable {S : Set Token} {errno : Errno} {x y z : TokPair}

theorem fieldLt_iff :
    fieldLt errno x y ↔ x.1 < y.1 ∨ x.1 = y.1 ∧ valueLt errno x.2 y.2 = true := by
  rw [fieldLt, intPairComp_fst]
  split_ifs with hkey
  · simp [hkey]
  · simp [hkey]

/-- Fields of which neither is smaller have the same key and values of which neither is smaller. -/
theorem not_fieldLt_iff :
    ¬ fieldLt errno x y ∧ ¬ fieldLt errno y x ↔
      x.1 = y.1 ∧ valueLt errno x.2 y.2 = false ∧ valueLt errno y.2 x.2 = false := by
  simp only [fieldLt_iff]
  constructor
  · rintro ⟨hxy, hyx⟩
    obtain ⟨hlt, heq⟩ := not_or.mp hxy
    obtain ⟨hgt, heq'⟩ := not_or.mp hyx
    have hkey : x.1 = y.1 := le_antisymm (not_lt.mp hgt) (not_lt.mp hlt)
    exact ⟨hkey, Bool.eq_false_of_not_eq_true fun h => heq ⟨hkey, h⟩,
      Bool.eq_false_of_not_eq_true fun h => heq' ⟨hkey.symm, h⟩⟩
  · rintro ⟨hkey, hxy, hyx⟩
    simp [hkey, hxy, hyx]

theorem Consistent.strictWeak (h : Consistent S errno) :
    IsStrictWeakOrder {x : TokPair // x.2 ∈ S} fun x y => fieldLt errno x.1 y.1 := by
  have hasymm : Std.Asymm fun x y : {x : TokPair // x.2 ∈ S} => fieldLt errno x.1 y.1 := by
    refine ⟨fun x y hxy hyx => ?_⟩
    rcases fieldLt_iff.mp hxy with hkey | ⟨hkey, hval⟩ <;>
      rcases fieldLt_iff.mp hyx with hkey' | ⟨hkey', hval'⟩
    · exact lt_asymm hkey hkey'
    · exact hkey.ne' hkey'
    · exact hkey'.ne' hkey
    · exact absurd hval' (by simp [h.asymm x.2 y.2 hval])
  have hconn : IsOrderConnected {x : TokPair // x.2 ∈ S}
      fun x y => fieldLt errno x.1 y.1 := by
    refine ⟨fun x y z hxz => ?_⟩
    simp only [fieldLt_iff] at hxz ⊢
    rcases lt_trichotomy x.1.1 y.1.1 with hxy | hxy | hxy
    · exact .inl (.inl hxy)
    · rcases hxz with hkey | ⟨hkey, hval⟩
      · exact .inr (.inl (hxy ▸ hkey))
      · rcases h.connected x.2 y.2 z.2 hval with hfst | hsnd
        · exact .inl (.inr ⟨hxy, hfst⟩)
        · exact .inr (.inr ⟨hxy.symm.trans hkey, hsnd⟩)
    · rcases hxz with hkey | ⟨hkey, -⟩
      · exact .inr (.inl (hxy.trans hkey))
      · exact .inr (.inl (hkey ▸ hxy))
  exact isStrictWeakOrder_of_isOrderConnected

/-- Values of which neither is smaller are the same. The second comparison may be made after the
first has met a number out of range. -/
theorem Consistent.sameValue (h : Consistent S errno) {v w : Token} {errno' : Errno} (hv : v ∈ S)
    (hw : w ∈ S) (hstate : errno' = errno ∨ errno' = true ∧ (outOfRange v ∨ outOfRange w))
    (hvw : valueLt errno v w = false) (hwv : valueLt errno' w v = false) : SameValue v w := by
  rcases hev : exact errno v with _ | n
  · rw [valueLt_of_text hev, decide_eq_false_iff_not] at hvw
    rcases hew : exact errno' w with _ | m
    · rw [valueLt_of_text hew, decide_eq_false_iff_not] at hwv
      exact .inr (le_antisymm (not_lt.mp hwv) (not_lt.mp hvw))
    · -- The second value is a number in a state that was not changed.
      obtain ⟨-, hclear, -⟩ := exact_eq_some hew
      obtain rfl : errno' = errno := hstate.resolve_right fun hset => by simp [hset.1] at hclear
      have hlt := (h w hw v hv (by rw [hew]; rfl) hev).mpr
        (by rw [valueLt_of_text hev, decide_eq_false_iff_not]; exact hvw)
      simp [hlt] at hwv
  · obtain ⟨hn, hclear, hrange⟩ := exact_eq_some hev
    rcases hew : exact errno w with _ | m
    · -- A text behind a number is a text in both states, so one of the two is smaller.
      have htext : valueLt errno w v = valueLt errno' w v := by
        rcases hstate with rfl | ⟨rfl, -⟩
        · rfl
        · rw [valueLt_of_text hew, valueLt_of_text (exact_true w)]
      have hlt := (h v hv w hw (by rw [hev]; rfl) hew).mpr (htext.trans hwv)
      simp [hlt] at hvw
    · obtain ⟨hm, -, hrange'⟩ := exact_eq_some hew
      obtain rfl : errno' = errno := hstate.resolve_right fun hset => by
        simp [hrange, hrange'] at hset
      rw [valueLt_of_number hev, decide_eq_false_iff_not] at hvw
      rw [valueLt_of_number hew, decide_eq_false_iff_not] at hwv
      have hnum : leading v = leading w := BitVec.eq_of_toNat_eq (by omega)
      rw [hclear] at hev hew
      exact .inl ⟨n, hev, by rw [hew, hm, hn, hnum]⟩

theorem Consistent.or (h : Consistent S errno) (b : Bool) : Consistent S (errno || b) := by
  cases errno <;> cases b
  · exact h
  · intro n _ t _ hn
    simp at hn
  · exact h
  · exact h

theorem Consistent.after (h : Consistent S errno) (x y : TokPair) :
    Consistent S (intPairComp x y errno).2 := by
  rw [intPairComp_snd]
  split_ifs
  · rw [Bool.or_assoc]
    exact h.or _
  · exact h

/-- The state after a comparison has changed only when a number out of range was met. -/
theorem intPairComp_snd_eq_or (x y : TokPair) (errno : Errno) :
    (intPairComp x y errno).2 = errno ∨
      (intPairComp x y errno).2 = true ∧ (outOfRange x.2 ∨ outOfRange y.2) := by
  rw [intPairComp_snd]
  split_ifs
  · cases errno <;> cases outOfRange x.2 <;> cases outOfRange y.2 <;>
      cases (exact _ x.2).isSome <;> simp
  · exact .inl rfl

theorem Consistent.sameField (h : Consistent S errno) (hx : x.2 ∈ S) (hy : y.2 ∈ S)
    (hxy : (intPairComp x y errno).1 = false)
    (hyx : (intPairComp y x (intPairComp x y errno).2).1 = false) : SameField x y := by
  have hstate := intPairComp_snd_eq_or x y errno
  rw [intPairComp_fst] at hxy hyx
  by_cases hkey : x.1 = y.1
  · rw [if_pos hkey] at hxy
    rw [if_pos hkey.symm] at hyx
    exact ⟨hkey, h.sameValue hx hy hstate hxy hyx⟩
  · rw [if_neg hkey, decide_eq_false_iff_not] at hxy
    rw [if_neg fun heq => hkey heq.symm, decide_eq_false_iff_not] at hyx
    exact absurd (le_antisymm (not_lt.mp hyx) (not_lt.mp hxy)) hkey

theorem Consistent.sameFields (h : Consistent S errno) {expect found : Pairs}
    (hexpect : ∀ x ∈ expect, x.2 ∈ S) (hfound : ∀ x ∈ found, x.2 ∈ S)
    (hmatch : Matched intPairComp expect found errno) : List.Forall₂ SameField expect found := by
  induction expect generalizing found errno with
  | nil =>
    cases found with
    | nil => exact .nil
    | cons y found => exact hmatch.elim
  | cons x expect ih =>
    cases found with
    | nil => exact hmatch.elim
    | cons y found =>
      obtain ⟨hxy, hyx, hrest⟩ := hmatch
      have hx := List.forall_mem_cons.mp hexpect
      have hy := List.forall_mem_cons.mp hfound
      exact .cons (h.sameField hx.1 hy.1 hxy hyx)
        (ih ((h.after x y).after y x) hx.2 hy.2 hrest)

theorem OrdersFields.consistent (h : OrdersFields S errno) : Consistent S errno := by
  intro n hn t ht hnum htext
  have horder := h.strictWeak
  let x : {x : TokPair // x.2 ∈ S} := ⟨("", n), hn⟩
  let y : {x : TokPair // x.2 ∈ S} := ⟨("", t), ht⟩
  have hxy : fieldLt errno x.1 y.1 ↔ valueLt errno n t = true := by simp [fieldLt_iff, x, y]
  have hyx : fieldLt errno y.1 x.1 ↔ valueLt errno t n = true := by simp [fieldLt_iff, x, y]
  rw [← hxy, ← Bool.not_eq_true, ← hyx]
  constructor
  · intro hlt hgt
    exact horder.irrefl x (horder.trans x y x hlt hgt)
  · intro hgt
    by_contra hlt
    -- Equivalent values would have to be the same, but only one of them is a number.
    have hnumber : errno = false := by
      obtain ⟨m, hm⟩ := Option.isSome_iff_exists.mp hnum
      exact (exact_eq_some hm).2.1
    rcases (h.same_of_equivalent x.1 y.1 hn ht hlt hgt).2 with ⟨m, -, hm⟩ | hsame
    · have hm : exact false t = some m := hm
      simp [hnumber, hm] at htext
    · have hsame : n = t := hsame
      simp [hsame, htext] at hnum

end Fields

/-- Fields are ordered, equivalent fields are the same and no difference of cards is missed,
exactly when no number meets a text that is both greater and smaller or neither. -/
theorem ordersFields_iff (S : Set Token) (errno : Errno) :
    OrdersFields S errno ↔ Consistent S errno := by
  constructor
  · exact OrdersFields.consistent
  · intro h
    refine ⟨h.strictWeak, ?_, ?_⟩
    · intro x y hx hy hxy hyx
      obtain ⟨hkey, hval, hval'⟩ := not_fieldLt_iff.mp ⟨hxy, hyx⟩
      exact ⟨hkey, h.sameValue hx hy (.inl rfl) hval hval'⟩
    · intro expect found _ _ hexpect hfound hnone
      exact h.sameFields hexpect hfound (matched_of_setSymmetricDifference hnone)

/-- The number `0` and the text `abc` are taken for equal: the text is read as zero next to a
number, and it is not smaller as a text. A card with the one does not differ from a card with the
other. -/
theorem zero_equivalent_text :
    ¬ fieldLt false ("d", "0") ("d", "abc") ∧ ¬ fieldLt false ("d", "abc") ("d", "0") ∧
      ¬ SameValue "0" "abc" ∧
      (setSymmetricDifference intPairComp [("d", "0")] [("d", "abc")] false).1 = [] := by
  refine ⟨by decide +kernel, by decide +kernel, ?_, by decide +kernel⟩
  rintro (⟨n, -, htext⟩ | hsame)
  · have : exact false "abc" = none := by decide +kernel
    simp [this] at htext
  · exact absurd hsame (by decide)

end Adl.Trace
