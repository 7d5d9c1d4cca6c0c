import Mathlib.Data.BitVec
import Mathlib.Data.Nat.Bitwise
import Mathlib.Tactic.Ring
import Adl.Math.Lists

/-!
# Numbers in several words

A number is stored in a list of words of `W` bits, the most significant word first. Sums and
differences are computed with a carry from word to word, and a shift by a number of bits moves words
and bits in them.
-/

namespace Adl.Math

variable {W : ℕ} {ws ws' : List (BitVec W)}

/-- The number that a list of words stores. -/
def limbs : List (BitVec W) → ℕ
  | [] => 0
  | w :: rest => 2 ^ (W * rest.length) * w.toNat + limbs rest

theorem limbs_lt : limbs ws < 2 ^ (W * ws.length) := by
  induction ws with
  | nil => exact Nat.one_pos
  | cons w rest ih =>
    rw [limbs, List.length_cons, Nat.mul_succ, Nat.pow_add]
    have hw : w.toNat + 1 ≤ 2 ^ W := w.isLt
    calc 2 ^ (W * rest.length) * w.toNat + limbs rest
        < 2 ^ (W * rest.length) * w.toNat + 2 ^ (W * rest.length) := Nat.add_lt_add_left ih _
      _ = 2 ^ (W * rest.length) * (w.toNat + 1) := by ring
      _ ≤ 2 ^ (W * rest.length) * 2 ^ W := Nat.mul_le_mul_left _ hw

theorem limbs_append :
    limbs (ws ++ ws') = 2 ^ (W * ws'.length) * limbs ws + limbs ws' := by
  induction ws with
  | nil => simp [limbs]
  | cons w rest ih =>
    rw [List.cons_append, limbs, ih, limbs, List.length_append, Nat.mul_add, Nat.pow_add]
    ring

@[simp] theorem limbs_replicate_zero {n : ℕ} : limbs (List.replicate n (0 : BitVec W)) = 0 := by
  induction n with
  | zero => rfl
  | succ n ih =>
    rw [List.replicate_succ, limbs, ih]
    simp

theorem limbs_singleton {w : BitVec W} : limbs [w] = w.toNat := by
  simp [limbs]

theorem limbs_drop {n : ℕ} :
    limbs (ws.drop n) = limbs ws % 2 ^ (W * (ws.length - n)) := by
  have happend := @limbs_append _ (ws.take n) (ws.drop n)
  have hlt : limbs (ws.drop n) < 2 ^ (W * (ws.drop n).length) := limbs_lt
  rw [List.take_append_drop] at happend
  rw [List.length_drop] at happend hlt
  rw [happend, Nat.mul_add_mod, Nat.mod_eq_of_lt hlt]

theorem exists_limbs {n k : ℕ} (hk : k < 2 ^ (W * n)) :
    ∃ ws : List (BitVec W), ws.length = n ∧ limbs ws = k := by
  induction n generalizing k with
  | zero =>
    refine ⟨[], rfl, ?_⟩
    rw [Nat.mul_zero, Nat.pow_zero] at hk
    exact (Nat.lt_one_iff.mp hk).symm
  | succ n ih =>
    obtain ⟨ws, hlength, hvalue⟩ := ih (Nat.mod_lt k (Nat.two_pow_pos (W * n)))
    have hhigh : k / 2 ^ (W * n) < 2 ^ W := by
      rw [Nat.div_lt_iff_lt_mul (Nat.two_pow_pos _), ← Nat.pow_add, Nat.add_comm, ← Nat.mul_succ]
      exact hk
    refine ⟨BitVec.ofNat W (k / 2 ^ (W * n)) :: ws, by rw [List.length_cons, hlength], ?_⟩
    rw [limbs, hlength, hvalue, BitVec.toNat_ofNat, Nat.mod_eq_of_lt hhigh, Nat.div_add_mod]

/-- A number around one of its words. -/
theorem limbs_eq_of_lt {p : ℕ} (hp : p < ws.length) :
    limbs ws = 2 ^ (W * (ws.length - 1 - p)) * (2 ^ W * limbs (ws.take p) + ws[p].toNat) +
      limbs (ws.drop (p + 1)) := by
  have hrest : (ws.drop (p + 1)).length = ws.length - 1 - p := by
    rw [List.length_drop]
    omega
  conv_lhs => rw [← List.take_append_drop p ws, limbs_append, List.drop_eq_getElem_cons hp, limbs,
    List.length_cons, hrest, Nat.mul_succ, Nat.pow_add]
  ring

theorem limbs_drop_lt {p : ℕ} : limbs (ws.drop (p + 1)) < 2 ^ (W * (ws.length - 1 - p)) := by
  have hlt : limbs (ws.drop (p + 1)) < _ := limbs_lt
  rwa [List.length_drop, Nat.add_comm p 1, ← Nat.sub_sub, Nat.add_comm 1 p] at hlt

/-- The word with index `k` from the end is a digit of the number. -/
theorem toNat_getD {k : ℕ} (hk : k < ws.length) :
    (ws.getD (ws.length - 1 - k) 0).toNat = limbs ws / 2 ^ (W * k) % 2 ^ W := by
  have hp : ws.length - 1 - k < ws.length := by omega
  have hsplit := limbs_eq_of_lt hp
  have hlow : limbs (ws.drop (ws.length - 1 - k + 1)) < _ := limbs_drop_lt
  rw [show ws.length - 1 - (ws.length - 1 - k) = k by omega] at hsplit hlow
  rw [hsplit, Nat.mul_add_div (Nat.two_pow_pos _), Nat.div_eq_of_lt hlow, Nat.add_zero,
    Nat.mul_add_mod, Nat.mod_eq_of_lt (BitVec.isLt _), List.getD_eq_getElem _ _ hp]

theorem limbs_set {p : ℕ} {v : BitVec W} (hp : p < ws.length) :
    limbs (ws.set p v) + 2 ^ (W * (ws.length - 1 - p)) * ws[p].toNat =
      limbs ws + 2 ^ (W * (ws.length - 1 - p)) * v.toNat := by
  have hset := @limbs_eq_of_lt _ (ws.set p v) _ (by rwa [List.length_set])
  rw [List.getElem_set_self, List.length_set, List.take_set_of_le (Nat.le_refl p),
    List.drop_set_of_lt (Nat.lt_succ_self p)] at hset
  rw [hset, limbs_eq_of_lt hp]
  ring

theorem limbs_modify_or {g p k : ℕ} {b : BitVec g} (hp : p < ws.length) (hk : g * (k + 1) ≤ W)
    (hlt : limbs ws < 2 ^ (W * (ws.length - 1 - p) + g * k)) :
    limbs (ws.modify p (· ||| (b.setWidth W <<< (g * k)))) =
      2 ^ (W * (ws.length - 1 - p) + g * k) * b.toNat + limbs ws := by
  have hword := @toNat_getD _ ws (ws.length - 1 - p) (by omega)
  rw [show ws.length - 1 - (ws.length - 1 - p) = p by omega, List.getD_eq_getElem _ _ hp] at hword
  -- the place of the piece is still free
  have hfree : ws[p].toNat < 2 ^ (g * k) := by
    rw [hword]
    refine (Nat.mod_le _ _).trans_lt ?_
    rwa [Nat.div_lt_iff_lt_mul (Nat.two_pow_pos _), Nat.mul_comm, ← Nat.pow_add]
  have hb : b.toNat * 2 ^ (g * k) < 2 ^ W := by
    calc b.toNat * 2 ^ (g * k) < 2 ^ g * 2 ^ (g * k) :=
          Nat.mul_lt_mul_of_pos_right b.isLt (Nat.two_pow_pos _)
      _ = 2 ^ (g * (k + 1)) := by rw [← Nat.pow_add, Nat.mul_succ, Nat.add_comm]
      _ ≤ 2 ^ W := Nat.pow_le_pow_right (by decide) hk
  have hplace : (b.setWidth W <<< (g * k)).toNat = b.toNat * 2 ^ (g * k) := by
    have hlt : b.toNat < 2 ^ W :=
      (Nat.le_mul_of_pos_right _ (Nat.two_pow_pos _)).trans_lt hb
    rw [BitVec.toNat_shiftLeft, BitVec.toNat_setWidth, Nat.shiftLeft_eq, Nat.mod_eq_of_lt hlt,
      Nat.mod_eq_of_lt hb]
  have hvalue : (ws[p] ||| (b.setWidth W <<< (g * k))).toNat =
      b.toNat * 2 ^ (g * k) + ws[p].toNat := by
    rw [BitVec.toNat_or, hplace, ← Nat.shiftLeft_eq, Nat.or_comm,
      ← Nat.shiftLeft_add_eq_or_of_lt hfree]
  have hset := limbs_set (v := ws[p] ||| (b.setWidth W <<< (g * k))) hp
  rw [hvalue, Nat.mul_add] at hset
  rw [List.modify_eq_set_get _ hp, List.get_eq_getElem, Nat.pow_add]
  exact Nat.add_right_cancel (hset.trans (by ring))

/-! ### Bits -/

/-- A bit of a number, in the word that holds it. -/
def limbBit (ws : List (BitVec W)) (i : ℕ) : Bool :=
  decide (i / W < ws.length) && (ws.getD (ws.length - 1 - i / W) 0).getLsbD (i % W)

theorem testBit_limbs (hW : 0 < W) (i : ℕ) : (limbs ws).testBit i = limbBit ws i := by
  induction ws with
  | nil => simp [limbs, limbBit]
  | cons w rest ih =>
    rw [limbs, Nat.testBit_two_pow_mul_add _ limbs_lt, ih, limbBit, limbBit, List.length_cons]
    have hlt_iff : i < W * rest.length ↔ i / W < rest.length := by
      rw [Nat.div_lt_iff_lt_mul hW, Nat.mul_comm]
    by_cases hlow : i < W * rest.length
    · have hdiv := hlt_iff.mp hlow
      have hindex : rest.length + 1 - 1 - i / W = rest.length - 1 - i / W + 1 := by omega
      rw [if_pos hlow, hindex, List.getD_cons_succ, decide_eq_true hdiv,
        decide_eq_true (Nat.lt_succ_of_lt hdiv)]
    · have hdiv : rest.length ≤ i / W := Nat.le_of_not_lt (mt hlt_iff.mpr hlow)
      rw [if_neg hlow]
      by_cases htop : i / W = rest.length
      · have hmod : i - W * rest.length = i % W := by
          have hsum := Nat.div_add_mod i W
          rw [htop] at hsum
          omega
        rw [htop, hmod, decide_eq_true (Nat.lt_succ_self _), Bool.true_and,
          show rest.length + 1 - 1 - rest.length = 0 by omega, List.getD_cons_zero,
          BitVec.testBit_toNat]
      · have hbeyond : W ≤ i - W * rest.length := by
          have hle : rest.length + 1 ≤ i / W := by omega
          have hmul := (Nat.le_div_iff_mul_le hW).mp hle
          rw [Nat.succ_mul, Nat.mul_comm] at hmul
          omega
        rw [decide_eq_false (by omega), Bool.false_and, BitVec.testBit_toNat,
          BitVec.getLsbD_of_ge _ _ hbeyond]

/-- Words that are combined bit by bit. -/
theorem limbBit_zipWith {f : BitVec W → BitVec W → BitVec W} {g : Bool → Bool → Bool}
    (hf : ∀ x y i, i < W → (f x y).getLsbD i = g (x.getLsbD i) (y.getLsbD i))
    (hW : 0 < W) (hlength : ws.length = ws'.length) {i : ℕ} (hi : i < W * ws.length) :
    limbBit (List.zipWith f ws ws') i = g (limbBit ws i) (limbBit ws' i) := by
  have hdiv : i / W < ws.length := by rwa [Nat.div_lt_iff_lt_mul hW, Nat.mul_comm]
  have hzip : (List.zipWith f ws ws').length = ws.length := by
    rw [List.length_zipWith, ← hlength, Nat.min_self]
  rw [limbBit, limbBit, limbBit, hzip, ← hlength, decide_eq_true hdiv, Bool.true_and,
    Bool.true_and, Bool.true_and]
  have hx : ws.length - 1 - i / W < ws.length :=
    Nat.lt_of_le_of_lt (Nat.sub_le _ _) (Nat.sub_one_lt_of_lt hdiv)
  rw [List.getD_eq_getElem _ _ (hzip ▸ hx), List.getD_eq_getElem _ _ hx,
    List.getD_eq_getElem _ _ (hlength ▸ hx), List.getElem_zipWith, hf _ _ _ (Nat.mod_lt i hW)]

theorem limbs_map_not : limbs (ws.map (~~~·)) = 2 ^ (W * ws.length) - 1 - limbs ws := by
  induction ws with
  | nil => rfl
  | cons w rest ih =>
    have hrest : limbs rest < 2 ^ (W * rest.length) := limbs_lt
    have hw := w.isLt
    rw [List.map_cons, limbs, limbs, ih, List.length_map, BitVec.toNat_not, List.length_cons,
      Nat.mul_succ, Nat.pow_add]
    have hsplit : 2 ^ (W * rest.length) * (2 ^ W - 1 - w.toNat) +
        2 ^ (W * rest.length) * w.toNat + 2 ^ (W * rest.length) =
        2 ^ (W * rest.length) * 2 ^ W := by
      rw [← Nat.mul_add, ← Nat.mul_succ]
      congr 1
      omega
    omega

/-! ### Carries -/

def carry (x y sum : BitVec W) : BitVec W := ((x &&& y) ||| ((x ||| y) &&& ~~~sum)) >>> (W - 1)

theorem carry_toNat (hW : 0 < W) {x y cin : BitVec W} (hcin : cin.toNat ≤ 1) :
    (x + y + cin).toNat + 2 ^ W * (carry x y (x + y + cin)).toNat =
        x.toNat + y.toNat + cin.toNat ∧ (carry x y (x + y + cin)).toNat ≤ 1 := by
  -- the highest bit of a word says whether it is at least half of the range
  have hhalf : 2 ^ W = 2 * 2 ^ (W - 1) := by
    rw [← Nat.pow_succ', Nat.succ_eq_add_one, Nat.sub_add_cancel hW]
  have hmsb (v : BitVec W) : v.getLsbD (W - 1) = decide (2 ^ (W - 1) ≤ v.toNat) := by
    rw [← BitVec.msb_eq_getLsbD_last, BitVec.msb_eq_decide]
  have hcarry : (carry x y (x + y + cin)).toNat =
      (((x &&& y) ||| ((x ||| y) &&& ~~~(x + y + cin))).getLsbD (W - 1)).toNat := by
    rw [carry]
    generalize (x &&& y) ||| ((x ||| y) &&& ~~~(x + y + cin)) = v
    have hv := v.isLt
    rw [BitVec.toNat_ushiftRight, Nat.shiftRight_eq_div_pow, hmsb]
    by_cases hge : 2 ^ (W - 1) ≤ v.toNat
    · rw [decide_eq_true hge, Bool.toNat_true]
      exact Nat.div_eq_of_lt_le (by omega) (by omega)
    · rw [decide_eq_false hge, Bool.toNat_false]
      exact Nat.div_eq_of_lt (by omega)
  have hsum : (x + y + cin).toNat = (x.toNat + y.toNat + cin.toNat) % 2 ^ W := by
    rw [BitVec.toNat_add, BitVec.toNat_add, Nat.mod_add_mod]
  have hx := x.isLt
  have hy := y.isLt
  have hs := (x + y + cin).isLt
  rw [hcarry, BitVec.getLsbD_or, BitVec.getLsbD_and, BitVec.getLsbD_and, BitVec.getLsbD_or,
    BitVec.getLsbD_not, decide_eq_true (Nat.sub_lt hW one_pos), Bool.true_and, hmsb, hmsb, hmsb]
  generalize (x + y + cin).toNat = sum at hsum hs
  rw [hhalf] at hx hy hs hsum ⊢
  generalize 2 ^ (W - 1) = half at hx hy hs hsum ⊢
  have hmod : sum = x.toNat + y.toNat + cin.toNat ∨
      sum + 2 * half = x.toNat + y.toNat + cin.toNat := by
    by_cases hlt : x.toNat + y.toNat + cin.toNat < 2 * half
    · exact .inl (hsum.trans (Nat.mod_eq_of_lt hlt))
    · refine .inr ?_
      rw [hsum, Nat.mod_eq_sub_mod (by omega), Nat.mod_eq_of_lt (by omega)]
      omega
  by_cases h₁ : half ≤ x.toNat <;> by_cases h₂ : half ≤ y.toNat <;> by_cases h₃ : half ≤ sum <;>
    simp [h₁, h₂, h₃] <;> omega

/-- Add two lists of words and a carry, from the last word on. -/
def addCarry (cin : BitVec W) : List (BitVec W) → List (BitVec W) → List (BitVec W) × BitVec W
  | x :: xs, y :: ys =>
    let (rest, cin) := addCarry cin xs ys
    let sum := x + y + cin
    (sum :: rest, carry x y sum)
  | _, _ => ([], cin)

theorem length_addCarry {cin : BitVec W} (h : ws.length = ws'.length) :
    (addCarry cin ws ws').1.length = ws.length := by
  induction ws generalizing ws' with
  | nil => rfl
  | cons x xs ih =>
    cases ws' with
    | nil => cases h
    | cons y ys =>
      rw [addCarry]
      exact congrArg Nat.succ (ih (Nat.succ.inj h))

theorem limbs_addCarry (hW : 0 < W) {cin : BitVec W} (hcin : cin.toNat ≤ 1)
    (h : ws.length = ws'.length) :
    limbs (addCarry cin ws ws').1 + 2 ^ (W * ws.length) * (addCarry cin ws ws').2.toNat =
        limbs ws + limbs ws' + cin.toNat ∧ (addCarry cin ws ws').2.toNat ≤ 1 := by
  induction ws generalizing ws' with
  | nil =>
    obtain rfl := List.length_eq_zero_iff.mp h.symm
    simp [addCarry, limbs, hcin]
  | cons x xs ih =>
    cases ws' with
    | nil => cases h
    | cons y ys =>
      have hlen : xs.length = ys.length := Nat.succ.inj h
      obtain ⟨hrest, hle⟩ := ih hlen
      obtain ⟨hword, hle'⟩ := @carry_toNat W hW x y _ hle
      refine ⟨?_, hle'⟩
      have hrest_length := @length_addCarry _ _ _ cin hlen
      rw [addCarry]
      dsimp only
      rw [limbs, limbs, limbs, hrest_length, ← hlen, List.length_cons, Nat.mul_succ, Nat.pow_add]
      generalize (addCarry cin xs ys).2 = c at *
      generalize limbs (addCarry cin xs ys).1 = r at *
      generalize 2 ^ (W * xs.length) = b at *
      calc b * (x + y + c).toNat + r + b * 2 ^ W * (carry x y (x + y + c)).toNat
          = b * ((x + y + c).toNat + 2 ^ W * (carry x y (x + y + c)).toNat) + r := by ring
        _ = b * x.toNat + b * y.toNat + (r + b * c.toNat) := by rw [hword]; ring
        _ = b * x.toNat + limbs xs + (b * y.toNat + limbs ys) + cin.toNat := by rw [hrest]; ring

theorem limbs_addCarry_mod (hW : 0 < W) {cin : BitVec W} (hcin : cin.toNat ≤ 1)
    (h : ws.length = ws'.length) :
    limbs (addCarry cin ws ws').1 = (limbs ws + limbs ws' + cin.toNat) % 2 ^ (W * ws.length) := by
  have hlt : limbs (addCarry cin ws ws').1 < 2 ^ (W * ws.length) := by
    rw [← @length_addCarry _ _ _ cin h]
    exact limbs_lt
  rw [← (limbs_addCarry hW hcin h).1, Nat.add_mul_mod_self_left, Nat.mod_eq_of_lt hlt]

/-! ### Comparison -/

/-- The first words that differ decide, and `e` is the answer for equal numbers. -/
def limbsCompare (e : Bool) : List (BitVec W) → List (BitVec W) → Bool
  | x :: xs, y :: ys =>
    if x < y then true else if y < x then false else limbsCompare e xs ys
  | _, _ => e

theorem limbsCompare_eq {e : Bool} (h : ws.length = ws'.length) :
    limbsCompare e ws ws' =
      (decide (limbs ws < limbs ws') || (e && decide (limbs ws = limbs ws'))) := by
  induction ws generalizing ws' with
  | nil =>
    obtain rfl := List.length_eq_zero_iff.mp h.symm
    simp [limbsCompare]
  | cons x xs ih =>
    cases ws' with
    | nil => cases h
    | cons y ys =>
      have hlen : xs.length = ys.length := Nat.succ.inj h
      have hxs : limbs xs < 2 ^ (W * xs.length) := limbs_lt
      have hys : limbs ys < 2 ^ (W * xs.length) := hlen ▸ limbs_lt
      rw [limbsCompare, limbs, limbs, ← hlen]
      generalize 2 ^ (W * xs.length) = b at hxs hys
      -- a smaller first word is smaller by a whole block
      have hblock {m n : ℕ} (hmn : m < n) : b * m + b ≤ b * n := by
        rw [← Nat.mul_succ]
        exact Nat.mul_le_mul_left b hmn
      split
      case isTrue hlt =>
        have hle := hblock (BitVec.lt_def.mp hlt)
        rw [decide_eq_true (by omega), Bool.true_or]
      case isFalse hge =>
        split
        case isTrue hlt =>
          have hle := hblock (BitVec.lt_def.mp hlt)
          rw [decide_eq_false (by omega), decide_eq_false (by omega), Bool.and_false,
            Bool.or_false]
        case isFalse hge' =>
          rw [BitVec.lt_def] at hge hge'
          have heq : x.toNat = y.toNat := by omega
          rw [ih hlen, heq]
          simp

theorem limbs_inj (h : ws.length = ws'.length) : limbs ws = limbs ws' ↔ ws = ws' := by
  constructor
  · intro heq
    induction ws generalizing ws' with
    | nil => exact (List.length_eq_zero_iff.mp h.symm).symm
    | cons x xs ih =>
      cases ws' with
      | nil => cases h
      | cons y ys =>
        have hlen : xs.length = ys.length := Nat.succ.inj h
        have hxs : limbs xs < 2 ^ (W * xs.length) := limbs_lt
        have hys : limbs ys < 2 ^ (W * xs.length) := hlen ▸ limbs_lt
        rw [limbs, limbs, ← hlen] at heq
        have hx := congrArg (· / 2 ^ (W * xs.length)) heq
        have hrest := congrArg (· % 2 ^ (W * xs.length)) heq
        simp only [Nat.mul_add_div (Nat.two_pow_pos _), Nat.div_eq_of_lt hxs, Nat.div_eq_of_lt hys,
          Nat.mul_add_mod, Nat.mod_eq_of_lt hxs, Nat.mod_eq_of_lt hys, Nat.add_zero] at hx hrest
        rw [BitVec.eq_of_toNat_eq hx, ih hlen hrest]
  · exact congrArg limbs

/-! ### Shifts -/

/-- Words moved to the left by `s` words and `o` bits. -/
theorem limbs_shiftLeft (hW : 0 < W) {s o : ℕ} (ho : o < W) :
    limbs ((List.range ws.length).map fun n =>
        (ws.getD (n + s) 0 <<< o) ||| (ws.getD (n + s + 1) 0 >>> (W - o))) =
      limbs ws * 2 ^ (W * s + o) % 2 ^ (W * ws.length) := by
  apply Nat.eq_of_testBit_eq
  intro i
  rw [testBit_limbs hW, Nat.testBit_mod_two_pow, Nat.testBit_mul_two_pow, testBit_limbs hW, limbBit,
    limbBit, List.length_map, List.length_range]
  have hlt_iff : i / W < ws.length ↔ i < W * ws.length := by
    rw [Nat.div_lt_iff_lt_mul hW, Nat.mul_comm]
  by_cases hi : i < W * ws.length
  · have hdiv := hlt_iff.mpr hi
    have hindex : ws.length - 1 - i / W < ws.length :=
      Nat.lt_of_le_of_lt (Nat.sub_le _ _) (Nat.sub_one_lt_of_lt hdiv)
    rw [decide_eq_true hdiv, decide_eq_true hi, Bool.true_and, Bool.true_and,
      List.getD_eq_getElem _ _ (by simpa using hindex), List.getElem_map, List.getElem_range,
      BitVec.getLsbD_or, BitVec.getLsbD_shiftLeft, BitVec.getLsbD_ushiftRight]
    have hbit := Nat.mod_lt i hW
    have hsum := Nat.div_add_mod i W
    generalize hq : i / W = q at *
    generalize hb : i % W = b at *
    -- words behind the end are zero
    have hzero {k : ℕ} (hk : ws.length ≤ k) : ws.getD k 0 = 0 := List.getD_eq_default _ _ hk
    by_cases hob : o ≤ b
    · have hhigh : (ws.getD (ws.length - 1 - q + s + 1) 0).getLsbD (W - o + b) = false :=
        BitVec.getLsbD_of_ge _ _ (by omega)
      by_cases hqs : s ≤ q
      · have hmul : W * s ≤ W * q := Nat.mul_le_mul_left W hqs
        have hplace : (i - (W * s + o)) / W = q - s ∧ (i - (W * s + o)) % W = b - o :=
          (Nat.div_mod_unique hW).mpr ⟨by rw [Nat.mul_sub]; omega, by omega⟩
        rw [hplace.1, hplace.2, hhigh,
          show ws.length - 1 - q + s = ws.length - 1 - (q - s) by omega]
        simp [hbit, show W * s + o ≤ i by omega, show ¬ b < o by omega,
          show q - s < ws.length by omega]
      · have hlt : ¬ W * s + o ≤ i := by
          have hmul : W * (q + 1) ≤ W * s := Nat.mul_le_mul_left W (by omega)
          rw [Nat.mul_succ] at hmul
          omega
        rw [hhigh, hzero (by omega : ws.length ≤ ws.length - 1 - q + s)]
        simp [hlt]
    · by_cases hqs : s + 1 ≤ q
      · have hmul : W * (s + 1) ≤ W * q := Nat.mul_le_mul_left W hqs
        rw [Nat.mul_succ] at hmul
        have hplace : (i - (W * s + o)) / W = q - s - 1 ∧ (i - (W * s + o)) % W = W - o + b :=
          (Nat.div_mod_unique hW).mpr
            ⟨by rw [Nat.sub_sub, Nat.mul_sub, Nat.mul_succ]; omega, by omega⟩
        rw [hplace.1, hplace.2,
          show ws.length - 1 - q + s + 1 = ws.length - 1 - (q - s - 1) by omega]
        simp [show b < o by omega, show W * s + o ≤ i by omega,
          show q - s - 1 < ws.length by omega]
      · have hlt : ¬ W * s + o ≤ i := by
          have hmul : W * q ≤ W * s := Nat.mul_le_mul_left W (by omega)
          omega
        rw [hzero (by omega : ws.length ≤ ws.length - 1 - q + s + 1)]
        simp [hlt, show b < o by omega]
  · rw [decide_eq_false (mt hlt_iff.mp hi), decide_eq_false hi, Bool.false_and, Bool.false_and]

/-- Words moved to the right by `s` words and `o` bits. -/
theorem limbs_shiftRight (hW : 0 < W) {s o : ℕ} (ho : o < W) :
    limbs ((List.range ws.length).map fun n => if n < s then 0 else
        (ws.getD (n - s) 0 >>> o) |||
          (if n - s = 0 then 0 else ws.getD (n - s - 1) 0 <<< (W - o))) =
      limbs ws / 2 ^ (W * s + o) := by
  apply Nat.eq_of_testBit_eq
  intro i
  rw [testBit_limbs hW, Nat.testBit_div_two_pow, testBit_limbs hW, limbBit, limbBit,
    List.length_map, List.length_range]
  have hbit := Nat.mod_lt i hW
  have hsum := Nat.div_add_mod i W
  generalize hq : i / W = q at *
  generalize hb : i % W = b at *
  -- the bit comes from one of two neighbouring words
  have hplace : (i + (W * s + o)) / W = (if b + o < W then q + s else q + s + 1) ∧
      (i + (W * s + o)) % W = if b + o < W then b + o else b + o - W := by
    rw [Nat.div_mod_unique hW]
    split_ifs with hlow
    · exact ⟨by rw [Nat.mul_add]; omega, hlow⟩
    · exact ⟨by rw [Nat.mul_succ, Nat.mul_add]; omega, by omega⟩
  rw [hplace.1, hplace.2]
  by_cases hlen : q < ws.length
  · rw [decide_eq_true hlen, Bool.true_and, List.getD_eq_getElem _ _ (by simp; omega),
      List.getElem_map, List.getElem_range]
    by_cases hlow : b + o < W
    · rw [if_pos hlow, if_pos hlow]
      by_cases hword : q + s < ws.length
      · rw [if_neg (by omega), decide_eq_true hword, Bool.true_and, BitVec.getLsbD_or,
          BitVec.getLsbD_ushiftRight, Nat.add_comm o b,
          show ws.length - 1 - q - s = ws.length - 1 - (q + s) by omega]
        split <;> simp [show b < W - o by omega]
      · rw [if_pos (by omega), decide_eq_false hword]
        simp
    · rw [if_neg hlow, if_neg hlow]
      by_cases hword : q + s + 1 < ws.length
      · rw [if_neg (by omega), if_neg (by omega), decide_eq_true hword, Bool.true_and,
          BitVec.getLsbD_or, BitVec.getLsbD_ushiftRight, BitVec.getLsbD_of_ge _ _ (by omega),
          Bool.false_or, BitVec.getLsbD_shiftLeft,
          show ws.length - 1 - q - s - 1 = ws.length - 1 - (q + s + 1) by omega,
          show b - (W - o) = b + o - W by omega]
        simp [hbit, show ¬ b < W - o by omega]
      · rw [decide_eq_false hword, Bool.false_and]
        by_cases hfirst : ws.length - 1 - q - s = 0 ∧ ¬ ws.length - 1 - q < s
        · rw [if_neg hfirst.2, if_pos hfirst.1, BitVec.getLsbD_or, BitVec.getLsbD_ushiftRight,
            BitVec.getLsbD_of_ge _ _ (by omega)]
          simp
        · rw [if_pos (by omega)]
          simp
  · rw [decide_eq_false hlen, Bool.false_and]
    split <;> rw [decide_eq_false (by omega), Bool.false_and]

end Adl.Math
