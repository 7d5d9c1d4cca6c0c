import Adl.Helpers.WordArrays
import Adl.Math.LongDivision

/-!
# Quotients of word arrays

`divideWords` divides byte by byte. A byte of the quotient is guessed from three bytes of the
dividend and two bytes of the divisor, whose first byte is not zero, so that the guess is at most
one too large.
-/

namespace Adl.Helpers

open Math (limbs carryLoop)

variable {x y : WordArray} {xb yb pre win post ds : Buffer} {first : BitVec 8} {k n : ℕ}

/-! ### Bytes and words -/

theorem length_convertToBytes : (convertToBytes x).length = 4 * x.length := by
  induction x with
  | nil => rfl
  | cons w rest ih =>
    rw [convertToBytes, List.flatMap_cons, List.length_append, ← convertToBytes, ih,
      List.length_cons]
    simp only [List.length_cons, List.length_nil]
    omega

theorem limbs_convertToBytes : limbs (convertToBytes x) = limbs x := by
  induction x with
  | nil => rfl
  | cons w rest ih =>
    have hbytes : limbs [(w >>> 24).setWidth 8, (w >>> 16).setWidth 8, (w >>> 8).setWidth 8,
        w.setWidth 8] = w.toNat := by
      have hw := w.isLt
      simp only [limbs, List.length_cons, List.length_nil, BitVec.toNat_setWidth,
        BitVec.toNat_ushiftRight, Nat.shiftRight_eq_div_pow]
      omega
    rw [convertToBytes, List.flatMap_cons, Math.limbs_append, hbytes, ← convertToBytes, ih, limbs,
      length_convertToBytes]
    congr 3
    omega

theorem skipLeadingZeroBytes_spec (h : xb ≠ []) :
    0 < skipLeadingZeroBytes xb ∧ skipLeadingZeroBytes xb ≤ xb.length ∧
      limbs (xb.drop (xb.length - skipLeadingZeroBytes xb)) = limbs xb ∧
      (limbs xb ≠ 0 → (xb.drop (xb.length - skipLeadingZeroBytes xb)).getD 0 0 ≠ 0) := by
  induction xb with
  | nil => exact absurd rfl h
  | cons b rest ih =>
    cases rest with
    | nil =>
      refine ⟨Nat.one_pos, Nat.le_refl 1, rfl, fun hne hzero => hne ?_⟩
      obtain rfl : b = 0 := hzero
      rfl
    | cons c rest =>
      rw [skipLeadingZeroBytes]
      split
      case isTrue hzero =>
        obtain ⟨hpos, hle, hlimbs, hhead⟩ := ih (List.cons_ne_nil c rest)
        have hdrop : (b :: c :: rest).drop
            ((b :: c :: rest).length - skipLeadingZeroBytes (c :: rest)) =
            (c :: rest).drop ((c :: rest).length - skipLeadingZeroBytes (c :: rest)) := by
          rw [List.length_cons, Nat.sub_add_comm hle, List.drop_succ_cons]
        have hcons : limbs (b :: c :: rest) = limbs (c :: rest) := by
          rw [hzero, limbs]
          exact Nat.zero_add _
        rw [hdrop, hcons]
        exact ⟨hpos, hle.trans (Nat.le_succ _), hlimbs, hhead⟩
      case isFalse hnonzero =>
        rw [← List.length_cons, Nat.sub_self, List.drop_zero]
        exact ⟨Nat.succ_pos _, Nat.le_refl _, rfl, fun _ => hnonzero⟩
      · simp

/-- The words that hold the low bytes, with the next byte put in front of them. -/
theorem limbs_modify_or {words : WordArray} {b : BitVec 8} {s : ℕ} (hs : s / 4 < words.length)
    (hlt : limbs words < 2 ^ (8 * s)) :
    limbs (words.modify (words.length - 1 - s / 4) (· ||| (b.setWidth 32 <<< (8 * s % 32)))) =
      2 ^ (8 * s) * b.toNat + limbs words := by
  have hweight : 32 * (words.length - 1 - (words.length - 1 - s / 4)) + 8 * (s % 4) = 8 * s := by
    omega
  have hor := @Math.limbs_modify_or _ words _ (words.length - 1 - s / 4) (s % 4) b (by omega)
    (by omega) (by rwa [hweight])
  rw [hweight] at hor
  rw [show 8 * s % 32 = 8 * (s % 4) by omega, hor]

theorem limbs_convertFromBytes (h : xb.length ≤ 4 * n) :
    limbs (convertFromBytes n xb) = limbs xb := by
  induction xb with
  | nil => exact Math.limbs_replicate_zero
  | cons b rest ih =>
    have hrest := ih (Nat.le_of_succ_le h)
    have hlt : limbs rest < 2 ^ (8 * rest.length) := Math.limbs_lt
    have hstep : convertFromBytes n (b :: rest) = (convertFromBytes n rest).modify
        (n - 1 - rest.length / 4) (· ||| (b.setWidth 32 <<< (8 * rest.length % 32))) := by
      rw [convertFromBytes, List.reverse_cons, List.zipIdx_append, List.foldl_append,
        List.length_reverse, Nat.zero_add]
      rfl
    have hor := @limbs_modify_or (convertFromBytes n rest) b rest.length
    rw [length_convertFromBytes, hrest] at hor
    rw [hstep, hor (by rw [List.length_cons] at h; omega) hlt, limbs]

/-! ### One byte of the quotient -/

/-- The step of the loop in `subtractMultiple`. -/
def subtractStep (qk : ℕ) (carry : ℤ) (xi yi : BitVec 8) : BitVec 8 × ℤ :=
  let carry := carry + yi.toNat * qk
  let diff := xi.toNat + 256 - carry % 256
  (BitVec.ofInt 8 diff, carry / 256 + (1 - diff / 256))

/-- The step of the loop in `addBack`. -/
def addStep (carry : ℕ) (xi yi : BitVec 8) : BitVec 8 × ℕ :=
  let carry := carry + xi.toNat + yi.toNat
  (BitVec.ofNat 8 carry, carry / 256)

theorem subtractMultiple_eq {qk : ℕ} (h : win.length = yb.length) :
    subtractMultiple yb pre.length qk (pre ++ win ++ post) =
      (pre ++ (carryLoop (subtractStep qk) 0 win yb).1 ++ post,
        (carryLoop (subtractStep qk) 0 win yb).2) := by
  rw [subtractMultiple]
  exact Math.foldl_set_carryLoop (f := subtractStep qk) h

theorem addBack_eq (h : win.length = yb.length) :
    addBack yb pre.length (pre ++ win ++ post) =
      (pre ++ (carryLoop addStep 0 win yb).1 ++ post, (carryLoop addStep 0 win yb).2) := by
  rw [addBack]
  exact Math.foldl_set_carryLoop (f := addStep) h

theorem limbs_subtractStep {qk : ℕ} {carry : ℤ} (h : win.length = yb.length) :
    (limbs (carryLoop (subtractStep qk) carry win yb).1 : ℤ) + qk * limbs yb + carry =
      limbs win + 2 ^ (8 * win.length) * (carryLoop (subtractStep qk) carry win yb).2 := by
  have hstep (c : ℤ) (x y : BitVec 8) : ((subtractStep qk c x y).1.toNat : ℤ) +
      2 ^ 8 * -(subtractStep qk c x y).2 = x.toNat + -qk * y.toNat + -c := by
    simp only [subtractStep, BitVec.toNat_ofInt, neg_mul, mul_comm (qk : ℤ)]
    omega
  linear_combination Math.limbs_carryLoop (c := carry) (g := fun c => -c) hstep h

theorem limbs_addStep {carry : ℕ} (h : win.length = yb.length) :
    limbs (carryLoop addStep carry win yb).1 +
        2 ^ (8 * win.length) * (carryLoop addStep carry win yb).2 =
      limbs win + limbs yb + carry := by
  have hstep (c : ℕ) (x y : BitVec 8) : ((addStep c x y).1.toNat : ℤ) +
      2 ^ 8 * (addStep c x y).2 = x.toNat + 1 * y.toNat + c := by
    simp only [addStep, BitVec.toNat_ofNat]
    omega
  have hloop := Math.limbs_carryLoop (c := carry) (g := fun c : ℕ => (c : ℤ)) hstep h
  rw [one_mul] at hloop
  exact_mod_cast hloop

/-- The number that a byte of the quotient is taken from: the byte before the window and the
window. -/
def windowValue (first : BitVec 8) (win : Buffer) : ℕ :=
  2 ^ (8 * win.length) * first.toNat + limbs win

theorem getD_window {l : Buffer} {i : ℕ} :
    (pre ++ l ++ post).getD (pre.length + i) 0 = (l ++ post).getD i 0 := by
  rw [List.append_assoc, List.getD_append_right _ _ _ _ (by omega), Nat.add_sub_cancel_left]

theorem toNat_pos_of_ne_zero {b : BitVec 8} (h : b ≠ 0) : 0 < b.toNat :=
  Nat.pos_of_ne_zero fun hzero => h (BitVec.eq_of_toNat_eq hzero)

theorem guessByte_singleton {x₀ y₀ : BitVec 8} (hhead : y₀ ≠ 0)
    (hlt : windowValue first [x₀] < 256 * limbs [y₀]) :
    guessByte [y₀] pre.length ⟨pre ++ [x₀] ++ post, first⟩ =
      windowValue first [x₀] / limbs [y₀] := by
  have he : (post.getD 0 0).toNat < 256 := (post.getD 0 0).isLt
  have hx : (pre ++ [x₀] ++ post).getD pre.length 0 = x₀ := getD_window (i := 0)
  have hx' : (pre ++ [x₀] ++ post).getD (pre.length + 1) 0 = post.getD 0 0 := getD_window
  have hvalue : windowValue first [x₀] = first.toNat * 256 + x₀.toNat := by
    simp only [windowValue, Math.limbs_singleton, List.length_singleton]
    ring
  rw [hvalue, Math.limbs_singleton] at hlt ⊢
  have hdiv : (first.toNat * 256 + x₀.toNat) / y₀.toNat < 256 :=
    (Nat.div_lt_iff_lt_mul (toNat_pos_of_ne_zero hhead)).mpr hlt
  have hthree : first.toNat * 65536 + x₀.toNat * 256 + (post.getD 0 0).toNat =
      (first.toNat * 256 + x₀.toNat) * 256 + (post.getD 0 0).toNat := by ring
  have htwo : y₀.toNat * 256 + (0 : BitVec 8).toNat = y₀.toNat * 256 := Nat.add_zero _
  simp only [guessByte, hx, hx', List.getD_cons_zero, List.getD_cons_succ, List.getD_nil]
  rw [hthree, htwo, Math.mul_add_div_mul he, if_neg (Nat.not_le.mpr hdiv)]

theorem guessByte_cons_cons {x₀ x₁ y₀ y₁ : BitVec 8} {xs ys : Buffer}
    (h : xs.length = ys.length) (hhead : y₀ ≠ 0)
    (hlt : windowValue first (x₀ :: x₁ :: xs) < 256 * limbs (y₀ :: y₁ :: ys)) :
    windowValue first (x₀ :: x₁ :: xs) / limbs (y₀ :: y₁ :: ys) ≤
        guessByte (y₀ :: y₁ :: ys) pre.length ⟨pre ++ (x₀ :: x₁ :: xs) ++ post, first⟩ ∧
      guessByte (y₀ :: y₁ :: ys) pre.length ⟨pre ++ (x₀ :: x₁ :: xs) ++ post, first⟩ ≤
        windowValue first (x₀ :: x₁ :: xs) / limbs (y₀ :: y₁ :: ys) + 1 := by
  have hxs : limbs xs < 2 ^ (8 * ys.length) := h ▸ Math.limbs_lt
  have hys : limbs ys < 2 ^ (8 * ys.length) := Math.limbs_lt
  have hlead := toNat_pos_of_ne_zero hhead
  have hx : (pre ++ (x₀ :: x₁ :: xs) ++ post).getD pre.length 0 = x₀ := getD_window (i := 0)
  have hx' : (pre ++ (x₀ :: x₁ :: xs) ++ post).getD (pre.length + 1) 0 = x₁ := getD_window
  -- dividend and divisor as their leading bytes and the rest
  have hvalue : windowValue first (x₀ :: x₁ :: xs) =
      (first.toNat * 65536 + x₀.toNat * 256 + x₁.toNat) * 2 ^ (8 * ys.length) + limbs xs := by
    rw [windowValue, limbs, limbs, List.length_cons, List.length_cons, h, Nat.mul_succ,
      Nat.mul_succ, Nat.pow_add, Nat.pow_add]
    ring
  have hdivisor : limbs (y₀ :: y₁ :: ys) =
      (y₀.toNat * 256 + y₁.toNat) * 2 ^ (8 * ys.length) + limbs ys := by
    rw [limbs, limbs, List.length_cons, Nat.mul_succ, Nat.pow_add]
    ring
  have hguess : guessByte (y₀ :: y₁ :: ys) pre.length ⟨pre ++ (x₀ :: x₁ :: xs) ++ post, first⟩ =
      min ((first.toNat * 65536 + x₀.toNat * 256 + x₁.toNat) / (y₀.toNat * 256 + y₁.toNat))
        (256 - 1) := by
    simp only [guessByte, hx, hx', List.getD_cons_zero, List.getD_cons_succ]
    generalize (first.toNat * 65536 + x₀.toNat * 256 + x₁.toNat) / (y₀.toNat * 256 + y₁.toNat) = qk
    split <;> omega
  rw [hvalue, hdivisor] at hlt
  rw [hvalue, hdivisor, hguess]
  exact ⟨Math.div_le_guess (by omega) hxs hlt, Math.guess_le hys (by omega)⟩

theorem guessByte_bounds (h : win.length = yb.length) (hhead : yb.getD 0 0 ≠ 0)
    (hlt : windowValue first win < 256 * limbs yb) :
    windowValue first win / limbs yb ≤ guessByte yb pre.length ⟨pre ++ win ++ post, first⟩ ∧
      guessByte yb pre.length ⟨pre ++ win ++ post, first⟩ ≤
        windowValue first win / limbs yb + 1 := by
  rcases yb with _ | ⟨y₀, _ | ⟨y₁, ys⟩⟩
  · simp at hhead
  · obtain ⟨x₀, rfl⟩ := List.length_eq_one_iff.mp h
    have hguess := @guessByte_singleton pre post _ _ y₀ hhead hlt
    rw [hguess]
    exact ⟨Nat.le_refl _, Nat.le_succ _⟩
  · rcases win with _ | ⟨x₀, _ | ⟨x₁, xs⟩⟩
    · cases h
    · cases h
    · exact guessByte_cons_cons (by simpa using h) hhead hlt

theorem correctGuess_eq {qk : ℕ} (h : win.length = yb.length) (hY : 0 < limbs yb)
    (hle : windowValue first win / limbs yb ≤ qk)
    (hge : qk ≤ windowValue first win / limbs yb + 1) :
    ∃ win' : Buffer, win'.length = yb.length ∧
      limbs win' = windowValue first win % limbs yb ∧
      (if qk = 0 then (qk, pre ++ win ++ post) else
        let (xb, carry) := subtractMultiple yb pre.length qk (pre ++ win ++ post)
        if carry = 0 then (qk, xb) else
          let carry : ℤ := first.toNat + 256 - carry
          if 1 - carry / 256 = 0 then (qk, xb) else (qk - 1, (addBack yb pre.length xb).1)) =
        (windowValue first win / limbs yb, pre ++ win' ++ post) := by
  have hYP : limbs yb ≤ 2 ^ (8 * win.length) := by
    rw [h]
    exact Math.limbs_lt.le
  by_cases hzero : qk = 0
  · -- nothing is subtracted, and the byte before the window is zero
    have hdiv : windowValue first win / limbs yb = 0 := Nat.le_zero.mp (hzero ▸ hle)
    have hsmall := (Nat.div_eq_zero_iff_lt hY).mp hdiv
    have hnone : first.toNat = 0 := by
      rw [windowValue] at hsmall
      by_contra hne
      have hmul := Nat.mul_le_mul_left (2 ^ (8 * win.length)) (Nat.one_le_iff_ne_zero.mpr hne)
      omega
    refine ⟨win, h, ?_, ?_⟩
    · rw [Nat.mod_eq_of_lt hsmall, windowValue, hnone, Nat.mul_zero, Nat.zero_add]
    · rw [if_pos hzero, hdiv, hzero]
  · rw [if_neg hzero, subtractMultiple_eq h]
    have hequation := @limbs_subtractStep _ _ qk 0 h
    have hlength := Math.length_carryLoop (f := subtractStep qk) (c := 0) h
    generalize carryLoop (subtractStep qk) 0 win yb = s at hequation hlength ⊢
    dsimp only
    have hbound : limbs s.1 < 2 ^ (8 * win.length) := by
      rw [← hlength]
      exact Math.limbs_lt
    rw [add_zero] at hequation
    rcases Nat.lt_or_ge (windowValue first win / limbs yb) qk with hsucc | hexact
    · -- the guess is one too large: the divisor is added back
      obtain ⟨hcarry, hwindow⟩ := Math.window_of_guess_succ (F := first.toNat) hY hYP hbound
        (by exact_mod_cast hequation) (Nat.le_antisymm hge hsucc)
      have hadd := @limbs_addStep _ _ 0 (hlength.trans h)
      have hlength' := Math.length_carryLoop (f := addStep) (c := 0) (hlength.trans h)
      refine ⟨(carryLoop addStep 0 s.1 yb).1, hlength'.trans (hlength.trans h), ?_, ?_⟩
      · have hmod := Nat.mod_lt (2 ^ (8 * win.length) * first.toNat + limbs win) hY
        have hbound' : limbs (carryLoop addStep 0 s.1 yb).1 < 2 ^ (8 * win.length) := by
          rw [← hlength, ← hlength']
          exact Math.limbs_lt
        have hequal := congrArg (· % 2 ^ (8 * win.length)) (hadd.trans hwindow)
        simpa only [windowValue, hlength, Nat.add_mul_mod_self_left, Nat.add_mod_right,
          Nat.mod_eq_of_lt hbound', Nat.mod_eq_of_lt (hmod.trans_le hYP)] using hequal
      · rw [hcarry, if_neg (by omega), if_neg (by omega), addBack_eq (hlength.trans h)]
        congr 1
        omega
    · obtain ⟨hcarry, hwindow⟩ := Math.window_of_guess (F := first.toNat) hY hYP hbound
        (by exact_mod_cast hequation) (Nat.le_antisymm hexact hle)
      rw [← windowValue] at hwindow
      refine ⟨s.1, hlength.trans h, hwindow, ?_⟩
      rw [hcarry, ← Nat.le_antisymm hexact hle]
      split
      · rfl
      · rw [if_pos (by omega)]

theorem divideByte_eq (h : win.length = yb.length) (hhead : yb.getD 0 0 ≠ 0)
    (hlt : windowValue first win < 256 * limbs yb) :
    ∃ win' : Buffer, win'.length = yb.length ∧
      limbs win' = windowValue first win % limbs yb ∧
      divideByte yb pre.length ⟨pre ++ win ++ post, first⟩ =
        (BitVec.ofNat 8 (windowValue first win / limbs yb),
          ⟨pre ++ win' ++ post, win'.getD 0 0⟩) := by
  have hY : 0 < limbs yb := Nat.pos_of_ne_zero fun hzero => by simp [hzero] at hlt
  have hyb : 0 < yb.length := List.length_pos_iff.mpr fun hnil => by simp [hnil] at hhead
  obtain ⟨hle, hge⟩ := @guessByte_bounds _ pre _ post _ h hhead hlt
  obtain ⟨win', hlength, hlimbs, hguess⟩ := @correctGuess_eq _ pre _ post _ _ h hY hle hge
  refine ⟨win', hlength, hlimbs, ?_⟩
  rw [divideByte, hguess]
  dsimp only
  rw [List.append_assoc, List.getD_append_right _ _ _ _ (Nat.le_refl _), Nat.sub_self,
    List.getD_append _ _ _ _ (by omega)]

/-! ### All bytes of the quotient -/

/-- The steps of the long division: `ds` are the bytes that are still to come, and `lo` with the
byte before it is the remainder so far. -/
theorem divideLoop_eq {lo q : Buffer} (hlo : lo.length + 1 = yb.length) (hhead : yb.getD 0 0 ≠ 0)
    (hlt : windowValue first lo < limbs yb) :
    ∃ q' r, (List.range' pre.length ds.length).foldl
        (fun (s : Buffer × Remainder) k =>
          (s.1 ++ [(divideByte yb k s.2).1], (divideByte yb k s.2).2))
        (q, ⟨pre ++ lo ++ ds, first⟩) = (q ++ q', r) ∧ q'.length = ds.length ∧
      limbs q' = (2 ^ (8 * ds.length) * windowValue first lo + limbs ds) / limbs yb := by
  induction ds generalizing pre lo first q with
  | nil =>
    refine ⟨[], ⟨pre ++ lo ++ [], first⟩, by rw [List.append_nil q]; rfl, rfl, ?_⟩
    have hzero : (2 ^ (8 * ([] : Buffer).length) * windowValue first lo + limbs ([] : Buffer)) /
        limbs yb = 0 := Nat.div_eq_of_lt (by simpa [limbs] using hlt)
    rw [hzero]
    rfl
  | cons d ds ih =>
    have hwindow : windowValue first (lo ++ [d]) = 256 * windowValue first lo + d.toNat := by
      rw [windowValue, windowValue, Math.limbs_append, Math.limbs_singleton, List.length_append,
        List.length_singleton, Nat.mul_succ, Nat.pow_add]
      ring
    have hd := d.isLt
    obtain ⟨win', hlength, hlimbs, hstep⟩ := @divideByte_eq _ pre (lo ++ [d]) ds first
      (by rw [List.length_append]; exact hlo) hhead (by omega)
    -- the first byte of the window is the one before the next window
    obtain ⟨f, lo', rfl⟩ : ∃ f lo', win' = f :: lo' :=
      List.exists_cons_of_length_pos (by omega)
    have hlo' : lo'.length + 1 = yb.length := hlength
    have hvalue : windowValue f lo' = windowValue first (lo ++ [d]) % limbs yb := by
      rw [← hlimbs, windowValue, limbs]
    obtain ⟨q', r, hloop, hq, hquotient⟩ := @ih (pre ++ [f]) f lo'
      (q ++ [BitVec.ofNat 8 (windowValue first (lo ++ [d]) / limbs yb)]) hlo'
      (by rw [hvalue]; exact Nat.mod_lt _ (by omega))
    have hdigit : (BitVec.ofNat 8 (windowValue first (lo ++ [d]) / limbs yb)).toNat =
        windowValue first (lo ++ [d]) / limbs yb := by
      rw [BitVec.toNat_ofNat]
      exact Nat.mod_eq_of_lt ((Nat.div_lt_iff_lt_mul (by omega)).mpr (by omega))
    refine ⟨BitVec.ofNat 8 (windowValue first (lo ++ [d]) / limbs yb) :: q', r, ?_, ?_, ?_⟩
    · have hsplit : pre ++ lo ++ d :: ds = pre ++ (lo ++ [d]) ++ ds := by simp
      have hsplit' : pre ++ f :: lo' ++ ds = pre ++ [f] ++ lo' ++ ds := by simp
      rw [List.length_append, List.length_singleton] at hloop
      rw [List.length_cons, List.range'_succ, List.foldl_cons, hsplit, hstep, hsplit',
        List.getD_cons_zero, hloop, List.append_assoc, List.singleton_append]
    · rw [List.length_cons, hq, List.length_cons]
    · rw [limbs, hdigit, hq, hquotient, hvalue, limbs, List.length_cons, Nat.mul_succ, Nat.pow_add]
      generalize 2 ^ (8 * ds.length) = weight
      have hX := Nat.div_add_mod (windowValue first (lo ++ [d])) (limbs yb)
      have hsum : weight * 2 ^ 8 * windowValue first lo + (weight * d.toNat + limbs ds) =
          limbs yb * (weight * (windowValue first (lo ++ [d]) / limbs yb)) +
            (weight * (windowValue first (lo ++ [d]) % limbs yb) + limbs ds) := by
        calc weight * 2 ^ 8 * windowValue first lo + (weight * d.toNat + limbs ds)
            = weight * windowValue first (lo ++ [d]) + limbs ds := by rw [hwindow]; ring
          _ = weight * (limbs yb * (windowValue first (lo ++ [d]) / limbs yb) +
                windowValue first (lo ++ [d]) % limbs yb) + limbs ds := by rw [hX]
          _ = _ := by ring
      rw [hsum, Nat.mul_add_div (by omega)]

/-- A loop that collects one part of its results, with the parts as projections. -/
theorem foldl_append_pair {α β γ : Type*} (f : γ → β → α × β) (ks : List γ) (s : List α × β) :
    ks.foldl (fun (q, r) k =>
        let (qk, r) := f k r
        (q ++ [qk], r)) s =
      ks.foldl (fun s k => (s.1 ++ [(f k s.2).1], (f k s.2).2)) s := rfl

theorem windowValue_zero : windowValue 0 win = limbs win := by
  rw [windowValue]
  exact Nat.zero_add _

theorem limbs_take_lt {y₀ : BitVec 8} {ys : Buffer} (hhead : y₀ ≠ 0) :
    limbs (xb.take ys.length) < limbs (y₀ :: ys) := by
  have hlength : (xb.take ys.length).length ≤ ys.length := List.length_take_le _ _
  calc limbs (xb.take ys.length) < 2 ^ (8 * (xb.take ys.length).length) := Math.limbs_lt
    _ ≤ 2 ^ (8 * ys.length) := Nat.pow_le_pow_right (by decide) (Nat.mul_le_mul_left 8 hlength)
    _ ≤ 2 ^ (8 * ys.length) * y₀.toNat := Nat.le_mul_of_pos_right _ (toNat_pos_of_ne_zero hhead)
    _ ≤ limbs (y₀ :: ys) := Nat.le_add_right _ _

/-- The long division of two numbers of which the second one has no leading zeros. -/
theorem doDivide_eq (hle : yb.length ≤ xb.length) (hhead : yb.getD 0 0 ≠ 0) :
    (doDivide xb yb).length = xb.length - yb.length + 1 ∧
      limbs (doDivide xb yb) = limbs xb / limbs yb := by
  cases yb with
  | nil => simp at hhead
  | cons y₀ ys =>
    rw [List.length_cons] at hle
    have hlo : (xb.take ys.length).length + 1 = (y₀ :: ys).length := by
      rw [List.length_take, List.length_cons]
      omega
    have hsteps : (xb.drop ys.length).length = xb.length - (y₀ :: ys).length + 1 := by
      rw [List.length_drop, List.length_cons]
      omega
    obtain ⟨q, r, hloop, hq, hquotient⟩ := @divideLoop_eq _ [] (xb.drop ys.length) 0 _ []
      hlo hhead (by
        rw [windowValue_zero]
        exact limbs_take_lt hhead)
    rw [List.nil_append, List.take_append_drop, List.length_nil, List.nil_append, hsteps,
      ← List.range_eq_range'] at hloop
    have happend := @Math.limbs_append _ (xb.take ys.length) (xb.drop ys.length)
    rw [List.take_append_drop] at happend
    rw [doDivide, foldl_append_pair (divideByte (y₀ :: ys)), hloop]
    dsimp only
    rw [hq, hsteps, hquotient, windowValue_zero, happend]
    exact ⟨rfl, rfl⟩

/-! ### The quotient -/

/-- The bytes of an operand without its leading zeros. -/
def significantBytes (x : WordArray) : Buffer :=
  (convertToBytes x).drop (4 * x.length - skipLeadingZeroBytes (convertToBytes x))

theorem significantBytes_spec (hpos : 0 < x.length) :
    (significantBytes x).length = skipLeadingZeroBytes (convertToBytes x) ∧
      0 < (significantBytes x).length ∧ (significantBytes x).length ≤ 4 * x.length ∧
      limbs (significantBytes x) = limbs x ∧
      (limbs x ≠ 0 → (significantBytes x).getD 0 0 ≠ 0) := by
  have hlength := length_convertToBytes (x := x)
  obtain ⟨hskip, hle, hlimbs, hhead⟩ := @skipLeadingZeroBytes_spec (convertToBytes x)
    (List.length_pos_iff.mp (by omega))
  rw [hlength] at hle hlimbs hhead
  rw [limbs_convertToBytes] at hlimbs hhead
  rw [significantBytes, List.length_drop, hlength]
  exact ⟨by omega, by omega, by omega, hlimbs, hhead⟩

/-- A number of one word is the last word. -/
theorem toNat_last_of_lt (hpos : 0 < x.length) (hlt : limbs x < 2 ^ 32) :
    (x.getD (x.length - 1) 0).toNat = limbs x := by
  have hlast := @Math.toNat_getD _ x _ hpos
  rwa [Nat.sub_zero, Nat.mul_zero, Nat.pow_zero, Nat.div_one, Nat.mod_eq_of_lt hlt] at hlast

/-- Fewer bytes make up a smaller number. -/
theorem limbs_lt_of_length_lt {xb yb : Buffer} (h : xb.length < yb.length)
    (hhead : yb.getD 0 0 ≠ 0) : limbs xb < limbs yb := by
  cases yb with
  | nil => cases h
  | cons y₀ ys =>
    have hlt := @limbs_take_lt xb _ ys hhead
    rwa [List.take_of_length_le (Nat.le_of_lt_succ h)] at hlt

theorem limbs_divideWords (h : x.length = y.length) (hpos : 0 < x.length) (hy : limbs y ≠ 0) :
    limbs (divideWords x y) = limbs x / limbs y := by
  obtain ⟨-, hxpos, hxle, hx, -⟩ := significantBytes_spec hpos
  obtain ⟨-, hypos, hyle, hyb, hhead⟩ := significantBytes_spec (h ▸ hpos)
  have hdivide : divideWords x y =
      if (significantBytes x).length ≤ 4 ∧ (significantBytes y).length ≤ 4 then
        List.replicate (x.length - 1) 0 ++ [x.getD (x.length - 1) 0 / y.getD (x.length - 1) 0]
      else if (significantBytes x).length < (significantBytes y).length then
        List.replicate x.length 0
      else convertFromBytes x.length (doDivide (significantBytes x) (significantBytes y)) := by
    rw [significantBytes, significantBytes, ← h]
    rfl
  rw [hdivide]
  split
  case isTrue hnative =>
    have hword {z : WordArray} (hle : (significantBytes z).length ≤ 4)
        (hz : limbs (significantBytes z) = limbs z) : limbs z < 2 ^ 32 := by
      rw [← hz]
      exact Math.limbs_lt.trans_le (Nat.pow_le_pow_right (by decide) (by omega))
    rw [Math.limbs_append, Math.limbs_replicate_zero, Math.limbs_singleton, Nat.mul_zero,
      Nat.zero_add, BitVec.toNat_udiv, toNat_last_of_lt hpos (hword hnative.1 hx), h,
      toNat_last_of_lt (h ▸ hpos) (hword hnative.2 hyb)]
  case isFalse =>
    split
    case isTrue hshort =>
      rw [Math.limbs_replicate_zero, Nat.div_eq_of_lt]
      rw [← hx, ← hyb]
      exact limbs_lt_of_length_lt hshort (hhead hy)
    case isFalse hlong =>
      obtain ⟨hlength, hquotient⟩ := doDivide_eq (Nat.le_of_not_lt hlong) (hhead hy)
      rw [limbs_convertFromBytes (by rw [hlength]; omega), hquotient, hx, hyb]

end Adl.Helpers
