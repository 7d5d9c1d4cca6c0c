import Adl.Helpers.Quotients

/-!
# The buffers of the division

`divideWords` works on three arrays on the stack. Here every index that is used with one of them is
recorded. Two can leave their array: the byte before the dividend, when the dividend has no leading
zero, and the byte of the quotient, when the operands differ in more than half of the bytes.
-/

namespace Adl.Helpers

/-- The arrays of `divideWords`. -/
inductive DivisionArray where
  | x
  | y
  | q
deriving DecidableEq, Repr

def DivisionArray.size (nw : ℕ) : DivisionArray → ℕ
  | x => nw * 4 + 1
  | y => nw * 4 + 1
  | q => nw * 2

/-- An access to one of the arrays, with the index from its start. -/
structure Access where
  array : DivisionArray
  index : ℤ
deriving DecidableEq, Repr

/-- The index is one of the array. -/
def Access.Within (nw : ℕ) (a : Access) : Prop := 0 ≤ a.index ∧ a.index < a.array.size nw

instance {nw : ℕ} {a : Access} : Decidable (a.Within nw) := inferInstanceAs (Decidable (_ ∧ _))

/-! ### The accesses of each function -/

def convertToBytesAccesses (array : DivisionArray) (wordCount : ℕ) : List Access :=
  (List.range (4 * wordCount)).map fun (i : ℕ) => ⟨array, i⟩

/-- The bytes from position `p` on are read up to the first one that is not zero; the last one is
never read. -/
def skipLeadingZeroBytesAccesses (array : DivisionArray) (p : ℕ) : Buffer → List Access
  | [] => []
  | [_] => []
  | b :: rest =>
    ⟨array, p⟩ :: if b = 0 then skipLeadingZeroBytesAccesses array (p + 1) rest else []

def convertFromBytesAccesses (byteCount : ℕ) : List Access :=
  (List.range (byteCount + 1)).reverse.map fun (i : ℕ) => ⟨.q, i⟩

/-- A loop over the bytes of the divisor and the window at `k`; `xb` and `yb` are the places of the
first significant bytes. -/
def windowAccesses (xb yb : ℤ) (ylen k : ℕ) : List Access :=
  (List.range ylen).reverse.flatMap fun (i : ℕ) => [⟨.y, yb + i⟩, ⟨.x, xb + k + i⟩]

def divideByteAccesses (xb yb : ℤ) (ys : Buffer) (k : ℕ) (r : Remainder) : List Access :=
  let qk := guessByte ys k r
  let (_, carry) := subtractMultiple ys k qk r.xb
  [⟨.x, xb + k⟩, ⟨.x, xb + k + 1⟩] ++
    (if qk = 0 then [] else
      windowAccesses xb yb ys.length k ++
        (if carry = 0 ∨ 1 - ((r.firstByte.toNat : ℤ) + 256 - carry) / 256 = 0 then []
          else windowAccesses xb yb ys.length k)) ++
    [⟨.q, k⟩, ⟨.x, xb + k⟩]

/-- The byte before the dividend is cleared, the first bytes of the divisor are read, and then comes
one step for each byte of the quotient. -/
def doDivideAccesses (xb yb : ℤ) (xs ys : Buffer) : List Access :=
  [⟨.x, xb - 1⟩, ⟨.y, yb⟩, ⟨.y, yb + 1⟩] ++
    ((List.range (xs.length - ys.length + 1)).foldl
      (fun (trace, r) k => (trace ++ divideByteAccesses xb yb ys k r, (divideByte ys k r).2))
      (([] : List Access), ({ xb := xs, firstByte := 0 } : Remainder))).1

def divideWordsAccesses (x y : WordArray) : List Access :=
  let nw := x.length
  let xlen := skipLeadingZeroBytes (convertToBytes x)
  let ylen := skipLeadingZeroBytes (convertToBytes y)
  let xb : ℤ := 4 * nw - xlen
  let yb : ℤ := 4 * nw - ylen
  (List.range (nw * 2)).map (fun (i : ℕ) => ⟨.q, i⟩) ++
    convertToBytesAccesses .x nw ++ convertToBytesAccesses .y nw ++
    skipLeadingZeroBytesAccesses .x 0 (convertToBytes x) ++
    skipLeadingZeroBytesAccesses .y 0 (convertToBytes y) ++
    [⟨.y, yb + ylen⟩] ++
    (if xlen ≤ 4 ∧ ylen ≤ 4 then []
      else if xlen < ylen then []
      else doDivideAccesses xb yb (significantBytes x) (significantBytes y) ++
        convertFromBytesAccesses (xlen - ylen))

/-! ### Indices that stay inside -/

variable {x y : WordArray} {xs ys : Buffer} {array : DivisionArray} {nw k p : ℕ} {i : ℤ}
  {a : Access}

theorem within_operand (harray : array ≠ .q) :
    (⟨array, i⟩ : Access).Within nw ↔ 0 ≤ i ∧ i ≤ 4 * nw := by
  cases array with
  | q => exact absurd rfl harray
  | x | y =>
    simp only [Access.Within, DivisionArray.size]
    omega

theorem within_x : (⟨.x, i⟩ : Access).Within nw ↔ 0 ≤ i ∧ i ≤ 4 * nw := within_operand nofun

theorem within_y : (⟨.y, i⟩ : Access).Within nw ↔ 0 ≤ i ∧ i ≤ 4 * nw := within_operand nofun

theorem within_q : (⟨.q, i⟩ : Access).Within nw ↔ 0 ≤ i ∧ i < 2 * nw := by
  simp only [Access.Within, DivisionArray.size]
  omega

theorem within_convertToBytes (harray : array ≠ .q)
    (ha : a ∈ convertToBytesAccesses array nw) : a.Within nw := by
  obtain ⟨i, hi, rfl⟩ := List.mem_map.mp ha
  rw [List.mem_range] at hi
  exact (within_operand harray).mpr (by omega)

theorem within_skipLeadingZeroBytes (harray : array ≠ .q) (hp : p + xs.length ≤ 4 * nw)
    (ha : a ∈ skipLeadingZeroBytesAccesses array p xs) : a.Within nw := by
  induction xs generalizing p with
  | nil => cases ha
  | cons b rest ih =>
    cases rest with
    | nil => cases ha
    | cons c rest =>
      rw [skipLeadingZeroBytesAccesses] at ha
      · rcases List.mem_cons.mp ha with rfl | ha
        · rw [List.length_cons] at hp
          exact (within_operand harray).mpr (by omega)
        · split at ha
          · exact ih (by rw [List.length_cons] at hp; omega) ha
          · cases ha
      · simp

theorem exists_of_mem_foldl {α σ τ : Type*} {f : σ → α → List τ} {g : σ → α → σ} {l : List α}
    {trace : List τ} {s : σ} {t : τ}
    (ht : t ∈ (l.foldl (fun (trace, s) a => (trace ++ f s a, g s a)) (trace, s)).1) :
    t ∈ trace ∨ ∃ a ∈ l, ∃ s, t ∈ f s a := by
  induction l generalizing trace s with
  | nil => exact .inl ht
  | cons b rest ih =>
    rcases ih ht with ht | ⟨c, hc, hs⟩
    · rcases List.mem_append.mp ht with ht | ht
      · exact .inl ht
      · exact .inr ⟨b, List.mem_cons_self, s, ht⟩
    · exact .inr ⟨c, List.mem_cons_of_mem b hc, hs⟩

variable {xlen ylen : ℕ}

theorem within_divideByte {r : Remainder} (hx : xlen ≤ 4 * nw) (hy : ys.length ≤ 4 * nw)
    (hlen : 0 < ys.length) (hk : k + ys.length ≤ xlen) (hq : k < 2 * nw)
    (ha : a ∈ divideByteAccesses (4 * nw - xlen) (4 * nw - ys.length) ys k r) : a.Within nw := by
  have hwindow {b : Access}
      (hb : b ∈ windowAccesses (4 * nw - xlen) (4 * nw - ys.length) ys.length k) :
      b.Within nw := by
    obtain ⟨i, hi, hb⟩ := List.mem_flatMap.mp hb
    rw [List.mem_reverse, List.mem_range] at hi
    simp only [List.mem_cons, List.not_mem_nil, or_false] at hb
    rcases hb with rfl | rfl
    · exact within_y.mpr (by omega)
    · exact within_x.mpr (by omega)
  simp only [divideByteAccesses, List.mem_append, List.mem_cons, List.not_mem_nil,
    or_false] at ha
  rcases ha with ((rfl | rfl) | ha) | rfl | rfl
  · exact within_x.mpr (by omega)
  · exact within_x.mpr (by omega)
  · split at ha
    · cases ha
    · rcases List.mem_append.mp ha with ha | ha
      · exact hwindow ha
      · split at ha
        · cases ha
        · exact hwindow ha
  · exact within_q.mpr (by omega)
  · exact within_x.mpr (by omega)

theorem within_doDivide_iff (hlen : 0 < ys.length) (hle : ys.length ≤ xs.length)
    (hx : xs.length ≤ 4 * nw) :
    (∀ a ∈ doDivideAccesses (4 * nw - xs.length) (4 * nw - ys.length) xs ys ++
        convertFromBytesAccesses (xs.length - ys.length), a.Within nw) ↔
      xs.length < 4 * nw ∧ xs.length - ys.length < 2 * nw := by
  constructor
  · intro hall
    have hbefore := hall ⟨.x, 4 * nw - xs.length - 1⟩ (by simp [doDivideAccesses])
    have hlast := hall ⟨.q, (xs.length - ys.length : ℕ)⟩ (by
      refine List.mem_append_right _ (List.mem_map.mpr ⟨xs.length - ys.length, ?_, rfl⟩)
      rw [List.mem_reverse, List.mem_range]
      omega)
    rw [within_x] at hbefore
    rw [within_q] at hlast
    omega
  · rintro ⟨hfirst, hquotient⟩ a ha
    rcases List.mem_append.mp ha with ha | ha
    · rcases List.mem_append.mp ha with ha | ha
      · simp only [List.mem_cons, List.not_mem_nil, or_false] at ha
        rcases ha with rfl | rfl | rfl
        · exact within_x.mpr (by omega)
        · exact within_y.mpr (by omega)
        · exact within_y.mpr (by omega)
      · rcases exists_of_mem_foldl
          (f := fun r k => divideByteAccesses (4 * nw - xs.length) (4 * nw - ys.length) ys k r)
          (g := fun r k => (divideByte ys k r).2) ha with ha | ⟨k, hk, r, ha⟩
        · cases ha
        · rw [List.mem_range] at hk
          exact within_divideByte hx (by omega) hlen (by omega) (by omega) ha
    · obtain ⟨i, hi, rfl⟩ := List.mem_map.mp ha
      rw [List.mem_reverse, List.mem_range] at hi
      exact within_q.mpr (by omega)

/-- Every index stays inside its array exactly if the division is made by the processor, or the
quotient is zero because the divisor has more bytes, or the dividend has a leading zero and the
operands differ in less than half of the bytes. -/
theorem accesses_within_iff (h : x.length = y.length) (hpos : 1 ≤ x.length) :
    (∀ a ∈ divideWordsAccesses x y, a.Within x.length) ↔
      let xlen := skipLeadingZeroBytes (convertToBytes x)
      let ylen := skipLeadingZeroBytes (convertToBytes y)
      (xlen ≤ 4 ∧ ylen ≤ 4) ∨ xlen < ylen ∨
        (xlen < 4 * x.length ∧ xlen - ylen < 2 * x.length) := by
  obtain ⟨hxlen, hxpos, hxle, -⟩ := significantBytes_spec hpos
  obtain ⟨hylen, hypos, hyle, -⟩ := significantBytes_spec (h ▸ hpos)
  dsimp only
  -- up to the byte behind the divisor every index is inside
  have hconvert {a : Access} (ha : a ∈ (List.range (x.length * 2)).map (fun (i : ℕ) => ⟨.q, i⟩) ++
      convertToBytesAccesses .x x.length ++ convertToBytesAccesses .y x.length ++
      skipLeadingZeroBytesAccesses .x 0 (convertToBytes x) ++
      skipLeadingZeroBytesAccesses .y 0 (convertToBytes y) ++
      [⟨.y, 4 * x.length - skipLeadingZeroBytes (convertToBytes y) +
        skipLeadingZeroBytes (convertToBytes y)⟩]) : a.Within x.length := by
    simp only [List.mem_append, List.mem_singleton] at ha
    rcases ha with ((((ha | ha) | ha) | ha) | ha) | rfl
    · obtain ⟨i, hi, rfl⟩ := List.mem_map.mp ha
      rw [List.mem_range] at hi
      exact within_q.mpr (by omega)
    · exact within_convertToBytes (by decide) ha
    · exact within_convertToBytes (by decide) ha
    · exact within_skipLeadingZeroBytes (by decide) (by rw [length_convertToBytes]; omega) ha
    · exact within_skipLeadingZeroBytes (by decide) (by rw [length_convertToBytes]; omega) ha
    · exact within_y.mpr (by omega)
  simp only [divideWordsAccesses]
  rw [← hxlen, ← hylen] at *
  split
  case isTrue hnative =>
    refine iff_of_true (fun a ha => hconvert ?_) (.inl hnative)
    rwa [List.append_nil] at ha
  case isFalse hnative =>
    split
    case isTrue hshort =>
      refine iff_of_true (fun a ha => hconvert ?_) (.inr (.inl hshort))
      rwa [List.append_nil] at ha
    case isFalse hlong =>
      have hdivide := within_doDivide_iff hypos (Nat.le_of_not_lt hlong) hxle
      constructor
      · intro hall
        exact .inr (.inr (hdivide.mp fun a ha => hall a (List.mem_append_right _ ha)))
      · rintro (hcase | hcase | hcase) a ha
        · exact absurd hcase hnative
        · exact absurd hcase hlong
        · rcases List.mem_append.mp ha with ha | ha
          · exact hconvert ha
          · exact hdivide.mpr hcase a ha

theorem accesses_within_small :
    (divideWordsAccesses [0, 1, 0] [0, 0, 3]).all (fun a => a.Within 3) = true :=
  List.all_eq_true.mpr fun a ha => decide_eq_true <|
    (accesses_within_iff (x := [0, 1, 0]) (y := [0, 0, 3]) rfl (by decide)).mpr
      (.inr (.inr (by decide))) a ha

/-- The division of `2 ^ 95` by three in three words clears the byte before the dividend and writes
twelve bytes of a quotient that has room for six. -/
theorem accesses_outside :
    ⟨.x, -1⟩ ∈ divideWordsAccesses [0x80000000, 0, 0] [0, 0, 3] ∧
      ⟨.q, 11⟩ ∈ divideWordsAccesses [0x80000000, 0, 0] [0, 0, 3] ∧
      ¬ (⟨.x, -1⟩ : Access).Within 3 ∧ ¬ (⟨.q, 11⟩ : Access).Within 3 := by
  decide +kernel

end Adl.Helpers
