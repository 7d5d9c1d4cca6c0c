import Adl.Math.Mask
import Mathlib.Data.Nat.Notation
import Mathlib.Tactic.Common

/-!
# Addresses in aligned blocks

Numbers are divided into blocks of `p`: `a / p` is the block of `a` and `a % p` its place there.
Addresses of 64 bits are divided into blocks of `2 ^ k`. Inside of a block an address can be
advanced without a carry: the masks that programs use for block and offset see a sum.
-/

namespace Adl.Math

/-! ### Numbers in blocks -/

namespace Blocks

variable {p m k a b i : ℕ}

/-- A step that does not leave the block. -/
theorem add_div_of_lt (h : a % p + i < p) : (a + i) / p = a / p := by
  conv_lhs => rw [← Nat.div_add_mod a p, Nat.add_assoc, Nat.mul_add_div (by omega),
    Nat.div_eq_of_lt h, Nat.add_zero]

theorem add_mod_of_lt (h : a % p + i < p) : (a + i) % p = a % p + i := by
  rw [Nat.add_mod, Nat.mod_eq_of_lt (by omega : i < p), Nat.mod_eq_of_lt h]

/-- A step of at most a block reaches at most the next block. -/
theorem add_div_of_le (hi : i < p) (h : p ≤ a % p + i) : (a + i) / p = a / p + 1 := by
  have hlt := Nat.mod_lt a (by omega : 0 < p)
  have hone : (a % p + i) / p = 1 := Nat.div_eq_of_lt_le (by omega) (by omega)
  conv_lhs => rw [← Nat.div_add_mod a p, Nat.add_assoc, Nat.mul_add_div (by omega), hone]

/-- A step inside of a block stays below a border between blocks. -/
theorem add_lt_of_lt (h : a % p + i < p) (ha : a < p * m) : a + i < p * m := by
  have hp : 0 < p := by omega
  rw [Nat.mul_comm, ← Nat.div_lt_iff_lt_mul hp] at ha ⊢
  rwa [add_div_of_lt h]

/-- Places in large blocks agree if the places in small blocks and the small blocks do. -/
theorem mod_mul_eq_iff (hm : 0 < m) :
    a % (m * k) = b % (m * k) ↔ a % m = b % m ∧ a / m % k = b / m % k := by
  rw [Nat.mod_mul, Nat.mod_mul]
  have ha := Nat.mod_lt a hm
  have hb := Nat.mod_lt b hm
  constructor
  · intro h
    have hlow : a % m = b % m := by
      have := congrArg (· % m) h
      simpa [Nat.mod_eq_of_lt ha, Nat.mod_eq_of_lt hb] using this
    exact ⟨hlow, Nat.eq_of_mul_eq_mul_left hm (by omega)⟩
  · rintro ⟨hlow, hhigh⟩
    rw [hlow, hhigh]

end Blocks

/-! ### Addresses -/

variable {a : BitVec 64} {j k e : ℕ}

/-- Inside of a block, an address does not wrap around. -/
theorem toNat_add_ofNat (hk : k ≤ 64) (h : a.toNat % 2 ^ k + j < 2 ^ k) :
    (a + BitVec.ofNat 64 j).toNat = a.toNat + j := by
  have hsplit : 2 ^ k * 2 ^ (64 - k) = 2 ^ 64 := by rw [← Nat.pow_add, Nat.add_sub_cancel' hk]
  have hlt : a.toNat + j < 2 ^ 64 := hsplit ▸ Blocks.add_lt_of_lt h (hsplit ▸ a.isLt)
  rw [BitVec.toNat_add, BitVec.toNat_ofNat, Nat.mod_eq_of_lt (by omega : j < 2 ^ 64),
    Nat.mod_eq_of_lt hlt]

/-- The mask of a block sees the same block. -/
theorem and_not_add_ofNat (hk : k ≤ 64) (h : a.toNat % 2 ^ k + j < 2 ^ k) :
    (a + BitVec.ofNat 64 j) &&& ~~~(BitVec.ofNat 64 (2 ^ k) - 1) =
      a &&& ~~~(BitVec.ofNat 64 (2 ^ k) - 1) := by
  apply BitVec.eq_of_toNat_eq
  rw [toNat_and_not_two_pow_sub_one, toNat_and_not_two_pow_sub_one, toNat_add_ofNat hk h,
    Blocks.add_div_of_lt h]

theorem toNat_and_add_ofNat (hk : k ≤ 64) (h : a.toNat % 2 ^ k + j < 2 ^ k) :
    ((a + BitVec.ofNat 64 j) &&& (BitVec.ofNat 64 (2 ^ k) - 1)).toNat =
      (a &&& (BitVec.ofNat 64 (2 ^ k) - 1)).toNat + j := by
  rw [toNat_and_two_pow_sub_one, toNat_and_two_pow_sub_one, toNat_add_ofNat hk h,
    Blocks.add_mod_of_lt h]

/-- Entries behind each other. -/
theorem add_ofNat_succ_mul (a : BitVec 64) (i size : ℕ) :
    a + BitVec.ofNat 64 size + BitVec.ofNat 64 (i * size) =
      a + BitVec.ofNat 64 ((i + 1) * size) := by
  rw [BitVec.add_assoc, ← BitVec.ofNat_add, Nat.add_comm, ← Nat.succ_mul]

/-- Entries that fit into the address space have different addresses. -/
theorem ofNat_mul_inj {i size n : ℕ} (hsize : 0 < size) (hn : n * size ≤ 2 ^ 64) (hi : i < n)
    (hj : j < n) (h : BitVec.ofNat 64 (i * size) = BitVec.ofNat 64 (j * size)) : i = j := by
  have hlt : ∀ {i}, i < n → i * size < 2 ^ 64 := fun hi =>
    (Nat.mul_lt_mul_of_pos_right hi hsize).trans_le hn
  have htoNat := congrArg BitVec.toNat h
  rw [BitVec.toNat_ofNat, BitVec.toNat_ofNat, Nat.mod_eq_of_lt (hlt hi),
    Nat.mod_eq_of_lt (hlt hj)] at htoNat
  exact Nat.eq_of_mul_eq_mul_right hsize htoNat

/-- The rest of an entry lies in the rest of the line. -/
theorem mod_add_lt_of_le (hek : e ≤ k) (h : a.toNat % 2 ^ e + j < 2 ^ e) :
    a.toNat % 2 ^ k + j < 2 ^ k := by
  have hsplit : 2 ^ e * 2 ^ (k - e) = 2 ^ k := by rw [← Nat.pow_add, Nat.add_sub_cancel' hek]
  have hmod : a.toNat % 2 ^ k % 2 ^ e = a.toNat % 2 ^ e :=
    Nat.mod_mod_of_dvd _ ⟨_, hsplit.symm⟩
  have hlt := Nat.mod_lt a.toNat (Nat.two_pow_pos k)
  rw [← hsplit] at hlt ⊢
  exact Blocks.add_lt_of_lt (by rw [hsplit, hmod]; exact h) hlt

/-! ### A mask of any shape -/

section Mask

variable {W : ℕ} (x m : BitVec W)

/-- A word is the sum of its parts outside and inside of a mask. -/
theorem toNat_and_not_add_and : (x &&& ~~~m).toNat + (x &&& m).toNat = x.toNat := by
  rw [← BitVec.toNat_add_of_and_eq_zero, BitVec.add_eq_or_of_and_eq_zero]
  · congr 1
    ext i
    cases hm : m[i] <;> simp [hm]
  all_goals
    ext i
    cases hm : m[i] <;> simp [hm]

/-- Outside of a mask there is place for it. -/
theorem toNat_and_not_add_lt : (x &&& ~~~m).toNat + m.toNat < 2 ^ W := by
  rw [← BitVec.toNat_add_of_and_eq_zero]
  · exact BitVec.isLt _
  · ext i
    cases hm : m[i] <;> simp [hm]

/-- A mask that has all of the lowest bits leaves a multiple. -/
theorem and_not_mod_two_pow {k : ℕ} (h : 2 ^ k ∣ m.toNat + 1) :
    (x &&& ~~~m).toNat % 2 ^ k = 0 := by
  have hm : m.toNat % 2 ^ k = 2 ^ k - 1 := by
    obtain ⟨c, hc⟩ := h
    obtain ⟨d, rfl⟩ : ∃ d, c = d + 1 := Nat.exists_eq_succ_of_ne_zero (by rintro rfl; omega)
    have hpos := Nat.two_pow_pos k
    have hd : m.toNat = 2 ^ k - 1 + 2 ^ k * d := by
      rw [Nat.mul_succ] at hc
      omega
    rw [hd, Nat.add_mul_mod_self_left, Nat.mod_eq_of_lt (by omega)]
  -- a low bit of the word is in the mask, so it is cleared
  apply Nat.eq_of_testBit_eq
  intro i
  rw [Nat.testBit_mod_two_pow, Nat.zero_testBit, Bool.and_eq_false_imp]
  intro hi
  have hbit : m.getLsbD i = true := by
    have hi' := congrArg (Nat.testBit · i) hm
    simpa only [Nat.testBit_mod_two_pow, Nat.testBit_two_pow_sub_one, hi, Bool.true_and,
      BitVec.testBit_toNat] using hi'
  rw [BitVec.testBit_toNat, BitVec.getLsbD_and, BitVec.getLsbD_not, hbit]
  simp

end Mask

end Adl.Math
