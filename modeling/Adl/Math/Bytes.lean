import Mathlib.Algebra.GroupWithZero.Nat
import Mathlib.Data.Nat.Notation
import Mathlib.Logic.Function.Basic
import Mathlib.Tactic.Common

/-!
# Big-endian bytes

Values of a whole number of bytes, first byte highest, and memories that are written one byte
after the other.
-/

namespace Adl.Math

variable {n k b : ℕ}

/-- The value of `n` bytes, the first one highest. -/
def concat : (n : ℕ) → (ℕ → BitVec 8) → BitVec (8 * n)
  | 0, _ => 0#0
  | n + 1, f => concat n f ++ f n

/-- The byte with index `i` from the left of a value of `n` bytes. -/
def byte (n : ℕ) (v : BitVec (8 * n)) (i : ℕ) : BitVec 8 :=
  (v >>> (8 * (n - 1 - i))).setWidth 8

/-! ### Values -/

theorem getLsbD_concat (f : ℕ → BitVec 8) (hb : b < 8 * n) :
    (concat n f).getLsbD b = (f (n - 1 - b / 8)).getLsbD (b % 8) := by
  induction n generalizing b with
  | zero => omega
  | succ n ih =>
    rw [concat]
    refine (BitVec.getLsbD_append (x := concat n f) (y := f n)).trans ?_
    by_cases hlow : b < 8
    · rw [if_pos hlow, show n + 1 - 1 - b / 8 = n by omega, Nat.mod_eq_of_lt hlow]
    · rw [if_neg hlow, ih (by omega), show n - 1 - (b - 8) / 8 = n + 1 - 1 - b / 8 by omega,
        show (b - 8) % 8 = b % 8 by omega]

theorem concat_congr {f g : ℕ → BitVec 8} (h : ∀ i < n, f i = g i) : concat n f = concat n g := by
  apply BitVec.eq_of_getLsbD_eq
  intro b hb
  rw [getLsbD_concat f hb, getLsbD_concat g hb, h _ (by omega)]

theorem getLsbD_byte (v : BitVec (8 * n)) {i : ℕ} (hb : b < 8) :
    (byte n v i).getLsbD b = v.getLsbD (8 * (n - 1 - i) + b) := by
  simp [byte, hb]

theorem byte_concat (f : ℕ → BitVec 8) {i : ℕ} (hi : i < n) : byte n (concat n f) i = f i := by
  apply BitVec.eq_of_getLsbD_eq
  intro b hb
  rw [getLsbD_byte _ hb, getLsbD_concat f (by omega),
    show n - 1 - (8 * (n - 1 - i) + b) / 8 = i by omega,
    show (8 * (n - 1 - i) + b) % 8 = b by omega]

/-! ### Memories -/

section Store

variable {A B : Type*} [DecidableEq A] {m : A → B} {addr : ℕ → A} {v : ℕ → B}

/-- The memory after `n` bytes have been written, in order. -/
def store (m : A → B) (addr : ℕ → A) (v : ℕ → B) : ℕ → A → B
  | 0 => m
  | n + 1 => Function.update (store m addr v n) (addr n) (v n)

theorem store_congr {addr' : ℕ → A} {v' : ℕ → B} (ha : ∀ i < n, addr i = addr' i)
    (hv : ∀ i < n, v i = v' i) : store m addr v n = store m addr' v' n := by
  induction n with
  | zero => rfl
  | succ n ih =>
    rw [store, store, ih (fun i hi => ha i (by omega)) fun i hi => hv i (by omega),
      ha n (by omega), hv n (by omega)]

theorem store_of_ne {a : A} (h : ∀ i < n, addr i ≠ a) : store m addr v n a = m a := by
  induction n with
  | zero => rfl
  | succ n ih =>
    rw [store, Function.update_of_ne (h n (by omega)).symm, ih fun i hi => h i (by omega)]

theorem store_eq_store {A' : Type*} [DecidableEq A'] {m' : A' → B} {addr' : ℕ → A'} {a : A}
    {a' : A'} (hm : m a = m' a') (h : ∀ i < n, addr i = a ↔ addr' i = a') :
    store m addr v n a = store m' addr' v n a' := by
  induction n with
  | zero => exact hm
  | succ n ih =>
    have hn := h n (by omega)
    rw [store, store, Function.update_apply, Function.update_apply,
      ih fun i hi => h i (by omega)]
    simp only [eq_comm (a := a), eq_comm (a := a'), hn]

/-- A byte that is not written again later stays. -/
theorem store_of_last {i : ℕ} (hi : i < n) (h : ∀ j < n, i < j → addr j ≠ addr i) :
    store m addr v n (addr i) = v i := by
  induction n with
  | zero => omega
  | succ n ih =>
    rw [store]
    by_cases hlast : i = n
    · rw [hlast, Function.update_self]
    · rw [Function.update_of_ne (h n (by omega) (by omega)).symm,
        ih (by omega) fun j hj => h j (by omega)]

theorem store_reverse (h : ∀ i < n, ∀ j < n, addr i = addr j → i = j) :
    store m (fun i => addr (n - 1 - i)) (fun i => v (n - 1 - i)) n = store m addr v n := by
  funext a
  by_cases hmem : ∃ i < n, addr i = a
  · obtain ⟨i, hi, rfl⟩ := hmem
    have hfirst : store m addr v n (addr i) = v i :=
      store_of_last hi fun j hj hlt heq => absurd (h j hj i hi heq) (by omega)
    have hback : n - 1 - i < n := by omega
    have hlast := @store_of_last _ _ _ _ m (fun j => addr (n - 1 - j)) (fun j => v (n - 1 - j))
      _ hback fun j hj hlt heq => absurd (h _ (by omega) _ (by omega) heq) (by omega)
    rw [show n - 1 - (n - 1 - i) = i by omega] at hlast
    rw [hfirst, hlast]
  · rw [store_of_ne fun i hi heq => hmem ⟨i, hi, heq⟩,
      store_of_ne fun i hi heq => hmem ⟨n - 1 - i, by omega, heq⟩]

end Store

/-- Bytes at consecutive addresses, which may wrap around. -/
theorem store_consecutive {w : ℕ} {B : Type*} {m : BitVec w → B} {a t : BitVec w} {v : ℕ → B}
    (hn : n ≤ 2 ^ w) :
    store m (fun i => a + BitVec.ofNat w i) v n t =
      if (t - a).toNat < n then v (t - a).toNat else m t := by
  have hplace : ∀ i < n, a + BitVec.ofNat w i = t ↔ i = (t - a).toNat := by
    intro i hi
    constructor
    · rintro rfl
      rw [BitVec.add_comm, BitVec.add_sub_cancel, BitVec.toNat_ofNat, Nat.mod_eq_of_lt (by omega)]
    · rintro rfl
      rw [BitVec.ofNat_toNat, BitVec.setWidth_eq, BitVec.add_comm, BitVec.sub_add_cancel]
  split
  case isTrue hlt =>
    have hlast := @store_of_last _ _ _ _ m (fun i => a + BitVec.ofNat w i) v _ hlt
      fun j hj hne heq =>
        absurd ((hplace j hj).mp (heq.trans ((hplace _ hlt).mpr rfl))) (Nat.ne_of_gt hne)
    rwa [(hplace _ hlt).mpr rfl] at hlast
  case isFalse hge =>
    exact store_of_ne fun i hi heq => hge ((hplace i hi).mp heq ▸ hi)

/-! ### Bytes with their addresses -/

section Placed

variable {w : ℕ} {B : Type*}

/-- Bytes with consecutive addresses, which may wrap around. -/
def placed (a : BitVec w) (bytes : List B) : List (BitVec w × B) :=
  bytes.zipIdx.map fun (b, i) => (a + BitVec.ofNat w i, b)

theorem placed_append (a : BitVec w) (xs ys : List B) :
    placed a (xs ++ ys) = placed a xs ++ placed (a + BitVec.ofNat w xs.length) ys := by
  rw [placed, placed, placed, List.zipIdx_append, List.map_append, Nat.zero_add,
    List.zipIdx_eq_map_add (l := ys), List.map_map]
  congr 2
  funext x
  simp [BitVec.ofNat_add, BitVec.add_assoc]

@[simp] theorem length_placed (a : BitVec w) (bytes : List B) :
    (placed a bytes).length = bytes.length := by
  simp [placed]

@[simp] theorem map_snd_placed (a : BitVec w) (bytes : List B) :
    (placed a bytes).map Prod.snd = bytes := by
  rw [placed, List.map_map]
  exact List.zipIdx_map_fst 0 bytes

end Placed

end Adl.Math
