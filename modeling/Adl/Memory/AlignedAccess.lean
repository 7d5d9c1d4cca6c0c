import Adl.Math.Machine
import Adl.Memory.ByteOrder
import Mathlib.Tactic.LinearCombination

/-!
# Aligned accesses for TLM2

The cache for direct memory accesses has its own accessors for aligned values
(`iss/AlignedAccess.h`). Like the data-invariant accessors of the memory, those for TLM2 turn the
offset around in its double word and then go back to the first byte of the value, but by values and
not by bytes.
-/

namespace Adl.Memory.ByteOrder

open Adl.Math

/-- Aligned accesses to a buffer. -/
inductive AlignedOp where
  | read64 (offset : BitVec 32)
  | read32 (offset : BitVec 32)
  | read16 (offset : BitVec 32)
  | read8 (offset : BitVec 32)
  | write64 (offset : BitVec 32) (x : Value 8)
  | write32 (offset : BitVec 32) (x : Value 4)
  | write16 (offset : BitVec 32) (x : Value 2)
  | write8 (offset : BitVec 32) (x : Value 1)

namespace AlignedOp

def offset : AlignedOp → BitVec 32
  | read64 offset | read32 offset | read16 offset | read8 offset => offset
  | write64 offset _ | write32 offset _ | write16 offset _ | write8 offset _ => offset

def size : AlignedOp → ℕ
  | read64 _ | write64 .. => 8
  | read32 _ | write32 .. => 4
  | read16 _ | write16 .. => 2
  | read8 _ | write8 .. => 1

/-- The access of the same size to the memory, which writes whole values. -/
def toByteOp : AlignedOp → ByteOp
  | read64 offset => .read64 offset
  | read32 offset => .read32 offset
  | read16 offset => .read16 offset
  | read8 offset => .read8 offset
  | write64 offset x => .write64 offset x 8
  | write32 offset x => .write32 offset x 4
  | write16 offset x => .write16 offset x 2
  | write8 offset x => .write8 offset x

end AlignedOp

namespace Tlm2

variable {n k : ℕ} {m m' : Mem} {p t : Addr} {offset : BitVec 32}

/-! ### The accessors -/

/-- The pointer to a value of `n` bytes. The mask is subtracted from a pointer to values, so that it
counts values. -/
def pointer (n : ℕ) (mask : Addr) (p : Addr) (offset : BitVec 32) : Addr :=
  ptr p (offset ^^^ 7) - BitVec.ofNat 64 n * mask

def alignedByteRead (n : ℕ) (mask : Addr) (m : Mem) (p : Addr) (offset : BitVec 32) : Value n :=
  load n m (pointer n mask p offset)

def alignedByteRead64 := alignedByteRead 8 dwMask

def alignedByteRead32 := alignedByteRead 4 wordMask

def alignedByteRead16 := alignedByteRead 2 hwMask

def alignedByteRead8 (m : Mem) (p : Addr) (offset : BitVec 32) : Value 1 :=
  m (ptr p (offset ^^^ 7))

def alignedByteWrite (n : ℕ) (mask : Addr) (m : Mem) (p : Addr) (offset : BitVec 32)
    (origValue : Value n) : Mem :=
  memcpy m (pointer n mask p offset) (hostByte n origValue) n

def alignedByteWrite64 := alignedByteWrite 8 dwMask

def alignedByteWrite32 := alignedByteWrite 4 wordMask

def alignedByteWrite16 := alignedByteWrite 2 hwMask

def alignedByteWrite8 (m : Mem) (p : Addr) (offset : BitVec 32) (origValue : Value 1) : Mem :=
  Function.update m (ptr p (offset ^^^ 7)) origValue

def step (p : Addr) (m : Mem) : AlignedOp → Result × Mem
  | .read64 offset => (.value 8 (alignedByteRead64 m p offset), m)
  | .read32 offset => (.value 4 (alignedByteRead32 m p offset), m)
  | .read16 offset => (.value 2 (alignedByteRead16 m p offset), m)
  | .read8 offset => (.value 1 (alignedByteRead8 m p offset), m)
  | .write64 offset x => (.done, alignedByteWrite64 m p offset x)
  | .write32 offset x => (.done, alignedByteWrite32 m p offset x)
  | .write16 offset x => (.done, alignedByteWrite16 m p offset x)
  | .write8 offset x => (.done, alignedByteWrite8 m p offset x)

/-- The same access with the accessors of the memory. -/
def memoryStep (p : Addr) (m : Mem) (op : AlignedOp) : Result × Mem :=
  DataInvariant.step p m op.toByteOp

/-- The double word of an offset. -/
def doubleWord (p : Addr) (offset : BitVec 32) : Set Addr :=
  {a | ∃ o : BitVec 32, o.toNat / 8 = offset.toNat / 8 ∧ a = ptr p o}

/-- An access does what the one to the memory does. It changes no byte outside of its double word
and does not depend on one. -/
structure Faithful (p : Addr) (op : AlignedOp) : Prop where
  same : ∀ m, step p m op = memoryStep p m op
  unchanged : ∀ m, ∀ a ∉ doubleWord p op.offset, (step p m op).2 a = m a
  independent : ∀ m m' : Mem, (∀ a ∈ doubleWord p op.offset, m a = m' a) →
    (step p m op).1 = (step p m' op).1

/-! ### Bytes -/

theorem mem_doubleWord : ptr p (offset ^^^ 7) ∈ doubleWord p offset := by
  refine ⟨offset ^^^ 7, ?_, rfl⟩
  rw [toNat_xor_seven]
  omega

theorem faithful_of_size_one {op : AlignedOp} (hop : op.size = 1) : Faithful p op := by
  cases op with
  | read8 offset =>
    refine ⟨fun m => rfl, fun m a _ => rfl, fun m m' h => ?_⟩
    exact congrArg (Result.value 1) (h _ mem_doubleWord)
  | write8 offset x =>
    refine ⟨fun m => rfl, fun m a ha => ?_, fun m m' h => rfl⟩
    apply Function.update_of_ne
    rintro rfl
    exact ha mem_doubleWord
  | read64 | read32 | read16 | write64 | write32 | write16 => cases hop

/-! ### Larger values -/

theorem add_ofNat_ne {j : ℕ} (hj : j < k) (hk : k < 2 ^ 64) :
    t - BitVec.ofNat 64 k + BitVec.ofNat 64 j ≠ t := by
  intro heq
  have hsame : BitVec.ofNat 64 j = BitVec.ofNat 64 k := by linear_combination heq
  have hnat := congrArg BitVec.toNat hsame
  rw [BitVec.toNat_ofNat, BitVec.toNat_ofNat] at hnat
  omega

/-- A value that ends before an address does not depend on the byte there. -/
theorem load_update (hn : n ≤ k) (hk : k < 2 ^ 64) {b : BitVec 8} :
    load n (Function.update m t b) (t - BitVec.ofNat 64 k) = load n m (t - BitVec.ofNat 64 k) := by
  apply concat_congr
  intro i hi
  exact Function.update_of_ne (add_ofNat_ne (by omega) hk) _ _

/-- A copy that ends before an address does not change the byte there. -/
theorem memcpy_of_le {src : ℕ → BitVec 8} (hn : n ≤ k) (hk : k < 2 ^ 64) :
    memcpy m (t - BitVec.ofNat 64 k) src n t = m t :=
  store_of_ne fun _ hi => add_ofNat_ne (by omega) hk

theorem pointer_eq (p : Addr) (offset : BitVec 32) (hn : 2 ≤ n) (hn' : n ≤ 8) :
    ∃ k, n ≤ k ∧ k < 2 ^ 64 ∧
      pointer n (BitVec.ofNat 64 (n - 1)) p offset =
        ptr p (offset ^^^ 7) - BitVec.ofNat 64 k := by
  refine ⟨n * (n - 1), ?_, ?_, ?_⟩
  · exact Nat.le_mul_of_pos_right n (by omega)
  · have hle : n * (n - 1) ≤ 8 * 8 := Nat.mul_le_mul hn' (by omega)
    omega
  · rw [pointer, BitVec.ofNat_mul]

theorem byteRead_ne (p : Addr) (offset : BitVec 32) (hn : 2 ≤ n) (hn' : n ≤ 8) :
    ∃ m, alignedByteRead n (BitVec.ofNat 64 (n - 1)) m p offset ≠
      DataInvariant.byteRead n (BitVec.ofNat 64 (n - 1)) m p offset := by
  obtain ⟨k, hle, hk, hpointer⟩ := pointer_eq p offset hn hn'
  by_contra hall
  push Not at hall
  -- the byte at the end, read by the accessor of the memory only
  have hread (b : BitVec 8) : byte n (DataInvariant.byteRead n (BitVec.ofNat 64 (n - 1))
      (Function.update (fun _ => 0) (ptr p (offset ^^^ 7)) b) p offset) 0 = b := by
    rw [DataInvariant.byteRead, load, byte_concat _ (by omega), DataInvariant.swizzle, Nat.sub_zero,
      BitVec.sub_add_cancel, Function.update_self]
  have hsame (b : BitVec 8) : byte n (alignedByteRead n (BitVec.ofNat 64 (n - 1))
      (Function.update (fun _ => 0) (ptr p (offset ^^^ 7)) b) p offset) 0 = b := by
    rw [hall, hread]
  have hone := hsame 1
  rw [alignedByteRead, hpointer, load_update hle hk] at hone
  have hzero := hsame 0
  rw [alignedByteRead, hpointer, load_update hle hk] at hzero
  exact absurd (hzero.symm.trans hone) (by decide)

theorem byteWrite_ne (p : Addr) (offset : BitVec 32) (hn : 2 ≤ n) (hn' : n ≤ 8) (x : Value n) :
    ∃ m, alignedByteWrite n (BitVec.ofNat 64 (n - 1)) m p offset x ≠
      DataInvariant.byteWrite n (BitVec.ofNat 64 (n - 1)) m p offset x n := by
  obtain ⟨k, hle, hk, hpointer⟩ := pointer_eq p offset hn hn'
  by_contra hall
  push Not at hall
  -- the accessor of the memory writes the byte at the end
  have hwrite (m : Mem) : DataInvariant.byteWrite n (BitVec.ofNat 64 (n - 1)) m p offset x n
      (ptr p (offset ^^^ 7)) = hostByte n x (n - 1) := by
    have hlast : ptr p (offset ^^^ 7) - DataInvariant.swizzle p offset (BitVec.ofNat 64 (n - 1)) =
        BitVec.ofNat 64 (n - 1) := by
      rw [DataInvariant.swizzle]
      ring
    rw [DataInvariant.byteWrite, BitVec.add_sub_cancel, memcpy, store_consecutive (by omega), hlast,
      BitVec.toNat_ofNat, Nat.mod_eq_of_lt (by omega), if_pos (by omega),
      Nat.sub_self, Nat.zero_add]
  have hkept (m : Mem) : m (ptr p (offset ^^^ 7)) = hostByte n x (n - 1) := by
    rw [← hwrite m, ← hall m, alignedByteWrite, hpointer, memcpy_of_le hle hk]
  exact absurd ((hkept fun _ => 0).trans (hkept fun _ => 1).symm) (by decide)

theorem value_inj {x y : Value n} (h : Result.value n x = Result.value n y) : x = y := by
  cases h
  rfl

/-- An access to more than one byte differs from that of the memory in some state. -/
theorem size_one_of_faithful {op : AlignedOp} (h : Faithful p op) : op.size = 1 := by
  have hread {n : ℕ} {offset : BitVec 32} (hn : 2 ≤ n) (hn' : n ≤ 8)
      (hsame : ∀ m, Result.value n (alignedByteRead n (BitVec.ofNat 64 (n - 1)) m p offset) =
        .value n (DataInvariant.byteRead n (BitVec.ofNat 64 (n - 1)) m p offset)) : False := by
    obtain ⟨m, hm⟩ := byteRead_ne p offset hn hn'
    exact hm (value_inj (hsame m))
  have hwrite {n : ℕ} {offset : BitVec 32} {x : Value n} (hn : 2 ≤ n) (hn' : n ≤ 8)
      (hsame : ∀ m, alignedByteWrite n (BitVec.ofNat 64 (n - 1)) m p offset x =
        DataInvariant.byteWrite n (BitVec.ofNat 64 (n - 1)) m p offset x n) : False := by
    obtain ⟨m, hm⟩ := byteWrite_ne p offset hn hn' x
    exact hm (hsame m)
  have hanswer (m : Mem) := congrArg Prod.fst (h.same m)
  have hafter (m : Mem) := congrArg Prod.snd (h.same m)
  cases op with
  | read8 | write8 => rfl
  | read64 | read32 | read16 => exact (hread (by decide) (by decide) hanswer).elim
  | write64 | write32 | write16 => exact (hwrite (by decide) (by decide) hafter).elim

/-- Accesses to bytes are faithful, and no others. A run of accesses to bytes gives what the
accessors of the memory give. -/
theorem faithful_iff (p : Addr) (ops : List AlignedOp) :
    ((∀ op ∈ ops, Faithful p op) ↔ ∀ op ∈ ops, op.size = 1) ∧
      ((∀ op ∈ ops, op.size = 1) → ∀ m, runs (step p) m ops = runs (memoryStep p) m ops) := by
  refine ⟨⟨fun h op hop => size_one_of_faithful (h op hop),
    fun h op hop => faithful_of_size_one (h op hop)⟩, fun h m => ?_⟩
  have hstep (m m' : Mem) (op : AlignedOp) (hop : op.size = 1) (heq : m = m') :
      (step p m op).1 = (memoryStep p m' op).1 ∧ (step p m op).2 = (memoryStep p m' op).2 := by
    rw [heq, (faithful_of_size_one hop).same]
    exact ⟨rfl, rfl⟩
  obtain ⟨hanswers, hend⟩ := runs_simulation (R := Eq) hstep h (Eq.refl m)
  exact Prod.ext hanswers hend

/-- A double word of a page that holds the addresses of its bytes. What is read comes from 49 bytes
before. -/
theorem read64_before_page :
    alignedByteRead64 (BitVec.setWidth 8) 0x1000 0 = 0xd6d5d4d3d2d1d0cf ∧
      DataInvariant.byteRead64 (BitVec.setWidth 8) 0x1000 0 = 0x0706050403020100 := by
  decide

end Tlm2

end Adl.Memory.ByteOrder
