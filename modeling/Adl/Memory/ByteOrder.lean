import Adl.Memory.Sparse
import Mathlib.Data.BitVec
import Mathlib.Tactic.Ring

/-!
# Byte order of the memory

The memory is big-endian. On a little-endian host there are two ways to access its pages
(`iss/Memory.h`): values are swapped, or, with `DATA_INVARIANT_MEMORY`, the bytes of each double
word are kept in reverse order and addresses are turned around (`offset ^ DWMask`).
-/

namespace Adl.Memory.ByteOrder

open Adl.Math

variable {n nb : ℕ} {m m' : Mem} {p : Addr} {offset : BitVec 32}

/-! ### The host -/

/-- A variable of the host in memory, lowest byte first. -/
def load (n : ℕ) (m : Mem) (a : Addr) : Value n :=
  concat n fun i => m (a + BitVec.ofNat 64 (n - 1 - i))

/-- The byte of a variable at a distance from its address. -/
def hostByte (n : ℕ) (x : Value n) (j : ℕ) : BitVec 8 := byte n x (n - 1 - j)

def memcpy (m : Mem) (dest : Addr) (src : ℕ → BitVec 8) (n : ℕ) : Mem :=
  store m (fun i => dest + BitVec.ofNat 64 i) src n

/-- The bytes are exchanged: `swab16`, `swab32` and `swab64`. -/
def swab (n : ℕ) (x : Value n) : Value n := concat n (hostByte n x)

/-- `be16`, `be32` and `be64` on a little-endian host. -/
def be (n : ℕ) (x : Value n) : Value n := swab n x

/-- The address `&p[offset]`. -/
def ptr (p : Addr) (offset : BitVec 32) : Addr := p + offset.setWidth 64

/-! ### Bytes at their addresses -/

namespace AddressInvariant

def byteRead (n : ℕ) (m : Mem) (p : Addr) (offset : BitVec 32) : Value n :=
  be n (load n m (ptr p offset))

def byteRead64 := byteRead 8

def byteRead32 := byteRead 4

def byteRead16 := byteRead 2

def byteRead8 (m : Mem) (p : Addr) (offset : BitVec 32) : Value 1 := m (ptr p offset)

/-- A variable is stored as a whole if `nb` is `whole`; otherwise its first bytes are copied. -/
def byteWrite (n whole : ℕ) (m : Mem) (p : Addr) (offset : BitVec 32) (origValue : Value n)
    (nb : ℕ) : Mem :=
  let value := be n origValue
  if nb = whole then memcpy m (ptr p offset) (hostByte n value) n
  else memcpy m (ptr p offset) (hostByte n value) nb

def byteWrite64 := byteWrite 8 8

def byteWrite32 := byteWrite 4 4

/-- The number of bytes is compared with `BytesPerWord`, so that always bytes are copied. -/
def byteWrite16 := byteWrite 2 4

def byteWrite8 (m : Mem) (p : Addr) (offset : BitVec 32) (origValue : Value 1) : Mem :=
  Function.update m (ptr p offset) origValue

end AddressInvariant

/-! ### Bytes at swizzled addresses -/

namespace DataInvariant

/-- The address of a value of `mask + 1` bytes. -/
def swizzle (p : Addr) (offset : BitVec 32) (mask : Addr) : Addr := ptr p (offset ^^^ 7) - mask

def byteRead (n : ℕ) (mask : Addr) (m : Mem) (buf : Addr) (offset : BitVec 32) : Value n :=
  load n m (swizzle buf offset mask)

def byteRead64 := byteRead 8 dwMask

def byteRead32 := byteRead 4 wordMask

def byteRead16 := byteRead 2 hwMask

def byteRead8 (m : Mem) (p : Addr) (offset : BitVec 32) : Value 1 := m (ptr p (offset ^^^ 7))

/-- The last bytes of a variable are copied, which are its highest ones. -/
def byteWrite (n : ℕ) (mask : Addr) (m : Mem) (buf : Addr) (offset : BitVec 32) (x : Value n)
    (nb : ℕ) : Mem :=
  memcpy m (swizzle buf offset mask + BitVec.ofNat 64 n - BitVec.ofNat 64 nb)
    (fun i => hostByte n x (n - nb + i)) nb

def byteWrite64 := byteWrite 8 dwMask

def byteWrite32 := byteWrite 4 wordMask

def byteWrite16 := byteWrite 2 hwMask

def byteWrite8 (m : Mem) (p : Addr) (offset : BitVec 32) (origValue : Value 1) : Mem :=
  Function.update m (ptr p (offset ^^^ 7)) origValue

end DataInvariant

/-! ### Sequences of accesses -/

/-- Accesses to a buffer. -/
inductive ByteOp where
  | read64 (offset : BitVec 32)
  | read32 (offset : BitVec 32)
  | read16 (offset : BitVec 32)
  | read8 (offset : BitVec 32)
  | write64 (offset : BitVec 32) (x : Value 8) (nb : ℕ)
  | write32 (offset : BitVec 32) (x : Value 4) (nb : ℕ)
  | write16 (offset : BitVec 32) (x : Value 2) (nb : ℕ)
  | write8 (offset : BitVec 32) (x : Value 1)

def AddressInvariant.step (p : Addr) (m : Mem) : ByteOp → Result × Mem
  | .read64 offset => (.value 8 (byteRead64 m p offset), m)
  | .read32 offset => (.value 4 (byteRead32 m p offset), m)
  | .read16 offset => (.value 2 (byteRead16 m p offset), m)
  | .read8 offset => (.value 1 (byteRead8 m p offset), m)
  | .write64 offset x nb => (.done, byteWrite64 m p offset x nb)
  | .write32 offset x nb => (.done, byteWrite32 m p offset x nb)
  | .write16 offset x nb => (.done, byteWrite16 m p offset x nb)
  | .write8 offset x => (.done, byteWrite8 m p offset x)

def DataInvariant.step (p : Addr) (m : Mem) : ByteOp → Result × Mem
  | .read64 offset => (.value 8 (byteRead64 m p offset), m)
  | .read32 offset => (.value 4 (byteRead32 m p offset), m)
  | .read16 offset => (.value 2 (byteRead16 m p offset), m)
  | .read8 offset => (.value 1 (byteRead8 m p offset), m)
  | .write64 offset x nb => (.done, byteWrite64 m p offset x nb)
  | .write32 offset x nb => (.done, byteWrite32 m p offset x nb)
  | .write16 offset x nb => (.done, byteWrite16 m p offset x nb)
  | .write8 offset x => (.done, byteWrite8 m p offset x)

/-- The buffers have the same double words, with the bytes of each in reverse order. -/
def Reversed (p : Addr) (count : ℕ) (m m' : Mem) : Prop :=
  ∀ offset : BitVec 32, offset.toNat < 8 * count → m' (ptr p offset) = m (ptr p (offset ^^^ 7))

/-- The bytes stay inside of a double word of the buffer. -/
def Within (count : ℕ) (offset : BitVec 32) (n : ℕ) : Prop :=
  offset.toNat < 8 * count ∧ offset.toNat % 8 + n ≤ 8

/-- The bytes of the access stay inside of a double word, and at least one byte is written, and no
more than the value has. -/
def ByteOp.Within (count : ℕ) : ByteOp → Prop
  | read64 offset => ByteOrder.Within count offset 8
  | read32 offset => ByteOrder.Within count offset 4
  | read16 offset => ByteOrder.Within count offset 2
  | read8 offset => ByteOrder.Within count offset 1
  | write64 offset _ nb => 1 ≤ nb ∧ nb ≤ 8 ∧ ByteOrder.Within count offset nb
  | write32 offset _ nb => 1 ≤ nb ∧ nb ≤ 4 ∧ ByteOrder.Within count offset nb
  | write16 offset _ nb => 1 ≤ nb ∧ nb ≤ 2 ∧ ByteOrder.Within count offset nb
  | write8 offset _ => ByteOrder.Within count offset 1

/-! ### Addresses in a double word -/

theorem toNat_xor_seven : (offset ^^^ 7).toNat = offset.toNat / 8 * 8 + (7 - offset.toNat % 8) := by
  have hdiv : (offset.toNat ^^^ 7) / 2 ^ 3 = offset.toNat / 8 := by
    rw [Nat.xor_div_two_pow]
    exact Nat.xor_zero _
  have hmod : (offset.toNat ^^^ 7) % 2 ^ 3 = 7 - offset.toNat % 8 := by
    rw [Nat.xor_mod_two_pow]
    have hlow : ∀ r < 8, r ^^^ 7 % 2 ^ 3 = 7 - r := by decide
    exact hlow _ (Nat.mod_lt _ (by decide))
  rw [BitVec.toNat_xor]
  change offset.toNat ^^^ 7 = _
  omega

theorem xor_seven_xor_seven : offset ^^^ 7 ^^^ 7 = offset := by
  rw [BitVec.xor_assoc, BitVec.xor_self]
  exact BitVec.xor_zero

theorem ptr_inj {o : BitVec 32} : ptr p offset = ptr p o ↔ offset = o := by
  refine ⟨fun h => ?_, congrArg _⟩
  have hwidth := congrArg BitVec.toNat ((BitVec.add_right_inj _).mp h)
  rw [BitVec.toNat_setWidth, BitVec.toNat_setWidth] at hwidth
  apply BitVec.eq_of_toNat_eq
  omega

theorem toNat_add {j : ℕ} (hj : offset.toNat % 8 + j < 8) :
    (offset + BitVec.ofNat 32 j).toNat = offset.toNat + j := by
  rw [BitVec.toNat_add, BitVec.toNat_ofNat]
  omega

/-- A later address of the double word. -/
theorem ptr_add {j : ℕ} (hj : offset.toNat % 8 + j < 8) :
    ptr p offset + BitVec.ofNat 64 j = ptr p (offset + BitVec.ofNat 32 j) := by
  have hwidth : (offset + BitVec.ofNat 32 j).setWidth 64 =
      offset.setWidth 64 + BitVec.ofNat 64 j := by
    apply BitVec.eq_of_toNat_eq
    rw [BitVec.toNat_setWidth, toNat_add hj, BitVec.toNat_add, BitVec.toNat_setWidth,
      BitVec.toNat_ofNat]
    omega
  rw [ptr, ptr, hwidth, BitVec.add_assoc]

/-- Later addresses are turned to earlier ones. -/
theorem ptr_xor_sub {j : ℕ} (hj : offset.toNat % 8 + j < 8) :
    ptr p (offset ^^^ 7) - BitVec.ofNat 64 j = ptr p ((offset + BitVec.ofNat 32 j) ^^^ 7) := by
  have hwidth : (offset ^^^ 7).setWidth 64 =
      ((offset + BitVec.ofNat 32 j) ^^^ 7).setWidth 64 + BitVec.ofNat 64 j := by
    apply BitVec.eq_of_toNat_eq
    rw [BitVec.toNat_setWidth, BitVec.toNat_add, BitVec.toNat_setWidth, BitVec.toNat_ofNat,
      toNat_xor_seven, toNat_xor_seven, toNat_add hj]
    omega
  rw [ptr, ptr, hwidth, ← BitVec.add_assoc, BitVec.add_sub_cancel]

/-! ### What the accesses do -/

namespace AddressInvariant

theorem byteRead_eq (hn : offset.toNat % 8 + n ≤ 8) :
    byteRead n m p offset = concat n fun i => m (ptr p (offset + BitVec.ofNat 32 i)) := by
  rw [byteRead, be, swab]
  apply concat_congr
  intro i hi
  rw [hostByte, load, byte_concat _ (by omega), show n - 1 - (n - 1 - i) = i by omega,
    ptr_add (by omega)]

/-- The first bytes in memory are the first ones of the value. -/
theorem hostByte_be (x : Value n) {i : ℕ} (hi : i < n) : hostByte n (be n x) i = byte n x i := by
  rw [hostByte, be, swab, byte_concat _ (by omega), hostByte,
    show n - 1 - (n - 1 - i) = i by omega]

theorem byteWrite_eq {whole : ℕ} (x : Value n) (hnb : nb ≤ n) (hwhole : nb = whole → nb = n)
    (hn : offset.toNat % 8 + nb ≤ 8) :
    byteWrite n whole m p offset x nb =
      store m (fun i => ptr p (offset + BitVec.ofNat 32 i)) (byte n x) nb := by
  have hcopy : byteWrite n whole m p offset x nb =
      memcpy m (ptr p offset) (hostByte n (be n x)) nb := by
    rw [byteWrite]
    split_ifs with h
    · rw [hwhole h]
    · rfl
  rw [hcopy, memcpy]
  exact store_congr (fun i hi => ptr_add (by omega)) fun i hi => hostByte_be x (by omega)

end AddressInvariant

namespace DataInvariant

theorem byteRead_eq (hn : offset.toNat % 8 + n ≤ 8) :
    byteRead n (BitVec.ofNat 64 (n - 1)) m p offset =
      concat n fun i => m (ptr p ((offset + BitVec.ofNat 32 i) ^^^ 7)) := by
  rw [byteRead, load]
  apply concat_congr
  intro i hi
  have hmask : BitVec.ofNat 64 (n - 1) = BitVec.ofNat 64 i + BitVec.ofNat 64 (n - 1 - i) := by
    rw [← BitVec.ofNat_add, Nat.add_sub_cancel' (by omega)]
  rw [swizzle, hmask, ← ptr_xor_sub (by omega)]
  congr 1
  ring

theorem byteWrite_eq (x : Value n) (hpos : 1 ≤ nb) (hnb : nb ≤ n)
    (hn : offset.toNat % 8 + nb ≤ 8) :
    byteWrite n (BitVec.ofNat 64 (n - 1)) m p offset x nb =
      store m (fun i => ptr p ((offset + BitVec.ofNat 32 i) ^^^ 7)) (byte n x) nb := by
  -- the bytes are copied from the last one to the first
  rw [← store_reverse, byteWrite, memcpy]
  · refine store_congr (fun i hi => ?_) fun i hi => ?_
    · have hlength : BitVec.ofNat 64 n = BitVec.ofNat 64 (n - 1) + BitVec.ofNat 64 1 := by
        rw [← BitVec.ofNat_add, Nat.sub_add_cancel (by omega)]
      have hpart : BitVec.ofNat 64 nb =
          BitVec.ofNat 64 (nb - 1 - i) + BitVec.ofNat 64 1 + BitVec.ofNat 64 i := by
        rw [← BitVec.ofNat_add, ← BitVec.ofNat_add]
        congr 1
        omega
      rw [swizzle, hlength, hpart, ← ptr_xor_sub (by omega)]
      ring
    · rw [hostByte]
      congr 1
      omega
  · intro i hi j hj h
    have hsame := congrArg BitVec.toNat ((BitVec.xor_left_inj _).mp (ptr_inj.mp h))
    rw [toNat_add (by omega), toNat_add (by omega)] at hsame
    omega

end DataInvariant

/-! ### Both modes -/

namespace Reversed

variable {count : ℕ}

theorem get {j : ℕ} (h : Reversed p count m m') (hin : offset.toNat < 8 * count)
    (hj : offset.toNat % 8 + j < 8) :
    m (ptr p (offset + BitVec.ofNat 32 j)) = m' (ptr p ((offset + BitVec.ofNat 32 j) ^^^ 7)) := by
  have hin' : ((offset + BitVec.ofNat 32 j) ^^^ 7).toNat < 8 * count := by
    rw [toNat_xor_seven, toNat_add hj]
    omega
  rw [h _ hin', xor_seven_xor_seven]

theorem read (h : Reversed p count m m') (hin : Within count offset n) :
    AddressInvariant.byteRead n m p offset =
      DataInvariant.byteRead n (BitVec.ofNat 64 (n - 1)) m' p offset := by
  rw [AddressInvariant.byteRead_eq hin.2, DataInvariant.byteRead_eq hin.2]
  apply concat_congr
  intro i hi
  have hlast := hin.2
  exact h.get hin.1 (by omega)

theorem store (h : Reversed p count m m') (offset : BitVec 32) (v : ℕ → BitVec 8) (n : ℕ) :
    Reversed p count (store m (fun i => ptr p (offset + BitVec.ofNat 32 i)) v n)
      (Math.store m' (fun i => ptr p ((offset + BitVec.ofNat 32 i) ^^^ 7)) v n) := by
  intro o ho
  refine (store_eq_store (h o ho).symm fun i hi => ?_).symm
  rw [ptr_inj, ptr_inj]
  constructor
  · intro heq
    rw [heq, xor_seven_xor_seven]
  · intro heq
    rw [← heq, xor_seven_xor_seven]

theorem write {whole : ℕ} (h : Reversed p count m m') (x : Value n) (hpos : 1 ≤ nb) (hnb : nb ≤ n)
    (hwhole : nb = whole → nb = n) (hin : Within count offset nb) :
    Reversed p count (AddressInvariant.byteWrite n whole m p offset x nb)
      (DataInvariant.byteWrite n (BitVec.ofNat 64 (n - 1)) m' p offset x nb) := by
  rw [AddressInvariant.byteWrite_eq x hnb hwhole hin.2,
    DataInvariant.byteWrite_eq x hpos hnb hin.2]
  exact h.store offset _ nb

theorem write8 (h : Reversed p count m m') (x : Value 1) :
    Reversed p count (AddressInvariant.byteWrite8 m p offset x)
      (DataInvariant.byteWrite8 m' p offset x) := by
  have hstore := h.store offset (fun _ => x) 1
  rw [AddressInvariant.byteWrite8, DataInvariant.byteWrite8]
  simpa [Math.store] using hstore

theorem step (h : Reversed p count m m') {op : ByteOp} (hop : op.Within count) :
    (AddressInvariant.step p m op).1 = (DataInvariant.step p m' op).1 ∧
      Reversed p count (AddressInvariant.step p m op).2 (DataInvariant.step p m' op).2 := by
  cases op with
  | read64 offset => exact ⟨congrArg (Result.value 8) (h.read hop), h⟩
  | read32 offset => exact ⟨congrArg (Result.value 4) (h.read hop), h⟩
  | read16 offset => exact ⟨congrArg (Result.value 2) (h.read hop), h⟩
  | read8 offset =>
    have hget := h.get hop.1 (j := 0) (Nat.mod_lt _ (by decide))
    rw [BitVec.add_zero] at hget
    exact ⟨congrArg (Result.value 1) hget, h⟩
  | write64 offset x nb => exact ⟨rfl, h.write x hop.1 hop.2.1 id hop.2.2⟩
  | write32 offset x nb => exact ⟨rfl, h.write x hop.1 hop.2.1 id hop.2.2⟩
  | write16 offset x nb =>
    obtain ⟨hpos, hnb, hin⟩ := hop
    exact ⟨rfl, h.write x hpos hnb (by omega) hin⟩
  | write8 offset x => exact ⟨rfl, h.write8 x⟩

end Reversed

/-- When started with reversed double words, both modes read the same values, and the double words
stay reversed. -/
theorem byte_orders_agree (p : Addr) (count : ℕ) (m m' : Mem) (h : Reversed p count m m')
    (ops : List ByteOp) (hops : ∀ op ∈ ops, op.Within count) :
    (runs (AddressInvariant.step p) m ops).1 = (runs (DataInvariant.step p) m' ops).1 ∧
      Reversed p count (runs (AddressInvariant.step p) m ops).2
        (runs (DataInvariant.step p) m' ops).2 :=
  runs_simulation (fun _ _ _ hop h => h.step hop) hops h

/-- Three bytes are written across a word, and read back. -/
theorem byte_orders_agree_partial :
    (runs (AddressInvariant.step 0x1000) (fun _ => 0xee)
        [.write32 2 0x11223344 3, .read64 0, .read16 3]).1 =
      (runs (DataInvariant.step 0x1000) (fun _ => 0xee)
        [.write32 2 0x11223344 3, .read64 0, .read16 3]).1 :=
  (byte_orders_agree 0x1000 1 (fun _ => 0xee) (fun _ => 0xee) (fun _ _ => rfl)
    [.write32 2 0x11223344 3, .read64 0, .read16 3] (by
      simp [ByteOp.Within, Within])).1

example : AddressInvariant.byteRead64
    (AddressInvariant.byteWrite32 (fun _ => 0xee) 0x1000 2 0x11223344 3) 0x1000 0 =
      0xeeee112233eeeeee := by
  decide

end Adl.Memory.ByteOrder
