import Adl.Math.Aligned
import Adl.Memory.Dmi
import Mathlib.Tactic.Ring

/-!
# Direct accesses stay in registered pages

Whenever an access inside of a page takes the direct route, the host bytes it touches lie in the
host page registered for its page. Reads never take it across the end of a page; writes and block
accesses may.
-/

namespace Adl.Memory

open Adl.Math

namespace DmiShape

variable (c : DmiShape)

/-- The number of pages of the address space. -/
def pages : ℕ := 2 ^ (64 - c.entrySizeBits)

/-- The number of the page of an address. -/
def pageNo (a : BitVec 64) : ℕ := a.toNat / c.pageSize

variable {c} {a b : BitVec 64} {i : ℕ}

theorem pageSize_mul_pages : c.pageSize * c.pages = 2 ^ 64 := by
  have := c.entrySizeBits_lt
  rw [pageSize, pages, ← Nat.pow_add, show c.entrySizeBits + (64 - c.entrySizeBits) = 64 by omega]

theorem pageSize_pos : 0 < c.pageSize := Nat.two_pow_pos _

theorem eight_dvd_pageSize : 8 ∣ c.pageSize :=
  Nat.pow_dvd_pow 2 c.three_le_entrySizeBits

theorem two_dvd_pages : 2 ∣ c.pages := by
  have := c.entrySizeBits_lt
  exact Nat.pow_dvd_pow 2 (by omega : 1 ≤ 64 - c.entrySizeBits)

theorem pageNo_lt : c.pageNo a < c.pages := by
  rw [pageNo, Nat.div_lt_iff_lt_mul pageSize_pos, Nat.mul_comm, pageSize_mul_pages]
  exact a.isLt

theorem pageNo_add : c.pageNo (a + BitVec.ofNat 64 i) = (a.toNat + i) / c.pageSize % c.pages := by
  rw [pageNo, BitVec.toNat_add, BitVec.toNat_ofNat, Nat.add_mod_mod, ← c.pageSize_mul_pages,
    Nat.mod_mul_right_div_self]

/-- An address inside of the same page. -/
theorem pageNo_add_of_lt (h : a.toNat % c.pageSize + i < c.pageSize) :
    c.pageNo (a + BitVec.ofNat 64 i) = c.pageNo a := by
  rw [pageNo_add, Blocks.add_div_of_lt h]
  exact Nat.mod_eq_of_lt pageNo_lt

theorem pageNo_add_of_le (hi : i < c.pageSize) (h : c.pageSize ≤ a.toNat % c.pageSize + i) :
    c.pageNo (a + BitVec.ofNat 64 i) % 2 ≠ c.pageNo a % 2 := by
  rw [pageNo_add, Blocks.add_div_of_le hi h, Nat.mod_mod_of_dvd _ two_dvd_pages, pageNo]
  omega

theorem tableIndex_eq : c.tableIndex a = c.pageNo a % 2 ^ c.sizeBits := by
  have hpow : 2 ^ c.sizeBits < 2 ^ 64 := Nat.pow_lt_pow_right (by decide) c.sizeBits_lt
  rw [tableIndex, indexMask, BitVec.toNat_and, BitVec.toNat_ofNat, BitVec.toNat_ushiftRight,
    Nat.mod_eq_of_lt (by omega : 2 ^ c.sizeBits - 1 < 2 ^ 64), Nat.and_two_pow_sub_one_eq_mod,
    Nat.shiftRight_eq_div_pow]
  rfl

theorem tableIndex_mod_two : c.tableIndex a % 2 = c.pageNo a % 2 := by
  rw [tableIndex_eq, Nat.mod_mod_of_dvd]
  exact Nat.pow_dvd_pow 2 c.one_le_sizeBits

theorem tableIndex_lt_pages : c.tableIndex a < c.pages := by
  rw [tableIndex_eq]
  exact (Nat.mod_le _ _).trans_lt pageNo_lt

/-! ### Masks -/

theorem getLsbD_compMask (j : ℕ) :
    c.compMask.getLsbD j = (decide (j < 64) && decide (c.entrySizeBits ≤ j)) := by
  rw [compMask, BitVec.getLsbD_shiftLeft, BitVec.getLsbD_allOnes]
  by_cases hj : j < 64 <;> by_cases hk : c.entrySizeBits ≤ j <;> simp [hj, hk]
  omega

theorem and_compMask_eq_iff : a &&& c.compMask = b &&& c.compMask ↔ c.pageNo a = c.pageNo b := by
  have hdiv (x : BitVec 64) : c.pageNo x = (x >>> c.entrySizeBits).toNat := by
    rw [BitVec.toNat_ushiftRight, Nat.shiftRight_eq_div_pow]
    rfl
  rw [hdiv, hdiv, BitVec.toNat_inj, and_eq_and_iff, eq_iff_getLsbD]
  simp only [BitVec.getLsbD_ushiftRight, getLsbD_compMask, Bool.and_eq_true, decide_eq_true_eq]
  constructor
  · intro h j
    by_cases hj : c.entrySizeBits + j < 64
    · exact h _ ⟨hj, by omega⟩
    · rw [BitVec.getLsbD_of_ge _ _ (by omega), BitVec.getLsbD_of_ge _ _ (by omega)]
  · rintro h j ⟨_, hj⟩
    have := h (j - c.entrySizeBits)
    rwa [Nat.add_sub_cancel' hj] at this

theorem not_compMask : ~~~c.compMask = BitVec.ofNat 64 (c.pageSize - 1) := by
  have := c.entrySizeBits_lt
  rw [eq_iff_getLsbD]
  intro j
  rw [BitVec.getLsbD_not, getLsbD_compMask, BitVec.getLsbD_ofNat, pageSize,
    Nat.testBit_two_pow_sub_one]
  by_cases hj : j < 64 <;> by_cases hk : c.entrySizeBits ≤ j <;> simp [hj, hk]
  omega

theorem toNat_and_not_compMask : (a &&& ~~~c.compMask).toNat = a.toNat % c.pageSize := by
  have hlt : c.pageSize - 1 < 2 ^ 64 := by
    have := Nat.pow_lt_pow_right (by decide : 1 < 2) c.entrySizeBits_lt
    rw [pageSize]
    omega
  rw [not_compMask, BitVec.toNat_and, BitVec.toNat_ofNat, Nat.mod_eq_of_lt hlt, pageSize,
    Nat.and_two_pow_sub_one_eq_mod]

theorem pageNo_and_compMask : c.pageNo (a &&& c.compMask) = c.pageNo a := by
  rw [← and_compMask_eq_iff, BitVec.and_assoc, BitVec.and_self]

theorem and_compMask_mod : (a &&& c.compMask).toNat % c.pageSize = 0 := by
  rw [← toNat_and_not_compMask, BitVec.and_assoc]
  simp

theorem and_compMask_add : (a &&& c.compMask) + BitVec.ofNat 64 (a.toNat % c.pageSize) = a := by
  have hdisj : (a &&& c.compMask) &&& (a &&& ~~~c.compMask) = 0 := by
    rw [eq_zero_iff]
    intro j
    simp only [BitVec.getLsbD_and, BitVec.getLsbD_not]
    cases c.compMask.getLsbD j <;> simp
  rw [← toNat_and_not_compMask, BitVec.ofNat_toNat, BitVec.setWidth_eq,
    BitVec.add_eq_or_of_and_eq_zero _ _ hdisj, eq_iff_getLsbD]
  intro j
  by_cases hj : j < 64
  · simp only [BitVec.getLsbD_or, BitVec.getLsbD_and, BitVec.getLsbD_not, hj, decide_true,
      Bool.true_and]
    cases a.getLsbD j <;> cases c.compMask.getLsbD j <;> rfl
  · rw [BitVec.getLsbD_of_ge _ _ (by omega), BitVec.getLsbD_of_ge _ _ (by omega)]

theorem and_low_eq {m : ℕ} (hm : m < c.pageSize) :
    a &&& BitVec.ofNat 64 m = BitVec.ofNat 64 (a.toNat % c.pageSize &&& m) := by
  have hlt : c.pageSize ≤ 2 ^ 64 := Nat.pow_le_pow_right (by decide) c.entrySizeBits_lt.le
  apply BitVec.eq_of_toNat_eq
  rw [BitVec.toNat_and, BitVec.toNat_ofNat, BitVec.toNat_ofNat, Nat.mod_eq_of_lt (by omega),
    Nat.mod_eq_of_lt (Nat.and_le_right.trans_lt (by omega))]
  apply Nat.eq_of_testBit_eq
  intro j
  rw [Nat.testBit_and, Nat.testBit_and, pageSize, Nat.testBit_mod_two_pow]
  by_cases hj : j < c.entrySizeBits
  · simp [hj]
  · have hbit : m.testBit j = false :=
      Nat.testBit_lt_two_pow (hm.trans_le (Nat.pow_le_pow_right (by decide) (by omega)))
    simp [hbit]

theorem toNat_badAddr (hi : i < c.pages) :
    (c.badAddr i).toNat = c.pageSize * (c.pages - 1 - i) + (c.pageSize - 1) := by
  have htotal := c.pageSize_mul_pages
  have hpos := c.pageSize_pos
  have hprod : c.pageSize * (c.pages - 1 - i) + c.pageSize + i * c.pageSize = 2 ^ 64 := by
    rw [← htotal, Nat.mul_comm i, ← Nat.mul_succ, ← Nat.mul_add]
    congr 1
    omega
  have hmul : (BitVec.ofNat 64 i * BitVec.ofNat 64 c.pageSize).toNat = i * c.pageSize := by
    rw [BitVec.toNat_mul, BitVec.toNat_ofNat, BitVec.toNat_ofNat, Nat.mul_mod_mod, Nat.mod_mul_mod,
      Nat.mod_eq_of_lt (by omega)]
  rw [badAddr, BitVec.toNat_sub, hmul, show (0xffffffffffffffff : BitVec 64).toNat = 2 ^ 64 - 1 from
    rfl]
  omega

theorem pageNo_badAddr (hi : i < c.pages) : c.pageNo (c.badAddr i) = c.pages - 1 - i := by
  have := c.pageSize_pos
  rw [pageNo, toNat_badAddr hi, Nat.mul_add_div this, Nat.div_eq_of_lt (by omega), Nat.add_zero]

theorem badAddr_mod (hi : i < c.pages) : (c.badAddr i).toNat % c.pageSize = c.pageSize - 1 := by
  have := c.pageSize_pos
  rw [toNat_badAddr hi, Nat.mul_add_mod, Nat.mod_eq_of_lt (by omega)]

theorem pageNo_badAddr_mod_two (hi : i < c.pages) : c.pageNo (c.badAddr i) % 2 ≠ i % 2 := by
  have := c.two_dvd_pages
  rw [pageNo_badAddr hi]
  omega

theorem pageNo_ne_pageNo_badAddr : c.pageNo a ≠ c.pageNo (c.badAddr (c.tableIndex a)) := by
  intro hpage
  apply c.pageNo_badAddr_mod_two (c.tableIndex_lt_pages (a := a))
  rw [← hpage, tableIndex_mod_two]

theorem badAddr_and_low (hi : i < c.pages) {m : ℕ} (hm : m < c.pageSize) :
    c.badAddr i &&& BitVec.ofNat 64 m = BitVec.ofNat 64 m := by
  rw [c.and_low_eq hm, c.badAddr_mod hi, Nat.and_comm, pageSize,
    Nat.and_two_pow_sub_one_eq_mod, ← pageSize, Nat.mod_eq_of_lt hm]

end DmiShape

variable {c : DmiShape} {a : BitVec 64} {i : ℕ}

theorem DmiCache.hits_iff {cache : DmiCache} {low : BitVec 64} :
    cache.hits c i a low = true ↔
      c.pageNo a = c.pageNo (cache i).addr ∧ a &&& low = (cache i).addr &&& low := by
  rw [hits, decide_eq_true_eq, ← DmiShape.and_compMask_eq_iff, ← and_or_eq_and_or_iff,
    xor_and_eq_zero_iff]

/-! ### What items hold -/

/-- An item holds no page, or the distance to the host page registered for its page. -/
def Slot (c : DmiShape) (reg : ℕ → Option (BitVec 64)) (i : ℕ) (item : DmiItem) : Prop :=
  item.addr = c.badAddr i ∨
    ∃ h, item.addr.toNat % c.pageSize = 0 ∧ c.tableIndex item.addr = i ∧
      reg (c.pageNo item.addr) = some h ∧ item.mem = h - item.addr

theorem Slot.update {reg : ℕ → Option (BitVec 64)} {item : DmiItem} (h : Slot c reg i item)
    (hi : i ≠ c.tableIndex a) (v : Option (BitVec 64)) :
    Slot c (Function.update reg (c.pageNo a) v) i item := by
  obtain hbad | ⟨host, halign, hindex, hreg, hmem⟩ := h
  · exact .inl hbad
  · refine .inr ⟨host, halign, hindex, ?_, hmem⟩
    rw [Function.update_of_ne, hreg]
    intro heq
    apply hi
    rw [← hindex, DmiShape.tableIndex_eq, DmiShape.tableIndex_eq, heq]

/-- All items of a handler are as they should be. -/
def Slots (c : DmiShape) (s : DmiHandler) (r : Registry) : Prop :=
  ∀ t i, Slot c (r t) i (s t i)

theorem Slots.setItem {s : DmiHandler} {r : Registry} (h : Slots c s r) (t : DmiTable)
    {item : DmiItem} {v : Option (BitVec 64)}
    (hitem : Slot c (Function.update (r t) (c.pageNo a) v) (c.tableIndex a) item) :
    Slots c (s.setItem t (c.tableIndex a) item)
      (Function.update r t (Function.update (r t) (c.pageNo a) v)) := by
  intro t' i
  by_cases ht : t' = t
  · subst ht
    rw [DmiHandler.setItem, Function.update_self, Function.update_self]
    by_cases hi : i = c.tableIndex a
    · rw [hi, Function.update_self]
      exact hitem
    · rw [Function.update_of_ne hi]
      exact (h t' i).update hi v
  · rw [DmiHandler.setItem, Function.update_of_ne ht, Function.update_of_ne ht]
    exact h t' i

theorem Slots.step {s : DmiHandler} {r : Registry} (h : Slots c s r) (call : Call) :
    Slots c (s.step c call).2 (r.step c call).2 := by
  cases call with
  | updateCacheEntry ca addr mem =>
    refine h.setItem (getCache ca) (.inr ⟨_, DmiShape.and_compMask_mod, ?_, ?_, rfl⟩)
    · rw [DmiShape.tableIndex_eq, DmiShape.tableIndex_eq, DmiShape.pageNo_and_compMask]
    · simp only [DmiShape.pageNo_and_compMask, Function.update_self]
      rw [← DmiShape.toNat_and_not_compMask, BitVec.ofNat_toNat, BitVec.setWidth_eq]
  | invalidateCacheEntry ca addr => exact h.setItem (getCache ca) (.inl rfl)
  | reset => exact fun _ _ => .inl rfl

theorem slots_runs (c : DmiShape) (calls : List Call) :
    Slots c (runs (DmiHandler.step c) (DmiHandler.init c) calls).2
      (runs (Registry.step c) (fun _ _ => none) calls).2 := by
  have hstep (s : DmiHandler) (r : Registry) (call : Call) (_ : True) (h : Slots c s r) :
      (s.step c call).1 = (r.step c call).1 ∧ Slots c (s.step c call).2 (r.step c call).2 :=
    ⟨rfl, h.step call⟩
  have hinit : Slots c (DmiHandler.init c) fun _ _ => none := fun _ _ => .inl rfl
  exact (runs_simulation hstep (fun _ _ => trivial) hinit).2

/-! ### Safe accesses -/

section Routes

variable {reg : ℕ → Option (BitVec 64)} {cache : DmiCache} {n nb : ℕ}

/-- On a direct route, all bytes from `a` on are in one page, and all host bytes in the host
page registered for it. -/
def SafeRoute (c : DmiShape) (reg : ℕ → Option (BitVec 64)) (a : BitVec 64) (bytes : ℕ)
    (route : Route) : Prop :=
  ∀ host n, route = .direct host n → ∃ q h,
    (∀ i < bytes, c.pageNo (a + BitVec.ofNat 64 i) = q) ∧ reg q = some h ∧
      ∀ i < n, ∃ j < c.pageSize, host + BitVec.ofNat 64 i = h + BitVec.ofNat 64 j

/-- Bytes inside of the page of an item are found in the registered page. -/
theorem safeRoute_of_fit {item : DmiItem} {h : BitVec 64}
    (halign : item.addr.toNat % c.pageSize = 0) (hpage : c.pageNo a = c.pageNo item.addr)
    (hreg : reg (c.pageNo item.addr) = some h) (hmem : item.mem = h - item.addr)
    (hfit : a.toNat % c.pageSize + n ≤ c.pageSize) :
    SafeRoute c reg a n (.direct (a + item.mem) n) := by
  have haddr : item.addr = a &&& c.compMask := by
    have hself := c.and_compMask_add (a := item.addr)
    rw [halign, BitVec.add_zero] at hself
    rw [← hself, DmiShape.and_compMask_eq_iff, hpage]
  rintro _ _ ⟨⟩
  refine ⟨c.pageNo item.addr, h, fun i hi => ?_, hreg, fun i hi => ?_⟩
  · rw [DmiShape.pageNo_add_of_lt (by omega), hpage]
  · refine ⟨a.toNat % c.pageSize + i, by omega, ?_⟩
    have hsplit := c.and_compMask_add (a := a)
    rw [hmem, haddr, BitVec.ofNat_add]
    generalize a &&& c.compMask = start at hsplit ⊢
    generalize BitVec.ofNat 64 (a.toNat % c.pageSize) = offset at hsplit ⊢
    rw [← hsplit]
    ring

theorem not_safeRoute_of_cross {host : BitVec 64} (hn : n ≤ c.pageSize)
    (hcross : c.pageSize < a.toNat % c.pageSize + n) :
    ¬ SafeRoute c reg a n (.direct host nb) := by
  intro hsafe
  obtain ⟨q, h, hpages, _⟩ := hsafe host nb rfl
  have hmod := Nat.mod_lt a.toNat c.pageSize_pos
  have hfirst := hpages 0 (by omega)
  have hlast := hpages (n - 1) (by omega)
  rw [BitVec.add_zero] at hfirst
  exact DmiShape.pageNo_add_of_le (c := c) (a := a) (i := n - 1) (by omega) (by omega)
    (by rw [hlast, hfirst])

/-- Double words are pages of eight bytes. -/
private def dwShape : DmiShape := ⟨3, 1, by decide, by decide, by decide, by decide⟩

theorem and_not_seven_add : (a &&& ~~~7) + BitVec.ofNat 64 (a.toNat % 8) = a :=
  dwShape.and_compMask_add

/-- A double word is inside of a page. -/
theorem pageNo_dw_add (hi : i < 8) : c.pageNo ((a &&& ~~~7) + BitVec.ofNat 64 i) = c.pageNo a := by
  have halign : (a &&& ~~~7).toNat % 8 = 0 := dwShape.and_compMask_mod
  have hinside : ∀ j < 8, c.pageNo ((a &&& ~~~7) + BitVec.ofNat 64 j) = c.pageNo (a &&& ~~~7) := by
    intro j hj
    apply DmiShape.pageNo_add_of_lt
    obtain ⟨m, hm⟩ := c.eight_dvd_pageSize
    have hlt := Nat.mod_lt (a &&& ~~~7).toNat c.pageSize_pos
    have hdvd := Nat.mod_mod_of_dvd (a &&& ~~~7).toNat c.eight_dvd_pageSize
    omega
  rw [hinside i hi, ← hinside (a.toNat % 8) (Nat.mod_lt _ (by decide)), and_not_seven_add]

theorem tableIndex_dw_add (hi : i < 8) :
    c.tableIndex ((a &&& ~~~7) + BitVec.ofNat 64 i) = c.tableIndex a := by
  rw [c.tableIndex_eq, c.tableIndex_eq, pageNo_dw_add hi]

theorem pageNo_dw : c.pageNo (a &&& ~~~7) = c.pageNo a := by
  have := pageNo_dw_add (c := c) (a := a) (by decide : 0 < 8)
  rwa [BitVec.add_zero] at this

theorem dw_pointer (mem : BitVec 64) : (a &&& ~~~7) + mem + (a &&& 7) = a + mem := by
  have hoff : BitVec.ofNat 64 (a.toNat % 8) = a &&& 7 := by
    apply BitVec.eq_of_toNat_eq
    rw [BitVec.toNat_ofNat, BitVec.toNat_and, show (7 : BitVec 64).toNat = 2 ^ 3 - 1 from rfl,
      Nat.and_two_pow_sub_one_eq_mod]
    omega
  have hadd := and_not_seven_add (a := a)
  rw [hoff] at hadd
  conv_rhs => rw [← hadd]
  ring

theorem Slot.of_pageNo {item : DmiItem} (h : Slot c reg (c.tableIndex a) item)
    (hpage : c.pageNo a = c.pageNo item.addr) :
    ∃ host, item.addr.toNat % c.pageSize = 0 ∧ reg (c.pageNo item.addr) = some host ∧
      item.mem = host - item.addr := by
  obtain hbad | ⟨host, halign, _, hreg, hmem⟩ := h
  · rw [hbad] at hpage
    exact absurd hpage DmiShape.pageNo_ne_pageNo_badAddr
  · exact ⟨host, halign, hreg, hmem⟩

theorem safeRoute_read (hcache : ∀ i, Slot c reg i (cache i))
    (hnb : nb = 1 ∨ nb = 2 ∨ nb = 4 ∨ nb = 8) : SafeRoute c reg a nb (cache.read c nb a) := by
  have hindex : c.tableIndex ((a &&& ~~~7) + BitVec.ofNat 64 (nb - 1)) = c.tableIndex a :=
    tableIndex_dw_add (by omega)
  rw [DmiCache.read]
  simp only [hindex, dw_pointer]
  split_ifs with hhit
  · obtain ⟨hpage, hlow⟩ := DmiCache.hits_iff.mp hhit
    obtain ⟨host, halign, hreg, hmem⟩ := (hcache _).of_pageNo hpage
    refine safeRoute_of_fit halign hpage hreg hmem ?_
    -- a matching address is a multiple of the size
    have halign' : a.toNat % c.pageSize % nb = 0 := by
      have hsmall : nb - 1 < c.pageSize := by
        have := Nat.le_of_dvd c.pageSize_pos c.eight_dvd_pageSize
        omega
      rw [c.and_low_eq hsmall, c.and_low_eq hsmall, halign, Nat.zero_and] at hlow
      have hzero := congrArg BitVec.toNat hlow
      rw [BitVec.toNat_ofNat, BitVec.toNat_ofNat, Nat.zero_mod, Nat.mod_eq_of_lt
        (Nat.and_le_right.trans_lt (by omega))] at hzero
      obtain ⟨j, rfl⟩ : ∃ j, nb = 2 ^ j := by
        rcases hnb with rfl | rfl | rfl | rfl
        exacts [⟨0, rfl⟩, ⟨1, rfl⟩, ⟨2, rfl⟩, ⟨3, rfl⟩]
      rwa [Nat.and_two_pow_sub_one_eq_mod] at hzero
    have hlt := Nat.mod_lt a.toNat c.pageSize_pos
    obtain ⟨m, hm⟩ := c.eight_dvd_pageSize
    rcases hnb with rfl | rfl | rfl | rfl <;> omega
  · rintro _ _ ⟨⟩

/-- A write that crosses the end of a registered page. -/
def DmiCache.WriteMisdirected (c : DmiShape) (cache : DmiCache) (a : BitVec 64) (n : ℕ) : Prop :=
  c.pageSize < a.toNat % c.pageSize + n ∧ (cache (c.tableIndex a)).addr = a &&& c.compMask

private theorem and_low_of_mod {b : BitVec 64} (hb : b.toNat % 8 = 0) (hnb : nb ≤ 8) :
    b &&& BitVec.ofNat 64 (nb - 1) = 0 := by
  have hlow := dwShape.and_low_eq (a := b) (by change nb - 1 < 8; omega)
  change b &&& _ = BitVec.ofNat 64 (b.toNat % 8 &&& (nb - 1)) at hlow
  rw [hlow, hb, Nat.zero_and]
  rfl

private theorem hits_dw_iff {item : DmiItem} (halign : item.addr.toNat % c.pageSize = 0)
    (hitem : cache i = item) (hnb : nb ≤ 8) :
    cache.hits c i (a &&& ~~~7) (BitVec.ofNat 64 (nb - 1)) = true ↔
      c.pageNo a = c.pageNo item.addr := by
  have hdw : (a &&& ~~~7).toNat % 8 = 0 := dwShape.and_compMask_mod
  have hmod : item.addr.toNat % 8 = 0 := by
    rw [← Nat.mod_mod_of_dvd _ c.eight_dvd_pageSize, halign]
  rw [DmiCache.hits_iff, hitem, pageNo_dw, and_low_of_mod hdw hnb, and_low_of_mod hmod hnb]
  exact and_iff_left rfl

/-- A write of `n` bytes is safe unless misdirected. -/
theorem safeRoute_write_iff (hcache : ∀ i, Slot c reg i (cache i)) (hnb : 1 ≤ nb ∧ nb ≤ 8)
    (hn : n ≤ nb) :
    SafeRoute c reg a n (cache.write c nb a n) ↔ ¬ cache.WriteMisdirected c a n := by
  have hindex : c.tableIndex ((a &&& ~~~7) + BitVec.ofNat 64 (nb - 1)) = c.tableIndex a :=
    tableIndex_dw_add (by omega)
  have hlarge := Nat.le_of_dvd c.pageSize_pos c.eight_dvd_pageSize
  rw [DmiCache.write]
  simp only [hindex, dw_pointer]
  constructor
  · rintro hsafe ⟨hcross, haddr⟩
    rw [if_pos] at hsafe
    · exact not_safeRoute_of_cross (by omega) hcross hsafe
    · rw [hits_dw_iff (haddr ▸ c.and_compMask_mod) rfl hnb.2, haddr, c.pageNo_and_compMask]
  · intro hmis
    split_ifs with hhit
    · obtain ⟨hpage, _⟩ := DmiCache.hits_iff.mp hhit
      rw [pageNo_dw] at hpage
      obtain ⟨host, halign, hreg, hmem⟩ := (hcache _).of_pageNo hpage
      refine safeRoute_of_fit halign hpage hreg hmem ?_
      by_contra hcross
      refine hmis ⟨by omega, ?_⟩
      have hself := c.and_compMask_add (a := (cache (c.tableIndex a)).addr)
      rw [halign, BitVec.add_zero] at hself
      rw [← hself, c.and_compMask_eq_iff, hpage]
    · rintro _ _ ⟨⟩

/-- A block access that crosses the end of a page, into one with an item without a page, whose
address lies in the page before and has the bits that are compared. -/
def DmiCache.PageMisdirected (c : DmiShape) (cache : DmiCache) (n : ℕ) (a : BitVec 64) : Prop :=
  n < c.pageSize ∧ c.pageSize < a.toNat % c.pageSize + n ∧
    let i := c.tableIndex (a + BitVec.ofNat 64 (n - 1))
    (cache i).addr = c.badAddr i ∧ c.pageNo a = c.pageNo (c.badAddr i) ∧
      a &&& BitVec.ofNat 64 (n - 1) = BitVec.ofNat 64 (n - 1)

theorem ofNat_sub_one (hn : 1 ≤ n) : BitVec.ofNat 64 n - 1 = BitVec.ofNat 64 (n - 1) := by
  obtain ⟨m, rfl⟩ := Nat.exists_eq_add_of_le' hn
  rw [BitVec.ofNat_add, Nat.add_sub_cancel]
  exact BitVec.add_sub_cancel _ _

theorem add_ofNat_sub_one (hn : 1 ≤ n) :
    a + BitVec.ofNat 64 n - 1 = a + BitVec.ofNat 64 (n - 1) := by
  rw [← ofNat_sub_one hn]
  ring

/-- An access to a block of `n` bytes is safe unless misdirected. -/
theorem safeRoute_page_iff (hcache : ∀ i, Slot c reg i (cache i)) (hn : 1 ≤ n) :
    SafeRoute c reg a n (cache.page c n a) ↔ ¬ cache.PageMisdirected c n a := by
  have hmod := Nat.mod_lt a.toNat c.pageSize_pos
  rw [DmiCache.page]
  simp only [add_ofNat_sub_one hn, ofNat_sub_one hn, DmiCache.PageMisdirected]
  have hbad := DmiShape.badAddr_and_low (c := c) (m := n - 1)
    (c.tableIndex_lt_pages (a := a + BitVec.ofNat 64 (n - 1)))
  constructor
  · rintro hsafe ⟨hsmall, hcross, haddr, hpage, hlow⟩
    rw [if_pos hsmall, if_pos] at hsafe
    · exact not_safeRoute_of_cross (by omega) hcross hsafe
    · rw [DmiCache.hits_iff, haddr, hbad (by omega)]
      exact ⟨hpage, hlow⟩
  · intro hmis
    split_ifs with hsmall hhit
    · obtain ⟨hpage, hlow⟩ := DmiCache.hits_iff.mp hhit
      by_cases hfit : a.toNat % c.pageSize + n ≤ c.pageSize
      · have hindex : c.tableIndex (a + BitVec.ofNat 64 (n - 1)) = c.tableIndex a := by
          rw [c.tableIndex_eq, c.tableIndex_eq, c.pageNo_add_of_lt (by omega)]
        rw [hindex] at hpage ⊢
        obtain ⟨host, halign, hreg, hmem⟩ := (hcache _).of_pageNo hpage
        exact safeRoute_of_fit halign hpage hreg hmem hfit
      · obtain haddr | ⟨_, _, hindex, _⟩ := hcache (c.tableIndex (a + BitVec.ofNat 64 (n - 1)))
        · rw [haddr] at hpage hlow
          exact absurd ⟨hsmall, by omega, haddr, hpage, hlow.trans (hbad (by omega))⟩ hmis
        · -- the item of a registered page is not selected from the page before
          have hparity := c.pageNo_add_of_le (a := a) (i := n - 1) (by omega) (by omega)
          rw [hpage, ← c.tableIndex_mod_two, ← c.tableIndex_mod_two, hindex] at hparity
          exact absurd rfl hparity
    all_goals rintro _ _ ⟨⟩

end Routes

/-! ### All accesses -/

/-- An access that takes the direct route touches only the host page registered for the page
that contains all its bytes. -/
def Safe (c : DmiShape) (s : DmiHandler) (r : Registry) (a : DmiAccess) : Prop :=
  SafeRoute c (r a.table) a.addr a.bytes (s.route c a)

/-- The accesses that take the direct route across the end of a page. -/
def Misdirected (c : DmiShape) (s : DmiHandler) : DmiAccess → Prop
  | .read64 _ _ | .read32 _ _ | .read16 _ _ | .read8 _ _ | .write8 _ => False
  | .write64 ra nb | .write32 ra nb | .write16 ra nb => (s .dataWrite).WriteMisdirected c ra nb
  | .readpage ca n addr => (s (DmiAccess.readTable ca)).PageMisdirected c n addr
  | .writepage n addr | .fillpage n addr => (s .dataWrite).PageMisdirected c n addr

/-- At least one byte is accessed, and no more bytes are written than the value has. -/
def DmiAccess.Valid : DmiAccess → Prop
  | read64 _ _ | read32 _ _ | read16 _ _ | read8 _ _ | write8 _ => True
  | write64 _ nb => 1 ≤ nb ∧ nb ≤ 8
  | write32 _ nb => 1 ≤ nb ∧ nb ≤ 4
  | write16 _ nb => 1 ≤ nb ∧ nb ≤ 2
  | readpage _ n _ | writepage n _ | fillpage n _ => 1 ≤ n

/-- After any calls, an access is safe exactly when it is not misdirected. -/
theorem dmi_safe_iff (c : DmiShape) (calls : List Call) (a : DmiAccess) (ha : a.Valid) :
    let s := (runs (DmiHandler.step c) (DmiHandler.init c) calls).2
    let r := (runs (Registry.step c) (fun _ _ => none) calls).2
    Safe c s r a ↔ ¬ Misdirected c s a := by
  have hslots := slots_runs c calls
  intro s r
  cases a with
  | read64 ca ra => exact iff_of_true (safeRoute_read (hslots _) (.inr (.inr (.inr rfl)))) id
  | read32 ca ra => exact iff_of_true (safeRoute_read (hslots _) (.inr (.inr (.inl rfl)))) id
  | read16 ca ra => exact iff_of_true (safeRoute_read (hslots _) (.inr (.inl rfl))) id
  | read8 ca ra => exact iff_of_true (safeRoute_read (hslots _) (.inl rfl)) id
  | write64 ra nb | write32 ra nb | write16 ra nb =>
    exact safeRoute_write_iff (hslots _) (by decide) ha.2
  | write8 ra =>
    have hwrite : SafeRoute c (r .dataWrite) ra 1 ((s .dataWrite).write c 1 ra 1) ↔ _ :=
      safeRoute_write_iff (hslots _) (by decide) le_rfl
    refine iff_of_true (hwrite.mpr ?_) id
    rintro ⟨hcross, _⟩
    have := Nat.mod_lt ra.toNat c.pageSize_pos
    omega
  | readpage ca n addr | writepage n addr | fillpage n addr =>
    exact safeRoute_page_iff (hslots _) ha

/-- Pages of 4096 bytes, and tables of 256 items. -/
def dmi4k : DmiShape := ⟨12, 8, by decide, by decide, by decide, by decide⟩

/-- A write up to the end of a registered page is safe. -/
theorem dmi_safe_write_end :
    Safe dmi4k (runs (DmiHandler.step dmi4k) (DmiHandler.init dmi4k)
        [.updateCacheEntry .write 0x1234 0x500234]).2
      (runs (Registry.step dmi4k) (fun _ _ => none) [.updateCacheEntry .write 0x1234 0x500234]).2
      (.write64 0x1ff8 8) :=
  (dmi_safe_iff dmi4k [.updateCacheEntry .write 0x1234 0x500234] (.write64 0x1ff8 8)
    ⟨by decide, by decide⟩).mpr fun h => absurd h.1 (by decide)

/-- In a new handler, a block of two bytes across the end of a page is read from the host at the
simulated address itself. -/
theorem readpage_misdirected :
    (DmiHandler.init dmi4k).route dmi4k (.readpage .read 2 0xfffffffffff7ffff) =
        .direct 0xfffffffffff7ffff 2 ∧
      ¬ Safe dmi4k (DmiHandler.init dmi4k) (fun _ _ => none)
        (.readpage .read 2 0xfffffffffff7ffff) := by
  have hroute : (DmiHandler.init dmi4k).route dmi4k (.readpage .read 2 0xfffffffffff7ffff) =
      .direct 0xfffffffffff7ffff 2 := by decide
  refine ⟨hroute, fun hsafe => ?_⟩
  obtain ⟨q, h, _, hreg, _⟩ := hsafe _ _ hroute
  cases hreg

end Adl.Memory
