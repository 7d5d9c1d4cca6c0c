import Adl.Memory.DmiSafe

/-!
# Items without a page

A reset or an invalidation leaves an item with an address in a page of the other parity. Reads and
writes never match it. Block accesses take the index of the last byte and compare the first one:
across the end of a page they can match.
-/

namespace Adl.Memory

open Adl.Math

variable {c : DmiShape} {t : DmiTable} {i : ℕ}

/-! ### Cleared items -/

def Call.Clears (c : DmiShape) (t : DmiTable) (i : ℕ) : Call → Prop
  | .reset => True
  | .invalidateCacheEntry ca addr => getCache ca = t ∧ c.tableIndex addr = i
  | .updateCacheEntry _ _ _ => False

def Call.Updates (c : DmiShape) (t : DmiTable) (i : ℕ) : Call → Prop
  | .updateCacheEntry ca addr _ => getCache ca = t ∧ c.tableIndex addr = i
  | .invalidateCacheEntry _ _ | .reset => False

namespace DmiHandler

theorem setItem_of_ne {s : DmiHandler} {u : DmiTable} {j : ℕ} (item : DmiItem)
    (h : ¬ (u = t ∧ j = i)) : s.setItem u j item t i = s t i := by
  rw [setItem]
  by_cases ht : t = u
  · subst ht
    rw [Function.update_self, Function.update_of_ne fun hi => h ⟨rfl, hi.symm⟩]
  · rw [Function.update_of_ne ht]

theorem setItem_self {s : DmiHandler} (item : DmiItem) : s.setItem t i item t i = item := by
  rw [setItem, Function.update_self, Function.update_self]

theorem badAddr_of_clears (call : Call) (h : call.Clears c t i) (s : DmiHandler) :
    ((s.step c call).2 t i).addr = c.badAddr i := by
  cases call with
  | updateCacheEntry ca addr mem => exact h.elim
  | invalidateCacheEntry ca addr =>
    obtain ⟨rfl, rfl⟩ := h
    simp only [step, invalidateCacheEntry, setItem_self]
  | reset => rfl

theorem badAddr_step {call : Call} (h : ¬ call.Updates c t i) {s : DmiHandler}
    (hs : (s t i).addr = c.badAddr i) : ((s.step c call).2 t i).addr = c.badAddr i := by
  cases call with
  | updateCacheEntry ca addr mem => exact (congrArg DmiItem.addr (setItem_of_ne _ h)).trans hs
  | invalidateCacheEntry ca addr =>
    by_cases hslot : getCache ca = t ∧ c.tableIndex addr = i
    · exact badAddr_of_clears (.invalidateCacheEntry ca addr) hslot s
    · exact (congrArg DmiItem.addr (setItem_of_ne _ hslot)).trans hs
  | reset => rfl

theorem runs_badAddr (s : DmiHandler) (before : List Call) {clear : Call} {after : List Call}
    (hclear : clear.Clears c t i) (hafter : ∀ call ∈ after, ¬ call.Updates c t i) :
    ((runs (step c) s (before ++ clear :: after)).2 t i).addr = c.badAddr i := by
  induction before generalizing s with
  | nil =>
    have hstep (s : DmiHandler) (call : Call) (hcall : ¬ call.Updates c t i)
        (hs : (s t i).addr = c.badAddr i) : ((s.step c call).2 t i).addr = c.badAddr i :=
      badAddr_step hcall hs
    have hrun := runs_invariant hstep hafter (badAddr_of_clears clear hclear s)
    exact hrun
  | cons call before ih => exact ih _

end DmiHandler

/-! ### Accesses through an item -/

/-- The item for the last byte of a double word, or of a part of it. -/
def DmiShape.wordSlot (c : DmiShape) (nb : ℕ) (ra : BitVec 64) : ℕ :=
  c.tableIndex ((ra &&& ~~~7) + BitVec.ofNat 64 (nb - 1))

def DmiShape.blockSlot (c : DmiShape) (n : ℕ) (addr : BitVec 64) : ℕ :=
  c.tableIndex (addr + BitVec.ofNat 64 n - 1)

namespace DmiAccess

def slot (c : DmiShape) : DmiAccess → ℕ
  | read64 _ ra | write64 ra _ => c.wordSlot 8 ra
  | read32 _ ra | write32 ra _ => c.wordSlot 4 ra
  | read16 _ ra | write16 ra _ => c.wordSlot 2 ra
  | read8 _ ra | write8 ra => c.wordSlot 1 ra
  | readpage _ n addr | writepage n addr | fillpage n addr => c.blockSlot n addr

/-- The access takes the direct path through the item. -/
def Through (c : DmiShape) (s : DmiHandler) (t : DmiTable) (i : ℕ) (a : DmiAccess) : Prop :=
  a.table = t ∧ a.slot c = i ∧ s.route c a ≠ .memory

/-- A block access of less than a page starts in the page of the address that the item has without
a page, and agrees with it in the bits of the length. -/
def Agrees (c : DmiShape) (i : ℕ) : DmiAccess → Prop
  | readpage _ n addr | writepage n addr | fillpage n addr =>
    n < c.pageSize ∧ c.pageNo addr = c.pageNo (c.badAddr i) ∧
      addr &&& BitVec.ofNat 64 (n - 1) = BitVec.ofNat 64 (n - 1)
  | read64 _ _ | read32 _ _ | read16 _ _ | read8 _ _
  | write64 _ _ | write32 _ _ | write16 _ _ | write8 _ => False

/-- The accesses that match an item without a page. -/
def Strays (c : DmiShape) (t : DmiTable) (i : ℕ) (a : DmiAccess) : Prop :=
  a.table = t ∧ a.slot c = i ∧ a.Agrees c i

end DmiAccess

section Cleared

variable {cache : DmiCache} {a b low : BitVec 64} {n nb : ℕ}

/-- An item without a page does not match an address in the page whose index it has. -/
theorem DmiCache.hits_of_badAddr (hbad : (cache (c.tableIndex a)).addr = c.badAddr (c.tableIndex a))
    (hpage : c.pageNo b = c.pageNo a) : ¬ cache.hits c (c.tableIndex a) b low = true := by
  intro hhit
  have hmatch := (hits_iff.mp hhit).1
  rw [hbad, hpage] at hmatch
  exact DmiShape.pageNo_ne_pageNo_badAddr hmatch

theorem DmiCache.wordSlot_of_badAddr (hnb : nb ≤ 8)
    (hbad : (cache (c.wordSlot nb a)).addr = c.badAddr (c.wordSlot nb a))
    (hpage : c.pageNo b = c.pageNo a) : ¬ cache.hits c (c.wordSlot nb a) b low = true := by
  have hindex : c.wordSlot nb a = c.tableIndex a := tableIndex_dw_add (by omega)
  rw [hindex] at hbad ⊢
  exact hits_of_badAddr hbad hpage

theorem DmiCache.read_of_badAddr (hnb : nb ≤ 8)
    (hbad : (cache (c.wordSlot nb a)).addr = c.badAddr (c.wordSlot nb a)) :
    cache.read c nb a = .memory :=
  if_neg (wordSlot_of_badAddr hnb hbad rfl)

theorem DmiCache.write_of_badAddr (hnb : nb ≤ 8)
    (hbad : (cache (c.wordSlot nb a)).addr = c.badAddr (c.wordSlot nb a)) :
    cache.write c nb a n = .memory :=
  if_neg (wordSlot_of_badAddr hnb hbad pageNo_dw)

theorem DmiCache.page_of_badAddr (hn : 1 ≤ n)
    (hbad : (cache (c.blockSlot n a)).addr = c.badAddr (c.blockSlot n a)) :
    cache.page c n a ≠ .memory ↔
      n < c.pageSize ∧ c.pageNo a = c.pageNo (c.badAddr (c.blockSlot n a)) ∧
        a &&& BitVec.ofNat 64 (n - 1) = BitVec.ofNat 64 (n - 1) := by
  rw [page]
  by_cases hsmall : n < c.pageSize
  · have hhits : cache.hits c (c.blockSlot n a) a (BitVec.ofNat 64 n - 1) = true ↔
        c.pageNo a = c.pageNo (c.badAddr (c.blockSlot n a)) ∧
          a &&& BitVec.ofNat 64 (n - 1) = BitVec.ofNat 64 (n - 1) := by
      have hpages : c.blockSlot n a < c.pages := DmiShape.tableIndex_lt_pages
      rw [hits_iff, hbad, ofNat_sub_one hn, DmiShape.badAddr_and_low hpages (by omega)]
    rw [if_pos hsmall, and_iff_right hsmall, ← hhits]
    simp [DmiShape.blockSlot]
  · simp [hsmall]

end Cleared

/-- After a reset or an invalidation of an item, and until it is updated, exactly the stray
accesses take the direct path through it. -/
theorem not_through_cleared_iff (c : DmiShape) (s : DmiHandler) (t : DmiTable) (i : ℕ)
    (before after : List Call) (clear : Call) (hclear : clear.Clears c t i)
    (hafter : ∀ call ∈ after, ¬ call.Updates c t i) (a : DmiAccess) (ha : 1 ≤ a.bytes) :
    ¬ a.Through c (runs (DmiHandler.step c) s (before ++ clear :: after)).2 t i ↔
      ¬ a.Strays c t i := by
  have hbad := DmiHandler.runs_badAddr s before hclear hafter
  generalize (runs (DmiHandler.step c) s (before ++ clear :: after)).2 = s' at hbad ⊢
  apply not_congr
  rw [DmiAccess.Through, DmiAccess.Strays]
  apply and_congr_right
  rintro rfl
  apply and_congr_right
  rintro rfl
  cases a with
  | read64 ca ra | read32 ca ra | read16 ca ra | read8 ca ra =>
    exact iff_of_false (not_not_intro (DmiCache.read_of_badAddr (by decide) hbad)) id
  | write64 ra nb | write32 ra nb | write16 ra nb | write8 ra =>
    exact iff_of_false (not_not_intro (DmiCache.write_of_badAddr (by decide) hbad)) id
  | readpage ca n addr | writepage n addr | fillpage n addr =>
    exact DmiCache.page_of_badAddr ha hbad

/-- A double word of an invalidated page is not read from the host. -/
theorem not_through_invalidated :
    ¬ DmiAccess.Through dmi4k (runs (DmiHandler.step dmi4k) (DmiHandler.init dmi4k)
        ([.updateCacheEntry .read 0x1234 0x500234] ++
          .invalidateCacheEntry .logRead 0x1000 :: [.updateCacheEntry .read 0x2000 0x600000])).2
      .dataRead 1 (.read64 .read 0x1238) :=
  (not_through_cleared_iff dmi4k (DmiHandler.init dmi4k) .dataRead 1
    [.updateCacheEntry .read 0x1234 0x500234] [.updateCacheEntry .read 0x2000 0x600000]
    (.invalidateCacheEntry .logRead 0x1000) ⟨rfl, by decide⟩
    (List.forall_mem_singleton.mpr fun h => absurd h.2 (by decide))
    (.read64 .read 0x1238) (by decide)).mpr fun h => h.2.2

/-- A block of two bytes across the end of a page goes through an item without a page: after a
reset, and after an invalidation with the host page that the item had before. -/
theorem cleared_item_hit :
    DmiAccess.Through dmi4k (runs (DmiHandler.step dmi4k) (DmiHandler.init dmi4k) [.reset]).2
        .dataRead 128 (.readpage .read 2 0xfffffffffff7ffff) ∧
      (runs (DmiHandler.step dmi4k) (DmiHandler.init dmi4k)
          [.updateCacheEntry .write 0x80000 0x500000, .invalidateCacheEntry .write 0x80000]).2.route
        dmi4k (.fillpage 2 0xfffffffffff7ffff) =
      .direct 0x3fffff 2 ∧
      DmiAccess.slot dmi4k (.fillpage 2 0xfffffffffff7ffff) = dmi4k.tableIndex 0x80000 := by
  exact ⟨⟨rfl, by decide, by decide⟩, by decide, by decide⟩

end Adl.Memory
