import Mathlib.Tactic.Common
import Adl.Math.Mask
import Adl.Blocks.Hash

/-!
# The pages of a block

A block is registered for each page of its extent. Addresses wrap, and no page is above the last
one, so that for a block that ends there the loop goes on forever.
-/

namespace Adl.Blocks

open Adl.Math

variable {h h' : BasicBlockHash} {bb : Key} {b : BasicBlock} {a s e : Addr} {fuel : ℕ}

theorem toNat_getPage : (getPage a).toNat = a.toNat / 4096 * 4096 := by
  have hmask : ~~~blockPageMask = BitVec.allOnes 64 <<< 12 := by decide
  exact (congrArg (fun m => (a &&& m).toNat) hmask).trans (toNat_and_allOnes_shiftLeft a 12)

theorem getPage_eq_self : getPage a = a ↔ a.toNat % 4096 = 0 := by
  rw [← BitVec.toNat_inj, toNat_getPage]
  omega

theorem toNat_add_page :
    (s + (blockPageMask + 1)).toNat = (s.toNat + 4096) % 2 ^ 64 := by
  rw [BitVec.toNat_add, show (blockPageMask + 1).toNat = 4096 by decide]

/-- Below the last page of the address space the loop ends, and it visits each page once. -/
theorem pagesFrom_spec (hs : s.toNat % 4096 = 0) (he : e.toNat < 2 ^ 64 - 4096)
    (hfuel : (e.toNat + 4096 - s.toNat) / 4096 < fuel) :
    ∃ pages, pagesFrom fuel s e = some pages ∧ pages.Nodup ∧
      ∀ a : Addr, a ∈ pages ↔ a.toNat % 4096 = 0 ∧ s ≤ a ∧ a ≤ e := by
  induction fuel generalizing s with
  | zero => omega
  | succ fuel ih =>
    rw [pagesFrom]
    split
    case isFalse hlt =>
      refine ⟨[], rfl, List.nodup_nil, fun a => ?_⟩
      refine iff_of_false List.not_mem_nil ?_
      rintro ⟨-, hsa, hae⟩
      exact hlt (BitVec.le_trans hsa hae)
    case isTrue hle =>
      rw [BitVec.le_def] at hle
      -- the next page does not wrap around
      have hnext : (s + (blockPageMask + 1)).toNat = s.toNat + 4096 := by
        rw [toNat_add_page]
        omega
      obtain ⟨pages, hpages, hnodup, hmem⟩ :=
        ih (s := s + (blockPageMask + 1)) (by omega) (by omega)
      refine ⟨s :: pages, by rw [hpages]; rfl, List.nodup_cons.mpr ⟨fun hs' => ?_, hnodup⟩,
        fun a => ?_⟩
      · have hlater := ((hmem s).mp hs').2.1
        rw [BitVec.le_def] at hlater
        omega
      · rw [List.mem_cons, hmem, BitVec.le_def, BitVec.le_def, BitVec.le_def, ← BitVec.toNat_inj]
        omega

theorem pagesFrom_none (hs : s.toNat % 4096 = 0) (he : 2 ^ 64 - 4096 ≤ e.toNat) :
    pagesFrom fuel s e = none := by
  induction fuel generalizing s with
  | zero => rfl
  | succ fuel ih =>
    -- each page is at most the last one
    have hle : s ≤ e := by
      rw [BitVec.le_def]
      omega
    have hnext : (s + (blockPageMask + 1)).toNat % 4096 = 0 := by
      rw [toNat_add_page]
      omega
    rw [pagesFrom, if_pos hle, ih hnext]
    rfl

/-! ### Registration -/

def BasicBlock.OnPage (b : BasicBlock) (page : Addr) : Prop :=
  getPage page = page ∧ getPage b.startRa ≤ page ∧ page ≤ getPage b.endRa

theorem BasicBlock.onPage_of_matchingAddr (hmatch : b.matchingAddr a) : b.OnPage (getPage a) := by
  obtain ⟨hstart, hend⟩ := of_decide_eq_true hmatch
  rw [BitVec.le_def] at hstart hend
  rw [OnPage, getPage_eq_self, BitVec.le_def, BitVec.le_def, toNat_getPage, toNat_getPage,
    toNat_getPage]
  omega

/-- Of two states of the hash, the second one has a new entry for each page of the block. -/
def Registered (h : BasicBlockHash) (bb : Key) (b : BasicBlock) (h' : BasicBlockHash) : Prop :=
  ∃ pages : List Addr, h' = { h with blocksByPage := h.blocksByPage ++ pages.map (·, bb) } ∧
    pages.Nodup ∧ ∀ page, page ∈ pages ↔ b.OnPage page

theorem addToPageHash_eq (hb : h.blocks bb = some b) (hend : b.endRa.toNat < 2 ^ 64 - 4096) :
    ∃ h', h.addToPageHash bb = some h' ∧ Registered h bb b h' := by
  have hstart := toNat_getPage (a := b.startRa)
  have hlast := toNat_getPage (a := b.endRa)
  have hfuel : ((getPage b.endRa).toNat + 4096 - (getPage b.startRa).toNat) / 4096 < pageFuel := by
    rw [pageFuel]
    omega
  obtain ⟨pages, hpages, hnodup, hmem⟩ := pagesFrom_spec (by omega) (by omega) hfuel
  rw [BasicBlockHash.addToPageHash, hb]
  refine ⟨_, congrArg (Option.map _) hpages, pages, rfl, hnodup, fun page => ?_⟩
  rw [hmem, BasicBlock.OnPage, getPage_eq_self]

/-- The registration of a block ends, with one entry for each page, exactly if the block ends below
the last page of the address space. Otherwise the loop does not end, however long it runs. -/
theorem addToPageHash_iff (h : BasicBlockHash) (bb : Key) (b : BasicBlock)
    (hb : h.blocks bb = some b) :
    ((∃ h', h.addToPageHash bb = some h' ∧ Registered h bb b h') ↔
        b.endRa.toNat < 2 ^ 64 - 4096) ∧
      (¬ b.endRa.toNat < 2 ^ 64 - 4096 →
        ∀ fuel, pagesFrom fuel (getPage b.startRa) (getPage b.endRa) = none) := by
  have hstart := toNat_getPage (a := b.startRa)
  have hlast := toNat_getPage (a := b.endRa)
  -- on the last page the address of the next page wraps, and stays below the end
  have hnone (hge : ¬ b.endRa.toNat < 2 ^ 64 - 4096) (fuel : ℕ) :
      pagesFrom fuel (getPage b.startRa) (getPage b.endRa) = none := by
    refine pagesFrom_none (by omega) ?_
    have hbound := b.endRa.isLt
    omega
  refine ⟨⟨fun hends => ?_, addToPageHash_eq hb⟩, hnone⟩
  by_contra hge
  obtain ⟨h', hadd, -⟩ := hends
  rw [BasicBlockHash.addToPageHash, hb] at hadd
  simp only [hnone hge, Option.map_none] at hadd
  cases hadd

def holding (bb : Key) (b : BasicBlock) : BasicBlockHash :=
  { BasicBlockHash.init with blocks := Function.update BasicBlockHash.init.blocks bb (some b) }

@[simp] theorem holding_blocks : (holding bb b).blocks bb = some b := Function.update_self ..

/-- A block of two pages. -/
theorem addToPageHash_two_pages :
    ∃ h', (holding (0xff8, 0) ⟨0xff8, 0x1004, 1, true⟩).addToPageHash (0xff8, 0) = some h' ∧
      Registered (holding (0xff8, 0) ⟨0xff8, 0x1004, 1, true⟩) (0xff8, 0)
        ⟨0xff8, 0x1004, 1, true⟩ h' :=
  (addToPageHash_iff _ _ ⟨0xff8, 0x1004, 1, true⟩ holding_blocks).1.mpr (by decide)

/-- A block of one instruction at the end of the address space. -/
theorem addToPageHash_hangs :
    (holding (0xfffffffffffffffc, 0) (.ofRa 0xfffffffffffffffc)).addToPageHash
        (0xfffffffffffffffc, 0) = none ∧
      ∀ fuel, pagesFrom fuel (getPage 0xfffffffffffffffc) (getPage 0xfffffffffffffffc) = none := by
  have hnone (fuel : ℕ) :
      pagesFrom fuel (getPage 0xfffffffffffffffc) (getPage 0xfffffffffffffffc) = none :=
    pagesFrom_none (by decide) (by decide)
  refine ⟨?_, hnone⟩
  rw [BasicBlockHash.addToPageHash, holding_blocks]
  exact congrArg (Option.map _) (hnone pageFuel)

end Adl.Blocks
