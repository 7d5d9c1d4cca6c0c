import Mathlib.Tactic.Common
import Adl.Math.Machine
import Adl.Blocks.Extents

/-!
# Invalidation finds every block

A block is registered for every page of its extent, and `invalidateRa` takes away one entry at a
time. This is enough since an entry is only erased together with the validity of its block.
-/

namespace Adl.Blocks

open Adl.Math

variable {p : Params} {core : InstrReadTranslate} {h h' h'' : BasicBlockHash} {bb k : Key}
  {b b' : BasicBlock} {ea ra a s e : Addr} {mask : Mask} {S : Set Key}

/-! ### What the operations do to the blocks -/

/-- Valid blocks are registered for all their pages. -/
def Indexed (h : BasicBlockHash) : Prop :=
  ∀ bb b, h.blocks bb = some b → b.valid → ∀ ra, b.matchingAddr ra →
    (getPage ra, bb) ∈ h.blocksByPage

theorem indexed_init : Indexed .init := fun _ _ hb => by cases hb

/-- Outside of `S` there are no new valid blocks and no new extents of valid blocks. -/
structure Keeps (S : Set Key) (h h' : BasicBlockHash) : Prop where
  pages : h'.blocksByPage = h.blocksByPage
  blocks : ∀ bb ∉ S, ∀ b', h'.blocks bb = some b' → b'.valid →
    ∃ b, h.blocks bb = some b ∧ b.valid ∧ b.startRa = b'.startRa ∧ b.endRa = b'.endRa

namespace Keeps

theorem indexed (h₁ : Keeps ∅ h h') (hi : Indexed h) : Indexed h' := by
  intro bb b' hb' hv' ra hra
  obtain ⟨b, hb, hv, hs, he⟩ := h₁.blocks bb (Set.notMem_empty bb) b' hb' hv'
  rw [h₁.pages]
  refine hi bb b hb hv ra ?_
  rwa [BasicBlock.matchingAddr, hs, he]

end Keeps

theorem SameCode.keeps (hsame : SameCode S h h') : Keeps S h h' := by
  refine ⟨hsame.pages, fun bb hbb b' hb' hv' => ?_⟩
  have hextent := extent_of_valid hb' hv'
  rw [hsame.extent bb hbb] at hextent
  exact extent_eq_some.mp hextent

/-! ### Registration -/

/-- A block with a new extent is registered, and the other blocks still are. -/
theorem Indexed.addToPageHash (hi : Indexed h) (hk : Keeps {bb} h h')
    (hend : ∀ b, h'.blocks bb = some b → b.endRa.toNat < 2 ^ 64 - 4096) :
    ∃ h'', h'.addToPageHash bb = some h'' ∧ Indexed h'' := by
  have hothers : ∀ k ≠ bb, ∀ b', h'.blocks k = some b' → b'.valid → ∀ ra, b'.matchingAddr ra →
      (getPage ra, k) ∈ h'.blocksByPage := by
    intro k hne b' hb' hv' ra hra
    obtain ⟨b, hb, hv, hs, he⟩ := hk.blocks k hne b' hb' hv'
    rw [hk.pages]
    refine hi k b hb hv ra ?_
    rwa [BasicBlock.matchingAddr, hs, he]
  rw [BasicBlockHash.addToPageHash]
  cases hb : h'.blocks bb with
  | none =>
    refine ⟨h', rfl, fun k b' hb' => hothers k ?_ b' hb'⟩
    rintro rfl
    rw [hb] at hb'
    cases hb'
  | some b =>
    obtain ⟨_, hadd, pages, rfl, -, hpages⟩ := addToPageHash_eq hb (hend b hb)
    rw [BasicBlockHash.addToPageHash, hb] at hadd
    refine ⟨_, hadd, fun k b' hb' hv' ra hra => List.mem_append.mpr ?_⟩
    by_cases hkbb : k = bb
    · subst hkbb
      obtain rfl : b = b' := Option.some.inj (hb.symm.trans hb')
      exact .inr (List.mem_map_of_mem ((hpages _).mpr (BasicBlock.onPage_of_matchingAddr hra)))
    · exact .inl (hothers k hkbb b' hb' hv' ra hra)

/-! ### Invalidation -/

theorem blocks_of_invalidateEntries {entries : List (Addr × Key)}
    {blocks : Key → Option BasicBlock}
    (hb : (BasicBlockHash.invalidateEntries ra entries blocks).2.2 k = some b) (hv : b.valid) :
    (getPage ra, k) ∉ entries.filter (found ra blocks) ∧ blocks k = some b := by
  rw [invalidateEntries_eq] at hb
  dsimp only at hb
  split at hb
  case isTrue =>
    -- a block that was reset is not valid
    obtain ⟨b₀, -, rfl⟩ := Option.map_eq_some_iff.mp hb
    cases hv
  case isFalse hnot => exact ⟨hnot, hb⟩

/-- The entries of blocks that stay valid are kept, and they do not match. -/
theorem entries_of_invalidateEntries {entries : List (Addr × Key)}
    {blocks : Key → Option BasicBlock} {page : Addr} (hmem : (page, k) ∈ entries)
    (hb : (BasicBlockHash.invalidateEntries ra entries blocks).2.2 k = some b) (hv : b.valid) :
    (page, k) ∈ (BasicBlockHash.invalidateEntries ra entries blocks).2.1 ∧
      ¬ (page = getPage ra ∧ b.matchingAddr ra) := by
  obtain ⟨hnot, hblock⟩ := blocks_of_invalidateEntries hb hv
  have hfound : ¬ (page = getPage ra ∧ (blocks k).any (·.matchingAddr ra)) := by
    rintro ⟨rfl, hmatch⟩
    exact hnot (List.mem_filter.mpr ⟨hmem, decide_eq_true ⟨rfl, hmatch⟩⟩)
  rw [invalidateEntries_eq]
  refine ⟨List.mem_filter.mpr ⟨hmem, ?_⟩, ?_⟩
  · rw [found, decide_eq_false hfound]
    rfl
  · rwa [hblock, Option.any_some] at hfound

theorem Indexed.invalidateRa (hi : Indexed h) : Indexed (h.invalidateRa ra).2 := by
  intro k b hb hv a ha
  exact (entries_of_invalidateEntries
    (hi k b (blocks_of_invalidateEntries hb hv).2 hv a ha) hb hv).1

theorem Indexed.not_matchingAddr (hi : Indexed h) (hb : (h.invalidateRa ra).2.blocks k = some b)
    (hv : b.valid) : ¬ b.matchingAddr ra := by
  intro ha
  exact (entries_of_invalidateEntries (hi k b (blocks_of_invalidateEntries hb hv).2 hv ra ha)
    hb hv).2 ⟨rfl, ha⟩

/-! ### Sequences of calls -/

/-- The translator chooses an end below the last page, and does not throw after it has started the
block. -/
def Translation.Completes (t : Translation) : Prop :=
  t.ending ≠ .threw true ∧ t.endRa.toNat < 2 ^ 64 - 4096

instance (t : Translation) : Decidable t.Completes := inferInstanceAs (Decidable (_ ∧ _))

def Op.Completes : Op → Prop
  | .getBb _ t _ _ _ => t.Completes
  | _ => True

instance : (op : Op) → Decidable op.Completes
  | .getBb _ t _ _ _ => inferInstanceAs (Decidable t.Completes)
  | .getBbOrStub .. | .invalidateRa .. | .invalidateEa .. | .flushEaHash | .reset => isTrue trivial

theorem Indexed.translateBb {hotThreshold : BitVec 32} {t : Translation} (hi : Indexed h)
    (ht : t.Completes) :
    (h.translateBb p core hotThreshold t bb).1 ≠ .hangs ∧
      Indexed (h.translateBb p core hotThreshold t bb).2 := by
  unfold BasicBlockHash.translateBb
  split
  · exact ⟨by simp, hi⟩
  · cases hending : t.ending with
    | threw started =>
      obtain rfl : started = false := by
        have := hending ▸ ht.1
        simpa using this
      simpa [BasicBlockHash.translate, hending] using hi
    | finished =>
      have hkeeps : Keeps {bb} h (h.translate p core t bb) := SameCode.translate.keeps
      obtain ⟨h'', hadd, hi''⟩ := hi.addToPageHash hkeeps fun b hb => by
        rw [endRa_translate (by simp [hending]) hb]
        exact ht.2
      simp only [hadd]
      exact ⟨by simp, hi''⟩

theorem Indexed.getBb {t : Translation} {hotThreshold : BitVec 32} (hi : Indexed h)
    (ht : t.Completes) :
    (h.getBb p core t ea mask hotThreshold).1 ≠ .hangs ∧
      Indexed (h.getBb p core t ea mask hotThreshold).2 := by
  have hlookup {h : BasicBlockHash} (hi : Indexed h) {r : Option Key × BasicBlockHash}
      (hr : h.getBbEaNoTranslate p core ea mask true = r) : Indexed r.2 :=
    hr ▸ SameCode.getBbEaNoTranslate.keeps.indexed hi
  unfold BasicBlockHash.getBb
  split
  case h_1 hr => exact ⟨by simp, hlookup hi hr⟩
  case h_2 hr =>
    have hi := hlookup hi hr
    split
    · exact ⟨by simp, hi⟩
    · split
      · split
        case h_1 hr => exact ⟨by simp, hlookup indexed_init hr⟩
        case h_2 hr => exact (hlookup indexed_init hr).translateBb ht
      · exact hi.translateBb ht

theorem Indexed.step {op : Op} (hi : Indexed h) (hop : op.Completes) :
    (h.step p op).1 ≠ .hangs ∧ Indexed (h.step p op).2 := by
  cases op with
  | getBb core t ea mask hotThreshold => exact hi.getBb hop
  | getBbOrStub core ea mask =>
    refine ⟨?_, SameCode.getBbOrStub.keeps.indexed hi⟩
    simp only [BasicBlockHash.step, BasicBlockHash.getBbOrStub]
    split
    · simp
    · split <;> simp
  | invalidateRa ra => exact ⟨by simp [BasicBlockHash.step, BasicBlockHash.invalidateRa],
      hi.invalidateRa⟩
  | invalidateEa core ea =>
    simp only [BasicBlockHash.step, BasicBlockHash.invalidateEa]
    split
    · exact ⟨by simp [BasicBlockHash.invalidateRa], hi.invalidateRa⟩
    · exact ⟨by simp, hi⟩
  | flushEaHash => exact ⟨by simp [BasicBlockHash.step], hi⟩
  | reset => exact ⟨by simp [BasicBlockHash.step], fun _ _ hb => by cases hb⟩

/-- All calls return, and immediately after `invalidateRa` no valid block of the hash contains the
address. -/
theorem invalidateRa_complete (p : Params) (ops : List Op) (hops : ∀ op ∈ ops, op.Completes)
    (ra : Addr) :
    let (replies, h) := runs (BasicBlockHash.step p) .init ops
    let h' := (h.step p (.invalidateRa ra)).2
    (∀ reply ∈ replies, reply ≠ .hangs) ∧
      ∀ bb b, h'.blocks bb = some b → b.valid → ¬ (b.startRa ≤ ra ∧ ra ≤ b.endRa) := by
  have hstep (h : BasicBlockHash) (op : Op) (hop : op.Completes) (hi : Indexed h) :=
    hi.step (p := p) hop
  have hi := runs_invariant (fun h op hop hi => (hstep h op hop hi).2) hops indexed_init
  refine ⟨runs_answers hstep hops indexed_init, fun bb b hb hv hra => ?_⟩
  exact hi.not_matchingAddr hb hv (decide_eq_true hra)

/-! ### Two runs -/

/-- A table of 1024 effective addresses, for instructions of four bytes. -/
def wordParams : Params := ⟨2, 10⟩

/-- A lookup without threshold, by a core that does not translate addresses. -/
def translateTo (endRa : Addr) (ending : Ending) : Op :=
  .getBb some ⟨false, [(0x2000, 0)], endRa, ending⟩ 0xff8 0 0

/-- A block of two pages is registered for both, and its second page finds it. -/
theorem invalidateRa_complete_twoPages :
    let (replies, h) := runs (BasicBlockHash.step wordParams) .init
      [translateTo 0x1004 .finished]
    let h' := (h.step wordParams (.invalidateRa 0x1000)).2
    (h.valid (0xff8, 0) = true ∧ h.blocksByPage = [(0x0, (0xff8, 0)), (0x1000, (0xff8, 0))]) ∧
      (∀ reply ∈ replies, reply ≠ .hangs) ∧
      ∀ bb b, h'.blocks bb = some b → b.valid → ¬ (b.startRa ≤ 0x1000 ∧ 0x1000 ≤ b.endRa) :=
  ⟨by decide +kernel, invalidateRa_complete wordParams [translateTo 0x1004 .finished]
    (by decide) 0x1000⟩

/-- A translator that throws at the first instruction, after it has started the block, leaves a
valid block that is registered nowhere. -/
theorem invalidateRa_misses_thrown :
    let h := (runs (BasicBlockHash.step wordParams) .init
      [translateTo 0xff8 (.threw true)]).2
    ∃ b, (h.step wordParams (.invalidateRa 0xff8)).2.blocks (0xff8, 0) = some b ∧ b.valid ∧
      b.startRa ≤ 0xff8 ∧ 0xff8 ≤ b.endRa :=
  ⟨⟨0xff8, 0xff8, 1, true⟩, by decide +kernel⟩

end Adl.Blocks
