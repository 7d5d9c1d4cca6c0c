import Mathlib.Data.Set.Card
import Mathlib.Data.List.Nodup
import Adl.Math.Machine
import Adl.Blocks.EaHash
import Adl.Blocks.Invalidate

/-!
# The index of pages after invalidations

`invalidateRa` returns the number of entries that it takes away, all of one page. A block with
several pages leaves the others behind, and gets a second set of entries when it is translated
again.
-/

namespace Adl.Blocks

open Adl.Math

variable {p : Params} {core : InstrReadTranslate} {h h' : BasicBlockHash} {bb k : Key}
  {b : BasicBlock} {ea ra page : Addr} {mask : Mask}

/-- The valid blocks that contain an address. -/
def BasicBlockHash.containing (h : BasicBlockHash) (ra : Addr) : Set Key :=
  {bb | ∃ b, h.blocks bb = some b ∧ b.valid ∧ b.matchingAddr ra}

/-- No entry occurs twice, and an invalidation returns the number of valid blocks that contain the
address. -/
def Accurate (h : BasicBlockHash) : Prop :=
  h.blocksByPage.Nodup ∧
    ∀ ra, ∃ n : ℕ, (h.invalidateRa ra).1 = .count n ∧ (h.containing ra).encard = n

/-- The index has one entry for each page of a valid block, and no others. -/
structure Exact (h : BasicBlockHash) : Prop where
  nodup : h.blocksByPage.Nodup
  mem : ∀ page bb, (page, bb) ∈ h.blocksByPage ↔
    ∃ b, h.blocks bb = some b ∧ b.valid ∧ b.OnPage page

/-! ### Counting -/

/-- The blocks that an invalidation finds, one for each entry. -/
def BasicBlockHash.foundBlocks (h : BasicBlockHash) (ra : Addr) : List Key :=
  (h.blocksByPage.filter (found ra h.blocks)).map Prod.snd

theorem invalidateRa_count : (h.invalidateRa ra).1 = .count (h.foundBlocks ra).length := by
  rw [BasicBlockHash.invalidateRa, invalidateEntries_eq, BasicBlockHash.foundBlocks,
    List.length_map,
    List.countP_eq_length_filter]

theorem mem_foundBlocks :
    bb ∈ h.foundBlocks ra ↔
      (getPage ra, bb) ∈ h.blocksByPage ∧ (h.blocks bb).any (·.matchingAddr ra) := by
  simp only [BasicBlockHash.foundBlocks, List.mem_map, List.mem_filter, found, decide_eq_true_eq]
  constructor
  · rintro ⟨⟨page, k⟩, ⟨hmem, rfl, hmatch⟩, rfl⟩
    exact ⟨hmem, hmatch⟩
  · rintro ⟨hmem, hmatch⟩
    exact ⟨(getPage ra, bb), ⟨hmem, rfl, hmatch⟩, rfl⟩

/-- The entries that are found are of one page. -/
theorem nodup_foundBlocks (hnodup : h.blocksByPage.Nodup) : (h.foundBlocks ra).Nodup := by
  refine (hnodup.filter _).map_on fun x hx y hy heq => ?_
  have hpage {z : Addr × Key} (hz : z ∈ h.blocksByPage.filter (found ra h.blocks)) :
      z.1 = getPage ra :=
    (of_decide_eq_true (List.mem_filter.mp hz).2).1
  exact Prod.ext ((hpage hx).trans (hpage hy).symm) heq

theorem encard_foundBlocks (hnodup : h.blocksByPage.Nodup) :
    {bb | bb ∈ h.foundBlocks ra}.encard = (h.foundBlocks ra).length := by
  have hset : {bb | bb ∈ h.foundBlocks ra} = ((h.foundBlocks ra).toFinset : Set Key) := by
    ext bb
    simp
  rw [hset, Set.encard_coe_eq_coe_finsetCard,
    List.toFinset_card_of_nodup (nodup_foundBlocks hnodup)]

theorem accurate_iff (hnodup : h.blocksByPage.Nodup)
    (hsub : ∀ ra, h.containing ra ⊆ {bb | bb ∈ h.foundBlocks ra}) :
    Accurate h ↔ ∀ ra, ∀ bb ∈ h.foundBlocks ra, bb ∈ h.containing ra := by
  have hfinite (ra : Addr) : {bb | bb ∈ h.foundBlocks ra}.Finite := List.finite_toSet _
  constructor
  · rintro ⟨-, hcount⟩ ra bb hbb
    obtain ⟨n, hn, hcard⟩ := hcount ra
    rw [invalidateRa_count, Reply.count.injEq] at hn
    -- sets of the same size, one in the other
    have heq := (hfinite ra).eq_of_subset_of_encard_le' (hsub ra) (by
      rw [hcard, encard_foundBlocks hnodup, hn])
    rw [heq]
    exact hbb
  · intro hall
    refine ⟨hnodup, fun ra => ⟨_, invalidateRa_count, ?_⟩⟩
    rw [Set.Subset.antisymm (hsub ra) (hall ra), encard_foundBlocks hnodup]

/-- Valid blocks that are indexed are found. -/
theorem Indexed.containing_subset (hi : Indexed h) :
    h.containing ra ⊆ {bb | bb ∈ h.foundBlocks ra} := by
  rintro bb ⟨b, hb, hv, hmatch⟩
  refine mem_foundBlocks.mpr ⟨hi bb b hb hv ra hmatch, ?_⟩
  rw [hb, Option.any_some]
  exact hmatch

theorem exists_onPage_iff :
    (∃ b, h.blocks bb = some b ∧ b.valid ∧ b.OnPage page) ↔
      ∃ s e, h.extent bb = some (s, e) ∧ BasicBlock.OnPage ⟨s, e, 0, true⟩ page := by
  constructor
  · rintro ⟨b, hb, hv, hon⟩
    exact ⟨_, _, extent_of_valid hb hv, hon⟩
  · rintro ⟨s, e, hextent, hon⟩
    obtain ⟨b, hb, hv, rfl, rfl⟩ := extent_eq_some.mp hextent
    exact ⟨b, hb, hv, hon⟩

namespace Exact

theorem init : Exact .init :=
  ⟨List.nodup_nil, fun _ _ => iff_of_false List.not_mem_nil (by rintro ⟨_, hb, _⟩; cases hb)⟩

theorem indexed (hx : Exact h) : Indexed h := fun _ b hb hv _ hmatch =>
  (hx.mem _ _).mpr ⟨b, hb, hv, BasicBlock.onPage_of_matchingAddr hmatch⟩

theorem mem_containing (hx : Exact h) (hbb : bb ∈ h.foundBlocks ra) : bb ∈ h.containing ra := by
  obtain ⟨hmem, hmatch⟩ := mem_foundBlocks.mp hbb
  obtain ⟨b, hb, hv, -⟩ := (hx.mem _ _).mp hmem
  rw [hb, Option.any_some] at hmatch
  exact ⟨b, hb, hv, hmatch⟩

theorem accurate (hx : Exact h) : Accurate h :=
  (accurate_iff hx.nodup fun _ => hx.indexed.containing_subset).mpr
    fun _ _ hbb => hx.mem_containing hbb

theorem sameCode (hx : Exact h) (hsame : SameCode ∅ h h') : Exact h' := by
  refine ⟨hsame.pages ▸ hx.nodup, fun page bb => ?_⟩
  rw [hsame.pages, hx.mem, exists_onPage_iff, exists_onPage_iff,
    hsame.extent bb (Set.notMem_empty bb)]

/-- A block without code has no entries. -/
theorem notMem (hx : Exact h) (hnone : h.extent bb = none) : (page, bb) ∉ h.blocksByPage := by
  rw [hx.mem, exists_onPage_iff, hnone]
  rintro ⟨_, _, hextent, -⟩
  cases hextent

/-! ### Translations -/

theorem addToPageHash (hx : Exact h) (hnone : h.extent bb = none) (hsame : SameCode {bb} h h')
    (hb : h'.blocks bb = some b) (hv : b.valid) (hend : b.endRa.toNat < 2 ^ 64 - 4096) :
    ∃ h'', h'.addToPageHash bb = some h'' ∧ Exact h'' := by
  obtain ⟨h'', hadd, pages, rfl, hnodup, hpages⟩ := addToPageHash_eq hb hend
  refine ⟨_, hadd, ?_, fun page k => ?_⟩
  · refine List.nodup_append'.mpr ⟨hsame.pages ▸ hx.nodup, ?_, ?_⟩
    · exact hnodup.map fun _ _ heq => (Prod.mk.inj heq).1
    · intro entry hold hnew
      obtain ⟨page, -, rfl⟩ := List.mem_map.mp hnew
      rw [hsame.pages] at hold
      exact hx.notMem hnone hold
  · rw [List.mem_append, hsame.pages]
    by_cases hk : k = bb
    · -- all entries of the block are new ones
      subst hk
      have hnew : (page, k) ∈ pages.map (·, k) ↔ b.OnPage page := by
        rw [← hpages, List.mem_map]
        simp
      rw [hnew, or_iff_right (hx.notMem hnone)]
      refine ⟨fun hon => ⟨b, hb, hv, hon⟩, ?_⟩
      rintro ⟨b', hb', -, hon⟩
      rwa [Option.some.inj (hb.symm.trans hb')]
    · -- the other blocks keep their extents and their entries
      have hnew : (page, k) ∉ pages.map (·, bb) := by
        rw [List.mem_map]
        rintro ⟨_, -, heq⟩
        exact hk (Prod.mk.inj heq).2.symm
      rw [or_iff_left hnew, hx.mem, exists_onPage_iff, exists_onPage_iff]
      have hextent : h'.extent k = h.extent k := hsame.extent k hk
      rw [← hextent]
      rfl

end Exact

theorem valid_translate {t : Translation} (hblock : (h.blocks bb).isSome)
    (ht : t.ending ≠ .threw false) :
    ∃ b, (h.translate p core t bb).blocks bb = some b ∧ b.valid ∧ b.endRa = t.endRa := by
  obtain ⟨b₀, hb₀⟩ := Option.isSome_iff_exists.mp hblock
  have hstarted : (h.modify bb fun b => { b with started := true }).extent bb =
      some (b₀.startRa, b₀.endRa) :=
    extent_eq_some.mpr ⟨{ b₀ with started := true }, by rw [modify_blocks_self, hb₀]; rfl, rfl, rfl,
      rfl⟩
  -- the targets of branches leave the block alone
  have htargets := @SameCode.targets p core (h.modify bb fun b => { b with started := true }) ∅
    t.targets
  have hextent := (htargets.extent bb (Set.notMem_empty bb)).trans hstarted
  obtain ⟨b, hb, hv, -, -⟩ := extent_eq_some.mp hextent
  refine ⟨{ b with endRa := t.endRa }, ?_, hv, rfl⟩
  rw [BasicBlockHash.translate, if_neg ht]
  dsimp only
  rw [modify_blocks_self, hb]
  rfl

/-- The blocks of the table of effective addresses are in the hash. -/
def Present (h : BasicBlockHash) : Prop :=
  ∀ i x, h.eaHash i = some x → (h.blocks x.bb).isSome

theorem Extends.present (hext : Extends core h h') (hp : Present h) : Present h' := by
  intro i x hx
  rcases hext.entries i x hx with hold | hright
  · exact hext.grows _ (hp i x hold)
  · exact hright.present

theorem present_reset : Present h.reset := fun _ _ hx => by cases hx

theorem Present.isSome_of_lookup {active : Bool} (hp : Present h)
    (hr : h.getBbEaNoTranslate p core ea mask active = (some bb, h')) : (h'.blocks bb).isSome := by
  unfold BasicBlockHash.getBbEaNoTranslate at hr
  split at hr
  case h_1 k hfound =>
    -- the table answers, and its blocks are in the hash
    obtain ⟨hkey, rfl⟩ := Prod.mk.inj hr
    obtain rfl := Option.some.inj hkey
    obtain ⟨x, hx, rfl⟩ := Option.map_eq_some_iff.mp hfound
    have hgrows : Extends core h (if active then h.modify x.bb (·.incrHotCount) else h) :=
      Extends.incrHotCount
    exact hgrows.grows _ (hp _ x (Option.filter_eq_some_iff.mp hx).1)
  case h_2 =>
    split at hr
    · cases hr
    · -- the lookup by real address makes a stub if there is no block
      obtain ⟨hkey, rfl⟩ := Prod.mk.inj hr
      obtain rfl := Option.some.inj hkey
      refine (@Extends.incrHotCount core _ _ active).grows _ ?_
      change ((h.getBbRaNoTranslate _ mask).2.blocks _).isSome
      rw [BasicBlockHash.getBbRaNoTranslate]
      simp

structure Consistent (h : BasicBlockHash) : Prop extends Exact h where
  present : Present h

namespace Consistent

theorem lookup {active : Bool} (hc : Consistent h) :
    Consistent (h.getBbEaNoTranslate p core ea mask active).2 :=
  ⟨hc.sameCode SameCode.getBbEaNoTranslate, Extends.getBbEaNoTranslate.present hc.present⟩

theorem translateBb {hotThreshold : BitVec 32} {t : Translation} (hc : Consistent h)
    (hblock : (h.blocks bb).isSome) (hnone : h.extent bb = none) (ht : t.Completes) :
    Consistent (h.translateBb p core hotThreshold t bb).2 := by
  refine ⟨?_, Extends.translateBb.present hc.present⟩
  unfold BasicBlockHash.translateBb
  split
  · exact hc.toExact
  · cases hending : t.ending with
    | threw started =>
      obtain rfl : started = false := by
        have := hending ▸ ht.1
        simpa using this
      simpa [BasicBlockHash.translate, hending] using hc.toExact
    | finished =>
      obtain ⟨b, hb, hv, hend⟩ := @valid_translate p core _ _ t hblock (by simp [hending])
      obtain ⟨h'', hadd, hx⟩ := hc.toExact.addToPageHash hnone SameCode.translate hb hv
        (hend ▸ ht.2)
      simp only [hadd]
      exact hx

theorem getBb {t : Translation} {hotThreshold : BitVec 32} (hc : Consistent h) (ht : t.Completes) :
    Consistent (h.getBb p core t ea mask hotThreshold).2 := by
  have hlookup {h : BasicBlockHash} (hc : Consistent h) {r : Option Key × BasicBlockHash}
      (hr : h.getBbEaNoTranslate p core ea mask true = r) : Consistent r.2 :=
    hr ▸ hc.lookup
  have hreset : Consistent h.reset := ⟨Exact.init, present_reset⟩
  unfold BasicBlockHash.getBb
  split
  case h_1 hr => exact hlookup hc hr
  case h_2 bb h₁ hr =>
    have hc₁ := hlookup hc hr
    split
    · exact hc₁
    case isFalse hvalid =>
      split
      · split
        case h_1 hr => exact hlookup hreset hr
        case h_2 bb h₂ hr =>
          -- no block is valid after a reset
          have hsame : SameCode ∅ h₁.reset h₂ := by
            have := @SameCode.getBbEaNoTranslate p core h₁.reset ea mask ∅ true
            rwa [hr] at this
          refine (hlookup hreset hr).translateBb (present_reset.isSome_of_lookup hr) ?_ ht
          exact hsame.extent bb (Set.notMem_empty bb)
      · refine hc₁.translateBb (hc.present.isSome_of_lookup hr) ?_ ht
        exact extent_of_not_valid (Bool.eq_false_iff.mpr hvalid)

end Consistent

/-! ### Invalidations -/

/-- The blocks that are invalidated have one page each. -/
def BasicBlockHash.OnePage (h : BasicBlockHash) (ra : Addr) : Prop :=
  ∀ bb b, h.blocks bb = some b → b.valid → b.matchingAddr ra → getPage b.startRa = getPage b.endRa

theorem BasicBlock.OnPage.eq_of_onePage {page' : Addr} (hon : b.OnPage page) (hon' : b.OnPage page')
    (hone : getPage b.startRa = getPage b.endRa) : page = page' := by
  obtain ⟨-, hstart, hend⟩ := hon
  obtain ⟨-, hstart', hend'⟩ := hon'
  rw [hone] at hstart hstart'
  exact (BitVec.le_antisymm hend hstart).trans (BitVec.le_antisymm hstart' hend')

theorem invalidateRa_blocksByPage :
    (page, k) ∈ (h.invalidateRa ra).2.blocksByPage ↔
      (page, k) ∈ h.blocksByPage ∧ ¬ (page = getPage ra ∧ k ∈ h.foundBlocks ra) := by
  rw [BasicBlockHash.invalidateRa, invalidateEntries_eq, List.mem_filter, mem_foundBlocks]
  refine and_congr_right fun hmem => ?_
  rw [Bool.not_eq_true', found, decide_eq_false_iff_not]
  refine not_congr (and_congr_right ?_)
  rintro rfl
  exact (and_iff_right hmem).symm

theorem invalidateRa_blocks_of_found (hk : k ∈ h.foundBlocks ra) :
    (h.invalidateRa ra).2.blocks k = (h.blocks k).map BasicBlock.reset := by
  obtain ⟨hmem, hmatch⟩ := mem_foundBlocks.mp hk
  rw [BasicBlockHash.invalidateRa, invalidateEntries_eq]
  exact if_pos (List.mem_filter.mpr ⟨hmem, decide_eq_true ⟨rfl, hmatch⟩⟩)

theorem invalidateRa_blocks_of_not_found (hk : k ∉ h.foundBlocks ra) :
    (h.invalidateRa ra).2.blocks k = h.blocks k := by
  rw [BasicBlockHash.invalidateRa, invalidateEntries_eq]
  refine if_neg fun hmem => hk ?_
  obtain ⟨hmem, hfound⟩ := List.mem_filter.mp hmem
  exact mem_foundBlocks.mpr ⟨hmem, (of_decide_eq_true hfound).2⟩

namespace Exact

theorem invalidateRa (hx : Exact h) (hone : h.OnePage ra) : Exact (h.invalidateRa ra).2 := by
  refine ⟨?_, fun page k => ?_⟩
  · rw [BasicBlockHash.invalidateRa, invalidateEntries_eq]
    exact hx.nodup.filter _
  · rw [invalidateRa_blocksByPage]
    by_cases hk : k ∈ h.foundBlocks ra
    · -- its only page is the one of the address, so that no entry is left
      obtain ⟨b, hb, hv, hmatch⟩ := hx.mem_containing hk
      rw [invalidateRa_blocks_of_found hk, hb]
      refine iff_of_false ?_ ?_
      · rintro ⟨hmem, hnot⟩
        obtain ⟨b', hb', -, hon⟩ := (hx.mem _ _).mp hmem
        obtain rfl := Option.some.inj (hb.symm.trans hb')
        refine hnot ⟨?_, hk⟩
        exact hon.eq_of_onePage (BasicBlock.onPage_of_matchingAddr hmatch) (hone k b hb hv hmatch)
      · rintro ⟨_, hreset, hv', -⟩
        obtain rfl := Option.some.inj hreset
        cases hv'
    · rw [invalidateRa_blocks_of_not_found hk, and_iff_left fun hboth => hk hboth.2, hx.mem]

/-- A block of several pages leaves entries behind, which are counted later. -/
theorem onePage_of_accurate (hx : Exact h) (hacc : Accurate (h.invalidateRa ra).2) :
    h.OnePage ra := by
  intro bb b hb hv hmatch
  have hfound : bb ∈ h.foundBlocks ra := hx.indexed.containing_subset ⟨b, hb, hv, hmatch⟩
  have hall := (accurate_iff hacc.1 fun _ => hx.indexed.invalidateRa.containing_subset).mp hacc
  -- an entry that is left would be found with a block that is not valid
  have hleft (a : Addr) (ha : b.matchingAddr a) : getPage a = getPage ra := by
    by_contra hne
    have hentry : (getPage a, bb) ∈ (h.invalidateRa ra).2.blocksByPage :=
      invalidateRa_blocksByPage.mpr ⟨hx.indexed bb b hb hv a ha, fun hboth => hne hboth.1⟩
    have hblock : (h.invalidateRa ra).2.blocks bb = some b.reset := by
      rw [invalidateRa_blocks_of_found hfound, hb]
      rfl
    have hagain : bb ∈ (h.invalidateRa ra).2.foundBlocks a := by
      refine mem_foundBlocks.mpr ⟨hentry, ?_⟩
      rw [hblock]
      exact ha
    obtain ⟨b', hb', hv', -⟩ := hall a bb hagain
    obtain rfl := Option.some.inj (hblock.symm.trans hb')
    cases hv'
  obtain ⟨hstart, hend⟩ := of_decide_eq_true hmatch
  have hle : b.startRa ≤ b.endRa := BitVec.le_trans hstart hend
  rw [hleft b.startRa (decide_eq_true ⟨BitVec.le_refl _, hle⟩),
    hleft b.endRa (decide_eq_true ⟨hle, BitVec.le_refl _⟩)]

end Exact

/-! ### Sequences of calls -/

/-- Translations complete, and the blocks that are invalidated have one page each. -/
def BasicBlockHash.Whole (h : BasicBlockHash) : Op → Prop
  | .getBb _ t _ _ _ => t.Completes
  | .invalidateRa ra => h.OnePage ra
  | .invalidateEa core ea => ∀ ra ∈ core ea, h.OnePage ra
  | _ => True

theorem Consistent.step {op : Op} (hc : Consistent h) (hop : h.Whole op) :
    Consistent (h.step p op).2 := by
  have hinvalidate {ra : Addr} (hone : h.OnePage ra) : Consistent (h.invalidateRa ra).2 :=
    ⟨hc.toExact.invalidateRa hone, (@Extends.invalidateRa some h ra).present hc.present⟩
  cases op with
  | getBb core t ea mask hotThreshold => exact hc.getBb hop
  | getBbOrStub core ea mask =>
    exact ⟨hc.sameCode SameCode.getBbOrStub, Extends.getBbOrStub.present hc.present⟩
  | invalidateRa ra => exact hinvalidate hop
  | invalidateEa core ea =>
    rw [BasicBlockHash.step, BasicBlockHash.invalidateEa]
    split
    case h_1 ra hra => exact hinvalidate (hop ra hra)
    case h_2 => exact hc
  | flushEaHash => exact ⟨hc.sameCode ⟨rfl, fun _ _ => rfl⟩, fun _ _ hx => by cases hx⟩
  | reset => exact ⟨Exact.init, present_reset⟩

/-- After calls that only invalidate blocks of one page, the index has no entry twice and every
invalidation returns the number of blocks that it invalidates. After one more call this is still so
exactly if it is such a call, too. -/
theorem page_index_accurate_iff (p : Params) (ops : List Op)
    (hops : Along (BasicBlockHash.step p) BasicBlockHash.Whole .init ops) :
    let h := (runs (BasicBlockHash.step p) .init ops).2
    Accurate h ∧ ∀ op, op.Completes → (Accurate (h.step p op).2 ↔ h.Whole op) := by
  intro h
  have hc : Consistent h := runs_along (P := Consistent) (fun h op hop hc => hc.step hop) hops
    ⟨Exact.init, fun _ _ hx => by cases hx⟩
  refine ⟨hc.toExact.accurate, fun op hop => ⟨fun hacc => ?_, fun hwhole =>
    (hc.step hwhole).toExact.accurate⟩⟩
  cases op with
  | getBb core t ea mask hotThreshold => exact hop
  | invalidateRa ra => exact hc.toExact.onePage_of_accurate hacc
  | invalidateEa core ea =>
    intro ra hra
    rw [BasicBlockHash.step, BasicBlockHash.invalidateEa, Option.mem_def.mp hra] at hacc
    exact hc.toExact.onePage_of_accurate hacc
  | getBbOrStub | flushEaHash | reset => exact trivial

/-! ### Two runs -/

theorem Indexed.onePage (hi : Indexed h)
    (hfound : ((h.foundBlocks ra).all fun bb =>
      (h.blocks bb).all fun b => getPage b.startRa == getPage b.endRa) = true) :
    h.OnePage ra := by
  intro bb b hb hv hmatch
  have hall := List.all_eq_true.mp hfound bb (hi.containing_subset ⟨b, hb, hv, hmatch⟩)
  rw [Option.mem_def.mp hb, Option.all_some, beq_iff_eq] at hall
  exact hall

/-- A block of one page is invalidated and translated again. -/
theorem page_index_accurate_one_page :
    Accurate (runs (BasicBlockHash.step wordParams) .init
      [translateTo 0xffc .finished, .invalidateRa 0xff8, translateTo 0xffc .finished]).2 := by
  have hcompletes : (translateTo 0xffc .finished).Completes := by decide
  exact (page_index_accurate_iff wordParams
    [translateTo 0xffc .finished, .invalidateRa 0xff8, translateTo 0xffc .finished]
    ⟨hcompletes, (indexed_init.step hcompletes).2.onePage (by decide +kernel), hcompletes,
      trivial⟩).1

/-- A block of two pages that is invalidated by an address of the first one and translated again has
two entries for the second one. They are both counted. -/
theorem two_pages_counted_twice :
    let h := (runs (BasicBlockHash.step wordParams) .init
      [translateTo 0x1004 .finished, .invalidateRa 0xff8, translateTo 0x1004 .finished]).2
    h.blocksByPage.count (0x1000, (0xff8, 0)) = 2 ∧ (h.invalidateRa 0x1000).1 = .count 2 ∧
      h.containing 0x1000 ⊆ {(0xff8, 0)} := by
  intro h
  have hcompletes : ∀ op ∈ [translateTo 0x1004 .finished, .invalidateRa 0xff8,
      translateTo 0x1004 .finished], op.Completes := by decide
  have hstep (h : BasicBlockHash) (op : Op) (hop : op.Completes) (hi : Indexed h) :=
    (hi.step (p := wordParams) hop).2
  have hi := runs_invariant hstep hcompletes indexed_init
  refine ⟨by decide +kernel, by decide +kernel, fun bb hbb => ?_⟩
  have hall : ((h.foundBlocks 0x1000).all (· == (0xff8, 0))) = true := by decide +kernel
  exact beq_iff_eq.mp (List.all_eq_true.mp hall bb (hi.containing_subset hbb))

end Adl.Blocks
