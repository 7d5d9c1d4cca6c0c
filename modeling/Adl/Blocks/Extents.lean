import Mathlib.Data.Set.Basic
import Adl.Blocks.Pages

/-!
# What the operations of the hash do to valid blocks

Lookups change neither which blocks are valid nor their extents. A translation changes one block,
and an invalidation resets those that it finds through the index of pages.
-/

namespace Adl.Blocks

variable {p : Params} {core : InstrReadTranslate} {h h' h'' : BasicBlockHash} {bb k : Key}
  {b : BasicBlock} {ea ra s e : Addr} {mask : Mask} {S : Set Key}

/-- The first and the last address of a valid block. -/
def BasicBlockHash.extent (h : BasicBlockHash) (bb : Key) : Option (Addr × Addr) :=
  ((h.blocks bb).filter (·.valid)).map fun b => (b.startRa, b.endRa)

theorem extent_eq_some :
    h.extent bb = some (s, e) ↔
      ∃ b, h.blocks bb = some b ∧ b.valid ∧ b.startRa = s ∧ b.endRa = e := by
  simp [BasicBlockHash.extent, Option.filter_eq_some_iff, and_assoc]

theorem extent_of_valid (hb : h.blocks bb = some b) (hv : b.valid) :
    h.extent bb = some (b.startRa, b.endRa) :=
  extent_eq_some.mpr ⟨b, hb, hv, rfl, rfl⟩

/-- A block that is not translated has no code. -/
theorem extent_of_not_valid (hv : h.valid bb = false) : h.extent bb = none := by
  rw [BasicBlockHash.extent, Option.map_eq_none_iff, Option.filter_eq_none_iff]
  intro b hb hvalid
  rw [BasicBlockHash.valid, hb, Option.any_some] at hv
  rw [hv] at hvalid
  cases hvalid

theorem extent_congr (hb : h'.blocks bb = h.blocks bb) : h'.extent bb = h.extent bb := by
  rw [BasicBlockHash.extent, BasicBlockHash.extent, hb]

theorem modify_blocks_self {f : BasicBlock → BasicBlock} :
    (h.modify bb f).blocks bb = (h.blocks bb).map f :=
  Function.update_self ..

theorem modify_blocks_of_ne {f : BasicBlock → BasicBlock} (hk : k ≠ bb) :
    (h.modify bb f).blocks k = h.blocks k :=
  Function.update_of_ne hk ..

theorem getBbRaNoTranslate_blocks_self :
    (h.getBbRaNoTranslate ra mask).2.blocks (ra, mask) =
      some ((h.blocks (ra, mask)).getD (.ofRa ra)) :=
  Function.update_self ..

theorem getBbRaNoTranslate_blocks_of_ne (hk : k ≠ (ra, mask)) :
    (h.getBbRaNoTranslate ra mask).2.blocks k = h.blocks k :=
  Function.update_of_ne hk ..

/-! ### Lookups and translations -/

/-- The entries of pages are the same, and outside of `S` the valid blocks are. -/
structure SameCode (S : Set Key) (h h' : BasicBlockHash) : Prop where
  pages : h'.blocksByPage = h.blocksByPage
  extent : ∀ bb ∉ S, h'.extent bb = h.extent bb

namespace SameCode

theorem refl : SameCode S h h := ⟨rfl, fun _ _ => rfl⟩

theorem trans (h₁ : SameCode S h h') (h₂ : SameCode S h' h'') : SameCode S h h'' :=
  ⟨h₂.pages.trans h₁.pages, fun bb hbb => (h₂.extent bb hbb).trans (h₁.extent bb hbb)⟩

theorem modify {f : BasicBlock → BasicBlock}
    (hf : bb ∉ S → ∀ b, (f b).valid = b.valid ∧ (f b).startRa = b.startRa ∧ (f b).endRa = b.endRa) :
    SameCode S h (h.modify bb f) := by
  refine ⟨rfl, fun k hk => ?_⟩
  by_cases heq : k = bb
  · subst heq
    rw [BasicBlockHash.extent, BasicBlockHash.extent, modify_blocks_self]
    cases h.blocks k with
    | none => rfl
    | some b =>
      obtain ⟨hv, hs, he⟩ := hf hk b
      cases hvalid : b.valid <;> simp [Option.filter_some, hv, hs, he, hvalid]
  · exact extent_congr (modify_blocks_of_ne heq)

theorem incrHotCount {active : Bool} :
    SameCode S h (if active then h.modify bb (·.incrHotCount) else h) := by
  split
  · exact modify fun _ b => ⟨rfl, rfl, rfl⟩
  · exact refl

/-- A new block has no code yet. -/
theorem getBbRaNoTranslate : SameCode S h (h.getBbRaNoTranslate ra mask).2 := by
  refine ⟨rfl, fun k hk => ?_⟩
  by_cases heq : k = (ra, mask)
  · subst heq
    rw [BasicBlockHash.extent, BasicBlockHash.extent, getBbRaNoTranslate_blocks_self]
    -- a new block is not valid
    cases h.blocks (ra, mask) <;> rfl
  · exact extent_congr (getBbRaNoTranslate_blocks_of_ne heq)

theorem insertEaHash : SameCode S h (h.insertEaHash p ea mask bb) := ⟨rfl, fun _ _ => rfl⟩

theorem getBbEaNoTranslate {active : Bool} :
    SameCode S h (h.getBbEaNoTranslate p core ea mask active).2 := by
  unfold BasicBlockHash.getBbEaNoTranslate
  split
  · exact incrHotCount
  · split
    · exact refl
    · exact getBbRaNoTranslate.trans (insertEaHash.trans (by exact incrHotCount))

/-- A stub has no code of its own either. -/
theorem getBbOrStub : SameCode S h (h.getBbOrStub p core ea mask).2 := by
  have hlookup : SameCode S h (h.getBbEaNoTranslate p core ea mask false).2 := getBbEaNoTranslate
  unfold BasicBlockHash.getBbOrStub
  split
  case h_1 hr => rwa [hr] at hlookup
  case h_2 hr => rwa [hr] at hlookup

theorem targets {targets : List (Addr × Mask)} :
    SameCode S h (targets.foldl (fun h (ea, mask) => (h.getBbOrStub p core ea mask).2) h) := by
  induction targets generalizing h with
  | nil => exact refl
  | cons target rest ih => exact getBbOrStub.trans ih

/-- Translating a block changes the code of this block only. -/
theorem translate {t : Translation} : SameCode {bb} h (h.translate p core t bb) := by
  unfold BasicBlockHash.translate
  split
  · exact refl
  · have hbb : bb ∈ ({bb} : Set Key) := rfl
    exact (modify fun hn => absurd hbb hn).trans
      (targets.trans (modify fun hn => absurd hbb hn))

end SameCode

/-- The end of a translated block is the one that the translator chose. -/
theorem endRa_translate {t : Translation} (ht : t.ending ≠ .threw false)
    (hb : (h.translate p core t bb).blocks bb = some b) : b.endRa = t.endRa := by
  rw [BasicBlockHash.translate, if_neg ht] at hb
  simp only [BasicBlockHash.modify, Function.update_self] at hb
  obtain ⟨b₀, -, rfl⟩ := Option.map_eq_some_iff.mp hb
  rfl

/-! ### Invalidations -/

/-- An entry of the page of an address, with a block that contains the address. -/
def found (ra : Addr) (blocks : Key → Option BasicBlock) (entry : Addr × Key) : Bool :=
  entry.1 = getPage ra ∧ (blocks entry.2).any (·.matchingAddr ra)

/-- A block matches the same addresses after a reset. -/
theorem found_update {blocks : Key → Option BasicBlock} :
    found ra (Function.update blocks bb ((blocks bb).map BasicBlock.reset)) = found ra blocks := by
  funext ⟨page, k⟩
  have hany : (Function.update blocks bb ((blocks bb).map BasicBlock.reset) k).any
      (·.matchingAddr ra) = (blocks k).any (·.matchingAddr ra) := by
    by_cases heq : k = bb
    · rw [heq, Function.update_self, Option.any_map]
      rfl
    · rw [Function.update_of_ne heq]
  rw [found, found, hany]

/-- The entries that are found are counted and taken away, and their blocks are reset. -/
theorem invalidateEntries_eq {entries : List (Addr × Key)} {blocks : Key → Option BasicBlock} :
    BasicBlockHash.invalidateEntries ra entries blocks =
      (entries.countP (found ra blocks), entries.filter (!found ra blocks ·), fun k =>
        if (getPage ra, k) ∈ entries.filter (found ra blocks) then (blocks k).map BasicBlock.reset
        else blocks k) := by
  induction entries generalizing blocks with
  | nil => rfl
  | cons entry rest ih =>
    obtain ⟨page, bb⟩ := entry
    rw [BasicBlockHash.invalidateEntries]
    split
    case isFalse hmatch =>
      have hfound : found ra blocks (page, bb) = false := decide_eq_false hmatch
      rw [ih]
      simp [hfound]
    case isTrue hmatch =>
      have hfound : found ra blocks (page, bb) = true := decide_eq_true hmatch
      obtain ⟨rfl, -⟩ := hmatch
      have hdrop : ((getPage ra, bb) :: rest).filter (!found ra blocks ·) =
          rest.filter (!found ra blocks ·) := by
        simp [hfound]
      rw [ih, found_update, List.countP_cons_of_pos hfound, List.filter_cons_of_pos hfound, hdrop]
      refine Prod.ext rfl (Prod.ext rfl (funext fun k => ?_))
      dsimp only
      by_cases heq : k = bb
      · subst heq
        -- a block that is found twice is reset once
        have htwice : ((blocks k).map BasicBlock.reset).map BasicBlock.reset =
            (blocks k).map BasicBlock.reset := by
          rw [Option.map_map]
          rfl
        rw [Function.update_self, htwice, ite_self, if_pos List.mem_cons_self]
      · simp [heq]

end Adl.Blocks
