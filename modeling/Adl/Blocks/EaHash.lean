import Adl.Math.Machine
import Adl.Blocks.Extents

/-!
# The table of effective addresses

Lookups by effective address are remembered in a small table with pointers to the blocks. An entry
stays right as long as the core translates the address in the same way and the block is not taken
out of the hash.
-/

namespace Adl.Blocks

open Adl.Math

variable {p : Params} {core : InstrReadTranslate} {h h' h'' : BasicBlockHash} {bb k : Key}
  {ea ra : Addr} {mask : Mask} {active : Bool}

/-- A lookup without the table. -/
def BasicBlockHash.getBbEaDirect (core : InstrReadTranslate) (h : BasicBlockHash) (ea : Addr)
    (mask : Mask) (active : Bool) : Option Key × BasicBlockHash :=
  match core ea with
  | none => (none, h)
  | some ra =>
    let (bb, h) := h.getBbRaNoTranslate ra mask
    (some bb, if active then h.modify bb (·.incrHotCount) else h)

/-- An entry has the block for the translated address and its mask, and the block is in the hash. -/
structure EaHashEntry.Right (core : InstrReadTranslate) (h : BasicBlockHash) (x : EaHashEntry) :
    Prop where
  translated : core x.ea = some x.bb.1
  mask : x.bb.2 = x.mask
  present : (h.blocks x.bb).isSome

def Tracks (core : InstrReadTranslate) (h : BasicBlockHash) : Prop :=
  ∀ i x, h.eaHash i = some x → x.Right core h

/-- No block is taken out of the hash, and new entries of the table are right. -/
structure Extends (core : InstrReadTranslate) (h h' : BasicBlockHash) : Prop where
  grows : ∀ bb, (h.blocks bb).isSome → (h'.blocks bb).isSome
  entries : ∀ i x, h'.eaHash i = some x → h.eaHash i = some x ∨ x.Right core h'

theorem EaHashEntry.Right.mono {x : EaHashEntry} (hx : x.Right core h)
    (hgrows : ∀ bb, (h.blocks bb).isSome → (h'.blocks bb).isSome) : x.Right core h' :=
  ⟨hx.translated, hx.mask, hgrows _ hx.present⟩

theorem Extends.tracks (hext : Extends core h h') (ht : Tracks core h) : Tracks core h' := by
  intro i x hx
  rcases hext.entries i x hx with hold | hright
  · exact (ht i x hold).mono hext.grows
  · exact hright

theorem tracks_reset : Tracks core h.reset := fun _ _ hx => by cases hx

/-! ### Calls -/

namespace Extends

theorem refl : Extends core h h := ⟨fun _ hb => hb, fun _ _ hx => .inl hx⟩

theorem trans (h₁ : Extends core h h') (h₂ : Extends core h' h'') : Extends core h h'' := by
  refine ⟨fun bb hb => h₂.grows bb (h₁.grows bb hb), fun i x hx => ?_⟩
  rcases h₂.entries i x hx with hold | hright
  · rcases h₁.entries i x hold with hold | hright
    · exact .inl hold
    · exact .inr (hright.mono h₂.grows)
  · exact .inr hright

/-- The table has not changed. -/
theorem of_eaHash (hgrows : ∀ bb, (h.blocks bb).isSome → (h'.blocks bb).isSome)
    (htable : h'.eaHash = h.eaHash) : Extends core h h' :=
  ⟨hgrows, fun _ _ hx => .inl (htable ▸ hx)⟩

theorem modify {f : BasicBlock → BasicBlock} : Extends core h (h.modify bb f) := by
  refine of_eaHash (fun k hk => ?_) rfl
  by_cases heq : k = bb
  · subst heq
    rwa [modify_blocks_self, Option.isSome_map]
  · rwa [modify_blocks_of_ne heq]

theorem incrHotCount : Extends core h (if active then h.modify bb (·.incrHotCount) else h) := by
  split
  · exact modify
  · exact refl

theorem getBbRaNoTranslate : Extends core h (h.getBbRaNoTranslate ra mask).2 := by
  refine of_eaHash (fun k hk => ?_) rfl
  by_cases heq : k = (ra, mask)
  · subst heq
    rw [getBbRaNoTranslate_blocks_self]
    rfl
  · rwa [getBbRaNoTranslate_blocks_of_ne heq]

theorem insertEaHash (hcore : core ea = some ra) (hblock : (h.blocks (ra, mask)).isSome) :
    Extends core h (h.insertEaHash p ea mask (ra, mask)) := by
  refine ⟨fun _ hb => hb, fun i x hx => ?_⟩
  by_cases heq : i = BasicBlockHash.eaHashFunc p ea mask
  · subst heq
    simp only [BasicBlockHash.insertEaHash, Function.update_self, Option.some.injEq] at hx
    subst hx
    exact .inr ⟨hcore, rfl, hblock⟩
  · simp only [BasicBlockHash.insertEaHash, Function.update_of_ne heq] at hx
    exact .inl hx

theorem getBbEaNoTranslate :
    Extends core h (h.getBbEaNoTranslate p core ea mask active).2 := by
  unfold BasicBlockHash.getBbEaNoTranslate
  split
  · exact incrHotCount
  · split
    case h_1 => exact refl
    case h_2 ra hcore =>
      have hblock : ((h.getBbRaNoTranslate ra mask).2.blocks (ra, mask)).isSome := by
        rw [getBbRaNoTranslate_blocks_self]
        rfl
      exact getBbRaNoTranslate.trans ((insertEaHash hcore hblock).trans (by exact incrHotCount))

theorem getBbOrStub : Extends core h (h.getBbOrStub p core ea mask).2 := by
  have hlookup : Extends core h (h.getBbEaNoTranslate p core ea mask false).2 := getBbEaNoTranslate
  unfold BasicBlockHash.getBbOrStub
  split
  case h_1 hr => rwa [hr] at hlookup
  case h_2 hr => rwa [hr] at hlookup

theorem targets {targets : List (Addr × Mask)} :
    Extends core h (targets.foldl (fun h (ea, mask) => (h.getBbOrStub p core ea mask).2) h) := by
  induction targets generalizing h with
  | nil => exact refl
  | cons target rest ih => exact getBbOrStub.trans ih

theorem translate {t : Translation} : Extends core h (h.translate p core t bb) := by
  unfold BasicBlockHash.translate
  split
  · exact refl
  · exact modify.trans (targets.trans modify)

theorem addToPageHash (hadd : h.addToPageHash bb = some h') : Extends core h h' := by
  unfold BasicBlockHash.addToPageHash at hadd
  split at hadd
  · obtain rfl := Option.some.inj hadd
    exact refl
  · obtain ⟨pages, -, rfl⟩ := Option.map_eq_some_iff.mp hadd
    exact of_eaHash (fun _ hb => hb) rfl

theorem translateBb {hotThreshold : BitVec 32} {t : Translation} :
    Extends core h (h.translateBb p core hotThreshold t bb).2 := by
  unfold BasicBlockHash.translateBb
  split
  · exact refl
  · dsimp only
    split
    · exact translate
    · split
      case h_1 => exact translate
      case h_2 hadd => exact translate.trans (addToPageHash hadd)

theorem invalidateRa : Extends core h (h.invalidateRa ra).2 := by
  refine of_eaHash (fun bb hb => ?_) rfl
  rw [BasicBlockHash.invalidateRa, invalidateEntries_eq]
  dsimp only
  split
  · rwa [Option.isSome_map]
  · exact hb

end Extends

theorem Tracks.getBb {t : Translation} {hotThreshold : BitVec 32} (ht : Tracks core h) :
    Tracks core (h.getBb p core t ea mask hotThreshold).2 := by
  have hlookup {h : BasicBlockHash} (ht : Tracks core h) {r : Option Key × BasicBlockHash}
      (hr : h.getBbEaNoTranslate p core ea mask true = r) : Tracks core r.2 :=
    hr ▸ Extends.getBbEaNoTranslate.tracks ht
  -- a lookup, and a translation if the block has no code and is hot
  unfold BasicBlockHash.getBb
  split
  case h_1 hr => exact hlookup ht hr
  case h_2 hr =>
    have ht := hlookup ht hr
    split
    · exact ht
    · split
      · -- the table is empty after the reset
        split
        case h_1 hr => exact hlookup tracks_reset hr
        case h_2 hr => exact Extends.translateBb.tracks (hlookup tracks_reset hr)
      · exact Extends.translateBb.tracks ht

/-! ### Lookups -/

/-- What the table has for an address is the block of the translated address. -/
theorem Tracks.of_lookupEaHash (ht : Tracks core h) (hfound : h.lookupEaHash p ea mask = some bb) :
    core ea = some bb.1 ∧ bb.2 = mask ∧ (h.blocks bb).isSome := by
  obtain ⟨x, hx, rfl⟩ := Option.map_eq_some_iff.mp hfound
  obtain ⟨hentry, hmatch⟩ := Option.filter_eq_some_iff.mp hx
  obtain ⟨rfl, rfl⟩ := of_decide_eq_true hmatch
  have hright := ht _ x hentry
  exact ⟨hright.translated, hright.mask, hright.present⟩

/-- A block that is in the hash is not inserted again. -/
theorem getBbRaNoTranslate_of_present (hblock : (h.blocks (ra, mask)).isSome) :
    h.getBbRaNoTranslate ra mask = ((ra, mask), h) := by
  obtain ⟨b, hb⟩ := Option.isSome_iff_exists.mp hblock
  rw [BasicBlockHash.getBbRaNoTranslate, hb, Option.getD_some, ← hb, Function.update_eq_self]

/-- A lookup does what it does without the table, apart from the table itself. -/
theorem Tracks.getBbEaNoTranslate_eq (ht : Tracks core h) :
    (h.getBbEaNoTranslate p core ea mask active).1 = (h.getBbEaDirect core ea mask active).1 ∧
      (h.getBbEaNoTranslate p core ea mask active).2.flushEaHash =
        (h.getBbEaDirect core ea mask active).2.flushEaHash := by
  rw [BasicBlockHash.getBbEaNoTranslate, BasicBlockHash.getBbEaDirect]
  split
  case h_1 bb hfound =>
    obtain ⟨hcore, rfl, hblock⟩ := ht.of_lookupEaHash hfound
    rw [hcore]
    dsimp only
    rw [getBbRaNoTranslate_of_present hblock]
    exact ⟨rfl, rfl⟩
  case h_2 =>
    cases core ea with
    | none => exact ⟨rfl, rfl⟩
    | some ra => cases active <;> exact ⟨rfl, rfl⟩

theorem getBbEaDirect_fst :
    (h.getBbEaDirect core ea mask active).1 = (core ea).map (·, mask) := by
  rw [BasicBlockHash.getBbEaDirect]
  cases core ea <;> rfl

/-! ### Sequences of calls -/

/-- A call by a core. Its address translation is part of the state, and changes together with a
flush of the table. -/
inductive CoreOp where
  | getBb (t : Translation) (ea : Addr) (mask : Mask) (hotThreshold : BitVec 32)
  | getBbEaNoTranslate (ea : Addr) (mask : Mask) (active : Bool)
  | getBbRaNoTranslate (ra : Addr) (mask : Mask)
  | getBbOrStub (ea : Addr) (mask : Mask)
  | invalidateRa (ra : Addr)
  | invalidateEa (ea : Addr)
  | reset
  /-- The table is flushed, and addresses may be translated in another way from now on. -/
  | flushEaHash (core : InstrReadTranslate)

/-- A core with its hash, after a call. -/
def CoreOp.exec (p : Params) (s : InstrReadTranslate × BasicBlockHash) :
    CoreOp → InstrReadTranslate × BasicBlockHash
  | .getBb t ea mask hotThreshold => (s.1, (s.2.getBb p s.1 t ea mask hotThreshold).2)
  | .getBbEaNoTranslate ea mask active => (s.1, (s.2.getBbEaNoTranslate p s.1 ea mask active).2)
  | .getBbRaNoTranslate ra mask => (s.1, (s.2.getBbRaNoTranslate ra mask).2)
  | .getBbOrStub ea mask => (s.1, (s.2.getBbOrStub p s.1 ea mask).2)
  | .invalidateRa ra => (s.1, (s.2.invalidateRa ra).2)
  | .invalidateEa ea => (s.1, (s.2.invalidateEa s.1 ea).2)
  | .reset => (s.1, s.2.reset)
  | .flushEaHash core => (core, s.2.flushEaHash)

theorem Tracks.exec {s : InstrReadTranslate × BasicBlockHash} (ht : Tracks s.1 s.2) (op : CoreOp) :
    Tracks (op.exec p s).1 (op.exec p s).2 := by
  obtain ⟨core, h⟩ := s
  cases op with
  | getBb t ea mask hotThreshold => exact ht.getBb
  | getBbEaNoTranslate ea mask active => exact Extends.getBbEaNoTranslate.tracks ht
  | getBbRaNoTranslate ra mask => exact Extends.getBbRaNoTranslate.tracks ht
  | getBbOrStub ea mask => exact Extends.getBbOrStub.tracks ht
  | invalidateRa ra => exact Extends.invalidateRa.tracks ht
  | invalidateEa ea =>
    rw [CoreOp.exec, BasicBlockHash.invalidateEa]
    dsimp only
    split
    · exact Extends.invalidateRa.tracks ht
    · exact ht
  | reset => exact tracks_reset
  | flushEaHash core' => exact fun _ _ hx => by cases hx

/-- After every sequence of calls, starting with a new table, a lookup returns the block for the
translated address and the mask, and does to the blocks what it does without the table. -/
theorem lookups_transparent (p : Params) (core : InstrReadTranslate) (ops : List CoreOp) (ea : Addr)
    (mask : Mask) (active : Bool) :
    let (core', h) := ops.foldl (CoreOp.exec p) (core, .init)
    (h.getBbEaNoTranslate p core' ea mask active).1 = (core' ea).map (·, mask) ∧
      (h.getBbEaNoTranslate p core' ea mask active).1 =
        (h.getBbEaDirect core' ea mask active).1 ∧
      (h.getBbEaNoTranslate p core' ea mask active).2.flushEaHash =
        (h.getBbEaDirect core' ea mask active).2.flushEaHash := by
  have htracks : Tracks (ops.foldl (CoreOp.exec p) (core, .init)).1
      (ops.foldl (CoreOp.exec p) (core, .init)).2 :=
    List.foldlRecOn (motive := fun s : InstrReadTranslate × BasicBlockHash => Tracks s.1 s.2) _ _
      (fun _ _ hx => by cases hx) fun s hs op _ => hs.exec op
  exact ⟨htracks.getBbEaNoTranslate_eq.1.trans getBbEaDirect_fst, htracks.getBbEaNoTranslate_eq⟩

end Adl.Blocks
