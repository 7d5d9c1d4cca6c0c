import Mathlib.Data.BitVec
import Mathlib.Logic.Function.Basic

/-!
# The hash of basic blocks

Translated code is kept in basic blocks, found by their real address and a mask of micro operations.
A second container lists the blocks of each 4K page, and a small table remembers lookups by
effective address.

A pointer to a block is modelled by its key: blocks leave the container only in `reset`, which
empties the other two as well.
-/

namespace Adl.Blocks

abbrev Addr := BitVec 64

abbrev Mask := BitVec 32

/-- The key of a block, also its address in the host's memory. -/
abbrev Key := Addr × Mask

structure BasicBlock where
  /-- Real address of the first instruction. -/
  startRa : Addr
  /-- Real address of the last instruction. -/
  endRa : Addr
  /-- Number of lookups, to find the blocks that are used often. -/
  hotCount : BitVec 32
  /-- The pointer to the translated code is set. -/
  started : Bool
deriving DecidableEq

namespace BasicBlock

def ofRa (ra : Addr) : BasicBlock := ⟨ra, ra, 0, false⟩

def valid (b : BasicBlock) : Bool := b.started

def incrHotCount (b : BasicBlock) : BasicBlock := { b with hotCount := b.hotCount + 1 }

def matchingAddr (b : BasicBlock) (ra : Addr) : Bool := b.startRa ≤ ra ∧ ra ≤ b.endRa

/-- The addresses stay, so that a reset block can still match. -/
def reset (b : BasicBlock) : BasicBlock := { b with started := false }

end BasicBlock

structure EaHashEntry where
  ea : Addr
  mask : Mask
  bb : Key
deriving DecidableEq

def EaHashEntry.matches (e : EaHashEntry) (a : Addr) (mask : Mask) : Bool :=
  a = e.ea ∧ mask = e.mask

/-- The template parameters of the hash. -/
structure Params where
  instrShift : ℕ
  eaHashBits : ℕ

structure BasicBlockHash where
  blocks : Key → Option BasicBlock
  blocksByPage : List (Addr × Key)
  /-- An entry without a block is `none`. -/
  eaHash : ℕ → Option EaHashEntry

/-- The core's translation of the addresses of instructions, at the time of a call. It is `none`
where the translation throws. -/
abbrev InstrReadTranslate := Addr → Option Addr

/-- How a run of the translator ends. The translator sets the start of the block before it fetches
the first instruction, so that an exception can leave a block behind that is started. -/
inductive Ending where
  | finished
  | threw (started : Bool)
deriving DecidableEq

structure Translation where
  /-- There was no room for another block and the hash has been reset. -/
  full : Bool
  /-- The targets of branches, looked up while the block is translated. -/
  targets : List (Addr × Mask)
  endRa : Addr
  ending : Ending

/-- What a call returns. -/
inductive Reply where
  | block (bb : Key)
  /-- A block without code, for which a branch stub has been made. -/
  | stub (bb : Key)
  /-- The null pointer for a block that is not used often enough. -/
  | cold
  | jitNopCode
  | count (n : ℕ)
  | done
  /-- An exception leaves the call. -/
  | threw
  /-- The call does not return. -/
  | hangs
deriving DecidableEq

def blockPageMask : Addr := 0xfff

def getPage (a : Addr) : Addr := a &&& ~~~blockPageMask

/-- The pages visited by the loop from `s` to `e`. Addresses wrap, and a loop that has not ended
when the fuel is used up is `none`. -/
def pagesFrom : ℕ → Addr → Addr → Option (List Addr)
  | 0, _, _ => none
  | fuel + 1, s, e =>
    if s ≤ e then (pagesFrom fuel (s + (blockPageMask + 1)) e).map (s :: ·) else some []

/-- There are `2 ^ 52` pages: a loop that passes this many pages does not end. -/
def pageFuel : ℕ := 2 ^ 52 + 1

namespace BasicBlockHash

def init : BasicBlockHash := ⟨fun _ => none, [], fun _ => none⟩

def modify (h : BasicBlockHash) (bb : Key) (f : BasicBlock → BasicBlock) : BasicBlockHash :=
  { h with blocks := Function.update h.blocks bb ((h.blocks bb).map f) }

def valid (h : BasicBlockHash) (bb : Key) : Bool := (h.blocks bb).any BasicBlock.valid

def hotCount (h : BasicBlockHash) (bb : Key) : BitVec 32 := ((h.blocks bb).map (·.hotCount)).getD 0

def flushEaHash (h : BasicBlockHash) : BasicBlockHash := { h with eaHash := fun _ => none }

def reset (h : BasicBlockHash) : BasicBlockHash :=
  { h with blocks := fun _ => none, blocksByPage := [] }.flushEaHash

/-! ### Lookups -/

def eaHashFunc (p : Params) (a : Addr) (mask : Mask) : ℕ :=
  let a := a >>> p.instrShift
  let tmp := ((a >>> (2 * p.eaHashBits)) ^^^ (a >>> p.eaHashBits) ^^^ a) + mask.setWidth 64
  (tmp &&& BitVec.ofNat 64 (2 ^ p.eaHashBits - 1)).toNat

def lookupEaHash (p : Params) (h : BasicBlockHash) (ea : Addr) (mask : Mask) : Option Key :=
  ((h.eaHash (eaHashFunc p ea mask)).filter (·.matches ea mask)).map (·.bb)

def insertEaHash (p : Params) (h : BasicBlockHash) (ea : Addr) (mask : Mask) (bb : Key) :
    BasicBlockHash :=
  { h with eaHash := Function.update h.eaHash (eaHashFunc p ea mask) (some ⟨ea, mask, bb⟩) }

/-- Inserts an empty block only if there is none. -/
def getBbRaNoTranslate (h : BasicBlockHash) (ra : Addr) (mask : Mask) : Key × BasicBlockHash :=
  let block := (h.blocks (ra, mask)).getD (.ofRa ra)
  ((ra, mask), { h with blocks := Function.update h.blocks (ra, mask) (some block) })

/-- The block of an effective address; `none` if the address cannot be translated. -/
def getBbEaNoTranslate (p : Params) (core : InstrReadTranslate) (h : BasicBlockHash) (ea : Addr)
    (mask : Mask) (active : Bool) : Option Key × BasicBlockHash :=
  match h.lookupEaHash p ea mask with
  | some bb => (some bb, if active then h.modify bb (·.incrHotCount) else h)
  | none =>
    match core ea with
    | none => (none, h)
    | some ra =>
      let (bb, h) := h.getBbRaNoTranslate ra mask
      let h := h.insertEaHash p ea mask bb
      (some bb, if active then h.modify bb (·.incrHotCount) else h)

def getBbOrStub (p : Params) (core : InstrReadTranslate) (h : BasicBlockHash) (ea : Addr)
    (mask : Mask) : Reply × BasicBlockHash :=
  match h.getBbEaNoTranslate p core ea mask false with
  | (none, h) => (.jitNopCode, h)
  | (some bb, h) => (if h.valid bb then .block bb else .stub bb, h)

/-! ### Translation -/

/-- The translator's work on a block: start it, look up the targets of branches, set the end. -/
def translate (p : Params) (core : InstrReadTranslate) (t : Translation) (h : BasicBlockHash)
    (bb : Key) : BasicBlockHash :=
  if t.ending = .threw false then h
  else
    let h := h.modify bb fun b => { b with started := true }
    let h := t.targets.foldl (fun h (ea, mask) => (h.getBbOrStub p core ea mask).2) h
    h.modify bb fun b => { b with endRa := t.endRa }

def addToPageHash (h : BasicBlockHash) (bb : Key) : Option BasicBlockHash :=
  match h.blocks bb with
  | none => some h
  | some b =>
    (pagesFrom pageFuel (getPage b.startRa) (getPage b.endRa)).map fun pages =>
      { h with blocksByPage := h.blocksByPage ++ pages.map (·, bb) }

/-- The second half of `getBb`, for a block that has no code. -/
def translateBb (p : Params) (core : InstrReadTranslate) (hotThreshold : BitVec 32)
    (t : Translation) (h : BasicBlockHash) (bb : Key) : Reply × BasicBlockHash :=
  if h.hotCount bb < hotThreshold then (.cold, h)
  else
    let h := h.translate p core t bb
    match t.ending with
    | .threw _ => (.threw, h)
    | .finished =>
      match h.addToPageHash bb with
      | none => (.hangs, h)
      | some h => (.block bb, h)

def getBb (p : Params) (core : InstrReadTranslate) (t : Translation) (h : BasicBlockHash)
    (ea : Addr) (mask : Mask) (hotThreshold : BitVec 32) : Reply × BasicBlockHash :=
  match h.getBbEaNoTranslate p core ea mask true with
  | (none, h) => (.threw, h)
  | (some bb, h) =>
    if h.valid bb then (.block bb, h)
    else if t.full then
      -- the reset has erased the block, so it is inserted again
      match h.reset.getBbEaNoTranslate p core ea mask true with
      | (none, h) => (.threw, h)
      | (some bb, h) => h.translateBb p core hotThreshold t bb
    else h.translateBb p core hotThreshold t bb

/-! ### Invalidation -/

/-- The loop of `invalidateRa` over the entries of a page. A block that matches is reset and this
entry of it is erased. Entries of the block for other pages stay. -/
def invalidateEntries (ra : Addr) : List (Addr × Key) → (Key → Option BasicBlock) →
    ℕ × List (Addr × Key) × (Key → Option BasicBlock)
  | [], blocks => (0, [], blocks)
  | (page, bb) :: rest, blocks =>
    if page = getPage ra ∧ (blocks bb).any (·.matchingAddr ra) then
      let (count, entries, blocks) := invalidateEntries ra rest
        (Function.update blocks bb ((blocks bb).map BasicBlock.reset))
      (count + 1, entries, blocks)
    else
      let (count, entries, blocks) := invalidateEntries ra rest blocks
      (count, (page, bb) :: entries, blocks)

def invalidateRa (h : BasicBlockHash) (ra : Addr) : Reply × BasicBlockHash :=
  let (count, entries, blocks) := invalidateEntries ra h.blocksByPage h.blocks
  (.count count, { h with blocks := blocks, blocksByPage := entries })

def invalidateEa (core : InstrReadTranslate) (h : BasicBlockHash) (ea : Addr) :
    Reply × BasicBlockHash :=
  match core ea with
  | some ra => h.invalidateRa ra
  | none => (.count 0, h)

end BasicBlockHash

/-! ### Sequences of calls -/

/-- A call on the hash, with the core's address translation at that time. -/
inductive Op where
  | getBb (core : InstrReadTranslate) (t : Translation) (ea : Addr) (mask : Mask)
      (hotThreshold : BitVec 32)
  | getBbOrStub (core : InstrReadTranslate) (ea : Addr) (mask : Mask)
  | invalidateRa (ra : Addr)
  | invalidateEa (core : InstrReadTranslate) (ea : Addr)
  | flushEaHash
  | reset

def BasicBlockHash.step (p : Params) (h : BasicBlockHash) : Op → Reply × BasicBlockHash
  | .getBb core t ea mask hotThreshold => h.getBb p core t ea mask hotThreshold
  | .getBbOrStub core ea mask => h.getBbOrStub p core ea mask
  | .invalidateRa ra => h.invalidateRa ra
  | .invalidateEa core ea => h.invalidateEa core ea
  | .flushEaHash => (.done, h.flushEaHash)
  | .reset => (.done, h.reset)

end Adl.Blocks
