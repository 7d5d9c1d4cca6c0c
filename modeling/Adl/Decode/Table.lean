import Adl.Math.Mask
import Adl.Math.KeyedList

/-!
# Decode tables: data model

The front end turns the encodings of an instruction set into an m-ary tree of masks
(`fe/InstrTable.h`). Numbers of the encoding width are `BitVec W`; bit 0 of an encoding is its most
significant bit, so the first 32-bit word holds the top bits.
-/

namespace Adl.Decode

open Adl.Math

variable {W : ℕ}

/-- What the decode table reads of an instruction. Objects are compared by address in the
sources; `id` stands for that address. The encoding masks and values are those returned by
`get_opc_mask`, `get_conflict_mask` and `getOpcode` for the width of the table. -/
structure Instr (W : ℕ) where
  id : ℕ
  name : String
  /-- Width of the instruction in bits, at most the width of the table. -/
  width : ℕ
  opcMask : BitVec W
  opcode : BitVec W
  /-- The bits of all fields tagged `allow_conflict`. -/
  conflictMask : BitVec W := 0
  /-- The instruction's own `allow_conflict` tag. -/
  allowConflict : Bool := false
  shorthand : Bool := false
  /-- Targets of the aliases of a shorthand. -/
  aliases : List ℕ := []
  /-- Opcode values are assembled from the fields that make up the opcode mask. -/
  opcode_within : Within opcode opcMask
deriving DecidableEq

inductive DecodeError (W : ℕ) where
  | maskAlreadySet
  | bigMask
  | conflictPair (first second : String)
  | conflictGroup (names : List String)
  | noCommonOpcodes (first second : String)
  | noOpcodeFields (name : String)
  | leafOccupied (name existing : String)
  | notConfined (mask : BitVec W)
deriving DecidableEq

def DecodeError.what : DecodeError W → String
  | maskAlreadySet => "Trying to set mask to already set node"
  | bigMask => "Trying to set big mask."
  | conflictPair first second =>
    "Conflict between instructions:  '" ++ first ++ "','" ++ second ++ "'.\n"
  | conflictGroup names =>
    "Conflict between instructions:  Could not build decision tree based on these instructions:"
      ++ String.join (names.map fun name => " '" ++ name ++ "'") ++ ".\n"
  | noCommonOpcodes first second =>
    "No common opcodes between instruction " ++ first ++ " and instruction " ++ second ++ "."
  | noOpcodeFields name => "Instruction '" ++ name ++ "' has no opcode fields."
  | leafOccupied name existing =>
    name ++ "Encountered a leaf-node in table already occupied by an instruction: " ++ existing
      ++ " (existing item)."
  | notConfined mask =>
    "Mask 0x" ++ String.ofList (Nat.toDigits 16 mask.toNat) ++ " is not confined to one word."

/-- Outcomes other than a value: a decode error, a failed `assert`, or recursion that is
still going when the depth given to it is used up. -/
inductive Failure (W : ℕ) where
  | decode (error : DecodeError W)
  | assertion
  | outOfFuel
deriving DecidableEq

/-- Results of operations on a table of width `W`. -/
abbrev Result (W : ℕ) (α : Type) := Except (Failure W) α

theorem bind_eq_ok {α β : Type} {x : Result W α} {f : α → Result W β} {b : β} :
    x >>= f = .ok b ↔ ∃ a, x = .ok a ∧ f a = .ok b := by
  cases x with
  | error e => simp [bind, Except.bind]
  | ok a => simp [bind, Except.bind]

theorem mapM_eq_ok {α β : Type} {f : α → Result W β} {l : List α} {l' : List β} :
    l.mapM f = .ok l' ↔ List.Forall₂ (fun a b => f a = .ok b) l l' := by
  induction l generalizing l' with
  | nil => simp [pure, Except.pure, eq_comm]
  | cons a rest ih =>
    rw [List.mapM_cons, bind_eq_ok, List.forall₂_cons_left_iff]
    constructor
    · rintro ⟨b, hb, h⟩
      obtain ⟨rest', hrest, heq⟩ := bind_eq_ok.mp h
      cases heq
      exact ⟨b, rest', hb, ih.mp hrest, rfl⟩
    · rintro ⟨b, rest', hb, hrest, rfl⟩
      exact ⟨b, hb, bind_eq_ok.mpr ⟨rest', ih.mpr hrest, rfl⟩⟩

/-- A node of the decode tree. The cases in `table` are kept in increasing order of their
keys, which are values under `mask` and not justified. -/
structure InstrTable (W : ℕ) where
  /-- The encoding word construction has got to. -/
  word : ℕ := 0
  mask : BitVec W := 0
  table : List (BitVec W × InstrTable W) := []
  /-- Tried when no case applies, in tables with conflicts. -/
  defaultTable : Option (InstrTable W) := none
  /-- Whether the default table comes from conflict fields named by the user. -/
  defaultConflict : Bool := false
  instr : Option (Instr W) := none
  shorthands : List (Instr W) := []

namespace InstrTable

@[elab_as_elim]
theorem induction {motive : InstrTable W → Prop}
    (node : ∀ t : InstrTable W, (∀ k c, (k, c) ∈ t.table → motive c) →
      (∀ d, t.defaultTable = some d → motive d) → motive t) (t : InstrTable W) : motive t :=
  onTable t
where
  onTable : ∀ t : InstrTable W, motive t
    | ⟨word, mask, table, dflt, dc, instr, sh⟩ =>
      node ⟨word, mask, table, dflt, dc, instr, sh⟩ (onCases table) (onDefault dflt)
  onCases : ∀ (l : List (BitVec W × InstrTable W)), ∀ k c, (k, c) ∈ l → motive c
    | [], _, _, h => absurd h List.not_mem_nil
    | (_, c') :: rest, k, c, h => by
      rcases List.mem_cons.mp h with heq | hrest
      · cases heq
        exact onTable c'
      · exact onCases rest k c hrest
  onDefault : ∀ (o : Option (InstrTable W)), ∀ d, o = some d → motive d
    | none, _, h => nomatch h
    | some d', d, h => Option.some_inj.mp h ▸ onTable d'

def find (t : InstrTable W) (key : BitVec W) : Option (InstrTable W) :=
  KeyedList.find key t.table

end InstrTable

/-! ### Masks and words -/

/-- Position of the lowest bit of a mask, counted from the right. -/
def getShift (mask : BitVec W) : ℕ :=
  ((List.range W).find? (mask.getLsbD ·)).getD 0

def getNorm (mask : BitVec W) : ℕ :=
  (List.range W).countP (mask.getLsbD ·)

/-- True if the mask is nonzero in at most one word. -/
def legalMask (mask : BitVec W) : Bool :=
  mask >>> (32 * (getShift mask / 32) + 32) == 0

def wordPart (mask : BitVec W) (word : ℕ) : BitVec W :=
  let l := 32 * word
  let r := W - 32 * (word + 1)
  (((mask <<< l) >>> l) >>> r) <<< r

/-- The first nonzero word part from `word` on, or the whole mask if there is none. -/
def splitMask (mask : BitVec W) (word : ℕ) : BitVec W :=
  go mask (W / 32 - word) word
where
  go (mask : BitVec W) : ℕ → ℕ → BitVec W
    | 0, _ => mask
    | left + 1, word =>
      if wordPart mask word ≠ 0 then wordPart mask word else go mask left (word + 1)

namespace InstrTable

/-- Give a node its mask. The mask of a node is set once and stays inside one word. -/
def setMask (t : InstrTable W) (mask : BitVec W) : Result W (InstrTable W) :=
  if t.mask ≠ 0 then .error (.decode .maskAlreadySet)
  else if !legalMask mask then .error (.decode .bigMask)
  else if mask ≠ 0 then .ok { t with mask := mask }
  else .ok t

theorem setMask_eq_ok {t t' : InstrTable W} {mask : BitVec W} :
    t.setMask mask = .ok t' ↔
      t.mask = 0 ∧ legalMask mask = true ∧ t' = { t with mask := mask } := by
  obtain ⟨_, _, _, _, _, _, _⟩ := t
  unfold setMask
  split_ifs with hset hlegal hmask
  · exact ⟨nofun, fun h => absurd h.1 hset⟩
  · exact ⟨nofun, fun h => absurd h.2.1 (by simpa using hlegal)⟩
  · exact ⟨fun h => ⟨not_not.mp hset, by simpa using hlegal, (Except.ok.inj h).symm⟩,
      fun h => congrArg _ h.2.2.symm⟩
  · obtain rfl : mask = 0 := not_not.mp hmask
    obtain rfl := not_not.mp hset
    exact ⟨fun h => ⟨rfl, by simpa using hlegal, (Except.ok.inj h).symm⟩,
      fun h => congrArg _ h.2.2.symm⟩

/-- Add a branch with an empty node below it; an existing branch stays. -/
def addNode (t : InstrTable W) (value : BitVec W) : InstrTable W :=
  { t with table := KeyedList.insert (t.mask &&& value) {} t.table }

def setChild (t : InstrTable W) (key : BitVec W) (child : InstrTable W) : InstrTable W :=
  { t with table := KeyedList.replace key child t.table }

theorem find_addNode (t : InstrTable W) (value key : BitVec W) :
    (t.addNode value).find key =
      if key = t.mask &&& value then some ((t.find (t.mask &&& value)).getD {})
      else t.find key :=
  KeyedList.find_insert _ _ _ _

theorem find_setChild (t c : InstrTable W) (key key' : BitVec W) :
    (t.setChild key c).find key' =
      if key' = key then (t.find key).map (fun _ => c) else t.find key' :=
  KeyedList.find_replace _ _ _ _

end InstrTable

end Adl.Decode
