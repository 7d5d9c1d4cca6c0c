import Adl.Decode.Table

/-!
# Building a decode tree

`InstrTable::build_tree` and its helpers (`fe/InstrTable.C`). The sources recurse through five
methods; here each helper takes the recursive call as its argument `build`, and `buildTree` ties the
knot with a bound on the depth of recursion.
-/

namespace Adl.Decode

open Adl.Math

variable {W : ℕ}

/-! ### Properties of a list of instructions -/

def getCommonOpc (instrs : List (Instr W)) : BitVec W :=
  instrs.foldl (fun mask i => mask &&& i.opcMask) (BitVec.allOnes W)

/-- The conflict fields of a list of instructions, cut off after the smallest instruction. -/
def getConflictMask (instrs : List (Instr W)) : BitVec W :=
  let mask := instrs.foldl (fun mask i => mask ||| i.conflictMask) 0
  let sw := instrs.foldl (fun sw i => min sw i.width) (2 ^ 32 - 1)
  if sw < W then (mask >>> (W - sw)) <<< (W - sw) else mask

def getCommonInstrs (val mask : BitVec W) (instrs : List (Instr W)) : List (Instr W) :=
  instrs.filter fun i => i.opcode &&& mask == val && !i.shorthand

/-- All values of the opcodes under a mask, in increasing order. -/
def getValues (mask : BitVec W) (instrs : List (Instr W)) : List (BitVec W) :=
  instrs.foldl (fun vals i => KeyedList.insertElem (mask &&& i.opcode) vals) []

def maxMask (instrs : List (Instr W)) : Option (Instr W) :=
  (instrs.foldl
    (fun acc i => if getNorm acc.1 ≤ getNorm i.opcMask then (i.opcMask, some i) else acc)
    ((0 : BitVec W), none)).2

def sortByMask (instrs : List (Instr W)) : List (Instr W) :=
  go instrs.length instrs
where
  go : ℕ → List (Instr W) → List (Instr W)
    | 0, instrs => instrs
    | n + 1, instrs =>
      if instrs.length ≤ 1 then instrs
      else match maxMask instrs with
        | none => instrs
        | some head => head :: go n (instrs.filter fun i => i.id != head.id)

/-! ### Conflicts -/

/-- The pairs of instructions that break the encoding rules: no common opcode bits, or the
same common opcode and masks that differ. -/
def conflicting (i j : Instr W) : Bool :=
  let m := i.opcMask &&& j.opcMask
  m == 0 ||
    (i.opcode &&& m == j.opcode &&& m && (m != i.opcMask || m != j.opcMask))

/-- The first pair that breaks the encoding rules. Masks are compared at the width of the
table: beyond the wider instruction of a pair both have no bits. -/
def findConflict : List (Instr W) → Option (Instr W × Instr W)
  | [] => none
  | i :: rest =>
    match rest.find? (conflicting i) with
    | some j => some (i, j)
    | none => findConflict rest

/-- The error raised for a group of instructions that cannot be told apart. -/
def conflictError (instrs : List (Instr W)) : DecodeError W :=
  match findConflict instrs with
  | some (i, j) => .conflictPair i.name j.name
  | none => .conflictGroup (instrs.map Instr.name)

def reportConflict {α : Type} (instrs : List (Instr W)) : Result W α :=
  .error (.decode (conflictError instrs))

/-- Check that each mask of a sorted group contains the next one, and that neighbours with
the same mask have different opcodes. A failed check is an error only on request. -/
def checkOverlap (instrs : List (Instr W)) (signalError : Bool) : Result W Bool :=
  if instrs.length = 1 then .ok true else go instrs
where
  go : List (Instr W) → Result W Bool
    | i :: j :: rest =>
      if i.opcMask ||| j.opcMask ≠ i.opcMask ∨ i.opcMask = j.opcMask then
        let m := i.opcMask &&& j.opcMask
        if m ≠ j.opcMask then
          -- the sort was not good enough, the order is not correct
          if signalError then reportConflict instrs else .ok false
        else if m &&& i.opcode = m &&& j.opcode then
          if signalError then reportConflict [i, j] else .ok false
        else go (j :: rest)
      else go (j :: rest)
    | _ => .ok true

/-! ### Building a node -/

/-- The recursive call: build a node from a list of instructions, the bits already used on
the way to it and the conflict bits already used. -/
abbrev Builder (W : ℕ) :=
  InstrTable W → List (Instr W) → BitVec W → BitVec W → Result W (InstrTable W × Bool)

def buildChild (build : Builder W) (t : InstrTable W) (key : BitVec W)
    (instrs : List (Instr W)) (used usedConflict : BitVec W) : Result W (InstrTable W × Bool) := do
  let (child, done) ← build ((t.find key).getD {}) instrs used usedConflict
  return (t.setChild key child, done)

/-- For a set of values, add a branch for each and continue building below it. -/
def addToTree (build : Builder W) (t : InstrTable W) (values : List (BitVec W))
    (instrs : List (Instr W)) (mask used usedConflict : BitVec W) :
    Result W (InstrTable W × Bool) := do
  let t ← t.setMask mask
  go t values
where
  go (t : InstrTable W) : List (BitVec W) → Result W (InstrTable W × Bool)
    | [] => .ok (t, true)
    | v :: rest => do
      let t := t.addNode v
      let tmp := getCommonInstrs v t.mask instrs
      let (t, done) ← buildChild build t v tmp (t.mask ||| used) usedConflict
      if done then go t rest else .ok (t, false)

/-- Conflicts go into the default table, everything else is handled as normal. -/
def addConflictSets (build : Builder W) (t : InstrTable W) (normal conflict : List (Instr W))
    (defaultConflict : Bool) (cmask used usedConflict : BitVec W) :
    Result W (InstrTable W × Bool) := do
  let nvalues := getValues cmask normal
  let (t, done) ← addToTree build t nvalues normal cmask used usedConflict
  if !done then return (t, false)
  -- the conflict mask is not part of the opcode, but it is recorded as used, so that the
  -- construction does not come back to it for the next word
  let (d, done) ← build {} conflict used (usedConflict ||| cmask)
  return ({ t with defaultTable := some d, defaultConflict := defaultConflict }, done)

/-- Build this node from the conflict fields the user has named. -/
def tryWithConflicts (build : Builder W) (t : InstrTable W) (instrs : List (Instr W))
    (cmask used usedConflict : BitVec W) : Result W (InstrTable W × Bool) :=
  let normal := instrs.filter fun i => cmask &&& i.opcMask == cmask
  let conflict := instrs.filter fun i => cmask &&& i.opcMask != cmask
  addConflictSets build t normal conflict true cmask used usedConflict

/-- Build a node for instructions that have the same opcode under the next part of their
common mask. They must form a group ordered by inclusion of masks; the smallest is left for
this node once all its bits are used. -/
def constructTreeFromInstrs (build : Builder W) (t : InstrTable W) (instrs : List (Instr W))
    (used usedConflict : BitVec W) (atEnd : Bool) : Result W (InstrTable W × Bool) := do
  let tmp := sortByMask instrs
  if !(← checkOverlap tmp atEnd) then
    -- try again using the next word
    return ({ t with word := t.word + 1 }, false)
  match tmp.getLast? with
  | none => return (t, true)
  | some last =>
    let mask := splitMask (used ^^^ last.opcMask) 0
    if mask ≠ 0 then
      let val := mask &&& last.opcode
      let t ← t.setMask mask
      let t := t.addNode (mask &&& val)
      -- the list of instructions stays the same, since they may span a word
      let (t, _) ← buildChild build t (mask &&& val) tmp (t.mask ||| used) usedConflict
      return (t, true)
    else
      let (t, _) ← build t tmp.dropLast used usedConflict
      return (t, true)

/-- The masks scanned by `tryConflictPartitioning`: the common mask, the first mask found
that does not overlap perfectly, and whether conflicts are allowed. -/
def scanConflicts : List (Instr W) → BitVec W × BitVec W × Bool → BitVec W × BitVec W × Bool
  | i :: j :: rest, (common, conflict, allowed) =>
    let common := common &&& i.opcMask &&& j.opcMask
    let conflict :=
      if conflict = 0 ∧ i.opcMask ||| j.opcMask ≠ i.opcMask then
        if i.opcMask &&& ~~~common ≠ 0 then i.opcMask &&& ~~~common
        else j.opcMask &&& ~~~common
      else conflict
    scanConflicts (j :: rest) (common, conflict, allowed || i.allowConflict)
  | _, acc => acc

/-- Break the opcodes up into two groups around a common opcode portion: a node for the
common portion, below it a fixed portion and a default case. -/
def tryConflictPartitioning (build : Builder W) (t : InstrTable W) (instrs : List (Instr W))
    (used usedConflict : BitVec W) : Result W (InstrTable W × Bool) := do
  if instrs.length ≤ 1 then .error .assertion
  let (common, conflict, allowed) := scanConflicts instrs (BitVec.allOnes W, 0, false)
  if !allowed ∨ conflict = 0 then reportConflict instrs
  if common = 0 then
    match instrs with
    | i :: j :: _ => .error (.decode (.noCommonOpcodes i.name j.name))
    | _ => .error .assertion
  let grp1 := instrs.filter fun i => i.opcMask &&& conflict != 0
  let grp2 := instrs.filter fun i => i.opcMask &&& conflict == 0
  match grp1.getLast?, grp2 with
  | some last, _ :: _ =>
    -- the bits of this node are not wanted in the mask of the next one
    let conflict := conflict &&& ~~~common
    let val := common &&& last.opcode
    let common := splitMask common t.word
    let t ← t.setMask common
    let key := common &&& val
    let t := t.addNode key
    let (node, done) ← overWords grp1 grp2 conflict (used ||| common) (usedConflict ||| common)
      (W / 32) 0 ((t.find key).getD {})
    return (t.setChild key node, done)
  | _, _ => .error .assertion
where
  /-- Try across all possible words. -/
  overWords (grp1 grp2 : List (Instr W)) (conflict used usedConflict : BitVec W) :
      ℕ → ℕ → InstrTable W → Result W (InstrTable W × Bool)
    | 0, _, node => .ok (node, false)
    | left + 1, w, node => do
      let cmask := splitMask conflict w
      let (node, done) ← addConflictSets build { node with word := w } grp1 grp2 false cmask
        used usedConflict
      if done then return (node, true)
      overWords grp1 grp2 conflict used usedConflict left (w + 1) node

/-- A lone instruction becomes a chain of nodes, one for each word its opcode is in. -/
def buildSingle (build : Builder W) (t : InstrTable W) (instr : Instr W)
    (mask used usedConflict : BitVec W) : Result W (InstrTable W × Bool) := do
  if mask = 0 then return (t, true)
  let t ← t.setMask mask
  let t := t.addNode (mask &&& instr.opcode)
  let common := getCommonOpc [instr]
  let result := (t.mask ||| used) ^^^ common
  if result = 0 then return (t, true)
  -- bits in excess of the opcode would make the recursion run away
  if common &&& result = 0 then .error .assertion
  let (t, _) ← buildChild build t (mask &&& instr.opcode) [instr] (t.mask ||| used) usedConflict
  return (t, true)

/-- One pass over the encoding words, from the word of the node on. The result is `none` if
no word can be used. -/
def overWords (build : Builder W) (instrs : List (Instr W)) (used usedConflict : BitVec W)
    (allowConflict : Bool) : ℕ → InstrTable W → Result W (InstrTable W × Option Bool)
  | 0, t => .ok (t, none)
  | left + 1, t => do
    let omask := used ^^^ getCommonOpc instrs
    let atEnd := left = 0 && allowConflict
    let mask := splitMask omask t.word
    match instrs with
    | [instr] =>
      let (t, done) ← buildSingle build t instr mask used usedConflict
      return (t, some done)
    | _ =>
      let values := getValues mask instrs
      if values.length ≠ 1 then
        let (t, done) ← addToTree build t values instrs mask used usedConflict
        return (t, some done)
      -- many instructions with one common opcode value
      let cmask := getConflictMask instrs &&& ~~~usedConflict
      if allowConflict && cmask ≠ 0 then
        let (t, done) ← tryWithConflicts build t instrs cmask used usedConflict
        return (t, some done)
      let (t, done) ← if allowConflict then
          tryConflictPartitioning build t instrs used usedConflict
        else .ok (t, false)
      if done then return (t, some true)
      let (t, done) ← constructTreeFromInstrs build t instrs used usedConflict atEnd
      if done then return (t, some true)
      overWords build instrs used usedConflict allowConflict left t

/-- The body of `build_tree`: a first pass without the conflict masks, and a second one that
may use them. -/
def buildStep (build : Builder W) : Builder W := fun t instrs used usedConflict => do
  match ← overWords build instrs used usedConflict false (W / 32) { t with word := 0 } with
  | (t, some done) => return (t, done)
  | (t, none) =>
    match ← overWords build instrs used usedConflict true (W / 32) { t with word := 0 } with
    | (t, some done) => return (t, done)
    | (t, none) => return (t, false)

/-- Build a decode tree, with a bound on the depth of recursion. -/
def buildTree : ℕ → Builder W
  | 0 => fun _ _ _ _ => .error .outOfFuel
  | fuel + 1 => buildStep (buildTree fuel)

end Adl.Decode
