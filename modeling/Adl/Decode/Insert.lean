import Adl.Decode.Build

/-!
# Filling a decode tree

`InstrTable::add_instr_internal` walks an instruction to the node it belongs to, and
`InstrTable::add_instrs` does so for a whole instruction set (`fe/InstrTable.C`). Shorthands follow
the instructions they stand for.
-/

namespace Adl.Decode

open Adl.Math

variable {W : ℕ}

/-- An instruction has arrived at a node without branches. -/
def placeAtLeaf (instr : Instr W) (t : InstrTable W) : Result W (InstrTable W) :=
  match t.instr with
  | some existing =>
    if instr.shorthand then
      -- recorded only if it stands for one instruction
      if instr.aliases.length = 1 then
        .ok { t with shorthands := t.shorthands ++ [instr] }
      else .ok t
    else .error (.decode (.leafOccupied instr.name existing.name))
  | none => .ok { t with instr := some instr }

mutual

/-- Add a single instruction; `usedBits` are the bits checked by the nodes above. -/
def addInstrInternal (instr : Instr W) (usedBits : BitVec W) :
    InstrTable W → Result W (InstrTable W)
  | ⟨word, mask, table, defaultTable, defaultConflict, existing, shorthands⟩ =>
    let t : InstrTable W :=
      ⟨word, mask, table, defaultTable, defaultConflict, existing, shorthands⟩
    let intoDefault : Result W (InstrTable W) := do
      let d ← addToDefault instr usedBits defaultTable
      return { t with defaultTable := d }
    if instr.opcMask = 0 then .error (.decode (.noOpcodeFields instr.name))
    else if table.isEmpty then placeAtLeaf instr t
    else if existing.isSome && instr.shorthand then
      if instr.aliases.head? = existing.map Instr.id then
        .ok { t with shorthands := shorthands ++ [instr] }
      else .ok t
    else if mask &&& instr.opcMask ≠ 0 then
      -- a shorthand may set a value in a conflict field; it follows the real instruction
      if defaultTable.isSome && mask &&& instr.conflictMask ≠ 0 then intoDefault
      else do
        let cases ← addToCases instr (usedBits ||| mask) (mask &&& instr.opcode) table table
        return { t with table := cases }
    else if defaultTable.isSome && defaultConflict && mask &&& instr.conflictMask ≠ 0 then
      intoDefault
    else if defaultTable.isSome && !defaultConflict &&
        ((defaultTable.elim 0 InstrTable.mask) &&& instr.opcMask ≠ 0 ||
          instr.opcMask &&& ~~~usedBits = 0) then
      -- no mask of the group contains all others, so the opcode mask decides
      intoDefault
    else .ok { t with instr := some instr }

def addToDefault (instr : Instr W) (usedBits : BitVec W) :
    Option (InstrTable W) → Result W (Option (InstrTable W))
  | none => .ok none
  | some d => do
    let d ← addInstrInternal instr usedBits d
    return some d

/-- Add an instruction below the case with the given key. The case is created if the whole
table `all` has none, and then holds the instruction as a leaf. -/
def addToCases (instr : Instr W) (usedBits key : BitVec W)
    (all : List (BitVec W × InstrTable W)) :
    List (BitVec W × InstrTable W) → Result W (List (BitVec W × InstrTable W))
  | [] => .ok (KeyedList.insert key { instr := some instr } all)
  | (k, c) :: rest =>
    if k = key then do
      let c ← addInstrInternal instr usedBits c
      return KeyedList.replace key c all
    else addToCases instr usedBits key all rest

end

def addInstrsInternal : List (Instr W) → InstrTable W → Result W (InstrTable W)
  | [], t => .ok t
  | i :: rest, t => do addInstrsInternal rest (← addInstrInternal i 0 t)

/-- Build the decode tree of an instruction set. Shorthands with several targets are ignored,
and the tree is left without instructions if no branches could be built. -/
def addInstrs (fuel : ℕ) (t : InstrTable W) (instrs : List (Instr W)) :
    Result W (InstrTable W) := do
  let instructions := instrs.filter fun i => !i.shorthand
  let shorthands := instrs.filter fun i => i.shorthand && i.aliases.length == 1
  let (t, done) ← buildTree fuel t instructions 0 0
  if done then
    let t ← addInstrsInternal instructions t
    addInstrsInternal shorthands t
  else return t

/-! ### Equations -/

/-- One level of `addInstrInternal`, with the case of the node looked up by its key. -/
theorem addToCases_eq (instr : Instr W) (usedBits key : BitVec W)
    (all l : List (BitVec W × InstrTable W)) :
    addToCases instr usedBits key all l =
      match KeyedList.find key l with
      | some c => do
        let c ← addInstrInternal instr usedBits c
        return KeyedList.replace key c all
      | none => .ok (KeyedList.insert key { instr := some instr } all) := by
  induction l with
  | nil => simp [addToCases]
  | cons entry rest ih =>
    obtain ⟨k, c⟩ := entry
    rw [addToCases, KeyedList.find_cons]
    split_ifs with hk
    · rfl
    · exact ih

/-- The ways an instruction can be placed at a node. A shorthand may be recorded beside the
instruction it stands for, or be ignored. -/
inductive AddOutcome (instr : Instr W) (usedBits : BitVec W) (t : InstrTable W) :
    InstrTable W → Prop
  | recorded (shorthands : List (Instr W)) (hshort : instr.shorthand = true) :
      AddOutcome instr usedBits t { t with shorthands := shorthands }
  | placed (hplace : t.table = [] ∨ t.mask &&& instr.opcMask = 0) :
      AddOutcome instr usedBits t { t with instr := some instr }
  | intoDefault {d d' : InstrTable W} (hd : t.defaultTable = some d)
      (hadd : addInstrInternal instr usedBits d = .ok d') :
      AddOutcome instr usedBits t { t with defaultTable := some d' }
  | intoCase {c c' : InstrTable W} (hne : t.table ≠ []) (hmask : t.mask &&& instr.opcMask ≠ 0)
      (hfind : t.find (t.mask &&& instr.opcode) = some c)
      (hadd : addInstrInternal instr (usedBits ||| t.mask) c = .ok c') :
      AddOutcome instr usedBits t (t.setChild (t.mask &&& instr.opcode) c')
  | newCase (hne : t.table ≠ []) (hmask : t.mask &&& instr.opcMask ≠ 0)
      (hfind : t.find (t.mask &&& instr.opcode) = none) :
      AddOutcome instr usedBits t
        { t with
          table := KeyedList.insert (t.mask &&& instr.opcode) { instr := some instr } t.table }

theorem addInstrInternal_outcome {instr : Instr W} {usedBits : BitVec W} {t t' : InstrTable W}
    (h : addInstrInternal instr usedBits t = .ok t') : AddOutcome instr usedBits t t' := by
  obtain ⟨word, mask, table, dflt, dc, existing, shorthands⟩ := t
  -- three of the branches go on in the default table
  have hdefault {t' : InstrTable W} (hsome : dflt.isSome = true)
      (h : (do
        let d ← addToDefault instr usedBits dflt
        return ⟨word, mask, table, d, dc, existing, shorthands⟩ : Result W (InstrTable W)) =
          .ok t') :
      AddOutcome instr usedBits ⟨word, mask, table, dflt, dc, existing, shorthands⟩ t' := by
    obtain ⟨d, rfl⟩ := Option.isSome_iff_exists.mp hsome
    obtain ⟨_, hsome', heq⟩ := bind_eq_ok.mp h
    obtain ⟨d', hadd, heq'⟩ := bind_eq_ok.mp hsome'
    cases heq'
    cases heq
    exact .intoDefault rfl hadd
  rw [addInstrInternal] at h
  simp only [Bool.and_eq_true] at h
  split_ifs at h with hopc hleaf hshort halias hmask hdflt hdflt' hdflt''
  · unfold placeAtLeaf at h
    split at h
    next existing' hexisting =>
      split_ifs at h with hsh
      · cases h
        exact .recorded _ hsh
      · cases h
        exact .recorded shorthands hsh
    next =>
      cases h
      exact .placed (.inl (by simpa using hleaf))
  · cases h
    exact .recorded _ hshort.2
  · cases h
    exact .recorded shorthands hshort.2
  · exact hdefault hdflt.1 h
  · obtain ⟨cases', hcases, heq⟩ := bind_eq_ok.mp h
    cases heq
    have hne : table ≠ [] := by simpa using hleaf
    rw [addToCases_eq] at hcases
    split at hcases
    next c hfind =>
      obtain ⟨c', hadd, hreplace⟩ := bind_eq_ok.mp hcases
      cases hreplace
      exact .intoCase hne hmask hfind hadd
    next hfind =>
      cases hcases
      exact .newCase hne hmask hfind
  · exact hdefault hdflt'.1.1 h
  · exact hdefault hdflt''.1.1 h
  · cases h
    exact .placed (.inr (not_not.mp hmask))

end Adl.Decode
