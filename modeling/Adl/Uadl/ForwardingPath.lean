import Mathlib.Data.BitVec
import Mathlib.Logic.Function.Basic

/-!
# Forwarding paths with several entries

Instructions write register values to a forwarding path, and later instructions read them from there
(`uadl/ForwardingPath.h`). A write may cover a part of a register; a mask of zero stands for all of
it. A partial read merges all entries of the register into the operand, from the newest to the
oldest, so that where entries overlap the oldest one is written last.
-/

namespace Adl.Uadl

/-- An instruction, with its number and its operand slots. -/
structure FwdInstr (w : ℕ) where
  iid : BitVec 64
  slots : ℕ → BitVec w

/-- A part of an operand: its register, the mask of the bits it covers, and its slot. -/
structure SubOp (ρ : Type*) (w : ℕ) where
  id : ρ
  mask : BitVec w
  slot : ℕ

structure FwdEntry (ρ : Type*) (w : ℕ) where
  id : ρ
  tag : BitVec 64
  data : BitVec w
  mask : BitVec w

/-- The entries that are written in this cycle, the newest one last. -/
structure ForwardingPath (ρ : Type*) (w : ℕ) where
  size : ℕ
  entries : List (FwdEntry ρ w) := []

namespace ForwardingPath

variable {ρ : Type*} {w : ℕ}

def newEntry (instr : FwdInstr w) (op : SubOp ρ w) : FwdEntry ρ w where
  id := op.id
  tag := instr.iid
  data := instr.slots op.slot
  mask := if op.mask = 0 then BitVec.allOnes w else op.mask

/-- One entry for each part of the operand. It is `none` if the assertion on the size fails. -/
def write (p : ForwardingPath ρ w) (a : FwdInstr w × List (SubOp ρ w)) :
    Option (ForwardingPath ρ w) :=
  if p.entries.length + a.2.length ≤ p.size then
    some { p with entries := p.entries ++ a.2.map (newEntry a.1) }
  else none

/-- `DataHandler2::read_partial`. -/
def mergeEntry (slot : ℕ) (e : FwdEntry ρ w) (instr : FwdInstr w) : FwdInstr w :=
  let value := (instr.slots slot &&& ~~~e.mask) ||| (e.data &&& e.mask)
  { instr with slots := Function.update instr.slots slot value }

def postCycle (p : ForwardingPath ρ w) : ForwardingPath ρ w := { p with entries := [] }

def written (writes : List (FwdInstr w × List (SubOp ρ w))) : List (FwdEntry ρ w) :=
  writes.flatMap fun a => a.2.map (newEntry a.1)

variable {p : ForwardingPath ρ w} {id : ρ} {slot j : ℕ} {instr : FwdInstr w}

theorem entries_of_writes {p' : ForwardingPath ρ w} {writes : List (FwdInstr w × List (SubOp ρ w))}
    (h : writes.foldlM write p = some p') : p'.entries = p.entries ++ written writes := by
  induction writes generalizing p with
  | nil =>
    obtain rfl := Option.some.inj h
    simp [written]
  | cons a rest ih =>
    rw [List.foldlM_cons] at h
    obtain ⟨p₁, hp₁, h⟩ := Option.bind_eq_some_iff.mp h
    rw [write] at hp₁
    split at hp₁
    · obtain rfl := Option.some.inj hp₁
      simp [ih h, written]
    · cases hp₁

theorem getLsbD_mergeEntry {e : FwdEntry ρ w} (hj : j < w) :
    ((mergeEntry slot e instr).slots slot).getLsbD j =
      if e.mask.getLsbD j then e.data.getLsbD j else (instr.slots slot).getLsbD j := by
  have hslot : (mergeEntry slot e instr).slots slot =
      (instr.slots slot &&& ~~~e.mask) ||| (e.data &&& e.mask) := Function.update_self _ _ _
  rw [hslot, BitVec.getLsbD_or, BitVec.getLsbD_and, BitVec.getLsbD_and, BitVec.getLsbD_not]
  cases h : e.mask.getLsbD j <;> simp [hj]

variable [DecidableEq ρ]

/-- The loop goes from the last entry to the first. -/
def readPartial (p : ForwardingPath ρ w) (id : ρ) (slot : ℕ) (instr : FwdInstr w) : FwdInstr w :=
  p.entries.foldr (fun e instr => if id = e.id then mergeEntry slot e instr else instr) instr

/-- The entry is for the register and has bit `j`. -/
def covers (id : ρ) (j : ℕ) (e : FwdEntry ρ w) : Bool := id = e.id && e.mask.getLsbD j

/-- A bit is taken from the first entry that covers it, and stays if there is none. -/
theorem getLsbD_readPartial (hj : j < w) :
    ((p.readPartial id slot instr).slots slot).getLsbD j =
      ((p.entries.find? (covers id j)).map (·.data.getLsbD j)).getD
        ((instr.slots slot).getLsbD j) := by
  rw [readPartial]
  induction p.entries with
  | nil => rfl
  | cons e older ih =>
    rw [List.foldr_cons, List.find?_cons]
    -- the first entry is merged last
    by_cases hid : id = e.id
    · rw [if_pos hid, getLsbD_mergeEntry hj, ih]
      cases h : e.mask.getLsbD j <;> simp [covers, hid, h]
    · rw [if_neg hid, ih]
      simp [covers, hid]

theorem slots_readPartial_of_ne {other : ℕ} (h : other ≠ slot) :
    (p.readPartial id slot instr).slots other = instr.slots other := by
  rw [readPartial]
  induction p.entries with
  | nil => rfl
  | cons e older ih =>
    rw [List.foldr_cons]
    split
    · exact (Function.update_of_ne h _ _).trans ih
    · exact ih

/-- The newest entry that covers a bit decides it, and all other bits stay. -/
def TakesNewest (entries : List (FwdEntry ρ w)) (id : ρ) (slot : ℕ) (old new : FwdInstr w) : Prop :=
  (∀ j < w, (new.slots slot).getLsbD j =
    ((entries.reverse.find? (covers id j)).map (·.data.getLsbD j)).getD
      ((old.slots slot).getLsbD j)) ∧
  ∀ other ≠ slot, new.slots other = old.slots other

/-- After any writes of a cycle, a partial read of a register takes each bit from the newest entry
exactly if the oldest and the newest entry that cover a bit agree on it. -/
theorem readPartial_newest_iff {p₀ p : ForwardingPath ρ w}
    {writes : List (FwdInstr w × List (SubOp ρ w))}
    (hwrites : writes.foldlM write p₀.postCycle = some p) (id : ρ) (slot : ℕ)
    (instr : FwdInstr w) :
    TakesNewest (written writes) id slot instr (p.readPartial id slot instr) ↔ ∀ j < w,
      ((written writes).find? (covers id j)).map (·.data.getLsbD j) =
        ((written writes).reverse.find? (covers id j)).map (·.data.getLsbD j) := by
  have hentries : p.entries = written writes := entries_of_writes hwrites
  rw [TakesNewest, and_iff_left fun other h => slots_readPartial_of_ne h]
  refine forall₂_congr fun j hj => ?_
  rw [getLsbD_readPartial hj, hentries]
  -- there is an oldest entry for a bit exactly if there is a newest one
  have hsome : ((written writes).reverse.find? (covers id j)).isSome =
      ((written writes).find? (covers id j)).isSome := by
    rw [Bool.eq_iff_iff, List.find?_isSome, List.find?_isSome]
    simp only [List.mem_reverse]
  cases hfirst : (written writes).find? (covers id j) with
  | none =>
    rw [hfirst, Option.isSome_none, Option.isSome_eq_false_iff, Option.isNone_iff_eq_none] at hsome
    rw [hsome]
    exact iff_of_true rfl rfl
  | some e =>
    rw [hfirst, Option.isSome_some] at hsome
    obtain ⟨e', he'⟩ := Option.isSome_iff_exists.mp hsome
    rw [he']
    simp

/-- Two halves of a register, and all of another one. -/
def disjointWrites : List (FwdInstr 8 × List (SubOp ℕ 8)) :=
  [(⟨1, fun _ => 0xAA⟩, [⟨3, 0x0F, 0⟩]), (⟨2, fun _ => 0xBB⟩, [⟨3, 0xF0, 0⟩, ⟨4, 0, 0⟩])]

theorem disjoint_newest :
    let p : ForwardingPath ℕ 8 := ⟨4, written disjointWrites⟩
    TakesNewest (written disjointWrites) 3 0 ⟨5, fun _ => 0⟩ (p.readPartial 3 0 ⟨5, fun _ => 0⟩) ∧
      (p.readPartial 3 0 ⟨5, fun _ => 0⟩).slots 0 = 0xBA :=
  ⟨(@readPartial_newest_iff ℕ 8 _ ⟨4, []⟩ _ _ rfl 3 0 ⟨5, fun _ => 0⟩).mpr (by decide), by decide⟩

def overlappingWrites : List (FwdInstr 8 × List (SubOp ℕ 8)) :=
  [(⟨1, fun _ => 1⟩, [⟨3, 0, 0⟩]), (⟨2, fun _ => 2⟩, [⟨3, 0, 0⟩])]

/-- A partial read gives the value that was overwritten. -/
theorem oldest_wins :
    ∃ p, overlappingWrites.foldlM write (⟨2, []⟩ : ForwardingPath ℕ 8) = some p ∧
      (p.readPartial 3 0 ⟨5, fun _ => 0⟩).slots 0 = 1 ∧
      ¬TakesNewest (written overlappingWrites) 3 0 ⟨5, fun _ => 0⟩
        (p.readPartial 3 0 ⟨5, fun _ => 0⟩) :=
  ⟨_, rfl, by decide, fun h => absurd (h.1 0 (by decide)) (by decide)⟩

end ForwardingPath

end Adl.Uadl
