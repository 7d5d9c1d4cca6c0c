import Adl.Math.Halting
import Adl.Math.Ring
import Mathlib.Data.List.Rotate

/-!
# The ring of the fast trace

The fast trace keeps the last instructions in a ring. When it is written, the walk starts behind the
slot that is filled next and ends before it: this slot is never printed, though in a full ring it
holds the oldest instruction.
-/

namespace Adl.Trace

open Adl.Math

variable {δ : Type*}

/-- An instruction in the ring, with whatever is printed of its operation. -/
structure InstrItem (δ : Type*) where
  ea : BitVec 64
  icount : BitVec 64
  op : Option δ
  deriving DecidableEq

namespace InstrItem

def empty : InstrItem δ := ⟨0, 0, none⟩

def valid (item : InstrItem δ) : Bool := item.icount ≠ 0

end InstrItem

structure FastDatLogger (δ : Type*) where
  instrs : List (InstrItem δ)
  size : ℕ
  index : ℕ
  icount : BitVec 64
  lastEa : BitVec 64

inductive LogCall (δ : Type*) where
  | logInstrPrefetch (ea : BitVec 64)
  | logInstr (op : δ)

namespace FastDatLogger

def reset (size : ℕ) : FastDatLogger δ := ⟨List.replicate size .empty, size, 0, 0, 0⟩

def next (t : FastDatLogger δ) (index : ℕ) : ℕ := (index + 1) % t.size

def log (t : FastDatLogger δ) : LogCall δ → FastDatLogger δ
  | .logInstrPrefetch ea => { t with lastEa := ea }
  | .logInstr op =>
    { t with
      instrs := t.instrs.set t.index ⟨t.lastEa, t.icount + 1, some op⟩
      icount := t.icount + 1
      index := t.next t.index }

/-- One round of the loop of `writeTrace`, with what has been printed. -/
def writeStep (t : FastDatLogger δ) (s : ℕ × List (InstrItem δ)) :
    (ℕ × List (InstrItem δ)) ⊕ List (InstrItem δ) :=
  if s.1 = t.index then .inr s.2
  else
    let item := t.instrs.getD s.1 .empty
    .inl (t.next s.1, if item.valid then s.2 ++ [item] else s.2)

def Prints (t : FastDatLogger δ) (out : List (InstrItem δ)) : Prop :=
  Finishes t.writeStep (t.next t.index, []) out

end FastDatLogger

/-- The instructions of a sequence of calls, each with the address that was fetched last and its
number. -/
def logged (ea : BitVec 64) (n : ℕ) : List (LogCall δ) → List (InstrItem δ)
  | [] => []
  | .logInstrPrefetch ea :: calls => logged ea n calls
  | .logInstr op :: calls => ⟨ea, BitVec.ofNat 64 (n + 1), some op⟩ :: logged ea (n + 1) calls

namespace FastDatLogger

variable {t : FastDatLogger δ}

/-! ### The walk -/

/-- The slots the walk passes: all of the ring but the one that is filled next. -/
def passed (t : FastDatLogger δ) : List (InstrItem δ) :=
  (t.instrs.rotate (t.index + 1)).take (t.size - 1)

theorem finishes_writeTrace (hsize : t.instrs.length = t.size) (hindex : t.index < t.size) :
    t.Prints (t.passed.filter InstrItem.valid) := by
  -- The induction is on the rounds: `i` of them have passed the slots behind the index.
  have hreach : ∀ i < t.size, Reaches t.writeStep (t.next t.index, []) (slot t.size t.index (i + 1),
      ((t.instrs.rotate (t.index + 1)).take i).filter InstrItem.valid) := by
    intro i hi
    induction i with
    | zero => exact .refl
    | succ i ih =>
      refine .tail (ih (by omega)) ?_
      have hne : slot t.size t.index (i + 1) ≠ t.index := fun h => by
        have := (slot_inj hindex hi (by omega)).mp (h.trans (slot_zero hindex).symm)
        omega
      have hlt : slot t.size t.index (i + 1) < t.instrs.length := hsize ▸ slot_lt (by omega)
      have hslot : (i + (t.index + 1)) % t.size = slot t.size t.index (i + 1) := by
        rw [slot, Nat.add_left_comm]
      have hitem : (t.instrs.rotate (t.index + 1))[i]? =
          some (t.instrs.getD (slot t.size t.index (i + 1)) .empty) := by
        rw [List.getElem?_rotate (by omega), hsize, hslot, List.getD_eq_getElem?_getD,
          List.getElem?_eq_getElem hlt, Option.getD_some]
      rw [writeStep, if_neg hne, List.take_add_one, hitem, List.filter_append, Option.toList_some,
        ← slot_slot (i := i + 1)]
      generalize t.instrs.getD (slot t.size t.index (i + 1)) .empty = item
      cases h : item.valid <;> simp [h, next, slot]
  refine .of_reaches (hreach (t.size - 1) (by omega)) (.done ?_)
  rw [writeStep, Nat.sub_add_cancel (by omega), if_pos]
  · rfl
  · rw [slot, Nat.add_mod_right, Nat.mod_eq_of_lt hindex]

/-! ### What the ring holds -/

/-- A ring that has taken the instructions `items`. -/
structure Holds (t : FastDatLogger δ) (items : List (InstrItem δ)) : Prop where
  length_instrs : t.instrs.length = t.size
  index_lt : t.index < t.size
  icount_eq : t.icount = BitVec.ofNat 64 items.length
  instrs_eq : items.length < t.size → t.index = items.length ∧
    t.instrs = items ++ List.replicate (t.size - items.length) .empty

theorem Holds.logInstr {items : List (InstrItem δ)} (h : t.Holds items) (op : δ) :
    (t.log (.logInstr op)).Holds
      (items ++ [⟨t.lastEa, BitVec.ofNat 64 (items.length + 1), some op⟩]) := by
  have hcount : t.icount + 1 = BitVec.ofNat 64 (items.length + 1) := by
    rw [h.icount_eq, BitVec.ofNat_add]
    rfl
  refine ⟨by simp [log, h.length_instrs], Nat.mod_lt _ (Nat.zero_lt_of_lt h.index_lt),
    by simpa [log] using hcount, fun hlt => ?_⟩
  rw [List.length_append, List.length_singleton] at hlt ⊢
  obtain ⟨hindex, hinstrs⟩ := h.instrs_eq (by simp only [log] at hlt; omega)
  simp only [log, next] at hlt ⊢
  refine ⟨by rw [hindex, Nat.mod_eq_of_lt hlt], ?_⟩
  obtain ⟨k, hk⟩ := Nat.exists_eq_add_of_lt hlt
  rw [hinstrs, hindex, hcount, List.set_append_right _ _ le_rfl, Nat.sub_self,
    show t.size - items.length = k + 1 + 1 by omega,
    show t.size - (items.length + 1) = k + 1 by omega, List.replicate_succ, List.set_cons_zero,
    List.append_assoc, List.singleton_append]

theorem Holds.run {items : List (InstrItem δ)} (h : t.Holds items) (calls : List (LogCall δ)) :
    (calls.foldl log t).Holds (items ++ logged t.lastEa items.length calls) ∧
      (calls.foldl log t).size = t.size := by
  induction calls generalizing t items with
  | nil => exact ⟨by simpa [logged] using h, rfl⟩
  | cons call calls ih =>
    cases call with
    | logInstrPrefetch ea => exact ih (t := t.log (.logInstrPrefetch ea)) ⟨h.1, h.2, h.3, h.4⟩
    | logInstr op =>
      obtain ⟨hrun, hsize⟩ := ih (h.logInstr op)
      rw [List.append_assoc, List.length_append] at hrun
      exact ⟨hrun, hsize⟩

theorem holds_reset {size : ℕ} (hsize : 0 < size) : (reset size : FastDatLogger δ).Holds [] :=
  ⟨List.length_replicate, hsize, rfl, fun _ => ⟨rfl, rfl⟩⟩

theorem valid_of_mem_logged {ea : BitVec 64} {n : ℕ} {calls : List (LogCall δ)} {item : InstrItem δ}
    (hn : n + (logged ea n calls).length < 2 ^ 64) (hitem : item ∈ logged ea n calls) :
    item.valid = true := by
  induction calls generalizing ea n with
  | nil => cases hitem
  | cons call calls ih =>
    cases call with
    | logInstrPrefetch ea => exact ih hn hitem
    | logInstr op =>
      rw [logged, List.length_cons] at hn
      rcases List.mem_cons.mp hitem with rfl | hitem
      · have hne : BitVec.ofNat 64 (n + 1) ≠ 0 := fun h => by
          have := congrArg BitVec.toNat h
          simp at this
          omega
        simpa [InstrItem.valid] using hne
      · exact ih (by omega) hitem

/-- Before the ring is full, the walk passes its empty slots and then all instructions. -/
theorem Holds.filter_passed {items : List (InstrItem δ)} (h : t.Holds items)
    (hlt : items.length < t.size) (hvalid : ∀ item ∈ items, item.valid = true) :
    t.passed.filter InstrItem.valid = items := by
  obtain ⟨hindex, hinstrs⟩ := h.instrs_eq hlt
  obtain ⟨k, hk⟩ := Nat.exists_eq_add_of_lt hlt
  have hreplicate : t.size - items.length = k + 1 := by omega
  have hrotate : t.instrs.rotate (t.index + 1) =
      List.replicate k .empty ++ (items ++ [.empty]) := by
    rw [hinstrs, hindex, hreplicate, List.replicate_succ, List.append_cons, ← List.length_singleton,
      ← List.length_append, List.rotate_append_length_eq]
  rw [passed, hrotate, ← List.append_assoc, List.take_left' (by simp; omega), List.filter_append,
    List.filter_eq_self.mpr hvalid, List.filter_eq_nil_iff.mpr]
  · rfl
  · intro item hitem
    rw [List.eq_of_mem_replicate hitem]
    exact Bool.false_ne_true

/-- The trace has the last instructions, as many as the ring has slots, exactly if fewer than that
have been logged. -/
theorem writeTrace_iff {size : ℕ} (hsize : 0 < size) (hunsigned : size < 2 ^ 32)
    (calls : List (LogCall δ)) :
    ∃ out, (calls.foldl log (reset size)).Prints out ∧
      (out = (logged 0 0 calls).drop
          ((logged 0 0 calls).length - min (logged 0 0 calls).length size) ↔
        (logged 0 0 calls).length < size) := by
  obtain ⟨hrun, hrunSize⟩ := (holds_reset (δ := δ) hsize).run calls
  refine ⟨_, finishes_writeTrace hrun.length_instrs hrun.index_lt, ?_⟩
  have hlogged : [] ++ logged (reset (δ := δ) size).lastEa 0 calls = logged 0 0 calls := rfl
  rw [List.length_nil, hlogged] at hrun
  have hsize' : (calls.foldl log (reset size)).size = size := hrunSize
  constructor
  · -- One slot of the ring is not passed.
    intro hout
    have hle := List.length_filter_le InstrItem.valid (calls.foldl log (reset size)).passed
    have hpassed : (calls.foldl log (reset size)).passed.length ≤ size - 1 := by
      rw [passed, List.length_take, hsize']
      exact Nat.min_le_left _ _
    rw [hout, List.length_drop] at hle
    omega
  · intro hlt
    rw [Nat.min_eq_left hlt.le, Nat.sub_self, List.drop_zero]
    exact hrun.filter_passed (hsize'.symm ▸ hlt) fun item hitem =>
      valid_of_mem_logged (by omega) hitem

/-- Two instructions in a ring of three slots. -/
theorem writeTrace_two :
    ∃ out, ([.logInstr 7, .logInstr 8].foldl log (reset 3)).Prints out ∧
      (out = (logged 0 0 [.logInstr 7, .logInstr 8]).drop 0 ↔ 2 < 3) :=
  writeTrace_iff (δ := ℕ) (by decide) (by decide) [.logInstr 7, .logInstr 8]

/-- The only slot of a ring is never printed. -/
theorem writeTrace_single :
    ([.logInstr 7].foldl log (reset (δ := ℕ) 1)).Prints [] ∧
      (logged 0 0 [LogCall.logInstr 7]).drop
        ((logged 0 0 [LogCall.logInstr 7]).length - min 1 1) ≠ [] :=
  ⟨.done rfl, by decide⟩

end FastDatLogger

end Adl.Trace
