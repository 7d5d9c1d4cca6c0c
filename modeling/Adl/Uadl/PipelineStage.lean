import Adl.Math.Machine
import Adl.Math.Ring

/-!
# Pipeline stages

A pipeline stage keeps its instructions in a circular array, whose empty slots are null pointers
(`uadl/PipelineStage.h`). As a queue, instructions are removed at the head, or several ones
anywhere; with independent scheduling, they are removed at any position and those behind move up. An
operation is `none` if the assertion fails or if an index is out of the range of an array.
-/

namespace Adl.Uadl

open Math

structure PipelineStage (ι : Type) where
  instrs : List (Option ι)
  count : ℕ
  headPos : ℕ
  tailPos : ℕ

variable {ι : Type}

/-- Writes to a slot of an array. -/
def storeInstr (instrs : List (Option ι)) (i : ℕ) (x : Option ι) : Option (List (Option ι)) :=
  if i < instrs.length then some (instrs.set i x) else none

namespace PipelineStage

def reset (capacity : ℕ) : PipelineStage ι := ⟨List.replicate capacity none, 0, 0, 0⟩

section

variable (s : PipelineStage ι)

def capacity : ℕ := s.instrs.length

def size : ℕ := s.count

/-- Positions are unsigned numbers of 32 bits. -/
def pos (i : ℕ) : ℕ := (s.headPos + i) % 2 ^ 32 % s.capacity

/-- `operator[]`. -/
def nth (i : ℕ) : Option (Option ι) := s.instrs[s.pos i]?

def head : Option (Option ι) := s.instrs[s.headPos]?

def tail : Option (Option ι) := s.instrs[(s.tailPos + 2 ^ 32 - 1) % 2 ^ 32]?

def addInstr (instr : ι) : Option (PipelineStage ι) :=
  if s.count < s.capacity then do
    let instrs ← storeInstr s.instrs s.tailPos (some instr)
    some { s with instrs, count := s.count + 1, tailPos := (s.tailPos + 1) % 2 ^ 32 % s.capacity }
  else none

def removeInstr : Option (PipelineStage ι) := do
  let instrs ← storeInstr s.instrs s.headPos none
  let count := (s.count + 2 ^ 32 - 1) % 2 ^ 32
  some { s with instrs, count, headPos := (s.headPos + 1) % 2 ^ 32 % s.capacity }

def removeInstrInternal (i : ℕ) : Option (Option ι × PipelineStage ι) := do
  let x ← s.instrs[i]?
  let instrs ← storeInstr s.instrs i none
  some (x, { s with instrs, count := (s.count + 2 ^ 32 - 1) % 2 ^ 32 })

/-- `remove_instr(index)`: the positions of the head and the tail stay. -/
def removeInstrAt (index : ℕ) : Option (Option ι × PipelineStage ι) := do
  let x ← s.instrs[s.pos index]?
  if x.isSome then s.removeInstrInternal (s.pos index) else some (none, s)

/-- A round of the first loop of `cleanup`, which copies to an array of the same size. -/
def collect (tmp : List ι) (i : ℕ) : Option (List ι) := do
  match ← s.nth i with
  | none => some tmp
  | some x => if tmp.length < s.capacity then some (tmp ++ [x]) else none

def cleanup (origSize : ℕ) : Option (PipelineStage ι) := do
  let tmp ← (List.range origSize).foldlM s.collect []
  let instrs := tmp.map some ++ List.replicate (s.capacity - tmp.length) none
  some ⟨instrs, tmp.length, 0, tmp.length % 2 ^ 32 % s.capacity⟩

/-- The loop of `remove_instr_indep`, as many rounds from `tail` as there are slots behind it. -/
def shiftLoop : ℕ → ℕ → List (Option ι) → Option (ℕ × List (Option ι))
  | 0, tail, instrs => some (tail, instrs)
  | n + 1, tail, instrs => do
    let x ← instrs[tail + 1]?
    if x.isSome then do
      let instrs ← storeInstr instrs tail x
      shiftLoop n (tail + 1) instrs
    else some (tail, instrs)

def removeInstrIndep (index : ℕ) : Option (Option ι × PipelineStage ι) := do
  let x ← s.instrs[index]?
  let (tailPos, instrs) ← shiftLoop (s.capacity - 1 - index) index s.instrs
  let instrs ← storeInstr instrs tailPos none
  some (x, { s with instrs, count := (s.count + 2 ^ 32 - 1) % 2 ^ 32, tailPos })

end

/-- The uses of a stage. A batch of removals is followed by a cleanup. -/
inductive StageOp (ι : Type) where
  | addInstr (instr : ι)
  | removeInstr
  | removeBatch (indices : List ℕ)
  | removeInstrIndep (index : ℕ)

def step (s : PipelineStage ι) : StageOp ι → Option (PipelineStage ι)
  | .addInstr instr => s.addInstr instr
  | .removeInstr => s.removeInstr
  | .removeBatch indices => do
    let s' ← indices.foldlM (fun s i => (s.removeInstrAt i).map Prod.snd) s
    s'.cleanup s.size
  | .removeInstrIndep index => (s.removeInstrIndep index).map Prod.snd

namespace StageOp

/-- What an operation does to a list. -/
def onList (l : List ι) : StageOp ι → List ι
  | addInstr instr => l ++ [instr]
  | removeInstr => l.tail
  | removeBatch indices =>
    (List.range l.length).filterMap fun i => if i ∈ indices then none else l[i]?
  | removeInstrIndep index => l.eraseIdx index

def Allowed (capacity : ℕ) (l : List ι) : StageOp ι → Prop
  | addInstr _ => l.length < capacity
  | removeInstr => l ≠ []
  | removeBatch indices => ∀ i ∈ indices, i < capacity
  | removeInstrIndep index => index < l.length

/-- The stage is used as a queue. -/
def Queued : StageOp ι → Prop
  | removeInstrIndep _ => False
  | _ => True

/-- Instructions are scheduled independently. -/
def Independent : StageOp ι → Prop
  | addInstr _ | removeInstrIndep _ => True
  | _ => False

end StageOp

/-! ### Slots -/

/-- The slots from the head on have the contents `cells`. -/
structure Cells (capacity : ℕ) (s : PipelineStage ι) (cells : ℕ → Option ι) : Prop where
  length : s.instrs.length = capacity
  head : s.headPos < capacity
  get : ∀ j < capacity, s.instrs[slot capacity s.headPos j]? = some (cells j)

variable {capacity : ℕ} {s s' : PipelineStage ι} {l : List ι} {cells : ℕ → Option ι}

theorem storeInstr_eq {instrs : List (Option ι)} {i : ℕ} {x : Option ι} (h : i < instrs.length) :
    storeInstr instrs i x = some (instrs.set i x) := if_pos h

theorem Cells.slot_lt (h : s.Cells capacity cells) (i : ℕ) :
    slot capacity s.headPos i < s.instrs.length := by
  rw [h.length]
  exact Math.slot_lt (Nat.zero_lt_of_lt h.head)

theorem Cells.pos (h : s.Cells capacity cells) (hle : capacity ≤ 2 ^ 31) {i : ℕ}
    (hi : i < capacity) : s.pos i = slot capacity s.headPos i := by
  have := h.head
  rw [PipelineStage.pos, PipelineStage.capacity, h.length, slot,
    Nat.mod_eq_of_lt (b := 2 ^ 32) (by omega)]

theorem Cells.nth (h : s.Cells capacity cells) (hle : capacity ≤ 2 ^ 31) {i : ℕ}
    (hi : i < capacity) : s.nth i = some (cells i) := by
  rw [PipelineStage.nth, h.pos hle hi, h.get i hi]

theorem Cells.get_set (h : s.Cells capacity cells) {i j : ℕ} (hi : i < capacity)
    (hj : j < capacity) (x : Option ι) :
    (s.instrs.set (slot capacity s.headPos i) x)[slot capacity s.headPos j]? =
      some (if i = j then x else cells j) := by
  have hlt := h.slot_lt i
  simp only [List.getElem?_set, slot_inj h.head hi hj]
  split_ifs
  · rfl
  · exact h.get j hj

/-! ### The stage as a list -/

/-- The stage holds a list: its instructions follow each other from the head on, all other slots
are empty, and the tail is behind the last instruction. -/
structure Holds (capacity : ℕ) (s : PipelineStage ι) (l : List ι) : Prop
    extends s.Cells capacity (l[·]?) where
  count : s.count = l.length
  length_le : l.length ≤ capacity
  tail : s.tailPos = slot capacity s.headPos l.length

theorem holds_reset (hpos : 0 < capacity) : (reset capacity : PipelineStage ι).Holds capacity [] :=
  ⟨⟨List.length_replicate, hpos, fun j _ => by simp [reset, slot_lt hpos]⟩, rfl, Nat.zero_le _,
    (slot_zero hpos).symm⟩

theorem Holds.addInstr (h : s.Holds capacity l) (hle : capacity ≤ 2 ^ 31)
    (hl : l.length < capacity) (instr : ι) :
    ∃ s', s.addInstr instr = some s' ∧ s'.Holds capacity (l ++ [instr]) ∧
      s'.headPos = s.headPos := by
  have htail : s.tailPos < s.instrs.length := h.tail ▸ h.slot_lt l.length
  -- up to `2 ^ 31` slots the sum of two positions does not wrap
  have hnext : (s.tailPos + 1) % 2 ^ 32 % s.capacity =
      slot capacity s.headPos (l.length + 1) := by
    rw [← slot_slot, ← h.tail, slot, PipelineStage.capacity, h.length,
      Nat.mod_eq_of_lt (b := 2 ^ 32) (by have := h.length; omega)]
  refine ⟨⟨s.instrs.set s.tailPos (some instr), s.count + 1, s.headPos,
    slot capacity s.headPos (l.length + 1)⟩, ?_, ⟨⟨?_, h.head, fun j hj => ?_⟩, ?_, ?_, ?_⟩, rfl⟩
  · rw [PipelineStage.addInstr, if_pos (by rwa [h.count, PipelineStage.capacity, h.length]),
      storeInstr_eq htail, hnext]
    rfl
  · exact List.length_set.trans h.length
  · simp only [h.tail]
    rw [h.get_set hl hj]
    congr 1
    split_ifs with hlast
    · simp [← hlast]
    · rw [List.getElem?_append]
      split_ifs with hlt
      · rfl
      · rw [List.getElem?_eq_none (by omega), List.getElem?_eq_none (by simp; omega)]
  · simp [h.count]
  · simpa using Nat.succ_le_of_lt hl
  · simp

theorem Holds.removeInstr (h : s.Holds capacity l) (hle : capacity ≤ 2 ^ 31) (hl : l ≠ []) :
    ∃ s', s.removeInstr = some s' ∧ s'.Holds capacity l.tail := by
  have hlen := List.length_pos_iff.mpr hl
  have hmax := h.length_le
  have hhead := h.head
  have hnext : (s.headPos + 1) % 2 ^ 32 % s.capacity = slot capacity s.headPos 1 := by
    rw [PipelineStage.capacity, h.length, slot, Nat.mod_eq_of_lt (b := 2 ^ 32) (by omega)]
  have hcount : (s.count + 2 ^ 32 - 1) % 2 ^ 32 = l.length - 1 := by
    rw [h.count]
    omega
  refine ⟨⟨s.instrs.set s.headPos none, l.length - 1, slot capacity s.headPos 1, s.tailPos⟩, ?_,
    ⟨⟨?_, slot_lt (Nat.zero_lt_of_lt hhead), fun j hj => ?_⟩, ?_, ?_, ?_⟩⟩
  · rw [PipelineStage.removeInstr, storeInstr_eq (by rwa [h.length]), hnext, hcount]
    rfl
  · exact List.length_set.trans h.length
  · -- the slot that was the head is the last one now
    have hset := fun i hi => @Cells.get_set _ _ s _ h.toCells 0 i (by omega) hi none
    simp only [slot_zero hhead] at hset
    simp only [slot_slot, List.getElem?_tail]
    by_cases hlast : j + 1 < capacity
    · rw [Nat.add_comm 1, hset _ hlast, if_neg (by omega)]
    · have hwrap : slot capacity s.headPos (1 + j) = slot capacity s.headPos 0 := by
        rw [show 1 + j = 0 + capacity by omega, slot, slot, ← Nat.add_assoc, Nat.add_mod_right]
      rw [hwrap, hset 0 (by omega), if_pos rfl, List.getElem?_eq_none (by omega)]
  · simp
  · simp only [List.length_tail]
    omega
  · simp only [slot_slot, List.length_tail, h.tail]
    rw [Nat.add_sub_cancel' hlen]

/-! ### Removal in batches -/

theorem Cells.removeInstrAt (h : s.Cells capacity cells) (hle : capacity ≤ 2 ^ 31) {i : ℕ}
    (hi : i < capacity) :
    ∃ s', (s.removeInstrAt i).map Prod.snd = some s' ∧
      s'.Cells capacity (fun j => if i = j then none else cells j) := by
  rw [PipelineStage.removeInstrAt, h.pos hle hi, removeInstrInternal, h.get i hi,
    storeInstr_eq (h.slot_lt i)]
  cases hcell : cells i with
  | none =>
    refine ⟨s, rfl, h.length, h.head, fun j hj => ?_⟩
    rw [h.get j hj]
    split_ifs with hij
    · rw [← hij, hcell]
    · rfl
  | some x =>
    exact ⟨_, rfl, List.length_set.trans h.length, h.head, fun j hj => h.get_set hi hj none⟩

theorem Cells.removeAll (h : s.Cells capacity cells) (hle : capacity ≤ 2 ^ 31) {indices : List ℕ}
    (hindices : ∀ i ∈ indices, i < capacity) :
    ∃ s', indices.foldlM (fun s i => (s.removeInstrAt i).map Prod.snd) s = some s' ∧
      s'.Cells capacity (fun j => if j ∈ indices then none else cells j) := by
  induction indices generalizing s cells with
  | nil => exact ⟨s, rfl, by simpa using h⟩
  | cons i rest ih =>
    obtain ⟨s₁, hs₁, hcells⟩ := h.removeInstrAt hle (hindices i List.mem_cons_self)
    obtain ⟨s', hs', hcells'⟩ := ih hcells fun j hj => hindices j (List.mem_cons_of_mem _ hj)
    refine ⟨s', by rw [List.foldlM_cons, hs₁]; exact hs', ?_⟩
    convert hcells' using 2 with j
    simp only [List.mem_cons]
    split_ifs <;> grind

theorem Cells.collect (h : s.Cells capacity cells) (hle : capacity ≤ 2 ^ 31) {n : ℕ}
    (hn : n ≤ capacity) :
    (List.range n).foldlM s.collect [] = some ((List.range n).filterMap cells) := by
  induction n with
  | zero => rfl
  | succ n ih =>
    have hlen := List.length_filterMap_le cells (List.range n)
    rw [List.length_range] at hlen
    rw [List.range_succ, List.foldlM_append, ih (by omega), List.filterMap_append]
    simp only [Option.bind_eq_bind, Option.bind_some, List.foldlM_cons, List.foldlM_nil,
      PipelineStage.collect, h.nth hle (Nat.lt_of_succ_le hn)]
    cases hcell : cells n with
    | none => simp [hcell]
    | some x =>
      simp only [PipelineStage.capacity, h.length]
      rw [if_pos (by omega)]
      simp [hcell]

theorem getElem?_packed {k j : ℕ} (hj : j < l.length + k) :
    (l.map some ++ List.replicate k none)[j]? = some l[j]? := by
  rw [List.getElem?_append, List.length_map]
  split_ifs with hlt
  · rw [List.getElem?_map, List.getElem?_eq_getElem hlt]
    rfl
  · rw [List.getElem?_replicate_of_lt (by omega), List.getElem?_eq_none (by omega)]

theorem holds_packed {count tailPos : ℕ} (hpos : 0 < capacity) (hl : l.length ≤ capacity)
    (hcount : count = l.length) (htail : tailPos = l.length % capacity) :
    (⟨l.map some ++ List.replicate (capacity - l.length) none, count, 0, tailPos⟩ :
      PipelineStage ι).Holds capacity l where
  length := by simp [hl]
  head := hpos
  get := fun j hj => by
    rw [slot, Nat.zero_add, Nat.mod_eq_of_lt hj]
    exact getElem?_packed (by omega)
  count := hcount
  length_le := hl
  tail := by rw [slot, Nat.zero_add, htail]

theorem Holds.cleanup (h : s.Holds capacity l) (hle : capacity ≤ 2 ^ 31) {indices : List ℕ}
    (hindices : ∀ i ∈ indices, i < capacity) :
    ∃ s', s.step (.removeBatch indices) = some s' ∧
      s'.Holds capacity (StageOp.onList l (.removeBatch indices)) := by
  obtain ⟨s₁, hs₁, hcells⟩ := h.removeAll hle hindices
  have hlen : (StageOp.onList l (.removeBatch indices)).length ≤ capacity :=
    ((List.length_filterMap_le _ _).trans List.length_range.le).trans h.length_le
  have hcollect := hcells.collect hle h.length_le
  refine ⟨_, ?_, holds_packed (Nat.zero_lt_of_lt h.head) hlen rfl rfl⟩
  rw [step, hs₁]
  simp only [Option.bind_eq_bind, Option.bind_some, PipelineStage.cleanup, size, h.count, hcollect,
    PipelineStage.capacity, hcells.length]
  rw [Nat.mod_eq_of_lt (b := 2 ^ 32) (by simp only [StageOp.onList] at hlen; omega)]
  rfl

/-! ### Independent removal -/

/-- The instructions behind the removed one move up, and the slot of the last one becomes empty. -/
theorem shiftLoop_packed {front : List (Option ι)} {x : Option ι} {rest : List ι} {k : ℕ} :
    ∃ instrs, shiftLoop (rest.length + k) front.length
        (front ++ x :: (rest.map some ++ List.replicate k none)) =
          some (front.length + rest.length, instrs) ∧
      storeInstr instrs (front.length + rest.length) none =
        some (front ++ rest.map some ++ List.replicate (k + 1) none) := by
  -- the slot behind `front` is free to be overwritten; each round it goes one slot further
  induction rest generalizing front x with
  | nil =>
    refine ⟨front ++ x :: List.replicate k none, ?_, ?_⟩
    · cases k with
      | zero => rfl
      | succ k => simp [shiftLoop, List.replicate_succ]
    · simp [storeInstr, List.replicate_succ]
  | cons y rest ih =>
    obtain ⟨instrs, hshift, hstore⟩ := @ih (front ++ [some y]) (some y)
    refine ⟨instrs, ?_, ?_⟩
    · rw [List.length_cons, Nat.add_right_comm, shiftLoop]
      simp [storeInstr] at hshift ⊢
      rw [hshift]
      simp
      omega
    · rw [List.length_cons]
      simp at hstore ⊢
      rw [← hstore]
      congr 1
      omega

theorem Holds.instrs_eq (h : s.Holds capacity l) (hhead : s.headPos = 0) :
    s.instrs = l.map some ++ List.replicate (capacity - l.length) none := by
  have hle := h.length_le
  refine List.ext_getElem? fun j => ?_
  by_cases hj : j < capacity
  · have hget := h.get j hj
    rw [hhead, slot, Nat.zero_add, Nat.mod_eq_of_lt hj] at hget
    rw [hget, getElem?_packed (by omega)]
  · rw [List.getElem?_eq_none (by rw [h.length]; omega), List.getElem?_eq_none (by simp; omega)]

theorem Holds.removeInstrIndep (h : s.Holds capacity l) (hle : capacity ≤ 2 ^ 31)
    (hhead : s.headPos = 0) {index : ℕ} (hindex : index < l.length) :
    ∃ s', (s.removeInstrIndep index).map Prod.snd = some s' ∧
      s'.Holds capacity (l.eraseIdx index) ∧ s'.headPos = 0 := by
  have hlen := h.length_le
  -- the head is at the first slot, so the array itself is the list with empty slots behind it
  have hsplit : s.instrs = (l.take index).map some ++ some l[index] ::
      ((l.drop (index + 1)).map some ++ List.replicate (capacity - l.length) none) := by
    rw [h.instrs_eq hhead]
    conv_lhs => enter [1]; rw [← List.take_append_drop index l, List.drop_eq_getElem_cons hindex]
    rw [List.map_append, List.map_cons, List.append_assoc, List.cons_append]
  have hfront : ((l.take index).map some).length = index := by simp; omega
  have hrest : (l.drop (index + 1)).length = l.length - 1 - index := by simp; omega
  obtain ⟨instrs, hshift, hstore⟩ := @shiftLoop_packed _ ((l.take index).map some)
    (some l[index]) (l.drop (index + 1)) (capacity - l.length)
  rw [hfront, hrest] at hshift hstore
  have herase : (l.eraseIdx index).length = l.length - 1 := List.length_eraseIdx_of_lt hindex
  have hpacked : (l.eraseIdx index).map some ++
      List.replicate (capacity - (l.eraseIdx index).length) none =
      (l.take index).map some ++ (l.drop (index + 1)).map some ++
        List.replicate (capacity - l.length + 1) none := by
    rw [herase, List.eraseIdx_eq_take_drop_succ, List.map_append,
      show capacity - (l.length - 1) = capacity - l.length + 1 by omega]
  have hrounds : s.capacity - 1 - index = l.length - 1 - index + (capacity - l.length) := by
    rw [PipelineStage.capacity, h.length]
    omega
  have hcount : (s.count + 2 ^ 32 - 1) % 2 ^ 32 = (l.eraseIdx index).length := by
    rw [h.count, herase]
    omega
  have htail : index + (l.length - 1 - index) = (l.eraseIdx index).length % capacity := by
    rw [herase, Nat.mod_eq_of_lt (by omega)]
    omega
  refine ⟨_, ?_, holds_packed (Nat.zero_lt_of_lt h.head) (by omega) hcount htail, rfl⟩
  have hget : s.instrs[index]? = some (some l[index]) := by
    rw [hsplit, List.getElem?_append_right hfront.le, hfront, Nat.sub_self]
    rfl
  rw [PipelineStage.removeInstrIndep, hget, hrounds, hsplit]
  simp only [Option.bind_eq_bind, Option.bind_some, hshift, hstore, hhead, hpacked]
  rfl

/-! ### Runs -/

theorem Holds.step_queued (h : s.Holds capacity l) (hle : capacity ≤ 2 ^ 31) {op : StageOp ι}
    (hqueued : op.Queued) (hop : op.Allowed capacity l) :
    ∃ s', s.step op = some s' ∧ s'.Holds capacity (op.onList l) := by
  cases op with
  | addInstr instr =>
    obtain ⟨s', hs', hholds, -⟩ := h.addInstr hle hop instr
    exact ⟨s', hs', hholds⟩
  | removeInstr => exact h.removeInstr hle hop
  | removeBatch indices => exact h.cleanup hle hop
  | removeInstrIndep index => exact hqueued.elim

theorem Holds.step_independent (h : s.Holds capacity l) (hle : capacity ≤ 2 ^ 31)
    (hhead : s.headPos = 0) {op : StageOp ι} (hind : op.Independent)
    (hop : op.Allowed capacity l) :
    ∃ s', s.step op = some s' ∧ s'.Holds capacity (op.onList l) ∧ s'.headPos = 0 := by
  cases op with
  | addInstr instr =>
    obtain ⟨s', hs', hholds, hhead'⟩ := h.addInstr hle hop instr
    exact ⟨s', hs', hholds, hhead'.trans hhead⟩
  | removeInstrIndep index => exact h.removeInstrIndep hle hhead hop
  | removeInstr => exact hind.elim
  | removeBatch indices => exact hind.elim

structure Behaves (s : PipelineStage ι) (l : List ι) : Prop where
  size : s.size = l.length
  head : l ≠ [] → s.head = some l.head?
  nth : ∀ i < l.length, s.nth i = some l[i]?

theorem Holds.behaves (h : s.Holds capacity l) (hle : capacity ≤ 2 ^ 31) : s.Behaves l where
  size := h.count
  head := fun _ => by
    have hget := h.get 0 (Nat.zero_lt_of_lt h.head)
    rwa [slot_zero h.head, ← List.head?_eq_getElem?] at hget
  nth := fun _ hi => h.nth hle (hi.trans_le h.length_le)

/-- The last instruction is found unless the tail has gone around to the first slot. -/
theorem Holds.tail_iff (h : s.Holds capacity l) (hle : capacity ≤ 2 ^ 31) (hl : l ≠ []) :
    PipelineStage.tail s = some l.getLast? ↔ s.tailPos ≠ 0 := by
  have hlen := List.length_pos_iff.mpr hl
  have hmax := h.length_le
  have hlt : s.tailPos < capacity := h.tail ▸ h.length ▸ h.slot_lt l.length
  rw [PipelineStage.tail]
  by_cases htail : s.tailPos = 0
  · -- the index in front of the first slot is `2 ^ 32 - 1`
    rw [htail, List.getElem?_eq_none (by rw [h.length]; omega)]
    simp
  · have hprev : (s.tailPos + 2 ^ 32 - 1) % 2 ^ 32 = slot capacity s.headPos (l.length - 1) := by
      have hnext := h.tail
      have hhead := h.head
      rw [slot_eq_ite hhead (by omega)] at hnext ⊢
      split_ifs at hnext ⊢ <;> omega
    rw [hprev, h.get _ (by omega), List.getLast?_eq_getElem?]
    exact iff_of_true rfl htail

/-- A stage of up to `2 ^ 31` slots that is used in one of the two ways is a bounded list with
deletion in the middle, and its array is not left. Only `tail` fails, exactly when the tail is at
the first slot. -/
theorem stage_refines (hpos : 0 < capacity) (hle : capacity ≤ 2 ^ 31) (ops : List (StageOp ι))
    (hops : Permits StageOp.onList (fun l op => op.Allowed capacity l ∧ op.Queued) [] ops ∨
      Permits StageOp.onList (fun l op => op.Allowed capacity l ∧ op.Independent) [] ops) :
    ∃ s, ops.foldlM step (reset capacity) = some s ∧ s.Behaves (ops.foldl StageOp.onList []) ∧
      (ops.foldl StageOp.onList [] ≠ [] →
        (s.tail = some (ops.foldl StageOp.onList []).getLast? ↔ s.tailPos ≠ 0)) := by
  have hrun : ∃ s, ops.foldlM step (reset capacity) = some s ∧
      s.Holds capacity (ops.foldl StageOp.onList []) := by
    rcases hops with hops | hops
    · have hstep (s : PipelineStage ι) (l : List ι) (op : StageOp ι)
          (hop : op.Allowed capacity l ∧ op.Queued) (hs : s.Holds capacity l) :
          ∃ s', s.step op = some s' ∧ s'.Holds capacity (op.onList l) :=
        hs.step_queued hle hop.2 hop.1
      exact foldlM_refines hstep hops (holds_reset hpos)
    · have hstep (s : PipelineStage ι) (l : List ι) (op : StageOp ι)
          (hop : op.Allowed capacity l ∧ op.Independent)
          (hs : s.Holds capacity l ∧ s.headPos = 0) :
          ∃ s', s.step op = some s' ∧ s'.Holds capacity (op.onList l) ∧ s'.headPos = 0 :=
        hs.1.step_independent hle hs.2 hop.2 hop.1
      obtain ⟨s, hs, hholds, -⟩ := foldlM_refines hstep hops ⟨holds_reset hpos, rfl⟩
      exact ⟨s, hs, hholds⟩
  obtain ⟨s, hs, hholds⟩ := hrun
  exact ⟨s, hs, hholds.behaves hle, fun hne => hholds.tail_iff hle hne⟩

/-- A queue that has gone around, with a batch of removals. -/
def queueOps : List (StageOp ℕ) :=
  [.addInstr 1, .addInstr 2, .addInstr 3, .removeInstr, .addInstr 4, .removeBatch [1, 0],
    .addInstr 5]

theorem run_queue :
    ∃ s, queueOps.foldlM step (reset 3) = some s ∧ s.Behaves [4, 5] ∧
      s.tail = some (some 5) := by
  have hops : Permits StageOp.onList (fun l op => op.Allowed 3 l ∧ op.Queued) [] queueOps := by
    simp [queueOps, Permits, StageOp.onList, StageOp.Allowed, StageOp.Queued]
    decide
  obtain ⟨s, hs, hbehaves, htail⟩ := stage_refines (by decide) (by decide) queueOps (.inl hops)
  refine ⟨s, hs, hbehaves, (htail (by decide)).mpr fun hzero => ?_⟩
  have htailPos : (queueOps.foldlM step (reset 3)).map tailPos = some 2 := by decide
  rw [hs, Option.map_some, hzero] at htailPos
  cases htailPos

/-- The last instruction of a full stage is not found. -/
theorem tail_of_full :
    let ops : List (StageOp ℕ) := [.addInstr 1, .addInstr 2]
    Permits StageOp.onList (fun l op => op.Allowed 2 l ∧ op.Queued) [] ops ∧
      ∃ s, ops.foldlM step (reset 2) = some s ∧ ops.foldl StageOp.onList [] = [1, 2] ∧
        s.tail = none :=
  ⟨by simp [Permits, StageOp.onList, StageOp.Allowed, StageOp.Queued], _, rfl, rfl, rfl⟩

end PipelineStage

end Adl.Uadl
