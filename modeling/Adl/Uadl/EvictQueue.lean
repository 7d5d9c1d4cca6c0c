import Mathlib.Tactic.Common
import Adl.Math.Lists
import Adl.Uadl.Cache

/-!
# The queue of write-backs

A line that is replaced is written back by an eviction, which is queued behind the linefill that
replaces it and leaves the queue when its line is written. The invariant links every linefill to its
eviction and the buffer to the first eviction of the queue.
-/

namespace Adl.Uadl

structure Slot where
  type : NextLevelActionType
  id : ReqId
  hasParallelEvict : Bool
  lineSet : BitVec 32
  lineWay : BitVec 32
  started : Bool
deriving DecidableEq, Repr

namespace Slot

def isEvict (s : Slot) : Bool := s.type = .evict

def start (s : Slot) : Slot := { s with started := true }

/-- The request of an eviction, and the line that it writes. -/
def line (s : Slot) : ReqId × BitVec 32 × BitVec 32 := (s.id, s.lineSet, s.lineWay)

/-- The eviction of the line that a linefill replaces. -/
def EvictFor (s e : Slot) : Prop := e.isEvict ∧ e.line = s.line

/-- A linefill that replaces a modified line. -/
def Replaces (s : Slot) : Prop := s.type = .linefill ∧ s.hasParallelEvict = true

end Slot

/-- Every linefill that replaces a modified line has the eviction of this line behind it. -/
def Paired : List Slot → Prop
  | [] => True
  | s :: rest => (s.Replaces → ∃ e ∈ rest.head?, s.EvictFor e) ∧ Paired rest

/-- The buffer is used for the first eviction, if that has started; no other has started. -/
def Evicting (buffer : Option ReqId) : List Slot → Prop
  | [] => buffer = none
  | e :: rest => buffer = (if e.started then some e.id else none) ∧ ∀ s ∈ rest, s.started = false

structure EvictQueue where
  slots : List Slot
  /-- The request for which the eviction buffer is in use. -/
  buffer : Option ReqId

inductive EvictEvent where
  | queued (line : ReqId × BitVec 32 × BitVec 32)
  /-- The eviction buffer at the end. -/
  | written (line : ReqId × BitVec 32 × BitVec 32) (buffer : EvictBuf)

namespace EvictEvent

/-- The lines that were queued. -/
def queuedLines : List EvictEvent → List (ReqId × BitVec 32 × BitVec 32)
  | [] => []
  | queued line :: rest => line :: queuedLines rest
  | written _ _ :: rest => queuedLines rest

/-- The lines that were written. -/
def writtenLines : List EvictEvent → List (ReqId × BitVec 32 × BitVec 32)
  | [] => []
  | queued _ :: rest => writtenLines rest
  | written line _ :: rest => line :: writtenLines rest

/-- A line is written when all of the buffer has been sent, and the buffer was filled for it. -/
def Complete : EvictEvent → Prop
  | queued _ => True
  | written line buffer => buffer.requestId = line.1 ∧ buffer.evicted = true

variable {es es' : List EvictEvent}

@[simp] theorem queuedLines_append :
    queuedLines (es ++ es') = queuedLines es ++ queuedLines es' := by
  induction es with
  | nil => rfl
  | cons e rest ih => cases e <;> simp [queuedLines, ih]

@[simp] theorem writtenLines_append :
    writtenLines (es ++ es') = writtenLines es ++ writtenLines es' := by
  induction es with
  | nil => rfl
  | cons e rest ih => cases e <;> simp [writtenLines, ih]

theorem queuedLines_map_queued {α : Type*} {f : α → ReqId × BitVec 32 × BitVec 32} {l : List α} :
    queuedLines (l.map fun x => queued (f x)) = l.map f := by
  induction l with
  | nil => rfl
  | cons x rest ih => simp [queuedLines, ih]

theorem writtenLines_map_queued {α : Type*} {f : α → ReqId × BitVec 32 × BitVec 32} {l : List α} :
    writtenLines (l.map fun x => queued (f x)) = [] := by
  induction l with
  | nil => rfl
  | cons x rest ih => simp [writtenLines, ih]

end EvictEvent

namespace EvictQueue

variable (q : EvictQueue)

def evicts : List Slot := q.slots.filter (·.isEvict)

/-- The lines that wait to be written. -/
def lines : List (ReqId × BitVec 32 × BitVec 32) := q.evicts.map (·.line)

theorem evicts_filter {keep : Slot → Bool} {slots : List Slot} {buffer : Option ReqId} :
    evicts ⟨slots.filter keep, buffer⟩ = (evicts ⟨slots, buffer⟩).filter keep := by
  rw [evicts, evicts, List.filter_filter, List.filter_filter]
  exact List.filter_congr fun s _ => Bool.and_comm ..

theorem lines_filter_iff {keep : Slot → Bool} :
    lines ⟨q.slots.filter keep, q.buffer⟩ = q.lines ↔ ∀ s ∈ q.evicts, keep s = true := by
  rw [lines, lines, evicts_filter]
  constructor
  · intro h
    have hlength := congrArg List.length h
    rw [List.length_map, List.length_map] at hlength
    exact List.length_filter_eq_length_iff.mp hlength
  · intro h
    exact congrArg _ (List.filter_eq_self.mpr h)

/-- Linefills have their evictions, and the buffer is used for the first eviction. -/
structure Linked : Prop where
  paired : Paired q.slots
  evicting : Evicting q.buffer q.evicts

end EvictQueue

/-! ### Lists of slots -/

variable {l l' : List Slot} {s : Slot} {buffer : Option ReqId} {i : ℕ}

theorem Paired.append (h : Paired l) (h' : Paired l') : Paired (l ++ l') := by
  induction l with
  | nil => exact h'
  | cons s rest ih =>
    refine ⟨fun hs => ?_, ih h.2⟩
    obtain ⟨e, he, hevict⟩ := h.1 hs
    refine ⟨e, ?_, hevict⟩
    cases rest with
    | nil => cases he
    | cons x rest => exact he

theorem paired_of_forall (h : ∀ s ∈ l, ¬ s.Replaces) : Paired l := by
  induction l with
  | nil => trivial
  | cons s rest ih =>
    exact ⟨fun hs => absurd hs (h s List.mem_cons_self),
      ih fun s hs => h s (List.mem_cons_of_mem _ hs)⟩

theorem Paired.start (h : Paired l) : Paired (l.modify i Slot.start) := by
  induction l generalizing i with
  | nil => simpa using h
  | cons s rest ih =>
    cases i with
    | zero => exact ⟨h.1, h.2⟩
    | succ i =>
      refine ⟨fun hs => ?_, ih h.2⟩
      obtain ⟨e, he, hse⟩ := h.1 hs
      cases rest with
      | nil => cases he
      | cons x rest =>
        obtain rfl := Option.some.inj he
        cases i with
        | zero => exact ⟨x.start, rfl, hse⟩
        | succ i => exact ⟨x, rfl, hse⟩

theorem Paired.filter {keep : Slot → Bool} (hkeep : ∀ s ∈ l, s.isEvict = true → keep s = true)
    (h : Paired l) : Paired (l.filter keep) := by
  induction l with
  | nil => trivial
  | cons s rest ih =>
    have hrest := ih (fun s hs => hkeep s (List.mem_cons_of_mem _ hs)) h.2
    rw [List.filter_cons]
    split
    case isFalse => exact hrest
    case isTrue =>
      refine ⟨fun hs => ?_, hrest⟩
      obtain ⟨e, he, hse⟩ := h.1 hs
      cases rest with
      | nil => cases he
      | cons x rest =>
        obtain rfl := Option.some.inj he
        have hx : keep x = true := hkeep x (by simp) hse.1
        exact ⟨x, by rw [List.filter_cons, if_pos hx]; rfl, hse⟩

theorem Evicting.append {new : List Slot} (h : Evicting buffer l)
    (hnew : ∀ s ∈ new, s.started = false) : Evicting buffer (l ++ new) := by
  cases l with
  | nil =>
    cases new with
    | nil => exact h
    | cons s new =>
      refine ⟨?_, fun x hx => hnew x (List.mem_cons_of_mem _ hx)⟩
      rw [hnew s List.mem_cons_self]
      exact h
  | cons e rest =>
    refine ⟨h.1, fun x hx => ?_⟩
    rcases List.mem_append.mp hx with hx | hx
    · exact h.2 x hx
    · exact hnew x hx

/-! ### Changes -/

/-- A change that keeps the invariant. The lines that were queued before or are queued by the change
are written by it or stay in the queue, in their order. -/
def Moves (q : EvictQueue) (es : List EvictEvent) (q' : EvictQueue) : Prop :=
  q.Linked → q'.Linked ∧ (∀ e ∈ es, e.Complete) ∧
    q.lines ++ EvictEvent.queuedLines es = EvictEvent.writtenLines es ++ q'.lines

namespace Moves

variable {q q' q'' : EvictQueue} {es es' : List EvictEvent}

theorem silent (h : q.Linked → q'.Linked ∧ q'.lines = q.lines) : Moves q [] q' := by
  intro hq
  obtain ⟨hq', hlines⟩ := h hq
  exact ⟨hq', by simp, by simp [EvictEvent.queuedLines, EvictEvent.writtenLines, hlines]⟩

theorem of_evicts_eq (hpaired : q.Linked → Paired q'.slots) (hevicts : q'.evicts = q.evicts)
    (hbuffer : q'.buffer = q.buffer) : Moves q [] q' :=
  silent fun hq => ⟨⟨hpaired hq, by rw [hbuffer, hevicts]; exact hq.evicting⟩, by
    rw [EvictQueue.lines, hevicts, EvictQueue.lines]⟩

theorem refl (q : EvictQueue) : Moves q [] q := of_evicts_eq (·.paired) rfl rfl

theorem trans (h : Moves q es q') (h' : Moves q' es' q'') : Moves q (es ++ es') q'' := by
  intro hq
  obtain ⟨hq', hes, hlines⟩ := h hq
  obtain ⟨hq'', hes', hlines'⟩ := h' hq'
  refine ⟨hq'', fun e he => ?_, ?_⟩
  · rcases List.mem_append.mp he with he | he
    · exact hes e he
    · exact hes' e he
  · rw [EvictEvent.queuedLines_append, EvictEvent.writtenLines_append, ← List.append_assoc, hlines,
      List.append_assoc, hlines', List.append_assoc]

/-- A silent change before another. -/
theorem trans' (h : Moves q [] q') (h' : Moves q' es q'') : Moves q es q'' := h.trans h'

/-- New actions at the end. -/
theorem grow {new : List Slot} (hpaired : Paired new) (hnew : ∀ s ∈ new, s.started = false) :
    Moves q ((new.filter (·.isEvict)).map fun s => .queued s.line)
      ⟨q.slots ++ new, q.buffer⟩ := by
  intro hq
  refine ⟨⟨hq.paired.append hpaired, ?_⟩, ?_, ?_⟩
  · rw [EvictQueue.evicts, List.filter_append]
    exact hq.evicting.append fun s hs => hnew s (List.mem_of_mem_filter hs)
  · intro e he
    obtain ⟨s, -, rfl⟩ := List.mem_map.mp he
    trivial
  · rw [EvictEvent.queuedLines_map_queued, EvictEvent.writtenLines_map_queued, EvictQueue.lines,
      EvictQueue.lines, EvictQueue.evicts, EvictQueue.evicts, List.filter_append, List.map_append]
    rfl

theorem pop (hslots : q.slots = s :: l) (hs : s.isEvict = false) : Moves q [] ⟨l, q.buffer⟩ := by
  refine of_evicts_eq (fun hq => ?_) ?_ rfl
  · have hpaired := hq.paired
    rw [hslots] at hpaired
    exact hpaired.2
  · rw [EvictQueue.evicts, EvictQueue.evicts, hslots, List.filter_cons, hs]
    rfl

theorem write {b : EvictBuf} (hslots : q.slots = s :: l) (hs : s.isEvict = true)
    (hb : q.Linked → b.requestId = s.id ∧ b.evicted = true) :
    Moves q [.written s.line b] ⟨l, none⟩ := by
  intro hq
  have hevicts : q.evicts = s :: l.filter (·.isEvict) := by
    rw [EvictQueue.evicts, hslots, List.filter_cons, hs]
    rfl
  have hpaired := hq.paired
  have hevicting := hq.evicting
  rw [hslots] at hpaired
  rw [hevicts] at hevicting
  refine ⟨⟨hpaired.2, ?_⟩, ?_, ?_⟩
  · rw [EvictQueue.evicts]
    cases hrest : l.filter (·.isEvict) with
    | nil => rfl
    | cons e rest =>
      rw [hrest] at hevicting
      refine ⟨?_, fun x hx => hevicting.2 x (List.mem_cons_of_mem _ hx)⟩
      rw [hevicting.2 e List.mem_cons_self]
      rfl
  · intro e he
    obtain rfl := List.mem_singleton.mp he
    exact hb hq
  · rw [EvictQueue.lines, hevicts]
    simp [EvictEvent.queuedLines, EvictEvent.writtenLines, EvictQueue.lines, EvictQueue.evicts]

theorem forget {keep : Slot → Bool} (hkeep : ∀ s ∈ q.slots, s.isEvict = true → keep s = true) :
    Moves q [] ⟨q.slots.filter keep, q.buffer⟩ := by
  refine of_evicts_eq (·.paired.filter hkeep) ?_ rfl
  rw [EvictQueue.evicts_filter]
  refine List.filter_eq_self.mpr fun s hs => ?_
  obtain ⟨hs, hevict⟩ := List.mem_filter.mp hs
  exact hkeep s hs hevict

theorem start (hs : q.slots[i]? = some s) (hne : s.isEvict = false) :
    Moves q [] ⟨q.slots.modify i Slot.start, q.buffer⟩ := by
  refine of_evicts_eq (·.paired.start) ?_ rfl
  obtain ⟨pre, post, hslots, hmodify, -⟩ := Math.modify_split Slot.start hs
  have hstart : s.start.isEvict = false := hne
  rw [EvictQueue.evicts, EvictQueue.evicts, hmodify, hslots]
  simp [hne, hstart]

theorem startEvict (hs : q.slots[i]? = some s) (hevict : s.isEvict = true)
    (hbuffer : q.buffer = none)
    (hbefore : ∀ x ∈ q.slots.take i, x.isEvict = true → x.started = true) :
    Moves q [] ⟨q.slots.modify i Slot.start, some s.id⟩ := by
  refine silent fun hq => ?_
  obtain ⟨pre, post, hslots, hmodify, hlength⟩ := Math.modify_split Slot.start hs
  have hevicting := hq.evicting
  have hevicts : q.evicts = pre.filter (·.isEvict) ++ s :: post.filter (·.isEvict) := by
    rw [EvictQueue.evicts, hslots, List.filter_append, List.filter_cons, if_pos hevict]
  rw [hevicts] at hevicting
  -- an eviction before this one would use the buffer
  have hpre : pre.filter (·.isEvict) = [] := by
    cases hfilter : pre.filter (·.isEvict) with
    | nil => rfl
    | cons e rest =>
      obtain ⟨he, hevict⟩ := List.mem_filter.mp (hfilter ▸ List.mem_cons_self : e ∈ pre.filter _)
      have hstarted : e.started = true :=
        hbefore e (by rwa [hslots, ← hlength, List.take_left]) hevict
      rw [hfilter] at hevicting
      have hused := hevicting.1
      rw [hstarted, hbuffer] at hused
      cases hused
  have hevicts' : EvictQueue.evicts ⟨q.slots.modify i Slot.start, some s.id⟩ =
      s.start :: post.filter (·.isEvict) := by
    have hstart : s.start.isEvict = true := hevict
    rw [EvictQueue.evicts, hmodify, List.filter_append, hpre, List.filter_cons, if_pos hstart]
    rfl
  rw [hpre] at hevicts hevicting
  refine ⟨⟨hq.paired.start, ?_⟩, ?_⟩
  · rw [hevicts']
    exact ⟨rfl, hevicting.2⟩
  · rw [EvictQueue.lines, EvictQueue.lines, hevicts, hevicts']
    rfl

end Moves

end Adl.Uadl
