import Adl.Math.Halting
import Mathlib.Algebra.BigOperators.Group.Finset.Basic
import Mathlib.Data.BitVec

/-!
# Traces of several cores in one stream

Each core puts its trace objects into a queue. A thread takes from each queue the objects of one
instruction, up to a commit object with the time, and writes the earliest instruction
(`iss/ThreadedLogger.C`, `iss/LoggingMgrImpl.C`). When the cores are done, it goes on until it finds
no more.

Cores and thread take turns in any order. A turn of the thread takes one object out of a queue, or
writes an instruction.
-/

namespace Adl.Trace.MergedLog

variable {α : Type}

structure ThreadedLogger (α : Type) where
  tqueue : List α
  pending : List α
  pendingTs : BitVec 64

/-- The state of the thread in a scan of the loggers, and what has been written for each core. -/
structure LoggingMgr (α : Type) where
  loggers : ℕ → ThreadedLogger α
  index : ℕ
  minTs : BitVec 64
  minIndex : Option ℕ
  done : Bool
  draining : Bool
  written : List (ℕ × α)

inductive Event (α : Type) where
  | push (i : ℕ) (e : α)
  | done
  | turn

/-- `handleMergedLogging` of a logger up to its next object, with what it returns. Only commits have
a time other than 0. -/
def ThreadedLogger.poll (stamp : α → BitVec 64) (l : ThreadedLogger α) :
    ThreadedLogger α × Option (BitVec 64) :=
  if l.pendingTs = 0 then
    match l.tqueue with
    | [] => (l, some 0)
    | e :: q =>
      if stamp e = 0 then ({ l with tqueue := q, pending := l.pending ++ [e] }, none)
      else ({ l with tqueue := q, pendingTs := stamp e }, some (stamp e))
  else (l, some l.pendingTs)

namespace LoggingMgr

/-- The thread first looks whether the cores are done, as it does after a scan. -/
def init (cores : ℕ) : LoggingMgr α where
  loggers _ := ⟨[], [], 0⟩
  index := cores
  minTs := BitVec.allOnes 64
  minIndex := none
  done := false
  draining := false
  written := []

def setLogger (i : ℕ) (l : ThreadedLogger α) (s : LoggingMgr α) : LoggingMgr α :=
  { s with loggers := Function.update s.loggers i l }

/-- A logger has returned a time, which may be the first one. -/
def found (ts : BitVec 64) (s : LoggingMgr α) : LoggingMgr α :=
  if ts ≠ 0 ∧ ts < s.minTs then
    { s with index := s.index + 1, minTs := ts, minIndex := some s.index }
  else { s with index := s.index + 1 }

def scan (stamp : α → BitVec 64) (s : LoggingMgr α) : LoggingMgr α :=
  let (l, ts) := (s.loggers s.index).poll stamp
  match ts with
  | none => s.setLogger s.index l
  | some ts => (s.setLogger s.index l).found ts

def commitMergedLogging (i : ℕ) (s : LoggingMgr α) : LoggingMgr α :=
  { s.setLogger i { s.loggers i with pending := [], pendingTs := 0 } with
    written := s.written ++ (s.loggers i).pending.map (i, ·) }

def restart (draining : Bool) (s : LoggingMgr α) : LoggingMgr α :=
  { s with index := 0, minTs := BitVec.allOnes 64, minIndex := none, draining }

/-- One turn of `runMergedStream`, which may be the last one. -/
def turn (stamp : α → BitVec 64) (cores : ℕ) (s : LoggingMgr α) : LoggingMgr α ⊕ LoggingMgr α :=
  if s.index < cores then .inl (s.scan stamp)
  else
    match s.minIndex with
    | some i => .inl ((s.commitMergedLogging i).restart (s.draining || s.done))
    -- nothing has been found, which ends the loop that drains the queues
    | none => if s.draining then .inr s else .inl (s.restart s.done)

def exec (stamp : α → BitVec 64) (cores : ℕ) (s : LoggingMgr α) : Event α → LoggingMgr α
  | .push i e => s.setLogger i { s.loggers i with tqueue := (s.loggers i).tqueue ++ [e] }
  | .done => { s with done := true }
  | .turn => (s.turn stamp cores).elim id id

def run (stamp : α → BitVec 64) (cores : ℕ) (events : List (Event α)) : LoggingMgr α :=
  events.foldl (exec stamp cores) (init cores)

/-- What has been written for a core. -/
def writtenOf (i : ℕ) (s : LoggingMgr α) : List α := (s.written.filter (·.1 = i)).map (·.2)

end LoggingMgr

open LoggingMgr

def Event.pushed (i : ℕ) : Event α → List α
  | .push j e => if j = i then [e] else []
  | .done | .turn => []

/-- What a core has put into its queue. -/
def pushed (i : ℕ) (events : List (Event α)) : List α := events.flatMap (Event.pushed i)

/-! ### The turns of the thread -/

variable {stamp : α → BitVec 64} {cores i : ℕ} {s s' : LoggingMgr α} {l l' : ThreadedLogger α}
  {ts : BitVec 64} {r : Option (BitVec 64)} {w d p : List α}

/-- A time that is returned changes no logger. -/
@[simp]
theorem found_frame : (s.found ts).loggers = s.loggers ∧ (s.found ts).written = s.written ∧
    (s.found ts).index = s.index + 1 ∧ (s.found ts).done = s.done ∧
    (s.found ts).draining = s.draining := by
  unfold found
  split <;> exact ⟨rfl, rfl, rfl, rfl, rfl⟩

/-- What the thread can do in a turn. -/
inductive Turn (stamp : α → BitVec 64) (cores : ℕ) (s : LoggingMgr α) : LoggingMgr α → Prop
  | take {l : ThreadedLogger α} (hi : s.index < cores)
      (hl : (s.loggers s.index).poll stamp = (l, none)) : Turn stamp cores s (s.setLogger s.index l)
  | pass {l : ThreadedLogger α} {ts : BitVec 64} (hi : s.index < cores)
      (hl : (s.loggers s.index).poll stamp = (l, some ts)) :
      Turn stamp cores s ((s.setLogger s.index l).found ts)
  | write {i : ℕ} (hmin : s.minIndex = some i) :
      Turn stamp cores s ((s.commitMergedLogging i).restart (s.draining || s.done))
  | again (hd : s.draining = false) : Turn stamp cores s (s.restart s.done)

theorem turn_spec (h : s.turn stamp cores = .inl s') : Turn stamp cores s s' := by
  unfold LoggingMgr.turn at h
  split at h
  case isTrue hi =>
    obtain rfl := Sum.inl.inj h
    rcases hl : (s.loggers s.index).poll stamp with ⟨l, _ | ts⟩
    · simpa only [scan, hl] using .take hi hl
    · simpa only [scan, hl] using .pass hi hl
  case isFalse =>
    split at h
    case h_1 hmin =>
      obtain rfl := Sum.inl.inj h
      exact .write hmin
    case h_2 =>
      split at h
      case isTrue => simp at h
      case isFalse hd =>
        obtain rfl := Sum.inl.inj h
        exact .again (by simpa using hd)

theorem turn_stop (h : s.turn stamp cores = .inr s') :
    s' = s ∧ cores ≤ s.index ∧ s.minIndex = none ∧ s.draining = true := by
  unfold LoggingMgr.turn at h
  grind

/-! ### Whole instructions -/

/-- The objects are those of whole instructions. -/
def Whole (stamp : α → BitVec 64) (w : List α) : Prop := ∀ e ∈ w.getLast?, stamp e ≠ 0

/-- What has been written for a core are its first whole instructions. The next objects are pending,
and then in the queue. -/
structure Kept (stamp : α → BitVec 64) (l : ThreadedLogger α) (w p : List α) : Prop where
  items : ∀ e ∈ l.pending, stamp e = 0
  split : ∃ whole commit, p = whole ++ (l.pending ++ commit) ++ l.tqueue ∧
    w = whole.filter (stamp · = 0) ∧ Whole stamp whole ∧
    (l.pendingTs = 0 → commit = []) ∧
    (l.pendingTs ≠ 0 → ∃ e, commit = [e] ∧ stamp e = l.pendingTs)

/-- What a turn can do to one logger, and what it writes of it. -/
inductive Moves (stamp : α → BitVec 64) : ThreadedLogger α → ThreadedLogger α → List α → Prop
  | stay {l : ThreadedLogger α} : Moves stamp l l []
  | item {l : ThreadedLogger α} {e : α} {q : List α} (hts : l.pendingTs = 0)
      (hq : l.tqueue = e :: q) (he : stamp e = 0) :
      Moves stamp l { l with tqueue := q, pending := l.pending ++ [e] } []
  | commit {l : ThreadedLogger α} {e : α} {q : List α} (hts : l.pendingTs = 0)
      (hq : l.tqueue = e :: q) (he : stamp e ≠ 0) :
      Moves stamp l { l with tqueue := q, pendingTs := stamp e } []
  | write {l : ThreadedLogger α} (hts : l.pendingTs ≠ 0) :
      Moves stamp l { l with pending := [], pendingTs := 0 } l.pending

theorem Kept.moves (h : Kept stamp l w p) (hm : Moves stamp l l' d) : Kept stamp l' (w ++ d) p := by
  obtain ⟨hitems, whole, commit, rfl, rfl, hwhole, hnone, hsome⟩ := h
  cases hm with
  | stay => exact ⟨hitems, whole, commit, rfl, by simp, hwhole, hnone, hsome⟩
  | item hts hq he =>
    obtain rfl := hnone hts
    refine ⟨?_, whole, [], by simp [hq], by simp, hwhole, fun _ => rfl, fun h => absurd hts h⟩
    simpa [or_imp, forall_and, he] using hitems
  | @commit e _ hts hq he =>
    obtain rfl := hnone hts
    exact ⟨hitems, whole, [e], by simp [hq], by simp, hwhole, fun h => absurd h he,
      fun _ => ⟨e, rfl, rfl⟩⟩
  | write hts =>
    -- the instruction that was pending is now the last whole one
    obtain ⟨e, rfl, he⟩ := hsome hts
    have hne : stamp e ≠ 0 := he ▸ hts
    refine ⟨by simp, whole ++ (l.pending ++ [e]), [], by simp, ?_, ?_, fun _ => rfl,
      fun h => absurd rfl h⟩
    · have hp : l.pending.filter (stamp · = 0) = l.pending :=
        List.filter_eq_self.mpr (by simpa using hitems)
      rw [List.filter_append, List.filter_append, hp, List.filter_cons_of_neg (by simpa using hne),
        List.filter_nil, List.append_nil]
    · intro e' he'
      rw [← List.append_assoc, List.getLast?_concat] at he'
      exact Option.mem_some.mp he' ▸ hne

theorem Kept.push (h : Kept stamp l w p) (e : α) :
    Kept stamp { l with tqueue := l.tqueue ++ [e] } w (p ++ [e]) := by
  obtain ⟨hitems, whole, commit, rfl, hw, hwhole, hcommit⟩ := h
  exact ⟨hitems, whole, commit, by simp, hw, hwhole, hcommit⟩

/-- No time is taken for that of a missing instruction. -/
theorem Kept.ts_lt (hmax : ∀ e, stamp e ≠ BitVec.allOnes 64) (h : Kept stamp l w p)
    (hts : l.pendingTs ≠ 0) : l.pendingTs < BitVec.allOnes 64 := by
  obtain ⟨_, _, _, _, _, _, hsome⟩ := h.split
  obtain ⟨e, -, he⟩ := hsome hts
  have hne : l.pendingTs ≠ BitVec.allOnes 64 := he ▸ hmax e
  grind

theorem poll_moves (h : l.poll stamp = (l', r)) : Moves stamp l l' [] := by
  unfold ThreadedLogger.poll at h
  split at h
  case isTrue hts =>
    split at h
    case h_1 => exact (Prod.mk.inj h).1 ▸ .stay
    case h_2 hq =>
      split at h
      case isTrue he => exact (Prod.mk.inj h).1 ▸ .item hts hq he
      case isFalse he => exact (Prod.mk.inj h).1 ▸ .commit hts hq he
  case isFalse => exact (Prod.mk.inj h).1 ▸ .stay

/-- The time that is returned is that of the instruction that is pending. -/
theorem poll_some (h : l.poll stamp = (l', some ts)) :
    l'.pendingTs = ts ∧ (ts = 0 → l'.tqueue = []) := by
  unfold ThreadedLogger.poll at h
  grind

theorem poll_pending (h : l.poll stamp = (l', r)) (hts : l.pendingTs ≠ 0) : l' = l := by
  unfold ThreadedLogger.poll at h
  grind

theorem writtenOf_commit (i j : ℕ) : (s.commitMergedLogging j).writtenOf i =
    s.writtenOf i ++ if j = i then (s.loggers j).pending else [] := by
  by_cases h : j = i <;>
    simp [writtenOf, commitMergedLogging, List.filter_map, Function.comp_def, h]

theorem Turn.moves (h : Turn stamp cores s s')
    (hmin : ∀ i ∈ s.minIndex, (s.loggers i).pendingTs ≠ 0) (i : ℕ) :
    ∃ d, s'.writtenOf i = s.writtenOf i ++ d ∧ Moves stamp (s.loggers i) (s'.loggers i) d := by
  have hput {l d} (j : ℕ) (hl : Moves stamp (s.loggers j) l d) : Moves stamp (s.loggers i)
      ((s.setLogger j l).loggers i) (if j = i then d else []) := by
    by_cases hi : j = i
    · subst hi
      simpa [setLogger] using hl
    · simpa [setLogger, hi, Ne.symm hi] using Moves.stay
  cases h with
  | take _ hl => exact ⟨[], by simp [writtenOf, setLogger], by simpa using hput _ (poll_moves hl)⟩
  | pass _ hl => exact ⟨[], by simp [writtenOf, setLogger], by simpa using hput _ (poll_moves hl)⟩
  | @write j hj => exact ⟨_, writtenOf_commit i j, hput j (.write (hmin j hj))⟩
  | again => exact ⟨[], by simp [writtenOf, restart], .stay⟩

/-- The state of the thread is sound for what the cores have put into the queues. -/
structure Sound (stamp : α → BitVec 64) (cores : ℕ) (given : ℕ → List α) (s : LoggingMgr α) :
    Prop where
  kept : ∀ i, Kept stamp (s.loggers i) (s.writtenOf i) (given i)
  chosen : ∀ i ∈ s.minIndex, i < cores ∧ (s.loggers i).pendingTs ≠ 0
  none_ts : s.minIndex = none → s.minTs = BitVec.allOnes 64

variable {given : ℕ → List α} {events : List (Event α)}

theorem Sound.turn (h : Sound stamp cores given s) (ht : Turn stamp cores s s') :
    Sound stamp cores given s' := by
  have hkept (i : ℕ) : Kept stamp (s'.loggers i) (s'.writtenOf i) (given i) := by
    obtain ⟨d, hd, hm⟩ := ht.moves (fun i hi => (h.chosen i hi).2) i
    rw [hd]
    exact (h.kept i).moves hm
  -- a logger keeps its instruction as long as it is not written
  have hput {l r} (hl : (s.loggers s.index).poll stamp = (l, r)) : ∀ i ∈ s.minIndex,
      i < cores ∧ ((s.setLogger s.index l).loggers i).pendingTs ≠ 0 := by
    intro i hi
    by_cases heq : i = s.index
    · subst heq
      simpa [setLogger, poll_pending hl (h.chosen _ hi).2] using h.chosen _ hi
    · simpa [setLogger, heq] using h.chosen i hi
  cases ht with
  | take _ hl => exact ⟨hkept, hput hl, h.none_ts⟩
  | pass hi hl =>
    refine ⟨hkept, ?_, ?_⟩ <;> unfold found <;> split
    case refine_1.isTrue hts =>
      rintro i ⟨⟩
      refine ⟨hi, ?_⟩
      simpa [setLogger, (poll_some hl).1] using hts.1
    case refine_1.isFalse => exact hput hl
    case refine_2.isTrue => simp
    case refine_2.isFalse => exact h.none_ts
  | write | again => exact ⟨hkept, by simp [restart], fun _ => rfl⟩

theorem Sound.exec (h : Sound stamp cores given s) (event : Event α) :
    Sound stamp cores (fun i => given i ++ event.pushed i) (s.exec stamp cores event) := by
  cases event with
  | push j e =>
    constructor
    · intro i
      by_cases hi : i = j
      · subst hi
        simpa [LoggingMgr.exec, setLogger, writtenOf, Event.pushed] using (h.kept i).push e
      · simpa [LoggingMgr.exec, setLogger, writtenOf, Event.pushed, hi, Ne.symm hi] using h.kept i
    · intro i hi
      have hc := h.chosen i hi
      by_cases hj : i = j
      · subst hj
        simpa [LoggingMgr.exec, setLogger] using hc
      · simpa [LoggingMgr.exec, setLogger, hj] using hc
    · exact h.none_ts
  | done => simpa [Event.pushed] using ⟨h.kept, h.chosen, h.none_ts⟩
  | turn =>
    simp only [Event.pushed, List.append_nil, LoggingMgr.exec]
    rcases ht : s.turn stamp cores with s' | s'
    · exact h.turn (turn_spec ht)
    · exact (turn_stop ht).1 ▸ h

theorem run_concat (event : Event α) :
    run stamp cores (events ++ [event]) = (run stamp cores events).exec stamp cores event :=
  List.foldl_concat ..

theorem sound_run (events : List (Event α)) :
    Sound stamp cores (pushed · events) (run stamp cores events) := by
  induction events using List.reverseRecOn with
  | nil =>
    refine ⟨fun i => ⟨by simp [run, init], [], [], ?_⟩, by simp [run, init], fun _ => rfl⟩
    simp [pushed, run, init, writtenOf, Whole]
  | append_singleton events event ih =>
    simpa [run_concat, pushed] using ih.exec event

/-- However cores and thread take turns, what has been written for a core are the objects of its
first whole instructions, in order and none twice. -/
theorem written_whole (stamp : α → BitVec 64) (cores : ℕ) (events : List (Event α)) (i : ℕ) :
    ∃ whole rest, pushed i events = whole ++ rest ∧ Whole stamp whole ∧
      (run stamp cores events).writtenOf i = whole.filter (stamp · = 0) := by
  obtain ⟨-, whole, commit, hp, hw, hwhole, -⟩ := (sound_run events).kept i
  exact ⟨whole, _, by rw [hp, List.append_assoc], hwhole, hw⟩

/-! ### After the cores are done -/

/-- Once the thread knows that the cores are done, the loggers it has passed without finding an
instruction are empty. -/
structure Drains (s : LoggingMgr α) : Prop where
  done : s.done = true
  passed : s.draining = true → s.minIndex = none →
    ∀ i < s.index, (s.loggers i).pendingTs = 0 ∧ (s.loggers i).tqueue = []

theorem Drains.turn (hmax : ∀ e, stamp e ≠ BitVec.allOnes 64) (hs : Sound stamp cores given s)
    (h : Drains s) (ht : Turn stamp cores s s') : Drains s' := by
  have hput {l} {i} (hd : s.draining = true) (hn : s.minIndex = none) (hi : i < s.index) :
      ((s.setLogger s.index l).loggers i).pendingTs = 0 ∧
        ((s.setLogger s.index l).loggers i).tqueue = [] := by
    simpa [setLogger, hi.ne] using h.passed hd hn i hi
  cases ht with
  | take => exact ⟨h.done, fun hd hn i hi => hput hd hn hi⟩
  | @pass l ts hi hl =>
    refine ⟨found_frame.2.2.2.1.trans h.done, ?_⟩
    unfold found
    split
    case isTrue => simp
    case isFalse hts =>
      intro hd hn i hi
      -- any other time would have been smaller than the first one
      have hzero : ts = 0 := by
        by_contra hne
        have hkept := ((hs.turn (.pass ‹_› hl)).kept s.index).ts_lt hmax
        simp only [found_frame, setLogger, Function.update_self, (poll_some hl).1] at hkept
        exact hts ⟨hne, (hs.none_ts hn).symm ▸ hkept hne⟩
      rcases Nat.lt_succ_iff_lt_or_eq.mp hi with hlt | rfl
      · exact hput hd hn hlt
      · simpa [setLogger, (poll_some hl).1, hzero] using (poll_some hl).2 hzero
  | write | again => exact ⟨h.done, fun _ _ i hi => absurd hi (Nat.not_lt_zero i)⟩

def load (l : ThreadedLogger α) : ℕ := l.tqueue.length + if l.pendingTs = 0 then 0 else 1

theorem load_poll (h : l.poll stamp = (l', r)) :
    load l' + (if r = none then 1 else 0) = load l := by
  unfold ThreadedLogger.poll at h
  unfold load
  grind

/-- What is left to be done. A scan is one turn a logger, and each scan but the last one writes an
instruction or sees that the cores are done. -/
def work (cores : ℕ) (s : LoggingMgr α) : ℕ :=
  (cores + 2) * (∑ i ∈ Finset.range cores, load (s.loggers i) + if s.draining then 0 else 1) +
    (cores - s.index)

theorem sum_setLogger (hi : i < cores) :
    ∑ j ∈ Finset.range cores, load ((s.setLogger i l).loggers j) + load (s.loggers i) =
      ∑ j ∈ Finset.range cores, load (s.loggers j) + load l := by
  have hrest : ∑ j ∈ (Finset.range cores).erase i, load ((s.setLogger i l).loggers j) =
      ∑ j ∈ (Finset.range cores).erase i, load (s.loggers j) :=
    Finset.sum_congr rfl fun j hj => by simp [setLogger, Finset.ne_of_mem_erase hj]
  rw [← Finset.sum_erase_add _ _ (Finset.mem_range.mpr hi), hrest,
    ← Finset.sum_erase_add _ (fun j => load (s.loggers j)) (Finset.mem_range.mpr hi)]
  simp only [setLogger, Function.update_self]
  omega

/-- Less to do in a queue outweighs a new scan. -/
theorem work_lt_of_sum (h : ∑ i ∈ Finset.range cores, load (s'.loggers i) +
      (if s'.draining then 0 else 1) < ∑ i ∈ Finset.range cores, load (s.loggers i) +
      (if s.draining then 0 else 1)) : work cores s' < work cores s := by
  have hmul := Nat.mul_le_mul_left (cores + 2) h
  rw [Nat.succ_eq_add_one, Nat.mul_add] at hmul
  unfold work
  omega

theorem Turn.work_lt (hs : Sound stamp cores given s) (hdone : s.done = true)
    (ht : Turn stamp cores s s') : work cores s' < work cores s := by
  cases ht with
  | @take l hi hl =>
    have hsum := @sum_setLogger _ _ _ s l hi
    rw [← load_poll hl, if_pos rfl] at hsum
    exact work_lt_of_sum (Nat.add_lt_add_right (by omega) _)
  | @pass l _ hi hl =>
    have hsum := @sum_setLogger _ _ _ s l hi
    rw [← load_poll hl, if_neg (by simp)] at hsum
    simp only [work, found_frame]
    rw [Nat.add_right_cancel hsum]
    exact Nat.add_lt_add_left (Nat.sub_lt_sub_left hi (Nat.lt_succ_self _)) _
  | @write i hmin =>
    obtain ⟨hi, hts⟩ := hs.chosen i hmin
    have hsum := @sum_setLogger _ _ _ s { s.loggers i with pending := [], pendingTs := 0 } hi
    have hless : load { s.loggers i with pending := [], pendingTs := 0 } < load (s.loggers i) := by
      simp only [load, hts, if_true, if_false]
      omega
    have hlt := Nat.lt_of_add_lt_add_right (hsum.trans_lt (Nat.add_lt_add_left hless _))
    exact work_lt_of_sum (Nat.add_lt_add_of_lt_of_le hlt (by simp [restart, hdone]))
  | again hd => exact work_lt_of_sum (by simp [restart, hdone, hd])

/-- The thread knows nothing of the end before the cores are done. -/
theorem idle_run (hdone : Event.done ∉ events) :
    (run stamp cores events).done = false ∧ (run stamp cores events).draining = false := by
  induction events using List.reverseRecOn with
  | nil => exact ⟨rfl, rfl⟩
  | append_singleton events event ih =>
    obtain ⟨hd, hdr⟩ := ih (by grind)
    rw [run_concat]
    cases event with
    | push => exact ⟨hd, hdr⟩
    | done => simp at hdone
    | turn =>
      simp only [LoggingMgr.exec]
      rcases ht : (run stamp cores events).turn stamp cores with s' | s'
      · cases turn_spec ht <;> simp [restart, commitMergedLogging, setLogger, hd, hdr]
      · exact (turn_stop ht).1 ▸ ⟨hd, hdr⟩

/-- After the cores are done the thread ends, and it has then written every object up to the last
commit of each core. The objects after it are lost. -/
theorem drained (hmax : ∀ e, stamp e ≠ BitVec.allOnes 64) (hdone : Event.done ∉ events) :
    ∃ s', Math.Finishes (turn stamp cores) (run stamp cores (events ++ [.done])) s' ∧
      ∀ i < cores, ∃ whole rest, pushed i events = whole ++ rest ∧ Whole stamp whole ∧
        (∀ e ∈ rest, stamp e = 0) ∧ s'.writtenOf i = whole.filter (stamp · = 0) := by
  have hdrain : Drains (run stamp cores (events ++ [.done])) := by
    rw [run_concat]
    exact ⟨rfl, fun hd => by simp [LoggingMgr.exec, (idle_run hdone).2] at hd⟩
  have hstep (s s' : LoggingMgr α)
      (h : Sound stamp cores (pushed · (events ++ [.done])) s ∧ Drains s)
      (hnext : s.turn stamp cores = .inl s') :
      Sound stamp cores (pushed · (events ++ [.done])) s' ∧ Drains s' :=
    ⟨h.1.turn (turn_spec hnext), h.2.turn hmax h.1 (turn_spec hnext)⟩
  obtain ⟨r, hr⟩ := Math.finishes_of_measure (work cores)
    (fun s s' h hnext => ⟨hstep s s' h hnext, (turn_spec hnext).work_lt h.1 h.2.done⟩)
    ⟨sound_run _, hdrain⟩
  obtain ⟨s', ⟨hs, hd⟩, hstop⟩ := hr.invariant hstep ⟨sound_run _, hdrain⟩
  obtain ⟨rfl, hindex, hmin, hdraining⟩ := turn_stop hstop
  refine ⟨_, hr, fun i hi => ?_⟩
  -- the last scan has passed all loggers, so that only objects without a commit are left
  obtain ⟨hts, hq⟩ := hd.passed hdraining hmin i (by omega)
  obtain ⟨hitems, whole, commit, hp, hw, hwhole, hnone, -⟩ := hs.kept i
  refine ⟨whole, _, ?_, hwhole, hitems, hw⟩
  simpa [pushed, Event.pushed, hnone hts, hq] using hp

theorem drained_two : ∃ s', Math.Finishes (turn (fun e => if e then 7 else 0) 2)
      (run (fun e => if e then 7 else 0) 2
        ([.push 0 false, .turn, .push 1 false, .turn, .push 1 true] ++ [.done])) s' ∧
      ∀ i < 2, ∃ whole rest,
        pushed i [.push 0 false, .turn, .push 1 false, .turn, .push 1 true] = whole ++ rest ∧
        Whole (fun e => if e then 7 else 0) whole ∧
        (∀ e ∈ rest, (if e then 7 else 0 : BitVec 64) = 0) ∧
        s'.writtenOf i = whole.filter (fun e => (if e then 7 else 0 : BitVec 64) = 0) :=
  drained (by decide) (by simp)

end Adl.Trace.MergedLog
