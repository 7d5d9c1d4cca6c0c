import Mathlib.Data.List.Basic
import Adl.Math.Aligned
import Adl.Uadl.Recorder

/-!
# A line is written back once

In each cycle an eviction buffer sends write requests until one is not taken, and writes data until
an entry cannot be written. Entries that are done are passed over, so that both are those of the
first entries, each once and in order.
-/

namespace Adl.Uadl

variable {ν : Type*}

/-- What happens while a line is evicted. -/
inductive EvictCall (ν : Type*) where
  | sendRequest
  | pushData
  /-- The next level goes on by itself. -/
  | next (m : ν)

/-- What happens to an eviction buffer. -/
inductive EvictOp (ν : Type*) where
  | call (call : EvictCall ν)
  | init (width : ℕ) (requestId : ReqId) (ea ra : Addr) (data : ℕ → Byte)
  | clear

namespace EvictBuf

def create (dynEntrySize : Bool) (lineWidth entrySize : ℕ) : EvictBuf :=
  { dynEntrySize, lineWidth, entrySize, entries := [] : EvictBuf }.setEntrySize lineWidth entrySize

def call (next : NextLevel ν) (s : EvictBuf × ν × List PortEvent) :
    EvictCall ν → EvictBuf × ν × List PortEvent
  | .sendRequest => (s.1.sendRequest next.recorded s.2).2
  | .pushData => (s.1.pushData next.recorded s.2).2
  | .next m => (s.1, m, s.2.2)

def exec (next : NextLevel ν) (s : EvictBuf × ν × List PortEvent) :
    EvictOp ν → EvictBuf × ν × List PortEvent
  | .call c => call next s c
  | .init width id ea ra data => (s.1.init width id ea ra data, s.2)
  | .clear => (s.1.clear, s.2)

/-- The bytes of an entry of a line. -/
def entryData (size : ℕ) (data : ℕ → Byte) (i : ℕ) : ℕ → Byte := fun j => data (i * size + j)

def entryRequest (size : ℕ) (ea ra : Addr) (data : ℕ → Byte) (i : ℕ) : NextRequest :=
  { type := .cacheWrite, ea := ea + BitVec.ofNat 64 (i * size),
    addr := ra + BitVec.ofNat 64 (i * size), size := size, isEvict := true,
    data := some (entryData size data i) }

/-- An eviction on its way: requests with the numbers `ids` have been sent for the first entries,
and the first `j` of them have been written. -/
structure Evicting (size : ℕ) (ea ra : Addr) (data : ℕ → Byte) (entries : List EvictBufEntry)
    (log : List PortEvent) (ids : List ReqId) (j : ℕ) : Prop where
  written_le : j ≤ ids.length
  sent_le : ids.length ≤ entries.length
  entryAddr : ∀ i e, entries[i]? = some e →
    e.ea = ea + BitVec.ofNat 64 (i * size) ∧ e.addr = ra + BitVec.ofNat 64 (i * size)
  sent : ∀ i e, entries[i]? = some e → e.requestSent = decide (i < ids.length)
  entryId : ∀ i e, entries[i]? = some e → i < ids.length → ids[i]? = some e.requestId
  written : ∀ i e, entries[i]? = some e → e.dataSent = decide (i < j)
  requests : PortEvent.requests log =
    ids.mapIdx fun i id => (id, entryRequest size ea ra data i)
  writes : PortEvent.writes log = (ids.take j).mapIdx fun i id => (id, entryData size data i)

section Steps

variable {next : NextLevel ν} {size : ℕ} {ea ra : Addr} {data : ℕ → Byte}
  {pre rest entries : List EvictBufEntry} {e e' : EvictBufEntry} {log : List PortEvent}
  {ids : List ReqId} {j : ℕ} {m : ν}

/-- What holds at every place still does if one entry is replaced. -/
theorem forall_replace {P : ℕ → EvictBufEntry → Prop} (hnew : P pre.length e')
    (h : ∀ i x, (pre ++ e :: rest)[i]? = some x → i ≠ pre.length → P i x) :
    ∀ i x, (pre ++ e' :: rest)[i]? = some x → P i x := by
  intro i x hx
  rcases Nat.lt_trichotomy i pre.length with hi | hi | hi
  · rw [List.getElem?_append_left hi] at hx
    exact h i x (by rwa [List.getElem?_append_left hi]) hi.ne
  · subst hi
    obtain rfl : e' = x := by simpa using hx
    exact hnew
  · obtain ⟨k, rfl⟩ := Nat.exists_eq_add_of_lt hi
    refine h _ x ?_ hi.ne'
    rw [List.getElem?_append_right (by omega)] at hx ⊢
    simpa [Nat.add_assoc] using hx

/-- The next request is sent. -/
theorem Evicting.send (h : Evicting size ea ra data (pre ++ e :: rest) log ids j)
    (hpre : pre.length = ids.length) (id : ReqId) :
    Evicting size ea ra data (pre ++ { e with requestSent := true, requestId := id } :: rest)
      (log ++ [.request id (entryRequest size ea ra data pre.length)]) (ids ++ [id]) j := by
  have he : (pre ++ e :: rest)[pre.length]? = some e := by simp
  refine ⟨h.written_le.trans (by simp), by simp [hpre],
    forall_replace (h.entryAddr _ e he) fun i x hx _ => h.entryAddr i x hx,
    forall_replace (e := e) (by simp [hpre]) fun i x hx hi => ?_,
    forall_replace (e := e) (by simp [hpre]) fun i x hx hne hi => ?_,
    forall_replace (h.written _ e he) fun i x hx _ => h.written i x hx, ?_, ?_⟩
  · rw [h.sent i x hx, List.length_append, List.length_singleton, ← hpre]
    exact decide_eq_decide.mpr (by omega)
  · rw [List.length_append, List.length_singleton, ← hpre] at hi
    rw [List.getElem?_append_left (by omega)]
    exact h.entryId i x hx (by omega)
  · rw [PortEvent.requests_append_request, h.requests, List.mapIdx_concat, hpre]
  · rw [PortEvent.writes_append_request, h.writes, List.take_append_of_le_length h.written_le]

theorem Evicting.write (h : Evicting size ea ra data (pre ++ e :: rest) log ids j)
    (hpre : pre.length = j) (hj : j < ids.length) :
    Evicting size ea ra data (pre ++ { e with dataSent := true } :: rest)
      (log ++ [.write e.requestId (entryData size data pre.length)]) ids (j + 1) := by
  have he : (pre ++ e :: rest)[pre.length]? = some e := by simp
  have hid : ids[j]? = some e.requestId := hpre ▸ h.entryId _ e he (hpre ▸ hj)
  refine ⟨hj, by simpa using h.sent_le,
    forall_replace (h.entryAddr _ e he) fun i x hx _ => h.entryAddr i x hx,
    forall_replace (h.sent _ e he) fun i x hx _ => h.sent i x hx,
    forall_replace (h.entryId _ e he) fun i x hx _ => h.entryId i x hx,
    forall_replace (e := e) (by simp [hpre]) fun i x hx hi => ?_, ?_, ?_⟩
  · rw [h.written i x hx, ← hpre]
    exact decide_eq_decide.mpr (by omega)
  · rw [PortEvent.requests_append_write, h.requests]
  · have htake : ids.take (j + 1) = ids.take j ++ [e.requestId] := by
      rw [List.take_add_one, hid, Option.toList_some]
    rw [PortEvent.writes_append_write, h.writes, htake, List.mapIdx_concat,
      List.length_take_of_le h.written_le, hpre]

variable {b : EvictBuf}

theorem sendEntries_evicting (next : NextLevel ν) (rest : List EvictBufEntry) :
    ∀ (pre : List EvictBufEntry) (m : ν) (log : List PortEvent) (ids : List ReqId),
      Evicting b.entrySize ea ra b.data (pre ++ rest) log ids j → pre.length ≤ ids.length →
      ∃ ids', Evicting b.entrySize ea ra b.data
          (pre ++ (sendEntries next.recorded b pre.length rest (m, log)).2.1)
          (sendEntries next.recorded b pre.length rest (m, log)).2.2.2 ids' j ∧
        (ids'.length = pre.length + rest.length ∨ next.sendRequestInquire
          (sendEntries next.recorded b pre.length rest (m, log)).2.2.1 .cacheWrite 0 = false) := by
  induction rest with
  | nil =>
    intro pre m log ids h hle
    exact ⟨ids, h, .inl (le_antisymm (by simpa using h.sent_le) hle)⟩
  | cons e rest ih =>
    intro pre m log ids h hle
    have hat : (pre ++ e :: rest)[pre.length]? = some e := by simp
    have he := h.sent pre.length e hat
    by_cases hsent : e.requestSent
    · -- the request of this entry is one of those that have been sent
      have hlt : pre.length < ids.length := by simpa [hsent] using he
      have hrest := ih (pre ++ [e]) m log ids (by simpa using h)
        (by simpa [Nat.succ_le_iff] using hlt)
      simp only [sendEntries, if_pos hsent]
      simpa [Nat.add_assoc, Nat.add_comm 1] using hrest
    · have hpre : pre.length = ids.length := by
        have : ¬ pre.length < ids.length := by simpa [hsent] using he
        omega
      by_cases hinq : next.sendRequestInquire m .cacheWrite 0
      · -- the entry has the address that the request needs
        have hr : ({ type := .cacheWrite, ea := e.ea, addr := e.addr, size := b.entrySize
                     isEvict := true
                     data := some fun j => b.data (pre.length * b.entrySize + j) } : NextRequest) =
            entryRequest b.entrySize ea ra b.data pre.length := by
          rw [(h.entryAddr _ e hat).1, (h.entryAddr _ e hat).2]
          rfl
        have hsend := h.send hpre
          (next.sendRequest m (entryRequest b.entrySize ea ra b.data pre.length)).1
        rw [List.append_cons] at hsend
        have hrest := ih _
          (next.sendRequest m (entryRequest b.entrySize ea ra b.data pre.length)).2 _ _ hsend
          (by simp [hpre])
        simp only [sendEntries, if_neg hsent, recorded_sendRequestInquire, if_pos hinq,
          recorded_sendRequest, hr]
        simpa [Nat.add_assoc, Nat.add_comm 1] using hrest
      · rw [Bool.not_eq_true] at hinq
        simp only [sendEntries, if_neg hsent, recorded_sendRequestInquire, hinq,
          Bool.false_eq_true, if_false]
        exact ⟨ids, h, .inr trivial⟩

theorem pushEntries_evicting (next : NextLevel ν) (rest : List EvictBufEntry) :
    ∀ (pre : List EvictBufEntry) (m : ν) (log : List PortEvent) (j : ℕ),
      Evicting b.entrySize ea ra b.data (pre ++ rest) log ids j → pre.length ≤ j →
      ∃ j', Evicting b.entrySize ea ra b.data
          (pre ++ (pushEntries next.recorded b pre.length rest (m, log)).2.1)
          (pushEntries next.recorded b pre.length rest (m, log)).2.2.2 ids j' ∧
        (j' = ids.length ∨ ∃ id, ids[j']? = some id ∧ next.writeInquire
          (pushEntries next.recorded b pre.length rest (m, log)).2.2.1 id = false) := by
  induction rest with
  | nil =>
    intro pre m log j h hle
    have hsent := h.sent_le
    rw [List.append_nil] at hsent
    exact ⟨j, h, .inl (le_antisymm h.written_le (hsent.trans hle))⟩
  | cons e rest ih =>
    intro pre m log j h hle
    have hat : (pre ++ e :: rest)[pre.length]? = some e := by simp
    have hsent := h.sent pre.length e hat
    have hwritten := h.written pre.length e hat
    by_cases hlt : pre.length < j
    · -- this entry has been written
      have hrest := ih (pre ++ [e]) m log j (by simpa using h)
        (by simpa [Nat.succ_le_iff] using hlt)
      simp only [hlt, decide_true] at hwritten
      simp only [hlt.trans_le h.written_le, decide_true] at hsent
      simp only [pushEntries, hsent, hwritten, Bool.true_or, Bool.and_true, if_true]
      simpa [Nat.add_assoc, Nat.add_comm 1] using hrest
    · -- the entries before it have all been written, so that this one is next
      have hpre : pre.length = j := by omega
      simp only [hlt, decide_false] at hwritten
      by_cases hj : j < ids.length
      · simp only [hpre, hj, decide_true] at hsent
        by_cases hinq : next.writeInquire m e.requestId
        · have hwrite := h.write hpre hj
          rw [List.append_cons] at hwrite
          have hrest := ih _ (next.write m e.requestId
            (entryData b.entrySize b.data pre.length)) _ _ hwrite (by simp [hpre])
          simp only [pushEntries, hsent, hwritten, recorded_writeInquire, hinq, Bool.or_true,
            Bool.and_true, if_true, recorded_write]
          rw [hsent] at hrest
          unfold entryData at hrest
          simpa using hrest
        · have hid := h.entryId _ e hat (by omega)
          simp only [pushEntries, hsent, hwritten, recorded_writeInquire, hinq]
          exact ⟨j, h, .inr ⟨e.requestId, hpre ▸ hid, Bool.eq_false_of_not_eq_true hinq⟩⟩
      · simp only [hpre, hj, decide_false] at hsent
        simp only [pushEntries, hsent]
        exact ⟨j, h, .inl (le_antisymm h.written_le (by omega))⟩

end Steps

/-! ### From one line to the next -/

theorem length_resetEntries (size : ℕ) (entries : List EvictBufEntry) (ea ra : Addr) :
    (resetEntries size ea ra entries).length = entries.length := by
  induction entries generalizing ea ra with
  | nil => rfl
  | cons e rest ih => simp [resetEntries, ih]

theorem getElem?_resetEntries {size : ℕ} {entries : List EvictBufEntry} {ea ra : Addr} {i : ℕ}
    {e : EvictBufEntry} (h : (resetEntries size ea ra entries)[i]? = some e) :
    e.ea = ea + BitVec.ofNat 64 (i * size) ∧ e.addr = ra + BitVec.ofNat 64 (i * size) ∧
      e.requestSent = false ∧ e.dataSent = false := by
  induction entries generalizing ea ra i with
  | nil => simp [resetEntries] at h
  | cons x rest ih =>
    cases i with
    | zero =>
      simp only [resetEntries, List.getElem?_cons_zero, Option.some.injEq] at h
      subst h
      simp [EvictBufEntry.reset]
    | succ i =>
      simp only [resetEntries, List.getElem?_cons_succ] at h
      simpa only [Math.add_ofNat_succ_mul] using ih h

theorem length_sendEntries (next : NextLevel ν) (b : EvictBuf) (entries : List EvictBufEntry) :
    ∀ (i : ℕ) (m : ν), (sendEntries next b i entries m).2.1.length = entries.length := by
  induction entries with
  | nil => intro i m; rfl
  | cons e rest ih =>
    intro i m
    simp only [sendEntries]
    split
    · simp [ih]
    · split <;> simp [ih]

theorem length_pushEntries (next : NextLevel ν) (b : EvictBuf) (entries : List EvictBufEntry) :
    ∀ (i : ℕ) (m : ν), (pushEntries next b i entries m).2.1.length = entries.length := by
  induction entries with
  | nil => intro i m; rfl
  | cons e rest ih =>
    intro i m
    simp only [pushEntries]
    split
    · split <;> simp [ih]
    · rfl

structure Sized (dynEntrySize : Bool) (lineWidth entrySize : ℕ) (b : EvictBuf) : Prop where
  dyn : b.dynEntrySize = dynEntrySize
  width : b.lineWidth = lineWidth
  size : dynEntrySize = false → b.entrySize = entrySize
  length : b.entries.length = lineWidth / b.entrySize

section Runs

variable {next : NextLevel ν} {dyn : Bool} {lineWidth entrySize : ℕ} {b : EvictBuf}
  {s : EvictBuf × ν × List PortEvent}

theorem length_setEntrySize (b : EvictBuf) (lineWidth size : ℕ) :
    (b.setEntrySize lineWidth size).entries.length = lineWidth / size := by
  simp only [setEntrySize, List.length_append, List.length_take, List.length_replicate]
  omega

theorem sized_create : (create dyn lineWidth entrySize).Sized dyn lineWidth entrySize :=
  ⟨rfl, rfl, fun _ => rfl, length_setEntrySize _ _ _⟩

/-- The entry size after `init`. -/
theorem Sized.entrySize_init (h : b.Sized dyn lineWidth entrySize) (width : ℕ) (id : ReqId)
    (ea ra : Addr) (data : ℕ → Byte) :
    (b.init width id ea ra data).entrySize = if dyn then width else entrySize := by
  cases dyn with
  | false => simpa [EvictBuf.init, h.dyn] using h.size rfl
  | true =>
    by_cases hw : width = b.entrySize
    · simp [EvictBuf.init, hw]
    · simp [EvictBuf.init, h.dyn, hw, setEntrySize]

theorem Sized.init (h : b.Sized dyn lineWidth entrySize) (width : ℕ) (id : ReqId) (ea ra : Addr)
    (data : ℕ → Byte) : (b.init width id ea ra data).Sized dyn lineWidth entrySize := by
  refine ⟨?_, ?_, fun hd => ?_, ?_⟩
  · simp only [EvictBuf.init]
    split <;> exact h.dyn
  · simp only [EvictBuf.init]
    split <;> exact h.width
  · rw [h.entrySize_init, hd]
    rfl
  · simp only [EvictBuf.init, length_resetEntries]
    split
    · rw [length_setEntrySize, h.width]
      rfl
    · exact h.length

theorem Sized.call (h : s.1.Sized dyn lineWidth entrySize) (c : EvictCall ν) :
    (call next s c).1.Sized dyn lineWidth entrySize := by
  cases c with
  | sendRequest =>
    simp only [EvictBuf.call, sendRequest]
    split
    · exact h
    · exact ⟨h.dyn, h.width, h.size, (length_sendEntries _ _ _ _ _).trans h.length⟩
  | pushData =>
    simp only [EvictBuf.call, pushData]
    split
    · exact h
    · exact ⟨h.dyn, h.width, h.size, (length_pushEntries _ _ _ _ _).trans h.length⟩
  | next m => exact h

theorem Sized.exec (h : s.1.Sized dyn lineWidth entrySize) (op : EvictOp ν) :
    (exec next s op).1.Sized dyn lineWidth entrySize := by
  cases op with
  | call c => exact h.call c
  | init width id ea ra data => exact h.init width id ea ra data
  | clear => exact ⟨h.dyn, h.width, h.size, h.length⟩

theorem Sized.run (h : s.1.Sized dyn lineWidth entrySize) (ops : List (EvictOp ν)) :
    (ops.foldl (EvictBuf.exec next) s).1.Sized dyn lineWidth entrySize := by
  induction ops generalizing s with
  | nil => exact h
  | cons op ops ih => exact ih (h.exec op)

/-- A buffer that holds a line of `n` entries, with its eviction on its way. -/
structure Underway (n size : ℕ) (ea ra : Addr) (data : ℕ → Byte)
    (s : EvictBuf × ν × List PortEvent) (ids : List ReqId) (j : ℕ) : Prop where
  hasData : s.1.hasData = true
  entrySize : s.1.entrySize = size
  lineData : s.1.data = data
  length : s.1.entries.length = n
  evicting : Evicting size ea ra data s.1.entries s.2.2 ids j

variable {n size : ℕ} {ea ra : Addr} {data : ℕ → Byte} {ids : List ReqId} {j : ℕ}

theorem Sized.underway_init (h : b.Sized dyn lineWidth entrySize) (width : ℕ) (id : ReqId)
    (ea ra : Addr) (data : ℕ → Byte) (m : ν) :
    Underway (lineWidth / if dyn then width else entrySize) (if dyn then width else entrySize)
      ea ra data (b.init width id ea ra data, m, []) [] 0 := by
  have hsize := h.entrySize_init width id ea ra data
  refine ⟨rfl, hsize, rfl, ?_, ?_⟩
  · rw [(h.init width id ea ra data).length, hsize]
  · rw [← hsize]
    refine ⟨le_rfl, Nat.zero_le _, fun i e he => ?_, fun i e he => ?_, fun i e he hi => ?_,
      fun i e he => ?_, rfl, rfl⟩
    · exact ⟨(getElem?_resetEntries he).1, (getElem?_resetEntries he).2.1⟩
    · simpa using (getElem?_resetEntries he).2.2.1
    · exact absurd hi (Nat.not_lt_zero i)
    · simpa using (getElem?_resetEntries he).2.2.2

/-- A call sends and writes the next entries, and stops where the next level does. -/
theorem Underway.call (h : Underway n size ea ra data s ids j) (c : EvictCall ν) :
    ∃ ids' j', Underway n size ea ra data (call next s c) ids' j' ∧
      (c = .sendRequest → ids'.length = n ∨
        next.sendRequestInquire (call next s c).2.1 .cacheWrite 0 = false) ∧
      (c = .pushData → j' = ids'.length ∨
        ∃ id, ids'[j']? = some id ∧ next.writeInquire (call next s c).2.1 id = false) := by
  obtain ⟨b, m, log⟩ := s
  obtain ⟨hdata, rfl, rfl, rfl, hev⟩ := h
  have hempty : b.empty = false := congrArg (! ·) hdata
  cases c with
  | sendRequest =>
    obtain ⟨ids', hev', hstop⟩ := sendEntries_evicting next b.entries [] m log ids hev
      (Nat.zero_le _)
    rw [List.length_nil, Nat.zero_add] at hstop
    refine ⟨ids', j, ?_, fun _ => ?_, by simp⟩
    · simp only [EvictBuf.call, sendRequest, hempty]
      exact ⟨hdata, rfl, rfl, length_sendEntries _ _ _ _ _, hev'⟩
    · simp only [EvictBuf.call, sendRequest, hempty]
      exact hstop
  | pushData =>
    obtain ⟨j', hev', hstop⟩ := pushEntries_evicting next b.entries [] m log j hev
      (Nat.zero_le _)
    refine ⟨ids, j', ?_, by simp, fun _ => ?_⟩
    · simp only [EvictBuf.call, pushData, hempty]
      exact ⟨hdata, rfl, rfl, length_pushEntries _ _ _ _ _, hev'⟩
    · simp only [EvictBuf.call, pushData, hempty]
      exact hstop
  | next m' => exact ⟨ids, j, ⟨hdata, rfl, rfl, rfl, hev⟩, by simp, by simp⟩

theorem Underway.run (h : Underway n size ea ra data s ids j) (calls : List (EvictCall ν)) :
    ∃ ids' j', Underway n size ea ra data (calls.foldl (EvictBuf.call next) s) ids' j' ∧
      (calls.getLast? = some .sendRequest → ids'.length = n ∨ next.sendRequestInquire
        (calls.foldl (EvictBuf.call next) s).2.1 .cacheWrite 0 = false) ∧
      (calls.getLast? = some .pushData → j' = ids'.length ∨ ∃ id, ids'[j']? = some id ∧
        next.writeInquire (calls.foldl (EvictBuf.call next) s).2.1 id = false) := by
  induction calls using List.reverseRecOn with
  | nil => exact ⟨ids, j, h, by simp, by simp⟩
  | append_singleton calls c ih =>
    obtain ⟨ids', j', h', -⟩ := ih
    rw [List.foldl_concat, List.getLast?_concat]
    simpa only [Option.some.injEq] using h'.call c

theorem Underway.evicted_iff (h : Underway n size ea ra data s ids j) :
    s.1.evicted = true ↔ j = n := by
  have hj : j ≤ n := h.length ▸ h.evicting.written_le.trans h.evicting.sent_le
  have hempty : s.1.empty = false := by simp [empty, h.hasData]
  rw [evicted, hempty, Bool.not_false, Bool.true_and, List.all_eq_true]
  constructor
  · intro hall
    by_contra hne
    have hlt : j < s.1.entries.length := h.length ▸ lt_of_le_of_ne hj hne
    have he := h.evicting.written j _ (List.getElem?_eq_getElem hlt)
    rw [hall _ (List.getElem_mem hlt)] at he
    simp at he
  · rintro rfl e he
    obtain ⟨i, hi, rfl⟩ := List.getElem_of_mem he
    rw [h.evicting.written i _ (List.getElem?_eq_getElem hi)]
    exact decide_eq_true (h.length ▸ hi)

end Runs

/-- After any use of a buffer, a line is evicted: whatever the next level answers and does in
between, the requests that were sent and the data that was written are those of the first entries,
in order and each once. A call goes on until the next level does not take more, and `evicted` says
that every entry has been written. -/
theorem evicts_once (next : NextLevel ν) (dyn : Bool) (lineWidth entrySize width : ℕ)
    (before : List (EvictOp ν)) (m₀ m : ν) (id : ReqId) (ea ra : Addr) (data : ℕ → Byte)
    (calls : List (EvictCall ν)) :
    let size := if dyn then width else entrySize
    let b := (before.foldl (exec next) (create dyn lineWidth entrySize, m₀, [])).1
    let s := calls.foldl (call next) (b.init width id ea ra data, m, [])
    size ∣ lineWidth →
    ∃ (n : ℕ) (ids : List ReqId) (j : ℕ), n * size = lineWidth ∧ j ≤ ids.length ∧ ids.length ≤ n ∧
      PortEvent.requests s.2.2 = ids.mapIdx (fun i id => (id, entryRequest size ea ra data i)) ∧
      PortEvent.writes s.2.2 = (ids.take j).mapIdx (fun i id => (id, entryData size data i)) ∧
      (s.1.evicted = true ↔ j = n) ∧
      (calls.getLast? = some .sendRequest → ids.length = n ∨
        next.sendRequestInquire s.2.1 .cacheWrite 0 = false) ∧
      (calls.getLast? = some .pushData → j = ids.length ∨
        ∃ id, ids[j]? = some id ∧ next.writeInquire s.2.1 id = false) := by
  intro size b s hdvd
  have hb : b.Sized dyn lineWidth entrySize := sized_create.run before
  obtain ⟨ids, j, h, hsend, hpush⟩ := (hb.underway_init width id ea ra data m).run calls
  exact ⟨lineWidth / size, ids, j, Nat.div_mul_cancel hdvd, h.evicting.written_le,
    h.length ▸ h.evicting.sent_le, h.evicting.requests, h.evicting.writes, h.evicted_iff, hsend,
    hpush⟩

/-- Both requests of a line of two entries are sent. -/
theorem evicts_two_entries : ∃ ids : List ReqId, ids.length = 2 ∧
    PortEvent.requests ([EvictCall.sendRequest].foldl (call openPort)
      ((create false 16 8).init 0 0 0x1000 0x2000 (BitVec.ofNat 8), 0, [])).2.2 =
    ids.mapIdx (fun i id => (id, entryRequest 8 0x1000 0x2000 (BitVec.ofNat 8) i)) := by
  obtain ⟨n, ids, j, hn, -, -, hrequests, -, -, hsend, -⟩ :=
    evicts_once openPort false 16 8 0 [] 0 0 0 0x1000 0x2000 (BitVec.ofNat 8) [.sendRequest]
      (by decide)
  have hlen : ids.length = n := (hsend rfl).resolve_right (by simp [openPort])
  simp only [Bool.false_eq_true, if_false] at hn
  exact ⟨ids, by omega, hrequests⟩

end EvictBuf

end Adl.Uadl
