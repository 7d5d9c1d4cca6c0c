import Mathlib.Data.List.Basic
import Adl.Uadl.Recorder

/-!
# The requests of a linefill buffer

A linefill buffer counts the requests of its line that are not sent. An extra request for the line
after it is counted as well, although it is no request of the line.
-/

namespace Adl.Uadl

variable {ν : Type*}

/-- What happens to a linefill buffer. -/
inductive LinefillCall (ν : Type*) where
  | init (width : ℕ) (requestId : ReqId) (ea ra : Addr) (lineSet lineWay : BitVec 32)
      (readData : Bool)
  | setupExtra (ea ra : Addr)
  | sendRequest
  | sendExtraRequest
  | loadData
  /-- The next level goes on by itself. -/
  | next (m : ν)

namespace LinefillBuf

def create (criticalWordFirst lazyWriteback dynEntrySize : Bool) (lineWidth entrySize : ℕ) :
    LinefillBuf :=
  { criticalWordFirst, lazyWriteback, dynEntrySize, lineWidth, entrySize, entries := [] :
    LinefillBuf }.setEntrySize lineWidth entrySize

def exec (next : NextLevel ν) (s : LinefillBuf × ν) : LinefillCall ν → LinefillBuf × ν
  | .init width id ea ra lineSet lineWay readData =>
    (s.1.init width id ea ra lineSet lineWay readData, s.2)
  | .setupExtra ea ra => (s.1.setupExtra ea ra, s.2)
  | .sendRequest => (s.1.sendRequest next s.2).2
  | .sendExtraRequest => (s.1.sendExtraRequest next s.2).2
  | .loadData => (s.1.loadData next s.2).2
  | .next m => (s.1, m)

/-! ### One entry -/

def entryRequest (l : LinefillBuf) (e : LinefillBufEntry) : NextRequest :=
  { type := if l.readData then .cacheRead else .cacheIFetch, ea := e.ea, addr := e.addr
    size := l.entrySize }

variable (next : NextLevel ν)

/-- A request is sent already, is sent now or is not taken. -/
theorem sendEntryRequest_cases (l : LinefillBuf) (e : LinefillBufEntry) (m : ν) :
    ((e.hasData || e.requestSent) = true ∧ l.sendEntryRequest next e m = (true, e, l, m)) ∨
    ((e.hasData || e.requestSent) = false ∧
      next.sendRequestInquire m (l.entryRequest e).type 0 = true ∧
      l.sendEntryRequest next e m = (true,
        { e with requestSent := true, requestId := (next.sendRequest m (l.entryRequest e)).1 },
        { l with requestsRemaining := l.requestsRemaining - 1, started := true },
        (next.sendRequest m (l.entryRequest e)).2)) ∨
    ((e.hasData || e.requestSent) = false ∧
      next.sendRequestInquire m (l.entryRequest e).type 0 = false ∧
      l.sendEntryRequest next e m = (false, e, l, m)) := by
  rcases he : e.hasData || e.requestSent with _ | _
  · rcases hm : next.sendRequestInquire m (l.entryRequest e).type 0 with _ | _
    · exact .inr (.inr ⟨rfl, rfl, (if_neg (by simp [he])).trans (if_neg (ne_true_of_eq_false hm))⟩)
    · exact .inr (.inl ⟨rfl, rfl, (if_neg (by simp [he])).trans (if_pos hm)⟩)
  · exact .inl ⟨rfl, if_pos he⟩

theorem set_getElem?_self {α : Type*} {xs : List α} {i : ℕ} {x : α} (h : xs[i]? = some x) :
    xs.set i x = xs := by
  obtain ⟨hi, rfl⟩ := List.getElem?_eq_some_iff.mp h
  exact List.set_getElem_self hi

theorem sendAt_cases (l : LinefillBuf) (i : ℕ) (m : ν) : ∃ allsent : Bool,
    (l.sendAt next i m = (true, { l with allsent }, m) ∧
      ∀ e, l.entries[i]? = some e → (e.hasData || e.requestSent) = true) ∨
    (∃ e, l.entries[i]? = some e ∧ (e.hasData || e.requestSent) = false ∧
      next.sendRequestInquire m (l.entryRequest e).type 0 = true ∧
      l.sendAt next i m = (true,
        { l with
          entries := l.entries.set i
            { e with requestSent := true, requestId := (next.sendRequest m (l.entryRequest e)).1 }
          requestsRemaining := l.requestsRemaining - 1, started := true, allsent },
        (next.sendRequest m (l.entryRequest e)).2)) ∨
    (∃ e, l.entries[i]? = some e ∧ (e.hasData || e.requestSent) = false ∧
      next.sendRequestInquire m (l.entryRequest e).type 0 = false ∧
      l.sendAt next i m = (false, { l with allsent }, m)) := by
  cases he : l.entries[i]? with
  | none => exact ⟨l.allsent, .inl ⟨by simp only [sendAt, he], by simp⟩⟩
  | some e =>
    rcases l.sendEntryRequest_cases next e m with
      ⟨hsent, heq⟩ | ⟨hsent, hm, heq⟩ | ⟨hsent, hm, heq⟩
    · refine ⟨l.allsent && e.requestSent,
        .inl ⟨by simp only [sendAt, he, heq, set_getElem?_self he], fun e' he' => ?_⟩⟩
      obtain rfl := Option.some.inj he'
      exact hsent
    · exact ⟨l.allsent && true,
        .inr (.inl ⟨e, rfl, hsent, hm, by simp only [sendAt, he, heq]⟩)⟩
    · exact ⟨l.allsent && e.requestSent, .inr (.inr ⟨e, rfl, hsent, hm,
        by simp only [sendAt, he, heq, set_getElem?_self he]⟩)⟩

/-- An entry is there already, cannot be read or is read now. -/
theorem loadAt_cases (l : LinefillBuf) (i : ℕ) (m : ν) :
    (l.loadAt next i m = (true, false, l, m) ∧ ∀ e, l.entries[i]? = some e → e.hasData = true) ∨
    (∃ e, l.entries[i]? = some e ∧ e.hasData = false ∧
      (e.requestSent = true → next.readInquire m e.requestId = false) ∧
      l.loadAt next i m = (false, false, l, m)) ∨
    (∃ e, l.entries[i]? = some e ∧ e.hasData = false ∧ e.requestSent = true ∧
      next.readInquire m e.requestId = true ∧
      l.loadAt next i m = (true, true,
        { l.storeEntry i (next.read m e.requestId).1 with
          entries := l.entries.set i { e with hasData := true } },
        (next.read m e.requestId).2)) := by
  cases he : l.entries[i]? with
  | none => exact .inl ⟨by simp only [loadAt, he], by simp⟩
  | some e =>
    rcases hdata : e.hasData with _ | _
    · rcases hsent : e.requestSent with _ | _
      · exact .inr (.inl ⟨e, rfl, hdata, by simp [hsent], by simp [loadAt, he, hdata, hsent]⟩)
      · rcases hm : next.readInquire m e.requestId with _ | _
        · exact .inr (.inl ⟨e, rfl, hdata, fun _ => hm, by simp [loadAt, he, hdata, hsent, hm]⟩)
        · exact .inr (.inr ⟨e, rfl, hdata, hsent, hm, by simp [loadAt, he, hdata, hsent, hm]⟩)
    · refine .inl ⟨by simp [loadAt, he, hdata], fun e' he' => ?_⟩
      obtain rfl := Option.some.inj he'
      exact hdata

/-! ### All entries -/

/-- The loops that read entries: the one over the critical entries also notes that the critical one
has come. -/
def loadWith (next : NextLevel ν) (note : ℕ → LinefillBuf → LinefillBuf) :
    List ℕ → LinefillBuf → ν → Bool × Bool × LinefillBuf × ν
  | [], l, m => (true, false, l, m)
  | i :: rest, l, m =>
    match l.loadAt next i m with
    | (true, dataRead, l, m) =>
      let (continueRead, dataRead', l, m) := loadWith next note rest (note i l) m
      (continueRead, dataRead || dataRead', l, m)
    | (false, dataRead, l, m) => (false, dataRead, l, m)

theorem loadLoop_eq (next : NextLevel ν) (is : List ℕ) (l : LinefillBuf) (m : ν) :
    loadLoop next is l m = loadWith next (fun _ l => l) is l m := by
  induction is generalizing l m with
  | nil => rfl
  | cons i rest ih =>
    simp only [loadLoop, loadWith]
    rcases l.loadAt next i m with ⟨_ | _, dataRead, l', m'⟩
    · rfl
    · simp only [ih]

theorem loadCritical_eq (next : NextLevel ν) (is : List ℕ) (l : LinefillBuf) (m : ν) :
    loadCritical next is l m = loadWith next (fun i l =>
      if i = l.criticalEntry then { l with criticalWordReceived := true } else l) is l m := by
  induction is generalizing l m with
  | nil => rfl
  | cons i rest ih =>
    simp only [loadCritical, loadWith]
    rcases l.loadAt next i m with ⟨_ | _, dataRead, l', m'⟩
    · rfl
    · simp only [ih]

section Invariants

variable {next} {P : LinefillBuf → Prop}

theorem sendLoop_invariant (hat : ∀ l i m, P l → P (l.sendAt next i m).2.1) (ids : List ℕ)
    (l : LinefillBuf) (m : ν) (hl : P l) : P (sendLoop next ids l m).2.1 := by
  induction ids generalizing l m with
  | nil => exact hl
  | cons i rest ih =>
    have h := hat l i m hl
    simp only [sendLoop]
    split <;> rename_i heq <;> rw [heq] at h
    · exact ih _ _ h
    · exact h

theorem sendRequest_invariant (hat : ∀ l i m, P l → P (l.sendAt next i m).2.1)
    (hall : ∀ l, P l → P { l with allsent := true }) {l : LinefillBuf} {m : ν} (hl : P l) :
    P (l.sendRequest next m).2.1 := by
  simp only [sendRequest]
  split
  · exact hall l hl
  · exact sendLoop_invariant hat _ _ _ (hall l hl)

theorem loadWith_invariant {note : ℕ → LinefillBuf → LinefillBuf}
    (hat : ∀ l i m, P l → P (l.loadAt next i m).2.2.1) (hnote : ∀ i l, P l → P (note i l))
    (ids : List ℕ) (l : LinefillBuf) (m : ν) (hl : P l) :
    P (loadWith next note ids l m).2.2.1 := by
  induction ids generalizing l m with
  | nil => exact hl
  | cons i rest ih =>
    have h := hat l i m hl
    simp only [loadWith]
    split <;> rename_i heq <;> rw [heq] at h
    · exact ih _ _ (hnote i _ h)
    · exact h

theorem loadData_invariant (hat : ∀ l i m, P l → P (l.loadAt next i m).2.2.1)
    (hreceived : ∀ l b, P l → P { l with criticalWordReceived := b })
    (hids : ∀ l ids, P l → P { l with criticalIds := ids }) {l : LinefillBuf} {m : ν} (hl : P l) :
    P (l.loadData next m).2.1 := by
  have hl' := hreceived l false hl
  have hloop : ∀ ids l m, P l → P (loadLoop next ids l m).2.2.1 := fun ids l m h => by
    rw [loadLoop_eq]
    exact loadWith_invariant hat (fun _ _ h => h) ids l m h
  simp only [loadData]
  by_cases hempty : l.empty
  · rwa [if_pos hempty]
  · rw [if_neg hempty]
    by_cases hfirst : l.criticalWordFirst
    · have h : P (loadCritical next l.criticalIds
          { l with criticalWordReceived := false } m).2.2.1 := by
        rw [loadCritical_eq]
        refine loadWith_invariant hat (fun i l h => ?_) _ _ _ hl'
        split
        · exact hreceived _ _ h
        · exact h
      -- the other entries are read only if all critical ones were
      simp only [if_pos hfirst]
      split
      · exact hloop _ _ _ (hids _ _ h)
      · exact hids _ _ h
    · simp only [if_neg hfirst, if_true]
      exact hloop _ _ _ hl'

end Invariants

/-! ### What is kept while a line is filled -/

/-- A buffer without what changes while its line is filled. -/
def frame (l : LinefillBuf) : LinefillBuf :=
  { l with
    entries := List.replicate l.entries.length {}, data := fun _ => 0, criticalIds := []
    started := false, allsent := false, criticalWordReceived := false, requestsRemaining := 0 }

variable {next} {l : LinefillBuf} {m : ν}

structure Keeps (l l' : LinefillBuf) : Prop where
  first : l'.criticalWordFirst = l.criticalWordFirst
  dyn : l'.dynEntrySize = l.dynEntrySize
  width : l'.lineWidth = l.lineWidth
  size : l'.entrySize = l.entrySize
  read : l'.readData = l.readData
  empty : l'.empty = l.empty
  hasExtra : l'.hasExtra = l.hasExtra
  extraEntry : l'.extraEntry = l.extraEntry
  length : l'.entries.length = l.entries.length

theorem keeps_of_frame {l' : LinefillBuf} (h : l'.frame = l.frame) : l.Keeps l' := by
  simp only [frame, mk.injEq, List.replicate_inj] at h
  constructor <;> grind

theorem sendRequest_empty (h : l.empty = true) :
    l.sendRequest next m = (true, { l with allsent := true }, m) := if_pos h

theorem loadData_empty (h : l.empty = true) :
    l.loadData next m = (false, { l with criticalWordReceived := false }, m) := if_pos h

theorem frame_sendAt (i : ℕ) : (l.sendAt next i m).2.1.frame = l.frame := by
  obtain ⟨allsent, ⟨heq, -⟩ | ⟨e, -, -, -, heq⟩ | ⟨e, -, -, -, heq⟩⟩ := l.sendAt_cases next i m
  · rw [heq, frame, frame]
  · rw [heq, frame, frame, List.length_set]
  · rw [heq, frame, frame]

theorem frame_loadAt (i : ℕ) : (l.loadAt next i m).2.2.1.frame = l.frame := by
  obtain ⟨heq, -⟩ | ⟨e, -, -, -, heq⟩ | ⟨e, -, -, -, -, heq⟩ := l.loadAt_cases next i m
  · rw [heq]
  · rw [heq]
  · rw [heq, frame, frame, List.length_set]
    rfl

theorem frame_sendRequest : (l.sendRequest next m).2.1.frame = l.frame :=
  sendRequest_invariant (P := (·.frame = l.frame)) (fun _ i _ h => (frame_sendAt i).trans h)
    (fun _ h => h) rfl

theorem frame_loadData : (l.loadData next m).2.1.frame = l.frame :=
  loadData_invariant (P := (·.frame = l.frame)) (fun _ i _ h => (frame_loadAt i).trans h)
    (fun _ _ h => h) (fun _ _ h => h) rfl

/-! ### The counter -/

/-- The entries whose request has not been sent. -/
def pending (l : LinefillBuf) : ℕ := l.entries.countP fun e => !e.requestSent

/-- The entries of the current line whose request has not been sent. -/
def unsent (l : LinefillBuf) : ℕ := if l.empty then 0 else l.pending

/-- How far the counter is from the number of entries. -/
def drift (l : LinefillBuf) : BitVec 32 := l.requestsRemaining - BitVec.ofNat 32 l.pending

theorem countP_set {α : Type*} {p : α → Bool} {xs : List α} {i : ℕ} {x y : α}
    (h : xs[i]? = some x) :
    (xs.set i y).countP p + (p x).toNat = xs.countP p + (p y).toNat := by
  obtain ⟨hi, rfl⟩ := List.getElem?_eq_some_iff.mp h
  rw [List.countP_set hi]
  cases hx : p xs[i] with
  | false => cases p y <;> simp
  | true =>
    have hpos : 0 < xs.countP p := List.countP_pos_iff.mpr ⟨_, List.getElem_mem hi, hx⟩
    cases p y <;> simp only [if_true, Bool.toNat_true, Bool.toNat_false] <;> grind

theorem drift_sendAt (i : ℕ) : (l.sendAt next i m).2.1.drift = l.drift := by
  obtain ⟨allsent, ⟨heq, -⟩ | ⟨e, he, hsent, -, heq⟩ | ⟨e, -, -, -, heq⟩⟩ :=
    l.sendAt_cases next i m
  · rw [heq, drift, drift, pending, pending]
  · have hcount := countP_set (p := fun e => !e.requestSent) he (y := { e with
      requestSent := true, requestId := (next.sendRequest m (l.entryRequest e)).1 })
    simp only [Bool.or_eq_false_iff] at hsent
    simp only [hsent.2, Bool.not_false, Bool.not_true, Bool.toNat_true, Bool.toNat_false,
      Nat.add_zero] at hcount
    rw [heq, drift, drift, pending, pending, ← hcount, BitVec.ofNat_add]
    simp only
    bv_omega
  · rw [heq, drift, drift, pending, pending]

theorem drift_loadAt (i : ℕ) : (l.loadAt next i m).2.2.1.drift = l.drift := by
  obtain ⟨heq, -⟩ | ⟨e, -, -, -, heq⟩ | ⟨e, he, -, -, -, heq⟩ := l.loadAt_cases next i m
  · rw [heq]
  · rw [heq]
  · have hcount := countP_set (p := fun e => !e.requestSent) he (y := { e with hasData := true })
    rw [heq, drift, drift, pending, pending, ← Nat.add_right_cancel hcount]
    rfl

theorem drift_sendRequest : (l.sendRequest next m).2.1.drift = l.drift :=
  sendRequest_invariant (P := (·.drift = l.drift)) (fun _ i _ h => (drift_sendAt i).trans h)
    (fun _ h => h) rfl

theorem drift_loadData : (l.loadData next m).2.1.drift = l.drift :=
  loadData_invariant (P := (·.drift = l.drift)) (fun _ i _ h => (drift_loadAt i).trans h)
    (fun _ _ h => h) (fun _ _ h => h) rfl

/-- The loop of `init` changes only these two fields. -/
theorem initEntries_snd (es : List LinefillBufEntry) (ea ra : Addr) (l : LinefillBuf) :
    ∃ hasExtra requestsRemaining,
      (initEntries ea ra es l).2 = { l with hasExtra, requestsRemaining } := by
  induction es generalizing ea ra l with
  | nil => exact ⟨l.hasExtra, l.requestsRemaining, rfl⟩
  | cons e rest ih =>
    simp only [initEntries]
    split
    · obtain ⟨x, r, h⟩ := ih (ea + BitVec.ofNat 64 l.entrySize) (ra + BitVec.ofNat 64 l.entrySize)
        { l with hasExtra := false, requestsRemaining := l.requestsRemaining - 1 }
      exact ⟨x, r, h⟩
    · exact ih _ _ _

theorem length_initEntries (es : List LinefillBufEntry) (ea ra : Addr) (l : LinefillBuf) :
    (initEntries ea ra es l).1.length = es.length := by
  induction es generalizing ea ra l with
  | nil => rfl
  | cons e rest ih =>
    simp only [initEntries, List.length_cons, ih]

/-- A request that is taken over is counted. -/
theorem requestsRemaining_initEntries (es : List LinefillBufEntry) (ea ra : Addr)
    (l : LinefillBuf) :
    (initEntries ea ra es l).2.requestsRemaining = l.requestsRemaining -
      BitVec.ofNat 32 ((initEntries ea ra es l).1.countP fun e => e.requestSent) := by
  induction es generalizing ea ra l with
  | nil => simp [initEntries]
  | cons e rest ih =>
    simp only [initEntries]
    split
    · simp only [ih, List.countP_cons, if_true, BitVec.ofNat_add]
      bv_omega
    · simp [ih, LinefillBufEntry.init]

/-- The buffer before the loop of `init`. -/
def prepared (l : LinefillBuf) (width : ℕ) (requestId : ReqId) (lineSet lineWay : BitVec 32)
    (readData : Bool) : LinefillBuf :=
  let l := { l with
    requestId := requestId, lineSet := lineSet, lineWay := lineWay, readData := readData
    criticalWordReceived := false }
  let l := if l.dynEntrySize && width ≠ l.entrySize then l.setEntrySize l.lineWidth width else l
  { l with requestsRemaining := BitVec.ofNat 32 l.nEntries }

def Sized (l : LinefillBuf) : Prop := l.entries.length = l.nEntries

section Init

variable (width : ℕ) (id : ReqId) (ea ra : Addr) (lineSet lineWay : BitVec 32) (readData : Bool)

theorem prepared_kept : (l.prepared width id lineSet lineWay readData).lineWidth = l.lineWidth ∧
    (l.prepared width id lineSet lineWay readData).criticalWordFirst = l.criticalWordFirst ∧
    (l.prepared width id lineSet lineWay readData).dynEntrySize = l.dynEntrySize ∧
    (l.prepared width id lineSet lineWay readData).readData = readData ∧
    (l.prepared width id lineSet lineWay readData).hasExtra = l.hasExtra ∧
    (l.prepared width id lineSet lineWay readData).extraEntry = l.extraEntry := by
  simp only [prepared]
  split <;> simp [setEntrySize]

theorem entrySize_prepared : (l.prepared width id lineSet lineWay readData).entrySize =
    if l.dynEntrySize then width else l.entrySize := by
  simp only [prepared]
  split <;> rename_i h
  · simp only [Bool.and_eq_true] at h
    rw [if_pos h.1]
    rfl
  · split <;> rename_i hdyn
    · by_contra hne
      exact h (by simpa [hdyn] using Ne.symm hne)
    · rfl

theorem Sized.prepared (h : l.Sized) :
    (l.prepared width id lineSet lineWay readData).Sized := by
  simp only [LinefillBuf.prepared]
  split
  · simp only [Sized, setEntrySize, nEntries, List.length_append, List.length_take,
      List.length_replicate]
    omega
  · exact h

/-- The buffer after the loop of `init`. -/
def initialized (l : LinefillBuf) : LinefillBuf :=
  let l₀ := l.prepared width id lineSet lineWay readData
  let r := initEntries (ea &&& l.lineAddrMask) (ra &&& l.lineAddrMask) l₀.entries l₀
  { r.2 with
    entries := r.1, hasExtra := false, empty := false, dirty := false, locked := false
    started := false, allsent := false }

theorem init_eq : l.init width id ea ra lineSet lineWay readData =
    let l := l.initialized width id ea ra lineSet lineWay readData
    if l.criticalWordFirst then { l with criticalIds := [] }.addCriticalAddr ra else l := rfl

theorem initialized_eq : ∃ requestsRemaining,
    l.initialized width id ea ra lineSet lineWay readData =
      { l.prepared width id lineSet lineWay readData with
        entries := (initEntries (ea &&& l.lineAddrMask) (ra &&& l.lineAddrMask)
          (l.prepared width id lineSet lineWay readData).entries
          (l.prepared width id lineSet lineWay readData)).1
        requestsRemaining, hasExtra := false, empty := false, dirty := false, locked := false
        started := false, allsent := false } := by
  obtain ⟨x, r, h⟩ := initEntries_snd (l.prepared width id lineSet lineWay readData).entries
    (ea &&& l.lineAddrMask) (ra &&& l.lineAddrMask) (l.prepared width id lineSet lineWay readData)
  exact ⟨r, by rw [initialized, h]⟩

end Init

structure Counted (lineWidth : ℕ) (l : LinefillBuf) : Prop where
  width : l.lineWidth = lineWidth
  sized : l.Sized
  count : l.requestsRemaining = BitVec.ofNat 32 l.unsent -
    if l.hasExtra && l.extraEntry.requestSent then 1 else 0

section Counted

variable {lineWidth : ℕ} {l' : LinefillBuf}

theorem counted_create (criticalWordFirst lazyWriteback dynEntrySize : Bool) (entrySize : ℕ) :
    (create criticalWordFirst lazyWriteback dynEntrySize lineWidth entrySize).Counted lineWidth :=
  ⟨rfl, by simp [create, Sized, setEntrySize, nEntries], by simp [create, setEntrySize, unsent]⟩

/-- While a line is filled, the counter follows the entries. -/
theorem Counted.of_drift (h : l.Counted lineWidth) (hempty : l.empty = false)
    (hframe : l'.frame = l.frame) (hdrift : l'.drift = l.drift) : l'.Counted lineWidth := by
  have hkept := keeps_of_frame hframe
  refine ⟨hkept.width.trans h.width, ?_, ?_⟩
  · rw [Sized, hkept.length, nEntries, hkept.width, hkept.size]
    exact h.sized
  · have hcount := h.count
    simp only [drift] at hdrift
    simp only [unsent, hkept.empty, hempty, hkept.hasExtra, hkept.extraEntry,
      Bool.false_eq_true, if_false] at hcount ⊢
    generalize (if (l.hasExtra && l.extraEntry.requestSent) = true then 1 else 0 : BitVec 32) = x
      at *
    bv_omega

theorem Counted.init (h : l.Counted lineWidth) (width : ℕ) (id : ReqId) (ea ra : Addr)
    (lineSet lineWay : BitVec 32) (readData : Bool) :
    (l.init width id ea ra lineSet lineWay readData).Counted lineWidth := by
  obtain ⟨hwidth, -⟩ := l.prepared_kept width id lineSet lineWay readData
  have hsized : (l.prepared width id lineSet lineWay readData).Sized := h.sized.prepared ..
  have hlength := length_initEntries (l.prepared width id lineSet lineWay readData).entries
    (ea &&& l.lineAddrMask) (ra &&& l.lineAddrMask) (l.prepared width id lineSet lineWay readData)
  have hcount := requestsRemaining_initEntries
    (l.prepared width id lineSet lineWay readData).entries
    (ea &&& l.lineAddrMask) (ra &&& l.lineAddrMask) (l.prepared width id lineSet lineWay readData)
  obtain ⟨x, r, hsnd⟩ := initEntries_snd (l.prepared width id lineSet lineWay readData).entries
    (ea &&& l.lineAddrMask) (ra &&& l.lineAddrMask) (l.prepared width id lineSet lineWay readData)
  -- the critical word is noted last, and no count depends on it
  suffices hl : (l.initialized width id ea ra lineSet lineWay readData).Counted lineWidth by
    rw [init_eq]
    simp only
    split
    · exact ⟨hl.width, hl.sized, hl.count⟩
    · exact hl
  refine ⟨?_, ?_, ?_⟩
  · simp only [initialized, hsnd]
    exact hwidth.trans h.width
  · simp only [initialized, Sized, nEntries, hsnd]
    exact hlength.trans hsized
  · have hsum := List.length_eq_countP_add_countP (fun e : LinefillBufEntry => e.requestSent)
      (l := (initEntries (ea &&& l.lineAddrMask) (ra &&& l.lineAddrMask)
        (l.prepared width id lineSet lineWay readData).entries
        (l.prepared width id lineSet lineWay readData)).1)
    rw [hlength, hsized] at hsum
    have hprepared : (l.prepared width id lineSet lineWay readData).requestsRemaining =
      BitVec.ofNat 32 (l.prepared width id lineSet lineWay readData).nEntries := rfl
    rw [hprepared, hsum, BitVec.ofNat_add] at hcount
    simp only [initialized, unsent, pending, hcount, Bool.false_eq_true, if_false,
      Bool.false_and, Bool.not_eq_true, Bool.decide_eq_false]
    bv_omega

theorem Counted.exec (h : l.Counted lineWidth) (call : LinefillCall ν) (m : ν) :
    (exec next (l, m) call).1.Counted lineWidth := by
  cases call with
  | init width id ea ra lineSet lineWay readData => exact h.init ..
  | setupExtra ea ra =>
    simp only [LinefillBuf.exec, setupExtra]
    split <;> rename_i hextra
    · exact h
    · refine ⟨h.width, h.sized, ?_⟩
      have hcount := h.count
      simp only [hextra] at hcount
      simpa [LinefillBufEntry.init, unsent, pending] using hcount
  | sendRequest =>
    rcases hempty : l.empty with _ | _
    · exact h.of_drift hempty frame_sendRequest drift_sendRequest
    · rw [LinefillBuf.exec, sendRequest_empty hempty]
      exact ⟨h.width, h.sized, h.count⟩
  | sendExtraRequest =>
    simp only [LinefillBuf.exec, sendExtraRequest]
    split <;> rename_i hextra
    · simp only [Bool.and_eq_true, Bool.not_eq_true'] at hextra
      have hcount : l.requestsRemaining = BitVec.ofNat 32 l.unsent := by
        simpa [hextra.2] using h.count
      rcases l.sendEntryRequest_cases next l.extraEntry m with
        ⟨-, heq⟩ | ⟨-, -, heq⟩ | ⟨-, -, heq⟩ <;> rw [heq]
      · exact h
      · refine ⟨h.width, h.sized, ?_⟩
        simp only [hextra.1, Bool.and_true, if_true]
        exact congrArg (· - 1) hcount
      · exact h
    · exact h
  | loadData =>
    rcases hempty : l.empty with _ | _
    · exact h.of_drift hempty frame_loadData drift_loadData
    · rw [LinefillBuf.exec, loadData_empty hempty]
      exact ⟨h.width, h.sized, h.count⟩
  | next m => exact h

theorem Counted.run (calls : List (LinefillCall ν)) :
    ∀ {s : LinefillBuf × ν}, s.1.Counted lineWidth →
      (calls.foldl (LinefillBuf.exec next) s).1.Counted lineWidth := by
  induction calls with
  | nil => exact id
  | cons call calls ih => exact fun h => ih (h.exec call _)

/-- No more requests are missing than the line has bytes. -/
theorem Counted.unsent_le (h : l.Counted lineWidth) : l.unsent ≤ lineWidth := by
  simp only [unsent]
  split
  · exact Nat.zero_le _
  · calc l.pending ≤ l.entries.length := List.countP_le_length
      _ = lineWidth / l.entrySize := by rw [h.sized, nEntries, h.width]
      _ ≤ lineWidth := Nat.div_le_self _ _

end Counted

/-- The counter is right exactly as long as no extra request has been sent. -/
theorem requestsRemaining_iff (next : NextLevel ν)
    (criticalWordFirst lazyWriteback dynEntrySize : Bool) (lineWidth entrySize : BitVec 32)
    (calls : List (LinefillCall ν)) (m : ν) :
    let l := (calls.foldl (exec next) (create criticalWordFirst lazyWriteback dynEntrySize
      lineWidth.toNat entrySize.toNat, m)).1
    l.requestsRemaining.toNat = l.unsent ↔
      ¬ (l.hasExtra = true ∧ l.extraEntry.requestSent = true) := by
  intro l
  have h : l.Counted lineWidth.toNat := Counted.run calls (counted_create ..)
  have hlt : l.unsent < 2 ^ 32 := h.unsent_le.trans_lt lineWidth.isLt
  rw [h.count, ← Bool.and_eq_true]
  rcases l.hasExtra && l.extraEntry.requestSent with _ | _
  · simpa using hlt
  · simp only [if_true, not_true, iff_false]
    bv_omega

/-- An extra request behind a line whose requests are all sent: the counter wraps. -/
theorem extra_request_wraps :
    let l := ([.init 0 0 0x100 0x100 0 0 true, .sendRequest, .setupExtra 0x108 0x108,
      .sendExtraRequest].foldl (exec openPort) (create false false false 8 8, 0)).1
    l.unsent = 0 ∧ l.requestsRemaining.toNat = 2 ^ 32 - 1 := by
  decide

end LinefillBuf

end Adl.Uadl
