import Adl.Uadl.Client
import Adl.Uadl.Queues

/-!
# Ports stay separate, unless a fetch is preempted from another port

The fetch that can be preempted is noted for the whole memory. If it waits at another port, a new
request is put into the waiting slot of a port that it does not name, and it later goes from there
to its own port without a look at the queue. If this is full, its ring buffer then looks empty.

As long as the noted fetch waits at no other port when a request comes to a full queue, the ports do
not see each other, and requests that wait find room in their queue.
-/

namespace Adl.Uadl

open Adl.Math

namespace Memory

variable {cfg : MemoryConfig} {m : Memory} {i portId : ℕ} {id : ReqId} {r : MemoryRequest}
  {type : CacheAccess} {request : ClientRequest} {p : MemoryPort} {iid : Option ℕ} {deep : Bool}

/-- A request waits at port `j`, and none with the same number waits at a port before. -/
def Waits (m : Memory) (j : ℕ) (w : MemoryRequest) : Prop :=
  (m.ports[j]?).bind (·.waitingRequest) = some w ∧
    ∀ i < j, ∀ v ∈ (m.ports[i]?).bind (·.waitingRequest), v.id ≠ w.id

/-- When a request comes to a full queue, the noted fetch does not wait at another port. It may do
so if it is not cancelled and the request is neither a read nor a write. -/
def OwnPort (m : Memory) (portId : ℕ) (type : CacheAccess) : Prop :=
  (m.ports[portId]?).any (·.fullRequests) → ∀ j w, m.Waits j w → m.preemptionId = some w.id →
    (type = .cacheRead ∨ type = .cacheWrite ∨ w.cancelled = true) → j = portId

/-- Queues with slots, and no requests yet. -/
def Empty (m : Memory) : Prop :=
  ∀ p ∈ m.ports, 0 < p.capacity ∧ p.requests = [] ∧ p.waitingRequest = none

/-- All is in order as long as there are no requests. -/
theorem Empty.ok (h : m.Empty) : m.Ok := by
  intro i p hp
  obtain ⟨hpos, hreq, hwait⟩ := h p (List.mem_of_getElem? hp)
  refine ⟨hpos, by simp [hreq], by simp [hwait], fun r hr => ?_⟩
  simp [MemoryPort.content, hreq, hwait] at hr

theorem getWaitingRequest_some (h : m.getWaitingRequest id = some (i, r)) :
    ∃ p, m.ports[i]? = some p ∧ p.waitingRequest = some r ∧ r.id = id := by
  obtain ⟨⟨p, j⟩, hmem, hfound⟩ := List.exists_of_findSome?_eq_some h
  obtain ⟨r', hr', heq⟩ := Option.map_eq_some_iff.mp hfound
  obtain ⟨rfl, rfl⟩ := Prod.mk.inj heq
  obtain ⟨hwait, hid⟩ := Option.filter_eq_some_iff.mp hr'
  exact ⟨p, List.mem_zipIdx_iff_getElem?.mp hmem, hwait, of_decide_eq_true hid⟩

/-- The search finds the first port at which a request with the number waits. -/
theorem getWaitingRequest_waits (h : m.getWaitingRequest id = some (i, r)) : m.Waits i r := by
  obtain ⟨p, hp, hwait, rfl⟩ := getWaitingRequest_some h
  refine ⟨by rw [hp, Option.bind_some, hwait], fun j hj v hv hid => ?_⟩
  obtain ⟨q, hq, hv⟩ := Option.bind_eq_some_iff.mp hv
  -- the ports before the one that is found do not have the request
  obtain ⟨before, ⟨p', k⟩, after, hsplit, hfound, hbefore⟩ := List.findSome?_eq_some_iff.mp h
  obtain ⟨ports, rest, hports, rfl, hrest⟩ := List.zipIdx_eq_append_iff.mp hsplit
  obtain ⟨p'', rest', rfl, heq, -⟩ := List.zipIdx_eq_cons_iff.mp hrest.symm
  obtain ⟨w, -, hw⟩ := Option.map_eq_some_iff.mp hfound
  have hlength : i = ports.length := by
    rw [← (Prod.mk.inj hw).1, (Prod.mk.inj heq).2, Nat.zero_add]
  rw [hports, List.getElem?_append_left (hlength ▸ hj)] at hq
  have hnone := hbefore (q, j) (List.mem_zipIdx_iff_getElem?.mpr hq)
  simp [hv, hid] at hnone

theorem Waits.getWaitingRequest (h : m.Waits i r) : m.getWaitingRequest r.id = some (i, r) := by
  obtain ⟨p, hp, hwait⟩ := Option.bind_eq_some_iff.mp h.1
  have hsome : (m.getWaitingRequest r.id).isSome := List.findSome?_isSome_iff.mpr
    ⟨(p, i), List.mem_zipIdx_iff_getElem?.mpr hp, by simp [hwait]⟩
  obtain ⟨⟨j, w⟩, hfound⟩ := Option.isSome_iff_exists.mp hsome
  have hw := getWaitingRequest_waits hfound
  obtain ⟨-, -, -, hid⟩ := getWaitingRequest_some hfound
  -- neither port is before the other
  rcases Nat.lt_trichotomy i j with hlt | rfl | hlt
  · exact absurd hid.symm (hw.2 i hlt r h.1)
  · rw [hfound, Option.some.inj (h.1.symm.trans hw.1)]
  · exact absurd hid (h.2 j hlt w hw.1)

theorem canPreempt_of_waits (h : m.Waits i r) (hid : m.preemptionId = some r.id) :
    m.canPreempt type portId =
      if type = .cacheRead ∨ type = .cacheWrite ∨ r.cancelled then some (.waiting i) else none := by
  simp only [canPreempt, preemptable, hid, Option.bind_some, h.getWaitingRequest,
    Option.filter_some]
  split_ifs <;> simp_all

/-- What can be preempted: the noted request, waiting at some port or the last in the queue. -/
theorem canPreempt_some {place : Preempted} (h : m.canPreempt type portId = some place) :
    ∃ id, m.preemptionId = some id ∧
      ((∃ j p w, place = .waiting j ∧ m.ports[j]? = some p ∧ p.waitingRequest = some w ∧
          w.id = id ∧ m.Waits j w ∧
          (type = .cacheRead ∨ type = .cacheWrite ∨ w.cancelled = true)) ∨
        (m.getWaitingRequest id = none ∧ place = .back portId ∧ ∃ p w,
          m.ports[portId]? = some p ∧ p.requests.getLast? = some w ∧ w.id = id)) := by
  obtain ⟨⟨place', w⟩, hw, rfl⟩ := Option.map_eq_some_iff.mp h
  obtain ⟨hfound, htype⟩ := Option.filter_eq_some_iff.mp hw
  obtain ⟨id, hid, hfound⟩ := Option.bind_eq_some_iff.mp hfound
  refine ⟨id, hid, ?_⟩
  split at hfound
  case h_1 j w' hwait =>
    obtain ⟨rfl, rfl⟩ := Prod.mk.inj (Option.some.inj hfound)
    obtain ⟨p, hp, hpw, hwid⟩ := getWaitingRequest_some hwait
    exact .inl ⟨j, p, w', rfl, hp, hpw, hwid, getWaitingRequest_waits hwait,
      by simpa [or_assoc] using htype⟩
  case h_2 hnone =>
    obtain ⟨w', hlast, heq⟩ := Option.map_eq_some_iff.mp hfound
    obtain ⟨rfl, rfl⟩ := Prod.mk.inj heq
    obtain ⟨hlast, hwid⟩ := Option.filter_eq_some_iff.mp hlast
    obtain ⟨p, hp, hplast⟩ := Option.bind_eq_some_iff.mp hlast
    exact .inr ⟨hnone, rfl, p, w', hp, hplast, of_decide_eq_true hwid⟩

/-- What is preempted for a request is at the port of the request. -/
theorem ownPort_iff :
    m.OwnPort portId type ↔
    ((m.ports[portId]?).any (·.fullRequests) → ∀ place ∈ m.canPreempt type portId,
      place.portId = portId) := by
  refine imp_congr_right fun _ => ⟨fun h place hplace => ?_, fun h j w hw hid htype => ?_⟩
  · obtain ⟨id, hid, ⟨j, p, w, rfl, -, -, rfl, hw, htype⟩ | ⟨-, rfl, -⟩⟩ := canPreempt_some hplace
    · exact h j w hw hid htype
    · rfl
  · exact h (.waiting j) ((canPreempt_of_waits hw hid).trans (if_pos htype))

instance (portId : ℕ) (type : CacheAccess) : Decidable (m.OwnPort portId type) :=
  decidable_of_iff' _ ownPort_iff

/-! ### Sends -/

/-- Where a request to a full queue is put. -/
def place (m : Memory) (portId : ℕ) (type : CacheAccess) : Preempted :=
  (m.canPreempt type portId).getD (.waiting portId)

theorem sendRequest_preemptionId :
    (m.sendRequest portId request).preemptionId = m.preemptionId := by
  rw [sendRequest]
  split
  · rfl
  · split <;> rfl

theorem sendRequest_ports_of_not_full (hp : m.ports[portId]? = some p)
    (hfull : p.fullRequests = false) :
    (m.sendRequest portId request).ports = m.ports.modify portId fun p =>
      (p.consumeAddrBandwidth m.currTime).addRequest (m.newRequest portId request) := by
  simp [sendRequest, hp, hfull, updateQueueStatus, modifyPort, List.modify_modify_eq,
    Function.comp_def]

theorem sendRequest_ports_of_full (hp : m.ports[portId]? = some p) (hfull : p.fullRequests = true) :
    (m.sendRequest portId request).ports =
      (m.ports.modify portId (·.consumeAddrBandwidth m.currTime)).modify
        (m.place portId request.type).portId
        ((m.place portId request.type).put (m.newRequest portId request)) := by
  rw [place]
  cases hplace : m.canPreempt request.type portId with
  | none => simp [sendRequest, hp, hfull, updateQueueStatus, modifyPort, hplace, Preempted.portId]
  | some place => simp [sendRequest, hp, hfull, updateQueueStatus, modifyPort, hplace]

theorem OwnPort.place_eq (h : m.OwnPort portId type) (hp : m.ports[portId]? = some p)
    (hfull : p.fullRequests = true) : (m.place portId type).portId = portId := by
  rw [place]
  cases hplace : m.canPreempt type portId with
  | none => rfl
  | some place => exact ownPort_iff.mp h (by simp [hp, hfull]) place hplace

theorem sendRequestInquire_port {serialized : BitVec 32}
    (h : m.sendRequestInquire cfg iid type serialized portId) : ∃ p, m.ports[portId]? = some p := by
  simp only [sendRequestInquire, hasAddrBandwidth, Bool.and_eq_true] at h
  exact Option.isSome_iff_exists.mp (Option.isSome_of_any h.1.1.2)

theorem Ok.of_modify {m' : Memory} {f : MemoryPort → MemoryPort} (h : m.Ok)
    (hports : m'.ports = m.ports.modify i f) (hf : ∀ p, m.ports[i]? = some p → (f p).Ok i) :
    m'.Ok := by
  intro j p hp
  rw [hports] at hp
  exact h.modifyPort hf j p hp

/-- A request that respects the other ports goes to the port that it names. -/
theorem Ok.sendRequest (h : m.Ok) (hp : m.ports[portId]? = some p)
    (hown : m.OwnPort portId request.type) : (m.sendRequest portId request).Ok := by
  have hok : (p.consumeAddrBandwidth m.currTime).Ok portId := (h portId p hp).congr rfl rfl rfl
  cases hfull : p.fullRequests with
  | false =>
    refine h.of_modify (sendRequest_ports_of_not_full hp hfull) fun q hq => ?_
    obtain rfl := Option.some.inj (hp.symm.trans hq)
    exact hok.push hfull rfl
  | true =>
    have hports := @sendRequest_ports_of_full m portId request p hp hfull
    rw [hown.place_eq hp hfull, List.modify_modify_eq] at hports
    refine h.of_modify hports fun q hq => ?_
    obtain rfl := Option.some.inj (hp.symm.trans hq)
    rw [Function.comp, place]
    cases hplace : m.canPreempt request.type portId with
    | none => exact hok.wait hfull rfl
    | some place =>
      obtain ⟨id, -, ⟨j, q, w, rfl, -⟩ | ⟨-, rfl, q, w, hq, hlast, -⟩⟩ := canPreempt_some hplace
      · exact hok.wait hfull rfl
      · obtain rfl := Option.some.inj (hp.symm.trans hq)
        refine hok.overwriteBack (fun hnil => ?_) rfl
        simp [show p.requests = [] from hnil] at hlast

/-! ### Other operations -/

theorem requests_ne_nil_of_head {q : MemoryRequest → Bool} (hp : m.ports[i]? = some p)
    (h : ((m.ports[i]?).bind (·.requests.head?)).any q = true) : p.requests ≠ [] := by
  rintro hnil
  simp [hp, hnil] at h

/-- Only the first request of a queue is ready. -/
theorem requestInquire_head (h : m.requestInquire iid portId id = true) :
    ∃ p r, m.ports[portId]? = some p ∧ p.requests.head? = some r ∧ r.id = id := by
  simp only [requestInquire, Bool.and_eq_true] at h
  obtain ⟨r, hr⟩ := Option.isSome_iff_exists.mp (Option.isSome_of_any h.2)
  obtain ⟨p, hp, hhead⟩ := Option.bind_eq_some_iff.mp hr
  rw [hr] at h
  simp only [Option.any_some, Bool.and_eq_true, decide_eq_true_eq] at h
  exact ⟨p, r, hp, hhead, h.2.1.1⟩

theorem Ok.removeRequest (h : m.Ok) (hne : ∀ p, m.ports[i]? = some p → p.requests ≠ []) :
    (m.removeRequest i).Ok := by
  rw [removeRequest_eq h]
  exact h.modifyPort fun p hp => (h i p hp).remove (hne p hp)

/-- The request that waits finds room when the first one is removed: nothing is lost. -/
theorem Ok.removeRequest_held (h : m.Ok) (hp : m.ports[i]? = some p) (hne : p.requests ≠ []) :
    (m.removeRequest i).held = m.held.modify i List.tail := by
  rw [removeRequest_eq h]
  refine held_modifyPort fun q hq => ?_
  obtain rfl := Option.some.inj (hp.symm.trans hq)
  exact (h i p hp).remove_ids hne

theorem Ok.erase_held {index : ℕ} (h : m.Ok) (hp : m.ports[i]? = some p)
    (hindex : p.findRequestIdx id = some index) :
    ((m.modifyPort i (·.removeRequest index)).addWaitingRequest i).held =
      m.held.modify i (·.erase id) := by
  rw [eraseRequest_eq h]
  refine held_modifyPort fun q hq => ?_
  obtain rfl := Option.some.inj (hp.symm.trans hq)
  exact (h i p hp).erase_ids hindex

/-- A cancel takes away its request and no other. -/
theorem Ok.cancelInternal_held {m' : Memory} (h : m.Ok)
    (hcancel : m.cancelInternal i id true = some m') :
    m'.held = m.held.modify i (·.erase id) := by
  obtain ⟨index, hindex, rfl⟩ := Option.map_eq_some_iff.mp hcancel
  obtain ⟨p, hp, hindex⟩ := Option.bind_eq_some_iff.mp hindex
  exact h.erase_held hp hindex

theorem Ok.consumeDataBandwidth (h : m.Ok) :
    (m.modifyPort i (·.consumeDataBandwidth m.currTime)).Ok :=
  h.modifyPort fun p hp => (h i p hp).congr p.consumeDataBandwidth_requests
    p.consumeDataBandwidth_waitingRequest p.consumeDataBandwidth_capacity

theorem Ok.serve (h : m.Ok) (hinquire : m.requestInquire iid portId id = true) :
    (m.serve portId).Ok := by
  obtain ⟨p, r, hp, hhead, -⟩ := requestInquire_head hinquire
  refine h.consumeDataBandwidth.removeRequest fun q hq => ?_
  rcases getElem?_modify_cases hq with ⟨hne, -⟩ | ⟨-, p', hp', rfl⟩
  · exact absurd rfl hne
  · obtain rfl := Option.some.inj (hp.symm.trans hp')
    rw [MemoryPort.consumeDataBandwidth_requests]
    rintro hnil
    simp [hnil] at hhead

theorem Ok.cancelInternal {m' : Memory} (h : m.Ok)
    (hcancel : m.cancelInternal portId id deep = some m') : m'.Ok := by
  obtain ⟨index, hindex, rfl⟩ := Option.map_eq_some_iff.mp hcancel
  obtain ⟨p, hp, hindex⟩ := Option.bind_eq_some_iff.mp hindex
  cases deep with
  | false =>
    rw [if_neg Bool.false_ne_true]
    exact h.modifyPort fun q hq => (h portId q hq).mark
  | true =>
    rw [if_pos rfl, eraseRequest_eq h]
    refine h.modifyPort fun q hq => ?_
    obtain rfl := Option.some.inj (hp.symm.trans hq)
    exact (h portId p hp).erase (MemoryPort.lt_of_findRequestIdx hindex)

theorem Ok.checkWaitingForCancel (h : m.Ok) : (m.checkWaitingForCancel id deep).Ok := by
  rw [Memory.checkWaitingForCancel]
  split
  case h_2 => exact h
  case h_1 i w hw =>
    obtain ⟨p, hp, hpw, -⟩ := getWaitingRequest_some hw
    cases deep with
    | true => exact h.modifyPort fun q hq => (h i q hq).cancelWaiting
    | false =>
      refine h.modifyPort fun q hq => ?_
      obtain rfl := Option.some.inj (hp.symm.trans hq)
      exact (h i p hp).markWaiting hpw

theorem Ok.cancel (h : m.Ok) : (m.cancel portId id deep).Ok := by
  rw [Memory.cancel]
  cases hcancel : m.cancelInternal portId id deep with
  | some m' => exact h.cancelInternal hcancel
  | none => exact h.checkWaitingForCancel

theorem Ok.cancelAny (h : m.Ok) : (m.cancelAny id deep).Ok := by
  rw [Memory.cancelAny]
  cases hcancel : (m.findPort id).bind (m.cancelInternal · id deep) with
  | some m' =>
    obtain ⟨portId, -, hfound⟩ := Option.bind_eq_some_iff.mp hcancel
    exact h.cancelInternal hfound
  | none => exact h.checkWaitingForCancel

/-! ### Cycles -/

theorem Ok.dropLoop {fuel portId : ℕ} (h : m.Ok) : (Memory.dropLoop fuel m portId).Ok := by
  induction fuel generalizing m with
  | zero => exact h
  | succ fuel ih =>
    rw [Memory.dropLoop]
    split
    case isTrue hfront =>
      exact ih (h.removeRequest fun p hp => requests_ne_nil_of_head hp hfront)
    case isFalse => exact h

theorem Ok.expireAll (h : m.Ok) :
    (m.modifyPort portId fun p => { p with requests := p.requests.map (m.expire cfg) }).Ok := by
  refine h.modifyPort fun p hp => ?_
  have hok := h portId p hp
  refine ⟨hok.pos, by simpa using hok.length_le, by simpa using hok.full,
    MemoryPort.forall_content.mpr ⟨fun r hr => ?_, hok.home_waiting⟩⟩
  obtain ⟨q, hq, rfl⟩ := List.mem_map.mp hr
  exact hok.home_requests q hq

theorem Ok.preCyclePort (h : m.Ok) : (m.preCyclePort cfg portId).Ok :=
  h.expireAll.dropLoop

theorem Ok.updatePortStatus (h : m.Ok) : m.updatePortStatus.Ok := by
  intro i p hp
  rw [Memory.updatePortStatus, List.getElem?_map] at hp
  obtain ⟨q, hq, rfl⟩ := Option.map_eq_some_iff.mp hp
  exact (h i q hq).congr rfl rfl rfl

theorem Ok.saveQueueStatus (h : m.Ok) : (m.saveQueueStatus cfg).Ok := by
  have hstatus : m.updateQueueStatus.updatePortStatus.Ok := Ok.updatePortStatus h
  rw [Memory.saveQueueStatus]
  cases cfg.preemptive <;> exact hstatus

theorem checkDelayedUnlock_ports : m.checkDelayedUnlock.ports = m.ports := by
  rw [checkDelayedUnlock]
  split
  · split <;> rfl
  · rfl

theorem checkDelayedUnlock_preemptionId :
    m.checkDelayedUnlock.preemptionId = m.preemptionId := by
  rw [checkDelayedUnlock]
  split
  · split <;> rfl
  · rfl

theorem Ok.checkDelayedUnlock (h : m.Ok) : m.checkDelayedUnlock.Ok := by
  rw [Ok, checkDelayedUnlock_ports]
  exact h

theorem Ok.preCycle (h : m.Ok) : (m.preCycle cfg).Ok := by
  have hstart := Ok.checkDelayedUnlock (@Ok.saveQueueStatus cfg m h)
  exact List.foldlRecOn _ _ hstart fun m hm portId _ => hm.preCyclePort

/-! ### Runs -/

/-- A send respects the other ports. -/
def OwnSend (m : Memory) : MemoryOp → Prop
  | .send _ portId request => m.OwnPort portId request.type
  | _ => True

instance : (op : MemoryOp) → Decidable (m.OwnSend op)
  | .send _ portId request => inferInstanceAs (Decidable (m.OwnPort portId request.type))
  | .read .. | .write .. | .cancel .. | .cancelAny .. | .preCycle .. => .isTrue trivial

/-- One operation keeps all requests at the ports that they name. -/
theorem Ok.exec {op : MemoryOp} (h : m.Ok) (hown : m.OwnSend op) : (m.exec cfg op).Ok := by
  cases op with
  | send iid portId request =>
    rw [Memory.exec]
    split
    case isTrue hinquire =>
      obtain ⟨p, hp⟩ := sendRequestInquire_port hinquire
      exact h.sendRequest hp hown
    case isFalse => exact h
  | read iid portId id =>
    rw [Memory.exec]
    split
    case isTrue hinquire => exact h.serve hinquire
    case isFalse => exact h
  | write iid portId id =>
    rw [Memory.exec]
    split
    case isTrue hinquire => exact h.serve hinquire
    case isFalse => exact h
  | cancel portId id deep => exact h.cancel
  | cancelAny id deep => exact h.cancelAny
  | preCycle time => exact Ok.preCycle h

/-- A send leaves the other ports alone exactly if it respects them. -/
theorem sendRequest_others_iff (h : m.Ok) (hp : m.ports[portId]? = some p) :
    (∀ j ≠ portId, (m.sendRequest portId request).ports[j]? = m.ports[j]?) ↔
      m.OwnPort portId request.type := by
  cases hfull : p.fullRequests with
  | false =>
    rw [sendRequest_ports_of_not_full hp hfull]
    refine iff_of_true (fun j hj => ?_) fun hany => ?_
    · simp [hj.symm]
    · simp [hp, hfull] at hany
  | true =>
    rw [sendRequest_ports_of_full hp hfull]
    rw [ownPort_iff]
    constructor
    · intro hothers _ place hplace
      by_contra hne
      have hplace' : m.place portId request.type = place := by rw [Memory.place, hplace]; rfl
      -- another port's waiting request is overwritten by one that names this port
      obtain ⟨id, -, ⟨j, q, w, rfl, hq, hw, -⟩ | ⟨-, rfl, -⟩⟩ := canPreempt_some hplace
      · have hj := hothers j hne
        rw [hplace', Preempted.portId, List.getElem?_modify, List.getElem?_modify, hq] at hj
        have hport : portId ≠ j := fun heq => hne heq.symm
        simp only [Option.map_eq_map, Option.map_some, ↓reduceIte, hport, Option.some.injEq] at hj
        have hnew : q.waitingRequest = some (m.newRequest portId request) := by
          rw [← hj]
          rfl
        exact hne ((h j q hq).home_waiting _ hnew).symm
      · exact hne rfl
    · intro hown j hj
      rw [(ownPort_iff.mpr hown).place_eq hp hfull, List.modify_modify_eq, List.getElem?_modify]
      simp [hj.symm]

end Memory

/-- In a run in which no request comes to a full queue while the noted fetch waits at another port,
all requests are in the ports that they name, and a request waits only beside a full queue. When a
request is removed or cancelled, the one that waits finds room in the queue of its port, and no
other request is touched. A next send leaves the other ports alone exactly if the noted fetch does
not wait at one of them. -/
theorem ports_separate {cfg : MemoryConfig} {m : Memory} (hempty : m.Empty) {ops : List MemoryOp}
    (hown : Along (Memory.step cfg) Memory.OwnSend m ops) :
    let s := (runs (Memory.step cfg) m ops).2
    s.Ok ∧
      (∀ i p, s.ports[i]? = some p → p.requests ≠ [] →
        (s.removeRequest i).held = s.held.modify i List.tail) ∧
      (∀ i id s', s.cancelInternal i id true = some s' →
        s'.held = s.held.modify i (·.erase id)) ∧
      ∀ iid portId request,
        s.sendRequestInquire cfg iid request.type request.serialized portId = true →
        ((∀ j ≠ portId, (s.sendRequest portId request).ports[j]? = s.ports[j]?) ↔
          s.OwnPort portId request.type) := by
  have hok : (runs (Memory.step cfg) m ops).2.Ok :=
    runs_along (P := Memory.Ok) (fun m op hop hm => hm.exec hop) hown hempty.ok
  refine ⟨hok, fun i p hp hne => hok.removeRequest_held hp hne,
    fun i id s' hcancel => hok.cancelInternal_held hcancel, fun iid portId request hinquire => ?_⟩
  obtain ⟨p, hp⟩ := Memory.sendRequestInquire_port hinquire
  exact Memory.sendRequest_others_iff hok hp

/-! ### Two ports -/

/-- A port for one request and one that waits. -/
def smallPort : MemoryPort :=
  { capacity := 1, allowWaitingRequest := true, commonBandwidth := false,
    addrBandwidth := { bandwidth := 0 }, dataBandwidth := { bandwidth := 0 } }

/-- A memory with one cycle of latency. -/
def quickConfig : MemoryConfig :=
  { preemptive := true, levelMask := 1, readLatency := 1, writeLatency := 1 }

def twoPorts : Memory := { currTime := 0, ports := [smallPort, smallPort] }

theorem twoPorts_empty : twoPorts.Empty := by
  intro p hp
  simp only [twoPorts, List.mem_cons, List.not_mem_nil, or_false, or_self] at hp
  subst hp
  exact ⟨Nat.one_pos, rfl, rfl⟩

def fetch : ClientRequest := { type := .cacheIFetch, ea := 0, addr := 0, dataWidth := 4 }

def load : ClientRequest := { type := .cacheRead, ea := 0, addr := 0, dataWidth := 4 }

/-- A fetch is served, and another waits, when the next cycle starts. -/
def twoFetches : List MemoryOp := [.send none 0 fetch, .send none 0 fetch, .preCycle 1]

/-- A load takes the place of the fetch that waits at its port. -/
theorem ports_separate_same :
    (runs (Memory.step quickConfig) twoPorts (twoFetches ++ [.send none 0 load])).2.Ok :=
  (ports_separate twoPorts_empty (by decide)).1

/-- The second of two loads at the other port takes the place of the fetch. When the first fetch
has been read, the load goes from its waiting slot into a queue that is full, and no request is left
in either port: both loads are lost. -/
theorem load_crosses_ports :
    let loads := twoFetches ++ [.send none 1 load, .send none 1 load]
    (runs (Memory.step quickConfig) twoPorts loads).2.held = [[1, 4], [3]] ∧
      (runs (Memory.step quickConfig) twoPorts (loads ++ [.read none 0 1])).2.held = [[], []] := by
  decide

end Adl.Uadl
