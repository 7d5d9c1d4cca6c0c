import Adl.Math.Lists
import Adl.Uadl.Memory

/-!
# The queue and the waiting slot of a port

The requests of a port are those in its queue, followed by the one that waits. As long as requests
are only in ports that they name, the operations of a memory change one port at a time, and each is
a simple operation on this list.
-/

namespace Adl.Uadl

open Adl.Math

namespace MemoryPort

variable {p : MemoryPort} {i index : ℕ} {r w : MemoryRequest} {id : ReqId} {time : ℕ}

/-- The requests of a port: its queue and the request that waits. -/
def content (p : MemoryPort) : List MemoryRequest := p.requests ++ p.waitingRequest.toList

/-- The numbers of the requests, in the order in which they came. -/
def ids (p : MemoryPort) : List ReqId := p.content.map (·.id)

/-- The queue of port `i` has slots and is not longer than it may be, a request waits only while
the queue is full, and all requests name this port. -/
structure Ok (i : ℕ) (p : MemoryPort) : Prop where
  pos : 0 < p.capacity
  length_le : p.requests.length ≤ p.capacity
  full : p.waitingRequest.isSome → p.requests.length = p.capacity
  home : ∀ r ∈ p.content, r.portId = i

theorem forall_content {P : MemoryRequest → Prop} : (∀ r ∈ p.content, P r) ↔
    (∀ r ∈ p.requests, P r) ∧ ∀ r ∈ p.waitingRequest, P r := by
  simp [content, or_imp, forall_and]

theorem Ok.home_requests (h : p.Ok i) : ∀ r ∈ p.requests, r.portId = i :=
  (forall_content.mp h.home).1

theorem Ok.home_waiting (h : p.Ok i) : ∀ r ∈ p.waitingRequest, r.portId = i :=
  (forall_content.mp h.home).2

/-- Move the waiting request to the queue of its port. -/
def takeWaiting (time : ℕ) (p : MemoryPort) : MemoryPort :=
  match p.waitingRequest with
  | some r => { p.addRequest { r with takenTime := time } with waitingRequest := none }
  | none => p

/-- As long as the queue has room, the ring buffer is a list. -/
theorem addRequest_eq (hroom : p.requests.length < p.capacity) :
    p.addRequest r = { p with requests := p.requests ++ [r] } := by
  rw [addRequest, ringPush_of_lt (Nat.succ_lt_succ hroom)]

theorem takeWaiting_requests (hroom : p.requests.length < p.capacity) :
    (p.takeWaiting time).requests =
      p.requests ++ (p.waitingRequest.map ({ · with takenTime := time })).toList := by
  rw [takeWaiting]
  split
  case h_1 r hr => simp [addRequest_eq hroom, hr]
  case h_2 hnone => simp [hnone]

@[simp] theorem takeWaiting_capacity : (p.takeWaiting time).capacity = p.capacity := by
  rw [takeWaiting]
  split <;> rfl

@[simp] theorem takeWaiting_waitingRequest : (p.takeWaiting time).waitingRequest = none := by
  rw [takeWaiting]
  split
  · rfl
  case h_2 hnone => exact hnone

/-- The time is the only thing that changes. -/
theorem takeWaiting_map {β : Type*} {view : MemoryRequest → β}
    (hroom : p.requests.length < p.capacity)
    (hview : ∀ r : MemoryRequest, view { r with takenTime := time } = view r) :
    (p.takeWaiting time).content.map view = p.content.map view := by
  rw [content, takeWaiting_requests hroom, takeWaiting_waitingRequest, content]
  cases p.waitingRequest <;> simp [hview]

/-- Taking the waiting request changes neither which requests there are nor their order. -/
theorem takeWaiting_ids (hroom : p.requests.length < p.capacity) :
    (p.takeWaiting time).ids = p.ids :=
  takeWaiting_map hroom fun _ => rfl

theorem ids_of_none (h : p.waitingRequest = none) : p.ids = p.requests.map (·.id) := by
  simp [ids, content, h]

theorem ids_of_some (h : p.waitingRequest = some w) :
    p.ids = p.requests.map (·.id) ++ [w.id] := by
  simp [ids, content, h]

/-- Requests keep their port when they are taken. -/
theorem takeWaiting_home (hroom : p.requests.length < p.capacity)
    (h : ∀ r ∈ p.content, r.portId = i) : ∀ r ∈ (p.takeWaiting time).content, r.portId = i := by
  have hports : (p.takeWaiting time).content.map (·.portId) = p.content.map (·.portId) :=
    takeWaiting_map hroom fun _ => rfl
  intro r hr
  obtain ⟨x, hx, heq⟩ := List.mem_map.mp (hports ▸ List.mem_map_of_mem hr)
  exact heq ▸ h x hx

/-- A request that waits moves to a queue with room. -/
theorem Ok.takeWaiting (hroom : p.requests.length < p.capacity)
    (hhome : ∀ r ∈ p.content, r.portId = i) : (p.takeWaiting time).Ok i where
  pos := by rw [takeWaiting_capacity]; omega
  length_le := by
    rw [takeWaiting_requests hroom, takeWaiting_capacity, List.length_append]
    have := Option.length_toList_le (o := p.waitingRequest.map ({ · with takenTime := time }))
    omega
  full := by simp
  home := takeWaiting_home hroom hhome

/-- Without one of its requests, a port has room for the one that waits. -/
theorem Ok.without {q : MemoryPort} (h : p.Ok i) (hcapacity : q.capacity = p.capacity)
    (hwait : q.waitingRequest = p.waitingRequest) (hsub : q.requests ⊆ p.requests)
    (hlength : q.requests.length < p.requests.length) : (q.takeWaiting time).Ok i := by
  refine .takeWaiting (hcapacity ▸ hlength.trans_le h.length_le) (forall_content.mpr ⟨?_, ?_⟩)
  · exact fun r hr => h.home_requests r (hsub hr)
  · rw [hwait]
    exact h.home_waiting

/-- Without its first request, a queue has room. -/
theorem Ok.room_popFront (h : p.Ok i) :
    p.popFrontRequest.requests.length < p.popFrontRequest.capacity := by
  have hpos := h.pos
  have hle := h.length_le
  simp only [popFrontRequest, List.length_tail]
  omega

theorem Ok.room_remove (h : p.Ok i) (hindex : index < p.requests.length) :
    (p.removeRequest index).requests.length < (p.removeRequest index).capacity := by
  have hle := h.length_le
  simp only [removeRequest, List.length_eraseIdx, hindex, ↓reduceIte]
  omega

/-- The first request is served, and the waiting one moves up. -/
theorem Ok.remove (h : p.Ok i) (hne : p.requests ≠ []) :
    (p.popFrontRequest.takeWaiting time).Ok i := by
  have hpos := List.length_pos_of_ne_nil hne
  refine h.without rfl rfl (List.tail_subset _) ?_
  simp only [popFrontRequest, List.length_tail]
  omega

/-- A request from the middle of the queue is taken out. -/
theorem Ok.erase (h : p.Ok i) (hindex : index < p.requests.length) :
    ((p.removeRequest index).takeWaiting time).Ok i := by
  refine h.without rfl rfl List.eraseIdx_subset ?_
  simp only [removeRequest, List.length_eraseIdx, hindex, ↓reduceIte]
  omega

theorem Ok.remove_ids (h : p.Ok i) (hne : p.requests ≠ []) :
    (p.popFrontRequest.takeWaiting time).ids = p.ids.tail := by
  rw [takeWaiting_ids h.room_popFront, ids, ids, content, content, popFrontRequest,
    ← List.tail_append_of_ne_nil hne, List.map_tail]

theorem lt_of_findRequestIdx (h : p.findRequestIdx id = some index) : index < p.requests.length :=
  (List.findIdx?_eq_some_iff_getElem.mp h).1

theorem mem_of_findRequestIdx (h : p.findRequestIdx id = some index) :
    id ∈ p.requests.map (·.id) := by
  obtain ⟨hlt, hid, -⟩ := List.findIdx?_eq_some_iff_getElem.mp h
  exact List.mem_map.mpr ⟨_, List.getElem_mem hlt, of_decide_eq_true hid⟩

/-- Only the request that was looked for is gone. -/
theorem Ok.erase_ids (h : p.Ok i) (hfind : p.findRequestIdx id = some index) :
    ((p.removeRequest index).takeWaiting time).ids = p.ids.erase id := by
  rw [takeWaiting_ids (h.room_remove (lt_of_findRequestIdx hfind)), ids, ids, content, content,
    List.map_append, List.map_append, List.erase_append_left _ (mem_of_findRequestIdx hfind),
    ← map_erase_of_findIdx? hfind]
  rfl

/-- The waiting request is withdrawn. -/
theorem Ok.cancelWaiting (h : p.Ok i) : { p with waitingRequest := none }.Ok i where
  pos := h.pos
  length_le := h.length_le
  full := by simp
  home := forall_content.mpr ⟨h.home_requests, by simp⟩

theorem cancelWaiting_ids (hw : p.waitingRequest = some w) (hnodup : p.ids.Nodup) :
    { p with waitingRequest := none }.ids = p.ids.erase w.id := by
  rw [ids_of_some hw] at hnodup ⊢
  rw [ids_of_none rfl, List.erase_append_right _ fun hmem =>
    (List.disjoint_of_nodup_append hnodup) hmem List.mem_cons_self]
  simp

/-- A mark changes nothing. -/
theorem Ok.mark (h : p.Ok i) : (p.modifyRequest index ({ · with cancelled := true })).Ok i where
  pos := h.pos
  length_le := by simpa [modifyRequest] using h.length_le
  full := by simpa [modifyRequest] using h.full
  home := by
    refine forall_content.mpr ⟨fun r hr => ?_, h.home_waiting⟩
    obtain ⟨k, hk⟩ := List.mem_iff_getElem?.mp hr
    rcases getElem?_modify_cases hk with ⟨-, hk⟩ | ⟨-, x, hx, rfl⟩
    · exact h.home_requests r (List.mem_of_getElem? hk)
    · exact h.home_requests x (List.mem_of_getElem? hx)

theorem mark_ids : (p.modifyRequest index ({ · with cancelled := true })).ids = p.ids := by
  rw [ids, ids, content, content, List.map_append, List.map_append, modifyRequest]
  congr 1
  exact map_modify_of_eq fun _ => rfl

theorem Ok.markWaiting (h : p.Ok i) (hw : p.waitingRequest = some w) :
    { p with waitingRequest := some { w with cancelled := true } }.Ok i where
  pos := h.pos
  length_le := h.length_le
  full _ := h.full (by simp [hw])
  home := forall_content.mpr ⟨h.home_requests, by simpa using h.home_waiting w hw⟩

theorem markWaiting_ids (hw : p.waitingRequest = some w) :
    { p with waitingRequest := some { w with cancelled := true } }.ids = p.ids := by
  rw [ids_of_some hw, ids_of_some rfl]

/-! New requests -/

/-- No request waits beside a queue that is not full. -/
theorem Ok.waiting_none (h : p.Ok i) (hfull : p.fullRequests = false) :
    p.waitingRequest = none := by
  rw [← Option.not_isSome_iff_eq_none]
  intro hw
  simp [fullRequests, h.full hw] at hfull

theorem Ok.room (h : p.Ok i) (hfull : p.fullRequests = false) :
    p.requests.length < p.capacity :=
  h.length_le.lt_of_ne (of_decide_eq_false hfull)

/-- A queue that is not full takes a request that names its port. -/
theorem Ok.push (h : p.Ok i) (hfull : p.fullRequests = false) (hr : r.portId = i) :
    (p.addRequest r).Ok i := by
  have hroom := h.room hfull
  rw [addRequest_eq hroom]
  refine ⟨h.pos, by simpa [Nat.add_one_le_iff] using hroom, by simp [h.waiting_none hfull],
    fun x hx => ?_⟩
  simp only [content, h.waiting_none hfull, Option.toList_none, List.append_nil,
    List.mem_append, List.mem_singleton] at hx
  rcases hx with hx | rfl
  · exact h.home_requests x hx
  · exact hr

theorem Ok.push_ids (h : p.Ok i) (hfull : p.fullRequests = false) :
    (p.addRequest r).ids = p.ids ++ [r.id] := by
  have hw := h.waiting_none hfull
  have hw' : (p.addRequest r).waitingRequest = none := hw
  rw [ids_of_none hw, ids_of_none hw', addRequest_eq (h.room hfull), List.map_append]
  rfl

/-- A full port takes a request into its waiting slot, free or not. -/
theorem Ok.wait (h : p.Ok i) (hfull : p.fullRequests = true) (hr : r.portId = i) :
    { p with waitingRequest := some r }.Ok i where
  pos := h.pos
  length_le := h.length_le
  full _ := by simpa [fullRequests] using hfull
  home := forall_content.mpr ⟨h.home_requests, by simpa using hr⟩

theorem wait_ids (hw : p.waitingRequest = none) :
    { p with waitingRequest := some r }.ids = p.ids ++ [r.id] := by
  rw [ids_of_none hw, ids_of_some rfl]

/-- The request that waited is lost. -/
theorem overwriteWaiting_ids (hw : p.waitingRequest = some w) :
    { p with waitingRequest := some r }.ids = p.ids.dropLast ++ [r.id] := by
  rw [ids_of_some hw, ids_of_some rfl, List.dropLast_concat]

/-- The last request of a queue is replaced. -/
theorem Ok.overwriteBack (h : p.Ok i) (hne : p.requests ≠ []) (hr : r.portId = i) :
    { p with requests := p.requests.dropLast ++ [r] }.Ok i := by
  have hlen : (p.requests.dropLast ++ [r]).length = p.requests.length := by
    have := List.length_pos_of_ne_nil hne
    simp only [List.length_append, List.length_dropLast, List.length_singleton]
    omega
  refine ⟨h.pos, hlen ▸ h.length_le, fun hw => hlen ▸ h.full hw,
    forall_content.mpr ⟨fun x hx => ?_, h.home_waiting⟩⟩
  rcases List.mem_append.mp hx with hx | hx
  · exact h.home_requests x (List.mem_of_mem_dropLast hx)
  · obtain rfl := List.mem_singleton.mp hx
    exact hr

theorem overwriteBack_ids (hw : p.waitingRequest = none) :
    { p with requests := p.requests.dropLast ++ [r] }.ids = p.ids.dropLast ++ [r.id] := by
  have hw' : { p with requests := p.requests.dropLast ++ [r] }.waitingRequest = none := hw
  rw [ids_of_none hw, ids_of_none hw', List.map_append, List.map_dropLast]
  rfl

/-! What does not matter -/

@[simp] theorem consumeDataBandwidth_requests (p : MemoryPort) {time : ℕ} :
    (p.consumeDataBandwidth time).requests = p.requests := by
  rw [consumeDataBandwidth]
  split <;> rfl

@[simp] theorem consumeDataBandwidth_waitingRequest (p : MemoryPort) {time : ℕ} :
    (p.consumeDataBandwidth time).waitingRequest = p.waitingRequest := by
  rw [consumeDataBandwidth]
  split <;> rfl

@[simp] theorem consumeDataBandwidth_capacity (p : MemoryPort) {time : ℕ} :
    (p.consumeDataBandwidth time).capacity = p.capacity := by
  rw [consumeDataBandwidth]
  split <;> rfl

theorem Ok.congr {p' : MemoryPort} (h : p.Ok i) (hreq : p'.requests = p.requests)
    (hwait : p'.waitingRequest = p.waitingRequest) (hcap : p'.capacity = p.capacity) : p'.Ok i := by
  refine ⟨hcap ▸ h.pos, by rw [hreq, hcap]; exact h.length_le,
    by rw [hreq, hwait, hcap]; exact h.full, ?_⟩
  rw [content, hreq, hwait]
  exact h.home

theorem ids_congr {p' : MemoryPort} (hreq : p'.requests.map (·.id) = p.requests.map (·.id))
    (hwait : p'.waitingRequest = p.waitingRequest) : p'.ids = p.ids := by
  rw [ids, ids, content, content, hwait, List.map_append, List.map_append, hreq]

end MemoryPort

namespace Memory

variable {m : Memory} {i : ℕ} {f : MemoryPort → MemoryPort}

/-- All ports are in order. -/
def Ok (m : Memory) : Prop := ∀ i (p : MemoryPort), m.ports[i]? = some p → p.Ok i

/-- The numbers of the requests in the ports. -/
def held (m : Memory) : List (List ReqId) := m.ports.map (·.ids)

/-- It is enough to look at the port that changes. -/
theorem Ok.modifyPort (h : m.Ok) (hf : ∀ p, m.ports[i]? = some p → (f p).Ok i) :
    (m.modifyPort i f).Ok := by
  intro j p hp
  rcases getElem?_modify_cases hp with ⟨-, hp⟩ | ⟨rfl, q, hq, rfl⟩
  · exact h j p hp
  · exact hf q hq

theorem held_modifyPort {g : List ReqId → List ReqId}
    (hf : ∀ p, m.ports[i]? = some p → (f p).ids = g p.ids) :
    (m.modifyPort i f).held = m.held.modify i g := map_modify hf

theorem held_of_modify {m' : Memory} {g : List ReqId → List ReqId}
    (hports : m'.ports = m.ports.modify i f)
    (hf : ∀ p, m.ports[i]? = some p → (f p).ids = g p.ids) : m'.held = m.held.modify i g := by
  rw [held, hports]
  exact map_modify hf

theorem modifyPort_getElem? {p : MemoryPort} (hp : m.ports[i]? = some p) :
    (m.modifyPort i f).ports[i]? = some (f p) := by
  simp [modifyPort, hp]

theorem modifyPort_modifyPort {f g : MemoryPort → MemoryPort} :
    (m.modifyPort i f).modifyPort i g = m.modifyPort i (g ∘ f) := by
  rw [modifyPort, modifyPort, modifyPort, List.modify_modify_eq]

theorem modifyPort_congr {f g : MemoryPort → MemoryPort}
    (h : ∀ p, m.ports[i]? = some p → f p = g p) : m.modifyPort i f = m.modifyPort i g := by
  rw [modifyPort, modifyPort, modify_congr h]

/-- A waiting request that names its port goes to the queue of this port. -/
theorem addWaitingRequest_eq
    (h : ∀ p, m.ports[i]? = some p → ∀ r ∈ p.waitingRequest, r.portId = i) :
    m.addWaitingRequest i = m.modifyPort i (·.takeWaiting m.currTime) := by
  rw [addWaitingRequest]
  cases hp : m.ports[i]? with
  | none => simp [modifyPort, modify_eq_self_of, hp]
  | some p =>
    cases hr : p.waitingRequest with
    | none =>
      have hself : ∀ q, m.ports[i]? = some q → q.takeWaiting m.currTime = q := by
        intro q hq
        obtain rfl := Option.some.inj (hp.symm.trans hq)
        rw [MemoryPort.takeWaiting, hr]
      simp [modifyPort, modify_eq_self_of hself, hr]
    | some r =>
      -- the request goes to the port that it names, which is its own
      obtain rfl := h p hp r hr
      simp only [Option.bind_some, hr]
      rw [addRequest, cancelWaitingRequest, modifyPort_modifyPort]
      refine modifyPort_congr fun q hq => ?_
      obtain rfl := Option.some.inj (hp.symm.trans hq)
      rw [MemoryPort.takeWaiting, hr]
      rfl

/-- The request that waits takes the place of a request that was taken out. -/
theorem modifyPort_addWaitingRequest (h : m.Ok)
    (hwait : ∀ p, (f p).waitingRequest = p.waitingRequest) :
    (m.modifyPort i f).addWaitingRequest i =
      m.modifyPort i fun p => (f p).takeWaiting m.currTime := by
  rw [addWaitingRequest_eq, modifyPort_modifyPort]
  · rfl
  · intro p hp r hr
    rcases getElem?_modify_cases hp with ⟨hne, -⟩ | ⟨-, q, hq, rfl⟩
    · exact absurd rfl hne
    · rw [hwait] at hr
      exact (h i q hq).home_waiting r hr

/-- `removeRequest` changes one port only, since a request that waits names its port. -/
theorem removeRequest_eq (h : m.Ok) :
    m.removeRequest i = m.modifyPort i (·.popFrontRequest.takeWaiting m.currTime) :=
  modifyPort_addWaitingRequest h fun _ => rfl

/-- Removing a request of the middle. -/
theorem eraseRequest_eq (h : m.Ok) {index : ℕ} :
    (m.modifyPort i (·.removeRequest index)).addWaitingRequest i =
      m.modifyPort i fun p => (p.removeRequest index).takeWaiting m.currTime :=
  modifyPort_addWaitingRequest h fun _ => rfl

end Memory

end Adl.Uadl
