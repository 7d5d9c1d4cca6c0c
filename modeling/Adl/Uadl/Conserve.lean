import Adl.Uadl.Separate

/-!
# What becomes of requests

A request is in the port that accepted it until it is served, cancelled, dropped or overwritten, and
the requests of a port are served in order.

A request that takes the place of another gets its position. This is the last position of the port,
although the noted fetch may have moved to the queue in the meantime: as long as it is at the end of
a full queue, nothing else can have been sent in this cycle.
-/

namespace Adl.Uadl

open Adl.Math

namespace MemoryPort

variable {p : MemoryPort} {i : ℕ} {f : ReqId} {wasFull wasFull' : Bool} {r w : MemoryRequest}
  {time : ℕ}

/-- The request `f` was noted when it waited beside a full queue. It still waits, or it has moved
to the queue. At the end of a full queue it can be only as long as nothing was sent. -/
structure Noted (f : ReqId) (wasFull : Bool) (p : MemoryPort) : Prop where
  waiting : ∀ w ∈ p.waitingRequest, w.id = f → wasFull = true
  queued : ∀ k r, p.requests[k]? = some r → r.id = f →
    k + 1 < p.capacity ∨ (p.waitingRequest = none ∧ wasFull = true)

theorem Noted.takeWaiting (hroom : p.requests.length < p.capacity)
    (hwaiting : ∀ w ∈ p.waitingRequest, w.id = f → wasFull = true)
    (hqueued : ∀ k r, p.requests[k]? = some r → r.id = f → k + 1 < p.capacity ∨ wasFull = true) :
    (p.takeWaiting time).Noted f wasFull := by
  refine ⟨by simp, fun k r hr hid => ?_⟩
  rw [takeWaiting_capacity, takeWaiting_waitingRequest]
  rw [takeWaiting_requests hroom, List.getElem?_append] at hr
  split at hr
  · exact (hqueued k r hr hid).imp_right fun h => ⟨rfl, h⟩
  · obtain ⟨w, hw, rfl⟩ := Option.map_eq_some_iff.mp
      (Option.mem_toList.mp (List.mem_of_getElem? hr))
    exact .inr ⟨rfl, hwaiting w hw hid⟩

theorem Noted.remove (h : p.Noted f wasFull) (hok : p.Ok i) :
    (p.popFrontRequest.takeWaiting time).Noted f wasFull := by
  refine .takeWaiting hok.room_popFront h.waiting fun k r hr _ => .inl ?_
  have hlt := (List.getElem?_eq_some_iff.mp hr).1
  have := hok.length_le
  simp only [popFrontRequest, List.length_tail] at hlt ⊢
  omega

theorem Noted.erase (h : p.Noted f wasFull) (hok : p.Ok i) {index : ℕ}
    (hindex : index < p.requests.length) :
    ((p.removeRequest index).takeWaiting time).Noted f wasFull := by
  refine .takeWaiting (hok.room_remove hindex) h.waiting fun k r hr hid => ?_
  rw [removeRequest, List.getElem?_eraseIdx] at hr
  split at hr
  · exact (h.queued k r hr hid).imp_right And.right
  · have hlt := (List.getElem?_eq_some_iff.mp hr).1
    have := hok.length_le
    exact .inl (by simp only [removeRequest]; omega)

theorem Noted.cancelWaiting (h : p.Noted f wasFull) :
    { p with waitingRequest := none }.Noted f wasFull :=
  ⟨by simp, fun k r hr hid => (h.queued k r hr hid).imp_right fun h => ⟨rfl, h.2⟩⟩

/-- The numbers in queue and waiting slot are what matters. -/
theorem Noted.congr {p' : MemoryPort} (h : p.Noted f wasFull) (hcap : p'.capacity = p.capacity)
    (hreq : p'.requests.map (·.id) = p.requests.map (·.id))
    (hwait : p'.waitingRequest.map (·.id) = p.waitingRequest.map (·.id)) : p'.Noted f wasFull := by
  constructor
  · intro w hw hid
    obtain ⟨w', hw', hid'⟩ : ∃ w', p.waitingRequest = some w' ∧ w'.id = w.id :=
      Option.map_eq_some_iff.mp (hwait.symm.trans (congrArg _ hw))
    exact h.waiting w' hw' (hid'.trans hid)
  · intro k r hr hid
    have hk : (p.requests.map (·.id))[k]? = some r.id := by rw [← hreq, List.getElem?_map, hr]; rfl
    rw [List.getElem?_map] at hk
    obtain ⟨r', hr', hid'⟩ := Option.map_eq_some_iff.mp hk
    rw [hcap]
    refine (h.queued k r' hr' (hid'.trans hid)).imp_right fun hnone => ⟨?_, hnone.2⟩
    rw [hnone.1] at hwait
    exact Option.map_eq_none_iff.mp hwait

/-! New requests -/

theorem Noted.push (hok : p.Ok i) (hfull : p.fullRequests = false) (hr : r.id ≠ f) :
    (p.addRequest r).Noted f wasFull := by
  have hlen := hok.room hfull
  rw [addRequest_eq hlen]
  constructor
  · intro w hw
    rw [hok.waiting_none hfull] at hw
    cases hw
  · intro k x hx hid
    rw [List.getElem?_append] at hx
    split at hx
    · exact .inl (by dsimp only; omega)
    · obtain rfl := List.mem_singleton.mp (List.mem_of_getElem? hx)
      exact absurd hid hr

theorem Noted.wait (h : p.Noted f false) (hr : r.id ≠ f) :
    { p with waitingRequest := some r }.Noted f wasFull := by
  constructor
  · rintro w ⟨⟩ hid
    exact absurd hid hr
  · intro k x hx hid
    exact .inl ((h.queued k x hx hid).resolve_right fun h => Bool.false_ne_true h.2)

/-- After the noted request is overwritten, its number is not in use. -/
theorem Noted.of_not_mem (h : f ∉ p.ids) : p.Noted f wasFull := by
  constructor
  · rintro w hw rfl
    exact absurd (List.mem_map_of_mem (List.mem_append_right _ (Option.mem_toList.mpr hw))) h
  · rintro k r hr rfl
    exact absurd (List.mem_map_of_mem (List.mem_append_left _ (List.mem_of_getElem? hr))) h

/-- Numbers, and whether a request is dropped at the front. -/
def marks (p : MemoryPort) : List (ReqId × Bool) :=
  p.content.map fun r => (r.id, r.expired && r.cancelled)

theorem Ok.remove_marks (h : p.Ok i) (hne : p.requests ≠ []) :
    (p.popFrontRequest.takeWaiting time).marks = p.marks.tail := by
  rw [marks, takeWaiting_map h.room_popFront fun _ => rfl, marks, content, content, popFrontRequest,
    ← List.tail_append_of_ne_nil hne, List.map_tail]

end MemoryPort

namespace Memory

variable {cfg : MemoryConfig} {m m₁ m₂ m₃ : Memory} {i portId : ℕ} {id : ReqId} {p : MemoryPort}
  {type : CacheAccess} {request : ClientRequest} {iid : Option ℕ} {deep : Bool} {m' : Memory}
  {g : MemoryPort → MemoryPort}
  {es es' : List Event}

def Noted (m : Memory) : Prop := ∀ f ∈ m.preemptionId, ∀ p ∈ m.ports, p.Noted f m.queueWasFull

theorem Noted.modifyPort (h : m.Noted)
    (hg : ∀ p f, m.ports[i]? = some p → p.Noted f m.queueWasFull → (g p).Noted f m.queueWasFull) :
    (m.modifyPort i g).Noted := by
  intro f hf p hp
  obtain ⟨j, hj⟩ := List.mem_iff_getElem?.mp hp
  rcases getElem?_modify_cases hj with ⟨-, hj⟩ | ⟨-, q, hq, rfl⟩
  · exact h f hf p (List.mem_of_getElem? hj)
  · exact hg q f hq (h f hf q (List.mem_of_getElem? hq))

theorem held_getElem? (hp : m.ports[i]? = some p) : m.held[i]? = some p.ids := by
  rw [held, List.getElem?_map, hp]
  rfl

/-! ### Steps within a cycle -/

/-- The events lead from the requests of one memory to those of another, and what was noted stays
noted. -/
structure Steps (m : Memory) (es : List Event) (m' : Memory) : Prop where
  ok : m'.Ok
  replay : Lanes.replay m.held (es.map Event.toMove) = some m'.held
  noted : m.Noted → m'.Noted
  preemptionId : m'.preemptionId = m.preemptionId

namespace Steps

theorem refl (h : m.Ok) : Steps m [] m := ⟨h, rfl, fun h => h, rfl⟩

theorem trans (h : Steps m₁ es m₂) (h' : Steps m₂ es' m₃) : Steps m₁ (es ++ es') m₃ where
  ok := h'.ok
  replay := by rw [List.map_append, Lanes.replay_append, h.replay, Option.bind_some, h'.replay]
  noted hn := h'.noted (h.noted hn)
  preemptionId := h'.preemptionId.trans h.preemptionId

theorem silent (h : m.Ok) (hok : ∀ p, m.ports[i]? = some p → (g p).Ok i)
    (hids : ∀ p, m.ports[i]? = some p → (g p).ids = p.ids)
    (hnoted : ∀ p f, m.ports[i]? = some p → p.Noted f m.queueWasFull →
      (g p).Noted f m.queueWasFull) : Steps m [] (m.modifyPort i g) where
  ok := h.modifyPort hok
  replay := by
    rw [held_modifyPort (g := fun ids => ids) hids]
    exact congrArg some (List.modify_id i m.held).symm
  noted hn := hn.modifyPort hnoted
  preemptionId := rfl

theorem consumeDataBandwidth (h : m.Ok) :
    Steps m [] (m.modifyPort i (·.consumeDataBandwidth m.currTime)) :=
  .silent h (fun p hp => (h i p hp).congr (by simp) (by simp) (by simp))
    (fun p _ => MemoryPort.ids_congr (by simp) (by simp))
    fun p f _ hn => hn.congr (by simp) (by simp) (by simp)

theorem removeRequest {r : MemoryRequest} {e : Event} (h : m.Ok) (hp : m.ports[i]? = some p)
    (hhead : p.requests.head? = some r) (he : e.toMove = .leave i r.id) :
    Steps m [e] (m.removeRequest i) := by
  have hne : p.requests ≠ [] := by
    rintro hnil
    simp [hnil] at hhead
  have hheld := h.removeRequest_held hp hne
  rw [removeRequest_eq h] at hheld ⊢
  refine ⟨h.modifyPort fun q hq => ?_, ?_, fun hn => hn.modifyPort fun q f hq hqn => ?_, rfl⟩
  · obtain rfl := Option.some.inj (hp.symm.trans hq)
    exact (h i p hp).remove hne
  · have hlane : (m.held[i]?).bind List.head? = some r.id := by
      rw [held_getElem? hp, Option.bind_some, MemoryPort.ids, MemoryPort.content, List.head?_map,
        List.head?_append_of_ne_nil _ hne, hhead]
      rfl
    rw [List.map_singleton, he, Lanes.replay_singleton, Lanes.move, if_pos hlane, hheld]
  · exact hqn.remove (h i q hq)

theorem serve (h : m.Ok) (hinquire : m.requestInquire iid portId id = true) :
    Steps m [.served portId id] (m.serve portId) := by
  obtain ⟨p, r, hp, hhead, rfl⟩ := requestInquire_head hinquire
  have hconsume := @consumeDataBandwidth m portId h
  refine hconsume.trans (removeRequest hconsume.ok (modifyPort_getElem? hp) ?_ rfl)
  rw [MemoryPort.consumeDataBandwidth_requests]
  exact hhead

theorem dropLoop {fuel : ℕ} (h : m.Ok) (hp : m.ports[i]? = some p)
    (hfuel : p.content.length ≤ fuel) :
    Steps m ((p.marks.takeWhile (·.2)).map fun x => .dropped i x.1) (Memory.dropLoop fuel m i) := by
  induction fuel generalizing m p with
  | zero =>
    have hnil : p.content = [] := List.length_eq_zero_iff.mp (Nat.le_zero.mp hfuel)
    rw [MemoryPort.marks, hnil]
    exact .refl h
  | succ fuel ih =>
    rw [Memory.dropLoop, hp, Option.bind_some]
    cases hreq : p.requests with
    | nil =>
      -- an empty queue is not full, so nothing waits
      have hwait : p.waitingRequest = none := by
        rw [← Option.not_isSome_iff_eq_none]
        intro hw
        have hlen := (h i p hp).full hw
        have hpos := (h i p hp).pos
        rw [hreq, List.length_nil] at hlen
        omega
      have hmarks : p.marks = [] := by simp [MemoryPort.marks, MemoryPort.content, hreq, hwait]
      rw [hmarks]
      exact .refl h
    | cons r rest =>
      have hne : p.requests ≠ [] := by simp [hreq]
      have hmarks : p.marks = (r.id, r.expired && r.cancelled) :: p.marks.tail := by
        simp [MemoryPort.marks, MemoryPort.content, hreq]
      rw [List.head?_cons, Option.any_some, hmarks, List.takeWhile_cons]
      cases r.expired && r.cancelled with
      | false => exact .refl h
      | true =>
        have hfirst : Steps m [.dropped i r.id] (m.removeRequest i) :=
          removeRequest h hp (by rw [hreq]; rfl) rfl
        have hp' : (m.removeRequest i).ports[i]? =
            some (p.popFrontRequest.takeWaiting m.currTime) := by
          rw [removeRequest_eq h, modifyPort_getElem? hp]
        have hlen : (p.popFrontRequest.takeWaiting m.currTime).content.length ≤ fuel := by
          have := congrArg List.length (@MemoryPort.Ok.remove_marks p i m.currTime (h i p hp) hne)
          simp only [MemoryPort.marks, List.length_map, List.length_tail] at this
          omega
        have hrest := ih hfirst.ok hp' hlen
        rw [(h i p hp).remove_marks hne] at hrest
        exact hfirst.trans hrest

theorem preCyclePort (h : m.Ok) :
    Steps m (m.dropEvents cfg i) (m.preCyclePort cfg i) := by
  rw [dropEvents, Memory.preCyclePort]
  cases hp : m.ports[i]? with
  | none =>
    have hself : (m.modifyPort i fun p =>
        { p with requests := p.requests.map (m.expire cfg) }) = m :=
      congrArg (fun ports => { m with ports := ports }) (modify_eq_self_of (by simp [hp]))
    simp only [hself, hp]
    exact .refl h
  | some p =>
    have hexpire : Steps m []
        (m.modifyPort i fun p => { p with requests := p.requests.map (m.expire cfg) }) := by
      have hids (p : MemoryPort) :
          (p.requests.map (m.expire cfg)).map (·.id) = p.requests.map (·.id) := by
        simp [Function.comp_def, expire]
      refine .silent h (fun q hq => h.expireAll i _ (modifyPort_getElem? hq))
        (fun q _ => MemoryPort.ids_congr (hids q) rfl) fun q f _ hn => hn.congr rfl (hids q) rfl
    have hp' := modifyPort_getElem? (f := fun p => { p with
      requests := p.requests.map (m.expire cfg) }) hp
    have hfuel : { p with requests := p.requests.map (m.expire cfg) }.content.length ≤
        p.requests.length + 1 := by
      simp only [MemoryPort.content, List.length_append, List.length_map, Option.length_toList]
      split <;> omega
    have hdrop := hexpire.trans (dropLoop hexpire.ok hp' hfuel)
    rw [List.nil_append] at hdrop
    simp only [hp', Option.elim_some, List.length_map]
    rw [MemoryPort.marks, List.takeWhile_map, List.map_map] at hdrop
    exact hdrop

theorem preCycleFold {ports : List ℕ} (h : m.Ok) :
    Steps m (m.preCycleEvents cfg ports) (ports.foldl (fun m i => m.preCyclePort cfg i) m) := by
  induction ports generalizing m with
  | nil => exact .refl h
  | cons i rest ih =>
    have hfirst := @preCyclePort cfg m i h
    exact hfirst.trans (ih hfirst.ok)

/-! Cancellation -/

theorem cancelInternal (h : m.Ok) (hcancel : m.cancelInternal portId id deep = some m') :
    Steps m (if deep then [.cancelled portId id] else []) m' := by
  obtain ⟨index, hindex, rfl⟩ := Option.map_eq_some_iff.mp hcancel
  obtain ⟨p, hp, hindex⟩ := Option.bind_eq_some_iff.mp hindex
  cases deep with
  | false =>
    refine .silent h (fun q hq => (h portId q hq).mark) (fun q _ => MemoryPort.mark_ids)
      fun q f _ hn => hn.congr rfl ?_ rfl
    exact map_modify_of_eq fun _ => rfl
  | true =>
    have hheld := h.erase_held hp hindex
    rw [eraseRequest_eq h] at hheld
    rw [if_pos rfl, if_pos rfl, eraseRequest_eq h]
    refine ⟨h.modifyPort fun q hq => ?_, ?_, fun hn => hn.modifyPort fun q f hq hqn => ?_, rfl⟩
    · obtain rfl := Option.some.inj (hp.symm.trans hq)
      exact (h portId p hp).erase (MemoryPort.lt_of_findRequestIdx hindex)
    · have hmem : ∃ lane ∈ m.held[portId]?, id ∈ lane := by
        refine ⟨p.ids, held_getElem? hp, ?_⟩
        rw [MemoryPort.ids, MemoryPort.content, List.map_append]
        exact List.mem_append_left _ (MemoryPort.mem_of_findRequestIdx hindex)
      rw [List.map_singleton, Event.toMove, Lanes.replay_singleton, Lanes.move, if_pos hmem, hheld]
    · obtain rfl := Option.some.inj (hp.symm.trans hq)
      exact hqn.erase (h portId p hp) (MemoryPort.lt_of_findRequestIdx hindex)

theorem ids_nodup (hnodup : m.held.flatten.Nodup) (hp : m.ports[i]? = some p) : p.ids.Nodup :=
  (List.nodup_flatten.mp hnodup).1 _ (List.mem_of_getElem? (held_getElem? hp))

theorem checkWaitingForCancel (h : m.Ok) (hnodup : m.held.flatten.Nodup) :
    Steps m (if deep then m.waitingEvents id else []) (m.checkWaitingForCancel id deep) := by
  rw [Memory.checkWaitingForCancel, waitingEvents]
  cases hw : m.getWaitingRequest id with
  | none => cases deep <;> exact .refl h
  | some found =>
    obtain ⟨i, w⟩ := found
    obtain ⟨p, hp, hpw, rfl⟩ := getWaitingRequest_some hw
    cases deep with
    | false =>
      refine .silent h (fun q hq => ?_) (fun q hq => ?_) fun q f hq hn => ?_ <;>
        obtain rfl := Option.some.inj (hp.symm.trans hq)
      · exact (h i p hp).markWaiting hpw
      · exact MemoryPort.markWaiting_ids hpw
      · exact hn.congr rfl rfl (by rw [hpw]; rfl)
    | true =>
      refine ⟨h.modifyPort fun q hq => (h i q hq).cancelWaiting, ?_,
        fun hn => hn.modifyPort fun q f _ hqn => hqn.cancelWaiting, rfl⟩
      have hmem : ∃ lane ∈ m.held[i]?, w.id ∈ lane := by
        refine ⟨p.ids, held_getElem? hp, ?_⟩
        rw [MemoryPort.ids_of_some hpw]
        exact List.mem_append_right _ List.mem_cons_self
      rw [if_pos rfl, Option.elim_some, List.map_singleton, Event.toMove, Lanes.replay_singleton,
        Lanes.move, if_pos hmem]
      simp only [↓reduceIte]
      rw [cancelWaitingRequest, held_modifyPort (g := (·.erase w.id))]
      intro q hq
      obtain rfl := Option.some.inj (hp.symm.trans hq)
      exact MemoryPort.cancelWaiting_ids hpw (ids_nodup hnodup hp)

theorem cancel (h : m.Ok) (hnodup : m.held.flatten.Nodup) :
    Steps m (if deep then m.cancelEvents portId id else []) (m.cancel portId id deep) := by
  rw [Memory.cancel, cancelEvents]
  cases hcancel : m.cancelInternal portId id deep with
  | some m' =>
    have hsome : ((m.ports[portId]?).bind (·.findRequestIdx id)).isSome := by
      rw [← Option.isSome_map, ← Memory.cancelInternal, hcancel]
      rfl
    rw [if_pos hsome]
    exact cancelInternal h hcancel
  | none =>
    have hnone : ¬ ((m.ports[portId]?).bind (·.findRequestIdx id)).isSome := by
      rw [Option.not_isSome_iff_eq_none]
      exact Option.map_eq_none_iff.mp hcancel
    rw [if_neg hnone]
    exact checkWaitingForCancel h hnodup

theorem cancelAny (h : m.Ok) (hnodup : m.held.flatten.Nodup) :
    Steps m (if deep then m.cancelAnyEvents id else []) (m.cancelAny id deep) := by
  rw [Memory.cancelAny, cancelAnyEvents]
  cases hport : m.findPort id with
  | none => exact checkWaitingForCancel h hnodup
  | some portId =>
    obtain ⟨hlt, hfound, -⟩ := List.findIdx?_eq_some_iff_getElem.mp hport
    have hsome : (m.cancelInternal portId id deep).isSome := by
      rw [Memory.cancelInternal, Option.isSome_map, List.getElem?_eq_getElem hlt]
      exact hfound
    obtain ⟨m', hm'⟩ := Option.isSome_iff_exists.mp hsome
    rw [Option.bind_some, hm', Option.getD_some]
    exact cancelInternal h hm'

end Steps

/-! ### Sends -/

/-- What holds between the operations. Several ports are used without preemption. -/
structure Kept (cfg : MemoryConfig) (m : Memory) : Prop where
  ok : m.Ok
  nodup : m.held.flatten.Nodup
  noted : m.Noted
  single : m.ports.length = 1 ∨ cfg.preemptive = false
  idle : cfg.preemptive = false → m.preemptionId = none

/-- The number of the next request is not in use. -/
def FreshId (m : Memory) : Prop :=
  m.nextId ∉ m.held.flatten ∧ m.preemptionId ≠ some m.nextId

instance : Decidable m.FreshId := inferInstanceAs (Decidable (_ ∧ _))

theorem ports_eq_singleton (hlen : m.ports.length = 1) (hp : m.ports[i]? = some p) :
    i = 0 ∧ m.ports = [p] := by
  obtain ⟨q, hq⟩ := List.length_eq_one_iff.mp hlen
  have hi := (List.getElem?_eq_some_iff.mp hp).1
  obtain rfl : i = 0 := by omega
  rw [hq] at hp
  exact ⟨rfl, by rw [hq, Option.some.inj hp]⟩

theorem Kept.length_of_noted {f : ReqId} (h : Kept cfg m) (hf : m.preemptionId = some f) :
    m.ports.length = 1 := by
  refine h.single.resolve_right fun hnone => ?_
  rw [h.idle hnone] at hf
  cases hf

theorem Kept.ownPort (h : Kept cfg m) (hp : m.ports[i]? = some p) : m.OwnPort i type := by
  intro _ j w hw hf _
  have hlen := h.length_of_noted hf
  obtain ⟨q, hq, -⟩ := Option.bind_eq_some_iff.mp hw.1
  exact (ports_eq_singleton hlen hq).1.trans (ports_eq_singleton hlen hp).1.symm

/-- With one port, a change of this port decides about the noted request. -/
theorem Kept.noted_of_modify (h : Kept cfg m) (hp : m.ports[i]? = some p)
    (hid : m'.preemptionId = m.preemptionId) (hports : m'.ports = m.ports.modify i g)
    (hg : ∀ f, m.preemptionId = some f → (g p).Noted f m'.queueWasFull) : m'.Noted := by
  intro f hf q hq
  rw [hid] at hf
  obtain ⟨rfl, hsingle⟩ := ports_eq_singleton (h.length_of_noted hf) hp
  rw [hports, hsingle] at hq
  obtain rfl := List.mem_singleton.mp hq
  exact hg f hf

/-- A new request enters its port. -/
theorem move_accepted {s : List (List ReqId)} (hi : i < s.length) (hfresh : id ∉ s.flatten) :
    Lanes.move s (Event.accepted i id).toMove = some (s.modify i (· ++ [id])) :=
  if_pos ⟨hi, hfresh⟩

/-- A request is accepted if its port has it behind the others, in a queue or waiting. -/
theorem Kept.send_accepted (h : Kept cfg m) (hfresh : m.FreshId) (hp : m.ports[portId]? = some p)
    (hports : (m.sendRequest portId request).ports = m.ports.modify portId g)
    (hids : (g p).ids = p.ids ++ [m.nextId])
    (hnoted : ∀ f, m.preemptionId = some f → m.nextId ≠ f →
      (g p).Noted f (m.sendRequest portId request).queueWasFull) :
    Steps m [.accepted portId m.nextId] (m.sendRequest portId request) := by
  refine ⟨h.ok.sendRequest hp (h.ownPort hp), ?_, fun _ => ?_, sendRequest_preemptionId⟩
  · have hi : portId < m.held.length := by
      rw [held, List.length_map]
      exact (List.getElem?_eq_some_iff.mp hp).1
    rw [List.map_singleton, Lanes.replay_singleton, move_accepted hi hfresh.1]
    refine congrArg some (held_of_modify hports fun q hq => ?_).symm
    obtain rfl := Option.some.inj (hp.symm.trans hq)
    exact hids
  · refine h.noted_of_modify hp sendRequest_preemptionId hports fun f hf => ?_
    exact hnoted f hf fun heq => hfresh.2 (by rw [hf, ← heq])

theorem Kept.send_not_full (h : Kept cfg m) (hfresh : m.FreshId) (hp : m.ports[portId]? = some p)
    (hfull : p.fullRequests = false) :
    Steps m [.accepted portId m.nextId] (m.sendRequest portId request) := by
  have hok : (p.consumeAddrBandwidth m.currTime).Ok portId := (h.ok portId p hp).congr rfl rfl rfl
  exact h.send_accepted hfresh hp (sendRequest_ports_of_not_full hp hfull) (hok.push_ids hfull)
    fun f _ hne => .push hok hfull hne

/-- Without a request to preempt there is room in the waiting slot. -/
theorem sendRequestInquire_room {serialized : BitVec 32}
    (h : m.sendRequestInquire cfg iid type serialized portId)
    (hnone : m.canPreempt type portId = none) (hp : m.ports[portId]? = some p)
    (hfull : p.fullRequests = true) : m.queueWasFull = false ∧ p.waitingRequest = none := by
  simp only [MemoryPort.fullRequests, decide_eq_true_eq] at hfull
  simp only [sendRequestInquire, hnone, Option.isSome_none, Bool.or_false, Bool.and_eq_true,
    Bool.not_eq_true', Bool.or_eq_false_iff, nAvailableRequestSlots, hp, Option.elim_some,
    MemoryPort.nAvailableRequestSlots, hfull, decide_eq_false_iff_not] at h
  refine ⟨h.2.1, ?_⟩
  cases hw : p.waitingRequest with
  | none => rfl
  | some w => simp [hw] at h

theorem Kept.send_waiting (h : Kept cfg m) (hfresh : m.FreshId) (hp : m.ports[portId]? = some p)
    (hfull : p.fullRequests = true) (hnone : m.canPreempt request.type portId = none)
    (hroom : m.queueWasFull = false) (hwait : p.waitingRequest = none) :
    Steps m [.accepted portId m.nextId] (m.sendRequest portId request) := by
  have hports := @sendRequest_ports_of_full m portId request p hp hfull
  rw [place, hnone, Option.getD_none, Preempted.portId, List.modify_modify_eq] at hports
  refine h.send_accepted hfresh hp hports (MemoryPort.wait_ids hwait) fun f hf hne => ?_
  have hnoted := h.noted f hf p (List.mem_of_getElem? hp)
  rw [hroom] at hnoted
  exact (hnoted.congr rfl rfl rfl : (p.consumeAddrBandwidth m.currTime).Noted f false).wait hne

/-- A preempted request is the last of its port. -/
theorem Kept.preempted_last {place : Preempted} (h : Kept cfg m) (hp : m.ports[i]? = some p)
    (hfull : p.fullRequests = true) (hplace : m.canPreempt type i = some place) :
    ∃ f, m.preemptionId = some f ∧ p.ids.getLast? = some f ∧
      ∀ r, (place.put r p).ids = p.ids.dropLast ++ [r.id] := by
  obtain ⟨f, hf, ⟨j, q, w, rfl, hq, hw, rfl, -⟩ | ⟨-, rfl, q, w, hq, hlast, rfl⟩⟩ :=
    canPreempt_some hplace
  · have hlen := h.length_of_noted hf
    obtain rfl : j = i := (ports_eq_singleton hlen hq).1.trans (ports_eq_singleton hlen hp).1.symm
    obtain rfl := Option.some.inj (hp.symm.trans hq)
    exact ⟨w.id, hf, by simp [MemoryPort.ids_of_some hw],
      fun r => MemoryPort.overwriteWaiting_ids hw⟩
  · obtain rfl := Option.some.inj (hp.symm.trans hq)
    -- at the end of a full queue, the noted request has nothing behind it
    have hwait : p.waitingRequest = none := by
      simp only [MemoryPort.fullRequests, decide_eq_true_eq] at hfull
      rw [List.getLast?_eq_getElem?] at hlast
      have hpos := (h.ok i p hp).pos
      rcases (h.noted _ hf p (List.mem_of_getElem? hp)).queued _ w hlast rfl with hlt | hnone
      · omega
      · exact hnone.1
    exact ⟨w.id, hf, by simp [MemoryPort.ids_of_none hwait, hlast],
      fun r => MemoryPort.overwriteBack_ids hwait⟩

theorem put_consume_ids {place : Preempted} {r : MemoryRequest} {time : ℕ} :
    (place.put r (p.consumeAddrBandwidth time)).ids = (place.put r p).ids := by
  cases place <;> rfl

theorem Kept.send_preempting {place : Preempted} (h : Kept cfg m) (hfresh : m.FreshId)
    (hp : m.ports[portId]? = some p) (hfull : p.fullRequests = true)
    (hplace : m.canPreempt request.type portId = some place) :
    Steps m (m.preemptEvents portId request.type ++ [.accepted portId m.nextId])
      (m.sendRequest portId request) := by
  obtain ⟨f, hf, hlast, hids⟩ := h.preempted_last hp hfull hplace
  have hports := @sendRequest_ports_of_full m portId request p hp hfull
  rw [(h.ownPort hp).place_eq hp hfull, List.modify_modify_eq, Memory.place, hplace,
    Option.getD_some] at hports
  have hown : place.portId = portId :=
    ownPort_iff.mp (h.ownPort hp) (by simp [hp, hfull]) place hplace
  have hevents : m.preemptEvents portId request.type = [.preempted portId f] := by
    subst hown
    rw [preemptEvents, hplace, hf, hp, Option.any_some, hfull]
    rfl
  have hi : portId < m.held.length := by
    rw [held, List.length_map]
    exact (List.getElem?_eq_some_iff.mp hp).1
  refine ⟨h.ok.sendRequest hp (h.ownPort hp), ?_, fun _ => ?_, sendRequest_preemptionId⟩
  · -- the fetch is the last request of its port, and the new one takes its place
    have hlane : (m.held[portId]?).bind List.getLast? = some f := by
      rw [held_getElem? hp, Option.bind_some, hlast]
    have hretract : Lanes.move m.held (Event.preempted portId f).toMove =
        some (m.held.modify portId List.dropLast) := if_pos hlane
    have hfresh' : m.nextId ∉ (m.held.modify portId List.dropLast).flatten := fun hmem =>
      hfresh.1 ((Lanes.flatten_modify_sublist List.dropLast_sublist portId).subset hmem)
    rw [hevents, List.map_append, Lanes.replay_append, List.map_singleton, List.map_singleton,
      Lanes.replay_singleton, hretract, Option.bind_some, Lanes.replay_singleton,
      move_accepted (by rwa [List.length_modify]) hfresh', List.modify_modify_eq]
    refine congrArg some (held_of_modify hports fun q hq => ?_).symm
    obtain rfl := Option.some.inj (hp.symm.trans hq)
    exact put_consume_ids.trans (hids _)
  · refine h.noted_of_modify hp sendRequest_preemptionId hports fun f' hf' => ?_
    obtain rfl := Option.some.inj (hf.symm.trans hf')
    refine .of_not_mem fun hmem => ?_
    have hne : f ≠ m.nextId := fun heq => hfresh.2 (hf.trans (congrArg some heq))
    rw [Function.comp, put_consume_ids, hids] at hmem
    rcases List.mem_append.mp hmem with hmem | hmem
    · have hnodup := Steps.ids_nodup h.nodup hp
      rw [← List.dropLast_append_getLast? f hlast] at hnodup
      exact (List.disjoint_of_nodup_append hnodup) hmem List.mem_cons_self
    · exact hne (List.mem_singleton.mp hmem)

/-! ### The start of a cycle -/

theorem saveQueueStatus_held : (m.saveQueueStatus cfg).checkDelayedUnlock.held = m.held := by
  rw [held, checkDelayedUnlock_ports, saveQueueStatus]
  cases cfg.preemptive <;>
    simp [updatePortStatus, updateQueueStatus, held, Function.comp_def, MemoryPort.updateStatus,
      MemoryPort.ids, MemoryPort.content]

theorem checkDelayedUnlock_noted : m.checkDelayedUnlock.Noted ↔ m.Noted := by
  rw [checkDelayedUnlock]
  split
  · split <;> exact Iff.rfl
  · exact Iff.rfl

theorem waitingFetch_some {f : ReqId} (h : m.waitingFetch = some f) :
    ∃ p ∈ m.ports, ∃ w, p.waitingRequest = some w ∧ w.id = f := by
  obtain ⟨p, hp, hw⟩ := List.exists_of_findSome?_eq_some h
  obtain ⟨w, hfilter, hid⟩ := Option.map_eq_some_iff.mp hw
  exact ⟨p, hp, w, (Option.filter_eq_some_iff.mp hfilter).1, hid⟩

/-- A request waits beside a full queue. -/
theorem Ok.nAvailableRequestSlots_eq_zero {w : MemoryRequest} (h : m.Ok)
    (hp : m.ports[i]? = some p) (hw : p.waitingRequest = some w) :
    m.nAvailableRequestSlots i = 0 := by
  have hfull := (h i p hp).full (by simp [hw])
  simp [nAvailableRequestSlots, hp, MemoryPort.nAvailableRequestSlots, hw, hfull]

/-- The fetch that is noted waits, and its number is not in the queue. -/
theorem Kept.noted_saved (h : Kept cfg m) : (m.saveQueueStatus cfg).Noted := by
  rw [saveQueueStatus]
  cases hpre : cfg.preemptive with
  | false =>
    intro f hf
    have hsome : m.preemptionId = some f := hf
    rw [h.idle hpre] at hsome
    cases hsome
  | true =>
    intro f hf q hq
    have hlen : m.ports.length = 1 := h.single.resolve_right (by simp [hpre])
    obtain ⟨p₀, hp₀, w, hw, rfl⟩ := waitingFetch_some hf
    obtain ⟨p, hp, rfl⟩ := List.mem_map.mp hp₀
    obtain ⟨p', hp', rfl⟩ := List.mem_map.mp hq
    obtain ⟨i, hi⟩ := List.mem_iff_getElem?.mp hp
    obtain ⟨rfl, hsingle⟩ := ports_eq_singleton hlen hi
    have hp'' : p' ∈ m.ports := hp'
    rw [hsingle] at hp''
    obtain rfl := List.mem_singleton.mp hp''
    have hfull : (m.updateQueueStatus.updatePortStatus).queueWasFull = true :=
      decide_eq_true (h.ok.nAvailableRequestSlots_eq_zero hi hw)
    refine ⟨fun _ _ _ => hfull, fun k r hr hid => ?_⟩
    have hnodup := Steps.ids_nodup h.nodup hi
    rw [MemoryPort.ids_of_some (show p'.waitingRequest = some w from hw)] at hnodup
    refine absurd List.mem_cons_self ((List.disjoint_of_nodup_append hnodup) ?_)
    rw [← hid]
    exact List.mem_map_of_mem (List.mem_of_getElem? hr)

theorem Kept.saved (h : Kept cfg m) : Kept cfg (m.saveQueueStatus cfg).checkDelayedUnlock where
  ok := (h.ok.saveQueueStatus).checkDelayedUnlock
  nodup := by rw [saveQueueStatus_held]; exact h.nodup
  noted := checkDelayedUnlock_noted.mpr h.noted_saved
  single := by
    have := congrArg List.length (@saveQueueStatus_held cfg m)
    rw [held, held, List.length_map, List.length_map] at this
    rw [this]
    exact h.single
  idle hpre := by
    rw [checkDelayedUnlock_preemptionId, saveQueueStatus, hpre]
    exact h.idle hpre

/-! ### Runs -/

theorem Steps.kept (h : Kept cfg m) (hs : Steps m es m') : Kept cfg m' where
  ok := hs.ok
  nodup := Lanes.replay_nodup h.nodup hs.replay
  noted := hs.noted h.noted
  single := by
    have := Lanes.replay_length hs.replay
    rw [held, held, List.length_map, List.length_map] at this
    rw [this]
    exact h.single
  idle hpre := hs.preemptionId.trans (h.idle hpre)

theorem Kept.send (h : Kept cfg m) (hfresh : m.FreshId)
    (hinquire : m.sendRequestInquire cfg iid request.type request.serialized portId) :
    Steps m (m.preemptEvents portId request.type ++ [.accepted portId m.nextId])
      (m.sendRequest portId request) := by
  obtain ⟨p, hp⟩ := sendRequestInquire_port hinquire
  cases hfull : p.fullRequests with
  | false =>
    rw [show m.preemptEvents portId request.type = [] by simp [preemptEvents, hp, hfull]]
    exact h.send_not_full hfresh hp hfull
  | true =>
    cases hplace : m.canPreempt request.type portId with
    | some place => exact h.send_preempting hfresh hp hfull hplace
    | none =>
      obtain ⟨hroom, hwait⟩ := sendRequestInquire_room hinquire hplace hp hfull
      rw [show m.preemptEvents portId request.type = [] by simp [preemptEvents, hplace]]
      exact h.send_waiting hfresh hp hfull hplace hroom hwait

/-- A send gets a number that is not in use. -/
def FreshSend (m : Memory) : MemoryOp → Prop
  | .send .. => m.FreshId
  | _ => True

instance : (op : MemoryOp) → Decidable (m.FreshSend op)
  | .send .. => inferInstanceAs (Decidable m.FreshId)
  | .read .. | .write .. | .cancel .. | .cancelAny .. | .preCycle .. => .isTrue trivial

/-- Every operation keeps the invariant, and its events say what it does to the requests. -/
theorem Kept.exec {op : MemoryOp} (h : Kept cfg m) (hfresh : m.FreshSend op) :
    Kept cfg (m.exec cfg op) ∧
      Lanes.replay m.held ((m.events cfg op).map Event.toMove) = some (m.exec cfg op).held := by
  have of_steps {es : List Event} {m' : Memory} (hs : Steps m es m') :
      Kept cfg m' ∧ Lanes.replay m.held (es.map Event.toMove) = some m'.held :=
    ⟨hs.kept h, hs.replay⟩
  cases op with
  | send iid portId request =>
    rw [Memory.exec, events]
    split
    case isTrue hinquire => exact of_steps (h.send hfresh hinquire)
    case isFalse => exact of_steps (.refl h.ok)
  | read iid portId id =>
    rw [Memory.exec, events]
    split
    case isTrue hinquire => exact of_steps (.serve h.ok hinquire)
    case isFalse => exact of_steps (.refl h.ok)
  | write iid portId id =>
    rw [Memory.exec, events]
    split
    case isTrue hinquire => exact of_steps (.serve h.ok hinquire)
    case isFalse => exact of_steps (.refl h.ok)
  | cancel portId id deep => exact of_steps (.cancel h.ok h.nodup)
  | cancelAny id deep => exact of_steps (.cancelAny h.ok h.nodup)
  | preCycle time =>
    have htime : Kept cfg { m with currTime := time } :=
      ⟨h.ok, h.nodup, h.noted, h.single, h.idle⟩
    have hs := @Steps.preCycleFold cfg _ (List.range
      (({ m with currTime := time }.saveQueueStatus cfg).checkDelayedUnlock).ports.length)
      htime.saved.ok
    refine ⟨hs.kept htime.saved, ?_⟩
    have hreplay := hs.replay
    rw [saveQueueStatus_held] at hreplay
    exact hreplay

end Memory

/-- With one port, or with several ports and no preemption, the events of a run lead from the
empty memory to the requests that are left: every accepted request is in the port that accepted it
until it is served, cancelled, dropped or overwritten by a new one, and what is served is the oldest
request of its port. No number is in two places, no queue is longer than its size, and a request
waits only while the queue of its port is full. -/
theorem requests_conserved {cfg : MemoryConfig} {m : Memory} (hempty : m.Empty)
    (hidle : m.preemptionId = none) (hports : m.ports.length = 1 ∨ cfg.preemptive = false)
    {ops : List MemoryOp} (hfresh : Along (Memory.step cfg) Memory.FreshSend m ops) :
    Lanes.replay m.held ((runs (Memory.step cfg) m ops).1.flatten.map Event.toMove) =
        some (runs (Memory.step cfg) m ops).2.held ∧
      (runs (Memory.step cfg) m ops).2.held.flatten.Nodup ∧
      ∀ (i : ℕ) (p : MemoryPort), (runs (Memory.step cfg) m ops).2.ports[i]? = some p →
        p.requests.length ≤ p.capacity ∧
        (p.waitingRequest.isSome → p.requests.length = p.capacity) ∧
        ∀ r ∈ p.content, r.portId = i := by
  have hheld : m.held.flatten = [] := by
    rw [List.flatten_eq_nil_iff]
    intro ids hids
    obtain ⟨p, hp, rfl⟩ := List.mem_map.mp hids
    obtain ⟨-, hreq, hwait⟩ := hempty p hp
    simp [MemoryPort.ids, MemoryPort.content, hreq, hwait]
  have hkept : Memory.Kept cfg m :=
    ⟨hempty.ok, by simp [hheld], fun f hf => by simp [hidle] at hf, hports, fun _ => hidle⟩
  have hreplay : (runs (Memory.step cfg) m ops).1.foldlM
      (fun s es => Lanes.replay s (es.map Event.toMove)) m.held =
        some (runs (Memory.step cfg) m ops).2.held :=
    runs_replay (P := Memory.Kept cfg) (fun m op hop hm => hm.exec hop) hfresh hkept
  rw [Lanes.foldlM_replay] at hreplay
  have hend : Memory.Kept cfg (runs (Memory.step cfg) m ops).2 :=
    runs_along (P := Memory.Kept cfg) (fun m op hop hm => (hm.exec hop).1) hfresh hkept
  exact ⟨hreplay, hend.nodup,
    fun i p hp => ⟨(hend.ok i p hp).length_le, (hend.ok i p hp).full, (hend.ok i p hp).home⟩⟩

/-! ### One port -/

def onePort : Memory := { currTime := 0, ports := [smallPort] }

theorem onePort_empty : onePort.Empty := by
  intro p hp
  obtain rfl := List.mem_singleton.mp hp
  exact ⟨Nat.one_pos, rfl, rfl⟩

/-- A load is sent while a fetch waits, and the first fetch is read. -/
def loadAndRead : List MemoryOp := twoFetches ++ [.send none 0 load, .read none 0 1]

/-- The load has the place of the fetch and is left in the queue. -/
theorem requests_conserved_load :
    Lanes.replay [[]]
        ((runs (Memory.step quickConfig) onePort loadAndRead).1.flatten.map Event.toMove) =
      some [[3]] :=
  (requests_conserved onePort_empty rfl (.inl rfl) (by decide)).1.trans (by decide)

/-- The second fetch was accepted, and it is neither served nor cancelled nor dropped. Yet it is
in no place. -/
theorem preempted_fetch_gone :
    (runs (Memory.step quickConfig) onePort loadAndRead).1.flatten =
        [.accepted 0 1, .accepted 0 2, .preempted 0 2, .accepted 0 3, .served 0 1] ∧
      (runs (Memory.step quickConfig) onePort loadAndRead).2.held = [[3]] := by
  decide

end Adl.Uadl
