import Adl.Uadl.WriteBack

/-!
# What a cancel leaves alone

A cache looks up requests of the first port only. When a request of any port is removed by a deep
cancel, the cache searches the requests of all its actions again, in the queue of this port.
-/

namespace Adl.Uadl

variable {ν ι : Type*}

namespace Cache

section

variable (cfg : Config ν ι) (c : Cache ν ι) (portId : ℕ)

/-- The parts of a deep cancel before the request that waits moves up. -/
def removeOn (id : ReqId) (index : ℕ) : Cache ν ι :=
  ((c.cancelNextLevelRequest cfg id).onMemory
    (·.modifyPort portId (·.removeRequest index))).postCancelRequest portId

def queuedOn (id : ReqId) : Bool := (c.ports[portId]?).any (·.requests.any (·.id = id))

def queued (id : ReqId) : Bool := c.ports.any (·.requests.any (·.id = id))

def isOther (id : ReqId) (a : NextLevelAction) : Bool := a.id ≠ id && c.queued a.id

def Refers (pointer : Option (ℕ × ℕ)) (id : ReqId) : Prop :=
  ∃ portId p index r, c.ports[portId]? = some p ∧ p.requests[index]? = some r ∧ r.id = id ∧
    pointer = some (portId, p.slot index)

/-- After a request has been removed, the actions of the other requests are in the queue as before,
and they refer to their requests. -/
structure CancelFrame (id : ReqId) (c c' : Cache ν ι) : Prop where
  actions : (c'.actions.filter (c'.isOther id)).map ({ · with request := none }) =
    (c.actions.filter (c'.isOther id)).map ({ · with request := none })
  requests : ∀ a ∈ c'.actions, c'.isOther id a = true → c'.Refers a.request a.id

end

variable {cfg : Config ν ι} {c : Cache ν ι} {portId index : ℕ} {id : ReqId}

theorem cancel_deep (h : (c.ports[portId]?).bind (·.findRequestIdx id) = some index) :
    c.cancel cfg portId id true =
      (c.removeOn cfg portId id index).onMemory (·.addWaitingRequest portId) := by
  rw [cancel, h]
  rfl

theorem findPointer_isSome : (c.findPointer portId id).isSome = c.queuedOn portId id := by
  rw [findPointer, queuedOn, Option.isSome_map]
  cases c.ports[portId]? with
  | none => rfl
  | some p => simp [MemoryPort.findRequest, MemoryPort.findRequestIdx, List.findIdx?_isSome]

theorem refers_findPointer (h : c.queuedOn portId id = true) :
    c.Refers (c.findPointer portId id) id := by
  obtain ⟨pointer, hpointer⟩ := Option.isSome_iff_exists.mp (findPointer_isSome.trans h)
  rw [hpointer]
  obtain ⟨slot, hslot, rfl⟩ := Option.map_eq_some_iff.mp hpointer
  obtain ⟨p, hp, hfind⟩ := Option.bind_eq_some_iff.mp hslot
  obtain ⟨index, hindex, rfl⟩ := Option.map_eq_some_iff.mp hfind
  obtain ⟨hlt, hid, -⟩ := List.findIdx?_eq_some_iff_getElem.mp hindex
  exact ⟨portId, p, index, p.requests[index], hp, List.getElem?_eq_getElem hlt, by simpa using hid,
    rfl⟩

theorem isSome_of_refers {pointer : Option (ℕ × ℕ)} (h : c.Refers pointer id) :
    pointer.isSome = true := by
  obtain ⟨portId, p, index, r, -, -, -, rfl⟩ := h
  rfl

theorem actions_removeOn {c' : Cache ν ι} (h : c.removeOn cfg portId id index = c') :
    c'.actions = ((c.actions.filter (!cancelled id ·.slot)).filter
      (stays (c'.findPointer portId) ·.slot)).map
        fun a => { a with request := c'.findPointer portId a.id } := by
  have hcancel : (c.cancelNextLevelRequest cfg id).actions =
      c.actions.filter (!cancelled id ·.slot) := cancelNextLevel_eq.1
  rw [← h, ← hcancel]
  exact fixActions_eq.1

/-- When a request is removed from the queue of a port, the actions of the other requests stay as
they are exactly if the requests that are in a queue are in the queue of this port. -/
theorem cancelFrame_iff (cfg : Config ν ι) (c : Cache ν ι) (portId : ℕ) (id : ReqId) (index : ℕ) :
    CancelFrame id c (c.removeOn cfg portId id index) ↔
      ∀ a ∈ c.actions, (c.removeOn cfg portId id index).isOther id a = true →
        (c.removeOn cfg portId id index).queuedOn portId a.id = true := by
  generalize h : c.removeOn cfg portId id index = c'
  have hactions := actions_removeOn h
  -- the actions of other requests are not cancelled
  have hothers : (c'.actions.filter (c'.isOther id)).map ({ · with request := none }) =
      ((c.actions.filter (c'.isOther id)).filter (stays (c'.findPointer portId) ·.slot)).map
        ({ · with request := none }) := by
    rw [hactions, List.filter_map, List.map_map, List.filter_filter, List.filter_filter,
      List.filter_filter]
    refine congrArg (List.map _) (List.filter_congr fun a _ => ?_)
    simp only [Function.comp_apply, isOther, cancelled, NextLevelAction.slot]
    by_cases hid : a.id = id <;> simp [hid, Bool.and_comm]
  constructor
  · rintro ⟨hsame, hrefers⟩ a ha hother
    rw [hothers] at hsame
    have hstays := List.length_filter_eq_length_iff.mp (by simpa using congrArg List.length hsame)
      a (List.mem_filter.mpr ⟨ha, hother⟩)
    have hid : a.id ≠ id := by
      rw [isOther, Bool.and_eq_true, decide_eq_true_eq] at hother
      exact hother.1
    have hmem : { a with request := c'.findPointer portId a.id } ∈ c'.actions := by
      rw [hactions]
      refine List.mem_map.mpr ⟨a, List.mem_filter.mpr ⟨List.mem_filter.mpr ⟨ha, ?_⟩, hstays⟩, rfl⟩
      simp [cancelled, NextLevelAction.slot, hid]
    rw [← findPointer_isSome]
    exact isSome_of_refers (hrefers _ hmem hother)
  · intro hqueued
    refine ⟨?_, fun a ha hother => ?_⟩
    · rw [hothers, List.filter_eq_self.mpr fun a ha => ?_]
      obtain ⟨hmem, hother⟩ := List.mem_filter.mp ha
      have hfound := findPointer_isSome.trans (hqueued a hmem hother)
      simp [stays, NextLevelAction.slot, hfound]
    · rw [hactions] at ha
      obtain ⟨b, hb, rfl⟩ := List.mem_map.mp ha
      have hmem := (List.mem_filter.mp (List.mem_filter.mp hb).1).1
      exact refers_findPointer (hqueued b hmem hother)

end Cache

/-- A functional cache that does not take part, so that loads are read from the next level. -/
def readConfig : Config (Addr → Byte) Unit :=
  { flatConfig with operationBegin := fun _ _ iss => (⟨false, .cacheMiss, 0, 0, false⟩, iss) }

/-- A load at the first port has been looked up, and another load waits at the second port. -/
def twoLoads : Cache (Addr → Byte) Unit :=
  [.send 0 none load, .preCycle 1, .send 1 none load].foldl (Cache.exec readConfig)
    { flatCache with ports := [smallPort, smallPort] }

/-- When the load at the second port is removed, the read of the first load is forgotten. -/
theorem other_read_forgotten :
    twoLoads.actions.map (fun a => (a.type, a.id)) = [(.readNext, 1)] ∧
      (twoLoads.cancel readConfig 1 2 true).queuedOn 0 1 = true ∧
      (twoLoads.cancel readConfig 1 2 true).actions.length = 0 ∧
      ¬Cache.CancelFrame 2 twoLoads (twoLoads.removeOn readConfig 1 2 0) := by
  refine ⟨by decide +kernel, by decide +kernel, by decide +kernel, fun h => ?_⟩
  have hlength := congrArg List.length h.actions
  revert hlength
  decide +kernel

end Adl.Uadl
