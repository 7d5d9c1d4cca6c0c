import Adl.Math.Lanes
import Adl.Math.Machine
import Adl.Uadl.Memory

/-!
# Clients of a memory

Clients make an access only after the memory has answered that it is possible. A request is accepted
on a port, and leaves it when it is served, cancelled, dropped or replaced.
-/

namespace Adl.Uadl

open Adl.Math

inductive MemoryOp where
  | send (iid : Option ℕ) (portId : ℕ) (request : ClientRequest)
  | read (iid : Option ℕ) (portId : ℕ) (id : ReqId)
  | write (iid : Option ℕ) (portId : ℕ) (id : ReqId)
  | cancel (portId : ℕ) (id : ReqId) (deep : Bool)
  /-- A cancellation that does not name the port. -/
  | cancelAny (id : ReqId) (deep : Bool)
  /-- The start of the cycle with this time. -/
  | preCycle (time : ℕ)

inductive Event where
  | accepted (portId : ℕ) (id : ReqId)
  | served (portId : ℕ) (id : ReqId)
  /-- Removed by a deep cancellation. -/
  | cancelled (portId : ℕ) (id : ReqId)
  /-- Removed from the front after it was marked. -/
  | dropped (portId : ℕ) (id : ReqId)
  /-- Overwritten by a new request. -/
  | preempted (portId : ℕ) (id : ReqId)
deriving DecidableEq, Repr

/-- Requests are served and dropped in the order in which they were accepted. -/
def Event.toMove : Event → Lanes.Move ReqId
  | accepted portId id => .enter portId id
  | served portId id => .leave portId id
  | cancelled portId id => .withdraw portId id
  | dropped portId id => .leave portId id
  | preempted portId id => .retract portId id

namespace Memory

variable (cfg : MemoryConfig) (m : Memory)

def exec : MemoryOp → Memory
  | .send iid portId request =>
    if m.sendRequestInquire cfg iid request.type request.serialized portId then
      m.sendRequest portId request
    else m
  | .read iid portId id => if m.requestInquire iid portId id then m.serve portId else m
  | .write iid portId id => if m.requestInquire iid portId id then m.serve portId else m
  | .cancel portId id deep => m.cancel portId id deep
  | .cancelAny id deep => m.cancelAny id deep
  | .preCycle time => { m with currTime := time }.preCycle cfg

/-! ### Events -/

/-- The request that a send overwrites, if the queue is full. -/
def preemptEvents (portId : ℕ) (type : CacheAccess) : List Event :=
  if (m.ports[portId]?).any (!·.fullRequests) then []
  else
    match m.canPreempt type portId, m.preemptionId with
    | some place, some id => [.preempted place.portId id]
    | _, _ => []

def waitingEvents (id : ReqId) : List Event :=
  (m.getWaitingRequest id).elim [] fun (i, _) => [.cancelled i id]

def cancelEvents (portId : ℕ) (id : ReqId) : List Event :=
  if ((m.ports[portId]?).bind (·.findRequestIdx id)).isSome then [.cancelled portId id]
  else m.waitingEvents id

def cancelAnyEvents (id : ReqId) : List Event :=
  match m.findPort id with
  | some portId => [.cancelled portId id]
  | none => m.waitingEvents id

/-- What is dropped from a port at the start of a cycle: the first requests that are marked and
whose latency has passed. -/
def dropEvents (portId : ℕ) : List Event :=
  (m.ports[portId]?).elim [] fun p =>
    ((p.requests.map (m.expire cfg) ++ p.waitingRequest.toList).takeWhile fun r =>
      r.expired && r.cancelled).map fun r => .dropped portId r.id

/-- The ports are treated one after the other. -/
def preCycleEvents : Memory → List ℕ → List Event
  | _, [] => []
  | m, portId :: rest => m.dropEvents cfg portId ++ preCycleEvents (m.preCyclePort cfg portId) rest

def events : MemoryOp → List Event
  | .send iid portId request =>
    if m.sendRequestInquire cfg iid request.type request.serialized portId then
      m.preemptEvents portId request.type ++ [.accepted portId m.nextId]
    else []
  | .read iid portId id => if m.requestInquire iid portId id then [.served portId id] else []
  | .write iid portId id => if m.requestInquire iid portId id then [.served portId id] else []
  | .cancel portId id deep => if deep then m.cancelEvents portId id else []
  | .cancelAny id deep => if deep then m.cancelAnyEvents id else []
  | .preCycle time =>
    let m := ({ m with currTime := time }.saveQueueStatus cfg).checkDelayedUnlock
    m.preCycleEvents cfg (List.range m.ports.length)

def step (op : MemoryOp) : List Event × Memory := (m.events cfg op, m.exec cfg op)

end Memory

end Adl.Uadl
