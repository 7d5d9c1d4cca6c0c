import Adl.Uadl.Buffers

/-!
# A record of what a next level is asked for

Any next level can keep a record of the requests that are sent to it and of the reads and writes
that follow. The record does not change what the next level does.
-/

namespace Adl.Uadl

/-- What happens at the port of a next level. -/
inductive PortEvent where
  | request (id : ReqId) (request : NextRequest)
  | read (id : ReqId)
  | write (id : ReqId) (data : ℕ → Byte)

namespace PortEvent

/-- The requests of a record, with the numbers that they got. -/
def requests (log : List PortEvent) : List (ReqId × NextRequest) :=
  log.filterMap fun
    | request id r => some (id, r)
    | _ => none

/-- The data that was written for requests. -/
def writes (log : List PortEvent) : List (ReqId × (ℕ → Byte)) :=
  log.filterMap fun
    | write id data => some (id, data)
    | _ => none

variable {log : List PortEvent} {id : ReqId} {r : NextRequest} {data : ℕ → Byte}

@[simp] theorem requests_append_request :
    requests (log ++ [request id r]) = requests log ++ [(id, r)] := List.filterMap_append

@[simp] theorem requests_append_write : requests (log ++ [write id data]) = requests log := by
  simp [requests]

@[simp] theorem writes_append_request : writes (log ++ [request id r]) = writes log := by
  simp [writes]

@[simp] theorem writes_append_write :
    writes (log ++ [write id data]) = writes log ++ [(id, data)] := List.filterMap_append

end PortEvent

/-- The same next level, with a record. -/
def NextLevel.recorded {ν : Type*} (next : NextLevel ν) : NextLevel (ν × List PortEvent) where
  sendRequestInquire m := next.sendRequestInquire m.1
  sendRequest m r :=
    ((next.sendRequest m.1 r).1,
      (next.sendRequest m.1 r).2, m.2 ++ [.request (next.sendRequest m.1 r).1 r])
  readInquire m := next.readInquire m.1
  read m id := ((next.read m.1 id).1, (next.read m.1 id).2, m.2 ++ [.read id])
  writeInquire m := next.writeInquire m.1
  write m id data := (next.write m.1 id data, m.2 ++ [.write id data])
  cancel m id := (next.cancel m.1 id, m.2)
  levelMask := next.levelMask

section Recorded

variable {ν : Type*} {next : NextLevel ν} {m : ν} {log : List PortEvent} {id : ReqId}

/-- Questions are answered as without a record. -/
@[simp] theorem recorded_sendRequestInquire {type : CacheAccess} {s : BitVec 32} :
    next.recorded.sendRequestInquire (m, log) type s = next.sendRequestInquire m type s := rfl

/-- A request is sent and noted under the number that it gets. -/
@[simp] theorem recorded_sendRequest {r : NextRequest} :
    next.recorded.sendRequest (m, log) r = ((next.sendRequest m r).1,
      (next.sendRequest m r).2, log ++ [.request (next.sendRequest m r).1 r]) := rfl

@[simp] theorem recorded_writeInquire :
    next.recorded.writeInquire (m, log) id = next.writeInquire m id := rfl

/-- A write is made and noted. -/
@[simp] theorem recorded_write {data : ℕ → Byte} :
    next.recorded.write (m, log) id data = (next.write m id data, log ++ [.write id data]) := rfl

end Recorded

/-- A next level that takes everything. -/
def openPort : NextLevel ℕ where
  sendRequestInquire _ _ _ := true
  sendRequest m _ := (BitVec.ofNat 32 m, m + 1)
  readInquire _ _ := true
  read m _ := (fun _ => 0, m)
  writeInquire _ _ := true
  write m _ _ := m
  cancel m _ := m
  levelMask := 2

end Adl.Uadl
