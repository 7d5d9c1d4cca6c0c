import Mathlib.Algebra.GroupWithZero.Nat
import Mathlib.Data.Nat.Basic

/-!
# Time tags of registers

A tag in each register has the time at which its value is available (`iss/ModelSupport.h`). The time
of the last write becomes visible when another instruction uses the register. The tag does not know
which instruction wrote the register, only which one used it last.
-/

namespace Adl.Iss

/-- `std::max`. -/
def stdMax (x y : BitVec 64) : BitVec 64 := if x < y then y else x

theorem toNat_stdMax (x y : BitVec 64) : (stdMax x y).toNat = max x.toNat y.toNat := by
  rw [stdMax]
  split_ifs with h
  · exact (Nat.max_eq_right (Nat.le_of_lt (BitVec.lt_def.mp h))).symm
  · exact (Nat.max_eq_left (BitVec.le_def.mp (BitVec.not_lt.mp h))).symm

/-- The number of instructions, and the times of the current one. -/
structure TimeTaggedBase where
  instrCount : BitVec 64
  accumTime : BitVec 64
  latency : BitVec 32
  cacheLatency : BitVec 32
deriving DecidableEq

namespace TimeTaggedBase

variable (t : TimeTaggedBase)

def currentTime : BitVec 64 := t.accumTime

def accumulateTime (x : BitVec 64) : TimeTaggedBase :=
  { t with accumTime := stdMax x t.accumTime }

def instrId : BitVec 64 := t.instrCount - 1

end TimeTaggedBase

/-- `newtag` is the time of the last write, `update` the instruction of the last use. -/
structure TagNode where
  tag : BitVec 64
  newtag : BitVec 64
  update : BitVec 64
deriving DecidableEq

namespace TagNode

def resetTag : TagNode where
  tag := 0
  newtag := 0
  update := 0

def addSource (x : TagNode) (t : TimeTaggedBase) : TagNode × TimeTaggedBase :=
  let x :=
    if x.update < t.instrId then { x with tag := x.newtag, update := t.instrId } else x
  (x, t.accumulateTime x.tag)

def addTarget (x : TagNode) (t : TimeTaggedBase) : TagNode :=
  { x with
    newtag := t.currentTime + t.latency.setWidth 64 + t.cacheLatency.setWidth 64
    update := t.instrId }

end TagNode

/-- A register with a tag. -/
structure Tag (T : Type*) extends TagNode where
  data : T

/-- A call of `get_data`, or a call of `set_data` with what is stored in the register. -/
inductive Access (T : Type*) where
  | getData
  | setData (value : T)

variable {T : Type*}

namespace Tag

def getData (x : Tag T) (t : TimeTaggedBase) : Tag T × TimeTaggedBase :=
  let (node, t) := x.addSource t
  (⟨node, x.data⟩, t)

def setData (x : Tag T) (t : TimeTaggedBase) (value : T) : Tag T × TimeTaggedBase :=
  let (node, t) := x.addSource t
  (⟨node.addTarget t, value⟩, t)

def access (x : Tag T) (t : TimeTaggedBase) : Access T → Tag T × TimeTaggedBase
  | .getData => x.getData t
  | .setData value => x.setData t value

end Tag

structure Recorded where
  id : BitVec 64
  time : BitVec 64

/-- The time that the last write of an earlier instruction left. The last write is the first one of
the list. -/
def available (records : List Recorded) (id : BitVec 64) : BitVec 64 :=
  match records.find? (·.id < id) with
  | none => 0
  | some r => r.time

/-- A call, and the times of the instruction that makes it. Between two calls the times may change
in any way. -/
structure Call (T : Type*) where
  access : Access T
  base : TimeTaggedBase

namespace Tag

/-- What a call adds to the times that were left in the register: a write adds the current time plus
the latencies of the instruction. -/
def record (x : Tag T) (c : Call T) (records : List Recorded) : List Recorded :=
  match c.access with
  | .getData => records
  | .setData value =>
    let t := (x.setData c.base value).2
    ⟨t.instrId, t.currentTime + t.latency.setWidth 64 + t.cacheLatency.setWidth 64⟩ :: records

def tracedStep (s : Tag T × List Recorded) (c : Call T) : Tag T × List Recorded :=
  ((s.1.access c.base c.access).1, s.1.record c s.2)

def traced (data : T) (calls : List (Call T)) : Tag T × List Recorded :=
  calls.foldl tracedStep (⟨.resetTag, data⟩, [])

end Tag

/-! ### What is kept in a tag -/

theorem available_cons_of_lt {r : Recorded} {records : List Recorded} {id : BitVec 64}
    (h : r.id < id) : available (r :: records) id = r.time := by
  have hfind : (r :: records).find? (fun r => decide (r.id < id)) = some r :=
    List.find?_cons_of_pos (decide_eq_true h)
  rw [available, hfind]

theorem available_cons_of_le {r : Recorded} {records : List Recorded} {id : BitVec 64}
    (h : id ≤ r.id) : available (r :: records) id = available records id := by
  have hfind : (r :: records).find? (fun r => decide (r.id < id)) =
      records.find? fun r => decide (r.id < id) :=
    List.find?_cons_of_neg (by rw [decide_eq_true_eq]; exact BitVec.not_lt.mpr h)
  rw [available, hfind]
  rfl

/-- `tag` is the time that the last user had to wait for, and `newtag` the time of the last write,
which is the one to wait for when the next instruction uses the register. -/
structure Summarizes (x : TagNode) (records : List Recorded) : Prop where
  tag_eq : x.tag = available records x.update
  newtag_eq (id : BitVec 64) (hid : x.update < id) : x.newtag = available records id
  id_le (r : Recorded) (hr : r ∈ records) : r.id ≤ x.update

namespace Summarizes

variable {x : Tag T} {records : List Recorded}

theorem resetTag : Summarizes .resetTag [] where
  tag_eq := rfl
  newtag_eq _ _ := rfl
  id_le _ hr := absurd hr List.not_mem_nil

theorem addSource {x : TagNode} (h : Summarizes x records) {t : TimeTaggedBase}
    (hid : x.update ≤ t.instrId) :
    Summarizes (x.addSource t).1 records ∧ (x.addSource t).1.update = t.instrId ∧
      (x.addSource t).2 = t.accumulateTime (available records t.instrId) := by
  rw [TagNode.addSource]
  split_ifs with hlt
  · have hnew := h.newtag_eq _ hlt
    refine ⟨⟨hnew, fun id hid' => ?_, fun r hr => ?_⟩, rfl, ?_⟩
    · exact h.newtag_eq id (BitVec.lt_trans hlt hid')
    · exact BitVec.le_trans (h.id_le r hr) hid
    · exact congrArg t.accumulateTime hnew
  · have heq : x.update = t.instrId := BitVec.le_antisymm hid (BitVec.not_lt.mp hlt)
    refine ⟨h, heq, ?_⟩
    rw [← heq]
    exact congrArg t.accumulateTime h.tag_eq

/-- A write is not visible to the instruction that does it, and is to all others. -/
theorem addTarget {x : TagNode} (h : Summarizes x records) {t : TimeTaggedBase}
    (hid : x.update = t.instrId) :
    Summarizes (x.addTarget t) (⟨t.instrId, (x.addTarget t).newtag⟩ :: records) where
  tag_eq := by
    have hupdate : (x.addTarget t).update = x.update := hid.symm
    rw [hupdate, available_cons_of_le (BitVec.le_of_eq hid)]
    exact h.tag_eq
  newtag_eq id hid' := by rw [available_cons_of_lt hid']
  id_le r hr := by
    change r.id ≤ t.instrId
    rcases List.mem_cons.mp hr with rfl | hr
    · exact BitVec.le_refl _
    · exact hid ▸ h.id_le r hr

theorem access (h : Summarizes x.toTagNode records) {c : Call T}
    (hid : x.update ≤ c.base.instrId) :
    Summarizes (Tag.tracedStep (x, records) c).1.toTagNode (Tag.tracedStep (x, records) c).2 ∧
      (Tag.tracedStep (x, records) c).1.update = c.base.instrId ∧
      (x.access c.base c.access).2 =
        c.base.accumulateTime (available records c.base.instrId) := by
  obtain ⟨hsource, hupdate, htime⟩ := h.addSource hid
  rcases c with ⟨_ | value, t⟩
  · exact ⟨hsource, hupdate, htime⟩
  · -- the write uses the times after the wait, of the same instruction
    have hid' : (x.addSource t).1.update = (x.addSource t).2.instrId := hupdate.trans rfl
    exact ⟨hsource.addTarget hid', rfl, htime⟩

end Summarizes

def InOrder (calls : List (Call T)) : Prop :=
  calls.Pairwise fun c c' => c.base.instrId ≤ c'.base.instrId

instance (calls : List (Call T)) : Decidable (InOrder calls) :=
  inferInstanceAs (Decidable (calls.Pairwise _))

theorem Summarizes.foldl {calls : List (Call T)} {s : Tag T × List Recorded}
    (h : Summarizes s.1.toTagNode s.2) (hids : ∀ c ∈ calls, s.1.update ≤ c.base.instrId)
    (horder : InOrder calls) :
    Summarizes (calls.foldl Tag.tracedStep s).1.toTagNode (calls.foldl Tag.tracedStep s).2 ∧
      ∀ id, s.1.update ≤ id → (∀ c ∈ calls, c.base.instrId ≤ id) →
        (calls.foldl Tag.tracedStep s).1.update ≤ id := by
  induction calls generalizing s with
  | nil => exact ⟨h, fun id hid _ => hid⟩
  | cons c calls ih =>
    obtain ⟨hc, hcalls⟩ := List.pairwise_cons.mp horder
    obtain ⟨hstep, hupdate, -⟩ := h.access (hids c List.mem_cons_self)
    obtain ⟨hrun, hle⟩ := ih hstep (fun c' hc' => hupdate ▸ hc c' hc') hcalls
    refine ⟨hrun, fun id _ hid => hle id ?_ fun c' hc' => hid c' (List.mem_cons_of_mem _ hc')⟩
    exact hupdate ▸ hid c List.mem_cons_self

theorem access_traced (data : T) {calls : List (Call T)} {c : Call T}
    (h : InOrder (calls ++ [c])) :
    ((Tag.traced data calls).1.access c.base c.access).2 =
      c.base.accumulateTime (available (Tag.traced data calls).2 c.base.instrId) := by
  obtain ⟨horder, -, hlast⟩ := List.pairwise_append.mp h
  have hzero (id : BitVec 64) : (0 : BitVec 64) ≤ id := BitVec.le_def.mpr (Nat.zero_le _)
  obtain ⟨hsum, hle⟩ := Summarizes.foldl (s := (⟨.resetTag, data⟩, [])) .resetTag
    (fun c _ => hzero _) horder
  have hid : (Tag.traced data calls).1.update ≤ c.base.instrId :=
    hle _ (hzero _) fun c' hc' => hlast c' hc' c List.mem_cons_self
  exact (hsum.access hid).2.2

theorem available_foldl_of_same {calls : List (Call T)} {id : BitVec 64}
    (h : ∀ c ∈ calls, c.base.instrId = id) (s : Tag T × List Recorded) :
    available (calls.foldl Tag.tracedStep s).2 id = available s.2 id := by
  induction calls generalizing s with
  | nil => rfl
  | cons c calls ih =>
    rw [List.foldl_cons, ih fun c' hc' => h c' (List.mem_cons_of_mem _ hc')]
    have hc : c.base.instrId = id := h c List.mem_cons_self
    rcases c with ⟨_ | value, t⟩
    · rfl
    · exact available_cons_of_le (BitVec.le_of_eq hc.symm)

/-- A call raises the time of its instruction to the time that the last write of an earlier
instruction left, and changes nothing else. The calls that the instruction itself made before do
not matter. -/
theorem access_waits_for_earlier (data : T) (calls : List (Call T)) (c : Call T)
    (h : InOrder (calls ++ [c])) :
    ((Tag.traced data calls).1.access c.base c.access).2 = { c.base with
        accumTime := stdMax (available (Tag.traced data calls).2 c.base.instrId)
          c.base.accumTime } ∧
      ∀ earlier same, calls = earlier ++ same →
        (∀ c' ∈ same, c'.base.instrId = c.base.instrId) →
        ((Tag.traced data calls).1.access c.base c.access).2 =
          ((Tag.traced data earlier).1.access c.base c.access).2 := by
  refine ⟨access_traced data h, ?_⟩
  rintro earlier same rfl hsame
  have hearlier : InOrder (earlier ++ [c]) := by
    rw [List.append_assoc] at h
    exact h.sublist ((List.sublist_append_right same [c]).append_left earlier)
  have hsplit : Tag.traced data (earlier ++ same) =
      same.foldl Tag.tracedStep (Tag.traced data earlier) := List.foldl_append
  rw [access_traced data h, access_traced data hearlier, hsplit, available_foldl_of_same hsame]

/-- The first instruction writes with a latency of 3 and reads, the second one reads. -/
theorem access_waits_for_write :
    let calls : List (Call Unit) := [⟨.setData (), ⟨1, 5, 3, 0⟩⟩, ⟨.getData, ⟨1, 5, 3, 0⟩⟩]
    let c : Call Unit := ⟨.getData, ⟨2, 6, 1, 0⟩⟩
    InOrder (calls ++ [c]) ∧
      ((Tag.traced () calls).1.access c.base c.access).2 = ⟨2, 8, 1, 0⟩ :=
  ⟨by decide, (access_waits_for_earlier () [⟨.setData (), ⟨1, 5, 3, 0⟩⟩, ⟨.getData, ⟨1, 5, 3, 0⟩⟩]
    ⟨.getData, ⟨2, 6, 1, 0⟩⟩ (by decide)).1.trans (by decide)⟩

end Adl.Iss
