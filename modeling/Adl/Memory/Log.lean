import Adl.Math.KeyedList
import Adl.Memory.Sparse

/-!
# The log of memory accesses

The log (`MemoryLog`) records which words of the memories have been touched, in blocks of 4096 bytes
with a bit for each word. Nodes are registered by `add_nodes`, which makes room for their memories;
`clear` takes that room away again. An operation has no result when it uses an index outside of a
vector.
-/

namespace Adl.Memory

open Math

/-! ### One memory -/

/-- The blocks of a memory, and the block used last: its address and a pointer to it. -/
structure MemInits where
  blocks : List (Addr × List Bool)
  lastAddr : Addr
  last : Option Addr

namespace MemInits

def empty : MemInits := ⟨[], 0, none⟩

/-- The copy constructor, which forgets the block used last. -/
def copied (m : MemInits) : MemInits := ⟨m.blocks, 0, none⟩

def blkAddr (a : Addr) : Addr := a >>> 12

def blkOffset (a : Addr) : ℕ := ((a &&& 4095) >>> 2).toNat

def blockSize : ℕ := 1024

def word (a : Addr) : Addr := a >>> 2

def add (m : MemInits) (blk : Addr) : MemInits :=
  ⟨KeyedList.insert blk (List.replicate blockSize false) m.blocks, blk, some blk⟩

/-- Adds an address. The answer tells whether it was new. -/
def set (m : MemInits) (a : Addr) : Option (Bool × MemInits) := do
  let m := if m.last = none ∨ blkAddr a ≠ m.lastAddr then m.add (blkAddr a) else m
  let last ← m.last
  let block ← KeyedList.find last m.blocks
  let old ← block[blkOffset a]?
  some (!old, { m with blocks := KeyedList.replace last (block.set (blkOffset a) true) m.blocks })

def has (m : MemInits) (a : Addr) : Bool :=
  ((KeyedList.find (blkAddr a) m.blocks).bind (·[blkOffset a]?)).getD false

/-- Blocks are complete, and the one used last is one of them. -/
structure Valid (m : MemInits) : Prop where
  length : ∀ blk block, KeyedList.find blk m.blocks = some block → block.length = blockSize
  last : ∀ blk, m.last = some blk → m.lastAddr = blk ∧ (KeyedList.find blk m.blocks).isSome

theorem valid_empty : empty.Valid := ⟨fun _ _ h => (nomatch h), fun _ h => (nomatch h)⟩

theorem Valid.copied {m : MemInits} (h : m.Valid) : m.copied.Valid :=
  ⟨h.length, fun _ h => nomatch h⟩

theorem toNat_blkAddr (a : Addr) : (blkAddr a).toNat = a.toNat / 4096 := by
  rw [blkAddr, BitVec.toNat_ushiftRight, Nat.shiftRight_eq_div_pow]

theorem blkOffset_eq (a : Addr) : blkOffset a = a.toNat % 4096 / 4 := by
  rw [blkOffset, BitVec.toNat_ushiftRight, BitVec.toNat_and, Nat.shiftRight_eq_div_pow]
  exact congrArg (· / 4) (Nat.and_two_pow_sub_one_eq_mod a.toNat 12)

theorem blkOffset_lt (a : Addr) : blkOffset a < blockSize := by
  rw [blkOffset_eq, blockSize]
  omega

theorem word_eq_iff {a b : Addr} :
    word a = word b ↔ blkAddr a = blkAddr b ∧ blkOffset a = blkOffset b := by
  rw [word, word, ← BitVec.toNat_inj, ← BitVec.toNat_inj, toNat_blkAddr, toNat_blkAddr,
    blkOffset_eq,
    blkOffset_eq, BitVec.toNat_ushiftRight, BitVec.toNat_ushiftRight, Nat.shiftRight_eq_div_pow,
    Nat.shiftRight_eq_div_pow]
  omega

variable {m : MemInits}

theorem find_add (blk blk' : Addr) :
    KeyedList.find blk' (m.add blk).blocks = if blk' = blk then
      some ((KeyedList.find blk m.blocks).getD (List.replicate blockSize false))
    else KeyedList.find blk' m.blocks :=
  KeyedList.find_insert _ _ _ _

theorem Valid.add (h : m.Valid) (blk : Addr) : (m.add blk).Valid where
  length := fun blk' block hfind => by
    rw [find_add] at hfind
    split_ifs at hfind with hblk
    · obtain rfl := Option.some_inj.mp hfind
      cases hold : KeyedList.find blk m.blocks with
      | none => exact List.length_replicate
      | some block => exact h.length _ _ hold
    · exact h.length _ _ hfind
  last := fun blk' hlast => by
    obtain rfl := Option.some_inj.mp hlast
    refine ⟨rfl, ?_⟩
    rw [find_add, if_pos rfl]
    rfl

theorem has_add (blk a : Addr) : (m.add blk).has a = m.has a := by
  rw [has, find_add, has]
  split_ifs with hblk
  · rw [hblk]
    cases hold : KeyedList.find blk m.blocks with
    | none => simp [blkOffset_lt]
    | some block => rfl
  · rfl

theorem Valid.set (h : m.Valid) (a : Addr) :
    ∃ m', m.set a = some (!m.has a, m') ∧ m'.Valid ∧
      ∀ b, m'.has b = true ↔ m.has b = true ∨ word b = word a := by
  -- After the first line the block of the address is the one used last.
  obtain ⟨m₁, hm₁, hvalid, hlast, hhas⟩ : ∃ m₁ : MemInits,
      (if m.last = none ∨ blkAddr a ≠ m.lastAddr then m.add (blkAddr a) else m) = m₁ ∧ m₁.Valid ∧
        m₁.last = some (blkAddr a) ∧ ∀ b, m₁.has b = m.has b := by
    split_ifs with hadd
    · exact ⟨_, rfl, h.add _, rfl, has_add _⟩
    · obtain ⟨hnone, haddr⟩ := not_or.mp hadd
      obtain ⟨blk, hblk⟩ := Option.ne_none_iff_exists'.mp hnone
      have hsame : blkAddr a = blk := (not_not.mp haddr).trans (h.last blk hblk).1
      exact ⟨m, rfl, h, hsame ▸ hblk, fun _ => rfl⟩
  obtain ⟨block, hblock⟩ := Option.isSome_iff_exists.mp (hvalid.last _ hlast).2
  have hlen := hvalid.length _ _ hblock
  have hlt : blkOffset a < block.length := hlen ▸ blkOffset_lt a
  have hbit : m.has a = block[blkOffset a] := by
    rw [← hhas, has, hblock, Option.bind_some, List.getElem?_eq_getElem hlt, Option.getD_some]
  refine ⟨{ m₁ with
    blocks := KeyedList.replace (blkAddr a) (block.set (blkOffset a) true) m₁.blocks }, ?_,
      ⟨fun blk' block' hfind => ?_, fun blk' hlast' => ?_⟩, fun b => ?_⟩
  · rw [MemInits.set, hm₁]
    simp only [Option.bind_eq_bind, hlast, Option.bind_some, hblock, List.getElem?_eq_getElem hlt,
      hbit]
  · rw [KeyedList.find_replace] at hfind
    split_ifs at hfind with hblk
    · rw [hblock, Option.map_some, Option.some_inj] at hfind
      rw [← hfind, List.length_set, hlen]
    · exact hvalid.length _ _ hfind
  · have hold := hvalid.last blk' hlast'
    refine ⟨hold.1, ?_⟩
    rw [KeyedList.find_replace]
    split_ifs with hblk
    · rw [hblock]
      rfl
    · exact hold.2
  · rw [← hhas b, has, KeyedList.find_replace, word_eq_iff, has]
    by_cases hblk : blkAddr b = blkAddr a
    · rw [if_pos hblk, hblk, hblock, Option.map_some, Option.bind_some, Option.bind_some,
        List.getElem?_set]
      by_cases hoff : blkOffset b = blkOffset a
      · simp [hoff, hlt]
      · simp [hoff, Ne.symm hoff]
    · simp [hblk]

end MemInits

/-! ### All memories -/

/-- A node of the simulator, known by its address, and the nodes below it. -/
inductive IssNode where
  | mk (ptr : ℕ) (children : List IssNode)

/-- What is kept for a node: a record for each local memory, and the numbers of the memories. -/
structure MemData where
  addrs : List MemInits
  memIds : List (String × ℕ)

structure MemoryLog where
  localInits : List (ℕ × MemData)
  globalInits : MemInits

inductive LogOp where
  | addNodes (root : IssNode)
  | set (n id : ℕ) (a : Addr)
  | setNamed (n : ℕ) (mname : String) (a : Addr)
  | clear

/-- `std::vector::resize`: elements are copied when the vector grows. -/
def resize (addrs : List MemInits) (n : ℕ) : List MemInits :=
  if n ≤ addrs.length then addrs.take n
  else addrs.map MemInits.copied ++ List.replicate (n - addrs.length) MemInits.empty

theorem length_resize (addrs : List MemInits) (n : ℕ) : (resize addrs n).length = n := by
  rw [resize]
  split_ifs with hn
  · exact List.length_take_of_le hn
  · rw [List.length_append, List.length_map, List.length_replicate]
    omega

theorem getElem?_resize {addrs : List MemInits} {n k : ℕ} {inits : MemInits}
    (h : (resize addrs n)[k]? = some inits) :
    (∃ old, addrs[k]? = some old ∧ (inits = old ∨ inits = old.copied)) ∨
      addrs.length ≤ k ∧ inits = MemInits.empty := by
  rw [resize] at h
  split_ifs at h with hn
  · rw [List.getElem?_take] at h
    split_ifs at h
    exact .inl ⟨inits, h, .inl rfl⟩
  · by_cases hk : k < addrs.length
    · rw [List.getElem?_append_left (by simpa using hk), List.getElem?_map] at h
      obtain ⟨old, hold, rfl⟩ := Option.map_eq_some_iff.mp h
      exact .inl ⟨old, hold, .inr rfl⟩
    · rw [List.getElem?_append_right (by simpa using hk)] at h
      exact .inr ⟨Nat.le_of_not_lt hk, List.eq_of_mem_replicate (List.mem_of_getElem? h)⟩

namespace MemoryLog

def empty : MemoryLog := ⟨[], MemInits.empty⟩

/-- The entry of a node, `_local_inits[&n]`. -/
def node (log : MemoryLog) (n : ℕ) : MemData :=
  (KeyedList.find n log.localInits).getD ⟨[], []⟩

/-- Changes the entry of a node, which is created if there is none. -/
def setNode (log : MemoryLog) (n : ℕ) (md : MemData) : MemoryLog :=
  { log with
    localInits := KeyedList.replace n md (KeyedList.insert n ⟨[], []⟩ log.localInits) }

variable (memInfo : ℕ → List (String × ℕ))

def addNode (log : MemoryLog) (n : ℕ) : MemoryLog :=
  let md := log.node n
  log.setNode n ⟨resize md.addrs (memInfo n).length, KeyedList.insertAll (memInfo n) md.memIds⟩

mutual

def addNodes (log : MemoryLog) : IssNode → MemoryLog
  | .mk n children => addChildren (log.addNode memInfo n) children

def addChildren (log : MemoryLog) : List IssNode → MemoryLog
  | [] => log
  | c :: rest => addChildren (addNodes log c) rest

end

/-- The memory with number 0 is the global one, the others are counted from 1. -/
def set (log : MemoryLog) (n id : ℕ) (a : Addr) : Option (Bool × MemoryLog) :=
  if id = 0 then do
    let (new, inits) ← log.globalInits.set a
    some (new, { log with globalInits := inits })
  else do
    let md := log.node n
    let inits ← md.addrs[id - 1]?
    let (new, inits) ← inits.set a
    some (new, log.setNode n { md with addrs := md.addrs.set (id - 1) inits })

/-- A name that is not known is entered with the number 0. -/
def getMemId (log : MemoryLog) (n : ℕ) (mname : String) : ℕ × MemoryLog :=
  let md := log.node n
  let memIds := KeyedList.insert mname 0 md.memIds
  ((KeyedList.find mname memIds).getD 0, log.setNode n { md with memIds })

def setNamed (log : MemoryLog) (n : ℕ) (mname : String) (a : Addr) : Option (Bool × MemoryLog) :=
  let (id, log) := log.getMemId n mname
  log.set n id a

def clear (log : MemoryLog) : MemoryLog where
  localInits := log.localInits.map fun e => (e.1, { e.2 with addrs := [] })
  globalInits := ⟨[], 0, none⟩

/-- One call, with the answer of `set`. -/
def step (log : MemoryLog) : LogOp → Option (Option Bool × MemoryLog)
  | .addNodes root => some (none, log.addNodes memInfo root)
  | .set n id a => (log.set n id a).map fun r => (some r.1, r.2)
  | .setNamed n mname a => (log.setNamed n mname a).map fun r => (some r.1, r.2)
  | .clear => some (none, log.clear)

def answers : MemoryLog → List LogOp → Option (List (Option Bool))
  | _, [] => some []
  | log, op :: rest => do
    let (answer, log) ← log.step memInfo op
    let others ← answers log rest
    some (answer :: others)

end MemoryLog

/-! ### What has been touched -/

mutual

def IssNode.all : IssNode → List ℕ
  | .mk n children => n :: allChildren children

def allChildren : List IssNode → List ℕ
  | [] => []
  | c :: rest => c.all ++ allChildren rest

end

/-- What has happened: the words touched since the last `clear`, each with its memory, the nodes
registered, and those registered since the last `clear`. -/
structure History where
  touched : List (Option (ℕ × ℕ) × Addr)
  registered : List ℕ
  sized : List ℕ

namespace History

def init : History := ⟨[], [], []⟩

def memory (n id : ℕ) : Option (ℕ × ℕ) := if id = 0 then none else some (n, id)

variable (memInfo : ℕ → List (String × ℕ))

/-- The node and the number of the memory that a call names, and the address. -/
def target : LogOp → Option (ℕ × ℕ × Addr)
  | .set n id a => some (n, id, a)
  | .setNamed n mname a => some (n, (KeyedList.find mname (memInfo n)).getD 0, a)
  | _ => none

/-- A word is new when it has not been touched since the last `clear`. -/
def answer (h : History) (op : LogOp) : Option Bool :=
  (target memInfo op).map fun t => decide ((memory t.1 t.2.1, MemInits.word t.2.2) ∉ h.touched)

def touch (h : History) (n id : ℕ) (a : Addr) : History :=
  { h with touched := (memory n id, MemInits.word a) :: h.touched }

def next (h : History) : LogOp → History
  | .addNodes root =>
      { h with registered := root.all ++ h.registered, sized := root.all ++ h.sized }
  | .set n id a => h.touch n id a
  | .setNamed n mname a => h.touch n ((KeyedList.find mname (memInfo n)).getD 0) a
  | .clear => { h with touched := [], sized := [] }

def answers (h : History) : List LogOp → List (Option Bool)
  | [] => []
  | op :: rest => h.answer memInfo op :: answers (h.next memInfo op) rest

/-- A call names a registered node and one of its memories, or the global memory. -/
def Named (h : History) : LogOp → Prop
  | .set n id _ => id = 0 ∨ n ∈ h.registered ∧ id ≤ (memInfo n).length
  | .setNamed n mname _ => n ∈ h.registered ∧
    ∃ id ≤ (memInfo n).length, KeyedList.find mname (memInfo n) = some id
  | _ => True

/-- The node of a local memory has been registered since the last `clear`. -/
def Roomy (h : History) (op : LogOp) : Prop :=
  ∀ t ∈ target memInfo op, t.2.1 = 0 ∨ t.1 ∈ h.sized

/-- A condition on all calls, each with what has happened before. -/
def Throughout (P : History → LogOp → Prop) (h : History) : List LogOp → Prop
  | [] => True
  | op :: rest => P h op ∧ Throughout P (h.next memInfo op) rest

end History

namespace MemoryLog

variable {memInfo : ℕ → List (String × ℕ)} {log : MemoryLog} {h : History}

structure Related (memInfo : ℕ → List (String × ℕ)) (log : MemoryLog) (h : History) : Prop where
  valid : log.globalInits.Valid
  has : ∀ a, log.globalInits.has a = true ↔ (none, MemInits.word a) ∈ h.touched
  length : ∀ n, (log.node n).addrs.length = if n ∈ h.sized then (memInfo n).length else 0
  localInits : ∀ n k inits, (log.node n).addrs[k]? = some inits →
    inits.Valid ∧ ∀ a, inits.has a = true ↔ (some (n, k + 1), MemInits.word a) ∈ h.touched
  sized : ∀ n id w, (some (n, id), w) ∈ h.touched → n ∈ h.sized
  memIds : ∀ n name, KeyedList.find name (log.node n).memIds =
    if n ∈ h.registered then KeyedList.find name (memInfo n) else none

theorem node_setNode (log : MemoryLog) (n n' : ℕ) (md : MemData) :
    (log.setNode n md).node n' = if n' = n then md else log.node n' := by
  simp only [node, setNode, KeyedList.find_replace, KeyedList.find_insert]
  split_ifs <;> rfl

theorem related_empty : Related memInfo empty .init where
  valid := MemInits.valid_empty
  has := fun _ => iff_of_false Bool.false_ne_true List.not_mem_nil
  length := fun _ => rfl
  localInits := fun _ _ _ hinits => nomatch hinits
  sized := fun _ _ _ hw => absurd hw List.not_mem_nil
  memIds := fun _ _ => rfl

theorem Related.clear (hr : Related memInfo log h) :
    Related memInfo log.clear { h with touched := [], sized := [] } := by
  have hnode (n : ℕ) : log.clear.node n = { log.node n with addrs := [] } := by
    have hfind := KeyedList.find_map_value (fun md : MemData => { md with addrs := [] }) n
      log.localInits
    rw [node, node, MemoryLog.clear, hfind]
    cases KeyedList.find n log.localInits <;> rfl
  refine ⟨MemInits.valid_empty, fun _ => iff_of_false Bool.false_ne_true List.not_mem_nil,
    fun n => ?_, fun n k inits hinits => ?_, fun _ _ _ hw => absurd hw List.not_mem_nil,
    fun n name => ?_⟩
  · rw [hnode]
    rfl
  · rw [hnode] at hinits
    exact nomatch hinits
  · rw [hnode]
    exact hr.memIds n name

theorem Related.addNode (hr : Related memInfo log h) (n : ℕ) :
    Related memInfo (log.addNode memInfo n)
      { h with registered := n :: h.registered, sized := n :: h.sized } := by
  have hnode (n' : ℕ) : (log.addNode memInfo n).node n' = _ := node_setNode _ _ _ _
  refine ⟨hr.valid, hr.has, fun n' => ?_, fun n' k inits hinits => ?_,
    fun n' id w hw => List.mem_cons_of_mem _ (hr.sized n' id w hw), fun n' name => ?_⟩
  · rw [hnode]
    by_cases hn : n' = n
    · rw [if_pos hn, hn, if_pos List.mem_cons_self, length_resize]
    · rw [if_neg hn, hr.length]
      simp only [List.mem_cons, hn, false_or]
  · rw [hnode] at hinits
    by_cases hn : n' = n
    · rw [if_pos hn] at hinits
      subst hn
      rcases getElem?_resize hinits with ⟨old, hold, rfl | rfl⟩ | ⟨hlen, rfl⟩
      · exact hr.localInits _ k _ hold
      · obtain ⟨hvalid, hhas⟩ := hr.localInits _ k old hold
        exact ⟨hvalid.copied, hhas⟩
      · refine ⟨MemInits.valid_empty, fun a => iff_of_false Bool.false_ne_true fun hmem => ?_⟩
        -- The memory is new, so that nothing of its node has been touched.
        have hsized := hr.sized _ _ _ hmem
        have hlength := hr.length n'
        rw [if_pos hsized] at hlength
        have hlt := (List.getElem?_eq_some_iff.mp hinits).1
        rw [length_resize] at hlt
        omega
    · rw [if_neg hn] at hinits
      exact hr.localInits n' k inits hinits
  · rw [hnode]
    by_cases hn : n' = n
    · rw [if_pos hn, hn, if_pos List.mem_cons_self, KeyedList.find_insertAll, hr.memIds]
      split_ifs
      · rw [Option.or_self]
      · rw [Option.none_or]
    · rw [if_neg hn, hr.memIds]
      simp only [List.mem_cons, hn, false_or]

theorem Related.set_global (hr : Related memInfo log h) {n : ℕ} (a : Addr) :
    ∃ log', log.set n 0 a = some (decide ((none, MemInits.word a) ∉ h.touched), log') ∧
      Related memInfo log' (h.touch n 0 a) := by
  obtain ⟨inits, hset, hvalid, hhas⟩ := hr.valid.set a
  have hnew : (!log.globalInits.has a) = decide ((none, MemInits.word a) ∉ h.touched) := by
    rw [decide_not, ← Bool.decide_coe (log.globalInits.has a), decide_eq_decide.mpr (hr.has a)]
  rw [MemoryLog.set, History.touch, History.memory, if_pos rfl, if_pos rfl, hset, hnew]
  refine ⟨_, rfl, hvalid, fun b => ?_, hr.length, fun n' k inits' hinits' => ?_,
    fun n' id' w hw => ?_, hr.memIds⟩
  · rw [hhas, hr.has, List.mem_cons, or_comm, Prod.mk.injEq, eq_self, true_and]
  · obtain ⟨hvalid', hhas'⟩ := hr.localInits n' k inits' hinits'
    refine ⟨hvalid', fun b => (hhas' b).trans ?_⟩
    simp
  · exact hr.sized n' id' w (by simpa using hw)

theorem Related.set_local (hr : Related memInfo log h) {n k : ℕ} (a : Addr)
    (hk : k < (memInfo n).length) (hn : n ∈ h.sized) :
    ∃ log', log.set n (k + 1) a =
        some (decide ((some (n, k + 1), MemInits.word a) ∉ h.touched), log') ∧
      Related memInfo log' (h.touch n (k + 1) a) := by
  have hlt : k < (log.node n).addrs.length := by
    rwa [hr.length n, if_pos hn]
  obtain ⟨hvalid, hhas⟩ := hr.localInits n _ _ (List.getElem?_eq_getElem hlt)
  obtain ⟨inits, hset, hvalid', hhas'⟩ := hvalid.set a
  have hnew : (!(log.node n).addrs[k].has a) =
      decide ((some (n, k + 1), MemInits.word a) ∉ h.touched) := by
    rw [decide_not, ← Bool.decide_coe ((log.node n).addrs[k].has a),
      decide_eq_decide.mpr (hhas a)]
  have hnode (n' : ℕ) := node_setNode log n n'
    { log.node n with addrs := (log.node n).addrs.set k inits }
  rw [MemoryLog.set, History.touch, History.memory, if_neg (Nat.succ_ne_zero k),
    if_neg (Nat.succ_ne_zero k), Nat.add_sub_cancel]
  dsimp only
  rw [List.getElem?_eq_getElem hlt, ← hnew]
  refine ⟨log.setNode n { log.node n with addrs := (log.node n).addrs.set k inits }, ?_,
    hr.valid, fun b => (hr.has b).trans (by simp), fun n' => ?_, fun n' k' inits' hinits' => ?_,
    fun n' id' w hw => ?_, fun n' name => ?_⟩
  · simp only [Option.bind_eq_bind, Option.bind_some, hset]
  · rw [hnode, ← hr.length n']
    split_ifs with hn'
    · rw [hn', List.length_set]
    · rfl
  · -- only the memory that is set knows more addresses
    rw [hnode] at hinits'
    by_cases hn' : n' = n
    · rw [if_pos hn', List.getElem?_set] at hinits'
      subst hn'
      by_cases hk' : k = k'
      · rw [if_pos hk', if_pos hlt, Option.some_inj] at hinits'
        subst hinits' hk'
        refine ⟨hvalid', fun b => ?_⟩
        rw [hhas', hhas, List.mem_cons, or_comm, Prod.mk.injEq, eq_self, true_and]
      · rw [if_neg hk'] at hinits'
        obtain ⟨hvalid₂, hhas₂⟩ := hr.localInits n' k' inits' hinits'
        refine ⟨hvalid₂, fun b => (hhas₂ b).trans ?_⟩
        simp [Ne.symm hk']
    · rw [if_neg hn'] at hinits'
      obtain ⟨hvalid₂, hhas₂⟩ := hr.localInits n' k' inits' hinits'
      exact ⟨hvalid₂, fun b => (hhas₂ b).trans (by simp [hn'])⟩
  · rcases List.mem_cons.mp hw with heq | hold
    · obtain ⟨rfl, rfl⟩ := Prod.mk.inj (Option.some_inj.mp (Prod.mk.inj heq).1)
      exact hn
    · exact hr.sized n' id' w hold
  · rw [hnode, ← hr.memIds n' name]
    split_ifs with hn'
    · rw [hn']
    · rfl

/-- A local memory of a node that has been registered since the last `clear` can be set, and no
other. -/
theorem Related.set (hr : Related memInfo log h) {n id : ℕ} (a : Addr)
    (hid : id ≤ (memInfo n).length ∨ id = 0) (hroom : id = 0 ∨ n ∈ h.sized) :
    ∃ log', log.set n id a =
        some (decide ((History.memory n id, MemInits.word a) ∉ h.touched), log') ∧
      Related memInfo log' (h.touch n id a) := by
  cases id with
  | zero => exact hr.set_global a
  | succ k =>
    exact hr.set_local a (hid.resolve_right (Nat.succ_ne_zero k))
      (hroom.resolve_left (Nat.succ_ne_zero k))

theorem Related.set_eq_none (hr : Related memInfo log h) {n id : ℕ} (a : Addr)
    (hroom : ¬(id = 0 ∨ n ∈ h.sized)) : log.set n id a = none := by
  obtain ⟨hid, hn⟩ := not_or.mp hroom
  have hlen := hr.length n
  rw [if_neg hn] at hlen
  rw [MemoryLog.set, if_neg hid]
  dsimp only
  rw [List.length_eq_zero_iff.mp hlen]
  rfl

theorem Related.getMemId (hr : Related memInfo log h) {n id : ℕ} {mname : String}
    (hn : n ∈ h.registered) (hid : KeyedList.find mname (memInfo n) = some id) :
    ∃ log', log.getMemId n mname = (id, log') ∧ Related memInfo log' h := by
  have hfind : KeyedList.find mname (log.node n).memIds = some id := by
    rw [hr.memIds, if_pos hn, hid]
  -- The name is known, so that nothing is entered.
  have hinsert : KeyedList.insert mname 0 (log.node n).memIds = (log.node n).memIds := by
    rw [KeyedList.insert, hfind]
    rfl
  have hnode (n' : ℕ) : (log.setNode n (log.node n)).node n' = log.node n' := by
    rw [node_setNode]
    split_ifs with hn'
    · rw [hn']
    · rfl
  refine ⟨log.setNode n (log.node n), ?_, hr.valid, hr.has, fun n' => ?_, fun n' => ?_, hr.sized,
    fun n' => ?_⟩
  · rw [MemoryLog.getMemId]
    simp only [hinsert, hfind, Option.getD_some]
  · rw [hnode]
    exact hr.length n'
  · rw [hnode]
    exact hr.localInits n'
  · rw [hnode]
    exact hr.memIds n'

/-- Only which nodes have been registered matters, not in which order. -/
theorem Related.congr (hr : Related memInfo log h)
    {h' : History} (htouched : h'.touched = h.touched)
    (hregistered : ∀ n, n ∈ h'.registered ↔ n ∈ h.registered)
    (hsized : ∀ n, n ∈ h'.sized ↔ n ∈ h.sized) : Related memInfo log h' := by
  refine ⟨hr.valid, fun a => htouched ▸ hr.has a, fun n => ?_, fun n => htouched ▸ hr.localInits n,
    fun n id w hw => (hsized n).mpr (hr.sized n id w (htouched ▸ hw)), fun n name => ?_⟩
  · simp only [hr.length, hsized]
  · simp only [hr.memIds, hregistered]

theorem Related.addChildren {log : MemoryLog} {h : History} (hr : Related memInfo log h)
    {children : List IssNode} (hnodes : ∀ c ∈ children, ∀ {log : MemoryLog} {h : History},
      Related memInfo log h → Related memInfo (log.addNodes memInfo c)
        { h with registered := c.all ++ h.registered, sized := c.all ++ h.sized }) :
    Related memInfo (log.addChildren memInfo children)
      { h with
        registered := allChildren children ++ h.registered
        sized := allChildren children ++ h.sized } := by
  induction children generalizing log h with
  | nil =>
    rw [MemoryLog.addChildren]
    exact hr
  | cons c rest ih =>
    rw [List.forall_mem_cons] at hnodes
    rw [MemoryLog.addChildren, allChildren]
    refine (ih (hnodes.1 hr) hnodes.2).congr rfl (fun n' => ?_) (fun n' => ?_)
    all_goals
      simp only [List.mem_append]
      tauto

/-- By recursion on the tree of nodes. -/
theorem Related.addNodes {log : MemoryLog} {h : History} (hr : Related memInfo log h) :
    ∀ root : IssNode, Related memInfo (log.addNodes memInfo root)
      { h with registered := root.all ++ h.registered, sized := root.all ++ h.sized }
  | .mk n children => by
    rw [MemoryLog.addNodes, IssNode.all]
    refine ((hr.addNode n).addChildren fun c _ _ _ hr => hr.addNodes c).congr rfl
      (fun n' => ?_) (fun n' => ?_)
    all_goals
      simp only [List.mem_append, List.mem_cons]
      tauto

theorem Related.step (hr : Related memInfo log h) {op : LogOp} (hnamed : h.Named memInfo op)
    (hroom : h.Roomy memInfo op) :
    ∃ log', log.step memInfo op = some (h.answer memInfo op, log') ∧
      Related memInfo log' (h.next memInfo op) := by
  cases op with
  | addNodes root => exact ⟨_, rfl, hr.addNodes root⟩
  | clear => exact ⟨_, rfl, hr.clear⟩
  | set n id a =>
    obtain ⟨log', hset, hr'⟩ := @MemoryLog.Related.set _ _ _ hr n id a
      (hnamed.elim .inr fun hn => .inl hn.2) (hroom _ rfl)
    exact ⟨log', by rw [MemoryLog.step, hset]; rfl, hr'⟩
  | setNamed n mname a =>
    obtain ⟨hn, id, hle, hid⟩ := hnamed
    have htarget : History.target memInfo (.setNamed n mname a) = some (n, id, a) := by
      rw [History.target, hid]
      rfl
    obtain ⟨log₁, hget, hr₁⟩ := hr.getMemId hn hid
    obtain ⟨log', hset, hr'⟩ := hr₁.set a (.inl hle) (hroom _ htarget)
    refine ⟨log', ?_, ?_⟩
    · rw [MemoryLog.step, MemoryLog.setNamed, hget, History.answer, htarget]
      simp only [hset]
      rfl
    · rw [History.next, hid]
      exact hr'

theorem Related.step_eq_none (hr : Related memInfo log h) {op : LogOp}
    (hnamed : h.Named memInfo op) (hroom : ¬ h.Roomy memInfo op) :
    log.step memInfo op = none := by
  cases op with
  | addNodes root => exact absurd (fun _ ht => nomatch ht) hroom
  | clear => exact absurd (fun _ ht => nomatch ht) hroom
  | set n id a =>
    have hfull : ¬(id = 0 ∨ n ∈ h.sized) := fun hor => hroom fun t ht => by
      obtain rfl := Option.some_inj.mp ht
      exact hor
    rw [MemoryLog.step, hr.set_eq_none a hfull]
    rfl
  | setNamed n mname a =>
    obtain ⟨hn, id, hle, hid⟩ := hnamed
    obtain ⟨log₁, hget, hr₁⟩ := hr.getMemId hn hid
    have hfull : ¬(id = 0 ∨ n ∈ h.sized) := fun hor => hroom fun t ht => by
      rw [History.target, hid] at ht
      obtain rfl := Option.some_inj.mp ht
      exact hor
    rw [MemoryLog.step, MemoryLog.setNamed, hget]
    simp only [hr₁.set_eq_none a hfull]
    rfl

theorem Related.answers_iff (hr : Related memInfo log h) {ops : List LogOp}
    (hnamed : h.Throughout memInfo (History.Named memInfo) ops) :
    log.answers memInfo ops = some (h.answers memInfo ops) ↔
      h.Throughout memInfo (History.Roomy memInfo) ops := by
  induction ops generalizing log h with
  | nil => exact iff_of_true rfl trivial
  | cons op rest ih =>
    rw [MemoryLog.answers]
    by_cases hroom : h.Roomy memInfo op
    · obtain ⟨log', hstep, hr'⟩ := hr.step hnamed.1 hroom
      have hrest := ih hr' hnamed.2
      rw [hstep, Option.bind_eq_bind, Option.bind_some, History.Throughout]
      simp only [hroom, true_and, ← hrest, History.answers]
      cases log'.answers memInfo rest <;> simp
    · rw [hr.step_eq_none hnamed.1 hroom]
      exact iff_of_false nofun fun hall => hroom hall.1

/-- When all calls name registered memories, every `set` is answered by whether its word has not
been set since the last `clear` and no index is out of range, exactly if between a `clear` and a
`set` of a local memory its node is registered again. -/
theorem answers_empty_iff (memInfo : ℕ → List (String × ℕ)) (ops : List LogOp)
    (hnamed : History.init.Throughout memInfo (History.Named memInfo) ops) :
    empty.answers memInfo ops = some (History.init.answers memInfo ops) ↔
      History.init.Throughout memInfo (History.Roomy memInfo) ops :=
  related_empty.answers_iff hnamed

/-- After a `clear` there is no room for local memories. -/
theorem set_after_clear :
    History.init.Throughout (fun _ => [("m", 1)]) (History.Named fun _ => [("m", 1)])
        [.addNodes (.mk 0 []), .set 0 1 0, .clear, .set 0 1 0] ∧
      empty.answers (fun _ => [("m", 1)])
        [.addNodes (.mk 0 []), .set 0 1 0, .clear, .set 0 1 0] = none := by
  refine ⟨?_, by decide +kernel⟩
  simp [History.Throughout, History.Named, History.next, History.touch, IssNode.all, History.init]

/-- Registering the node again makes room. -/
theorem set_after_registering :
    empty.answers (fun _ => [("m", 1)])
        [.addNodes (.mk 0 []), .set 0 1 0, .clear, .addNodes (.mk 0 []), .set 0 1 0, .set 0 1 3] =
      some [none, some true, none, none, some true, some false] := by
  refine (answers_empty_iff _ _ ?_).mpr ?_
  · simp [History.Throughout, History.Named, History.next, History.touch, IssNode.all,
      History.init]
  · simp [History.Throughout, History.Roomy, History.next, History.touch, History.target,
      IssNode.all, History.init]

end MemoryLog

end Adl.Memory
