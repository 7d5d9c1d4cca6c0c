import Adl.Math.Halting
import Adl.Math.Machine
import Adl.Memory.Log

/-!
# The words of a memory log in order

An iterator goes through the blocks in the order of their addresses and through the words of each
block, and says at each place whether the word is set. The cached block of a container never shows
up in another one.
-/

namespace Adl.Memory

open Math

namespace MemInits

/-! ### The iterator -/

/-- An iterator: the blocks from the current one on, and the place in it. -/
structure ConstIterator where
  di : List (Addr × List Bool)
  index : ℕ
  deriving DecidableEq

namespace ConstIterator

def next (it : ConstIterator) : ConstIterator :=
  if it.index + 4 ≥ 4096 then ⟨it.di.tail, 0⟩ else ⟨it.di, it.index + 4⟩

def place (blk : Addr) (index : ℕ) : Addr := blk <<< 12 ||| BitVec.ofNat 64 index

def current (it : ConstIterator) : List Addr :=
  match it.di with
  | [] => []
  | (blk, block) :: _ => if block.getD (it.index / 4) false then [place blk it.index] else []

end ConstIterator

open ConstIterator

/-- One round of a loop from `begin` to `end` that keeps the addresses of words that are set. -/
def iterateStep (s : ConstIterator × List Addr) : (ConstIterator × List Addr) ⊕ List Addr :=
  if s.1 = ⟨[], 0⟩ then .inr s.2 else .inl (s.1.next, s.2 ++ s.1.current)

/-- The iteration over a container lists some addresses. -/
def Lists (m : MemInits) (out : List Addr) : Prop := Finishes iterateStep (⟨m.blocks, 0⟩, []) out

/-- The addresses of the words that are set in a block. -/
def blockAddrs (e : Addr × List Bool) : List Addr :=
  ((List.range blockSize).filter fun i => e.2.getD i false).map fun i => place e.1 (4 * i)

theorem reaches_block (e : Addr × List Bool) (rest : List (Addr × List Bool)) (out : List Addr) :
    Reaches iterateStep (⟨e :: rest, 0⟩, out) (⟨rest, 0⟩, out ++ blockAddrs e) := by
  -- What has been listed before the word `k` of the block.
  let places k := ((List.range k).filter fun i => e.2.getD i false).map fun i => place e.1 (4 * i)
  have hsucc : ∀ k, places (k + 1) = places k ++ current ⟨e :: rest, 4 * k⟩ := by
    intro k
    simp only [places, current, Nat.mul_div_cancel_left k (Nat.succ_pos 3), List.range_succ,
      List.filter_append, List.map_append]
    cases h : e.2.getD k false <;> simp_all
  have hstep : ∀ k, iterateStep (⟨e :: rest, 4 * k⟩, out ++ places k) =
      .inl (next ⟨e :: rest, 4 * k⟩, out ++ places (k + 1)) := by
    intro k
    rw [hsucc, ← List.append_assoc]
    exact if_neg fun h => List.cons_ne_nil _ _ (congrArg di h)
  have hplaces : ∀ k < blockSize,
      Reaches iterateStep (⟨e :: rest, 0⟩, out) (⟨e :: rest, 4 * k⟩, out ++ places k) := by
    intro k hk
    induction k with
    | zero => rw [show out ++ places 0 = out from List.append_nil out]
    | succ k ih =>
      refine .tail (ih (by omega)) ?_
      have hnext : next ⟨e :: rest, 4 * k⟩ = ⟨e :: rest, 4 * (k + 1)⟩ :=
        if_neg (show ¬ 4 * k + 4 ≥ 4096 by rw [blockSize] at hk; omega)
      rw [hstep, hnext]
  -- The step behind the last word goes to the next block.
  refine .tail (hplaces 1023 (by decide)) ?_
  rw [hstep]
  rfl

theorem finishes_iterate (m : MemInits) : m.Lists (m.blocks.flatMap blockAddrs) := by
  have hblocks : ∀ blocks out, Finishes iterateStep (⟨blocks, 0⟩, out)
      (out ++ blocks.flatMap blockAddrs) := by
    intro blocks
    induction blocks with
    | nil =>
      intro out
      rw [List.flatMap_nil, List.append_nil]
      exact .done (if_pos rfl)
    | cons e rest ih =>
      intro out
      rw [List.flatMap_cons, ← List.append_assoc]
      exact .of_reaches (reaches_block e rest out) (ih _)
  exact hblocks m.blocks []

/-! ### The order of the blocks -/

/-- Blocks stand in the order of their addresses, which are those of addresses. -/
structure Ordered (m : MemInits) : Prop where
  sorted : (m.blocks.map Prod.fst).Pairwise (· < ·)
  small : ∀ blk ∈ m.blocks.map Prod.fst, blk.toNat < 2 ^ 52

variable {m : MemInits}

theorem Ordered.set (h : m.Ordered) {a : Addr} {answer : Bool} {m' : MemInits}
    (hset : m.set a = some (answer, m')) : m'.Ordered := by
  have hadd :
      (if m.last = none ∨ blkAddr a ≠ m.lastAddr then m.add (blkAddr a) else m).Ordered := by
    split_ifs
    · refine ⟨KeyedList.pairwise_insert (fun a b c => BitVec.lt_trans) (fun a b hne hlt => ?_)
        h.sorted _ _, fun blk hblk => ?_⟩
      · rw [BitVec.lt_def] at hlt ⊢
        have : a.toNat ≠ b.toNat := fun heq => hne (BitVec.eq_of_toNat_eq heq)
        omega
      · obtain ⟨e, he, rfl⟩ := List.mem_map.mp hblk
        rcases KeyedList.mem_insert he with rfl | he
        · rw [toNat_blkAddr]
          have := a.isLt
          omega
        · exact h.small _ (List.mem_map_of_mem he)
    · exact h
  simp only [MemInits.set, Option.bind_eq_bind, Option.bind_eq_some_iff, Option.some.injEq,
    Prod.mk.injEq] at hset
  obtain ⟨last, -, block, -, old, -, -, rfl⟩ := hset
  constructor <;> rw [KeyedList.map_fst_replace]
  exacts [hadd.sorted, hadd.small]

theorem toNat_place {blk : Addr} {i : ℕ} (hblk : blk.toNat < 2 ^ 52) (hi : i < 4096) :
    (place blk i).toNat = blk.toNat * 4096 + i := by
  rw [place, BitVec.toNat_or, BitVec.toNat_shiftLeft, BitVec.toNat_ofNat,
    Nat.mod_eq_of_lt (show i < 2 ^ 64 by omega), Nat.shiftLeft_eq, Nat.mod_eq_of_lt (by omega),
    ← Nat.shiftLeft_eq, ← Nat.shiftLeft_add_eq_or_of_lt (show i < 2 ^ 12 from hi), Nat.shiftLeft_eq]

theorem mem_blockAddrs {e : Addr × List Bool} (he : e.1.toNat < 2 ^ 52) {b : Addr} :
    b ∈ blockAddrs e ↔ b.toNat % 4 = 0 ∧ blkAddr b = e.1 ∧ e.2.getD (blkOffset b) false = true := by
  rw [blockAddrs, List.mem_map]
  constructor
  · rintro ⟨i, hi, rfl⟩
    obtain ⟨hi, hbit⟩ := List.mem_filter.mp hi
    rw [List.mem_range, blockSize] at hi
    have hplace := toNat_place he (show 4 * i < 4096 by omega)
    have hoffset : blkOffset (place e.1 (4 * i)) = i := by
      rw [blkOffset_eq, hplace]
      omega
    refine ⟨by omega, BitVec.eq_of_toNat_eq ?_, by rwa [hoffset]⟩
    rw [toNat_blkAddr, hplace]
    omega
  · rintro ⟨haligned, hblk, hbit⟩
    refine ⟨blkOffset b, List.mem_filter.mpr ⟨List.mem_range.mpr (blkOffset_lt b), hbit⟩,
      BitVec.eq_of_toNat_eq ?_⟩
    have hlt := blkOffset_lt b
    rw [blockSize] at hlt
    rw [toNat_place he (by omega), ← hblk, toNat_blkAddr, blkOffset_eq]
    omega

theorem pairwise_blockAddrs {e : Addr × List Bool} (he : e.1.toNat < 2 ^ 52) :
    (blockAddrs e).Pairwise (· < ·) := by
  refine List.pairwise_map.mpr (List.Pairwise.imp_of_mem ?_ (List.pairwise_lt_range.filter _))
  intro i j hi hj hij
  have hi := List.mem_range.mp (List.mem_filter.mp hi).1
  have hj := List.mem_range.mp (List.mem_filter.mp hj).1
  rw [blockSize] at hi hj
  rw [BitVec.lt_def, toNat_place he (by omega), toNat_place he (by omega)]
  omega

theorem Ordered.small_of_mem (h : m.Ordered) {e : Addr × List Bool} (he : e ∈ m.blocks) :
    e.1.toNat < 2 ^ 52 :=
  h.small _ (List.mem_map_of_mem he)

theorem Ordered.pairwise_addrs (h : m.Ordered) :
    (m.blocks.flatMap blockAddrs).Pairwise (· < ·) := by
  refine List.pairwise_flatMap.mpr ⟨fun e he => pairwise_blockAddrs (h.small_of_mem he), ?_⟩
  refine (List.pairwise_map.mp h.sorted).imp_of_mem fun {e f} he hf hlt a ha b hb => ?_
  have ha := ((mem_blockAddrs (h.small_of_mem he)).mp ha).2.1
  have hb := ((mem_blockAddrs (h.small_of_mem hf)).mp hb).2.1
  rw [← ha, ← hb, BitVec.lt_def, toNat_blkAddr, toNat_blkAddr] at hlt
  rw [BitVec.lt_def]
  omega

theorem Ordered.mem_addrs (h : m.Ordered) {b : Addr} :
    b ∈ m.blocks.flatMap blockAddrs ↔ b.toNat % 4 = 0 ∧ m.has b = true := by
  have hnodup : KeyedList.NodupKeys m.blocks := h.sorted.imp fun hlt => BitVec.ne_of_lt hlt
  rw [List.mem_flatMap, has]
  constructor
  · rintro ⟨e, he, hb⟩
    obtain ⟨haligned, hblk, hbit⟩ := (mem_blockAddrs (h.small_of_mem he)).mp hb
    refine ⟨haligned, ?_⟩
    rw [hblk, hnodup.find_of_mem he, Option.bind_some, ← List.getD_eq_getElem?_getD]
    exact hbit
  · rintro ⟨haligned, hbit⟩
    cases hfind : KeyedList.find (blkAddr b) m.blocks with
    | none => simp [hfind] at hbit
    | some block =>
      have hmem := KeyedList.mem_of_find hfind
      rw [hfind, Option.bind_some, ← List.getD_eq_getElem?_getD] at hbit
      exact ⟨_, hmem, (mem_blockAddrs (h.small_of_mem hmem)).mpr ⟨haligned, rfl, hbit⟩⟩

/-! ### Runs -/

/-- Calls on several containers, which are known by their numbers. -/
inductive InitsOp where
  | set (i : ℕ) (a : Addr)
  | clear (i : ℕ)
  | copy (i source : ℕ)
  | assign (i source : ℕ)

/-- One call, with the answer of `set`. -/
def containers (s : ℕ → MemInits) : InitsOp → Option Bool × (ℕ → MemInits)
  | .set i a =>
    match (s i).set a with
    | some (new, m) => (some new, Function.update s i m)
    | none => (none, s)
  | .clear i => (none, Function.update s i empty)
  | .copy i source => (none, Function.update s i (s source).copied)
  | .assign i source => (none, Function.update s i (s source).copied)

/-- What the calls mean: each container has the addresses set since its last `clear`. -/
def touched (t : ℕ → List Addr) : InitsOp → Option Bool × (ℕ → List Addr)
  | .set i a => (some !(t i).any fun b => word b = word a, Function.update t i (a :: t i))
  | .clear i => (none, Function.update t i [])
  | .copy i source => (none, Function.update t i (t source))
  | .assign i source => (none, Function.update t i (t source))

structure Follows (m : MemInits) (l : List Addr) : Prop where
  valid : m.Valid
  ordered : m.Ordered
  has : ∀ b, m.has b = true ↔ ∃ a ∈ l, word a = word b

theorem follows_empty : empty.Follows [] :=
  ⟨valid_empty, ⟨.nil, fun _ h => absurd h List.not_mem_nil⟩, fun b => by
    simp [MemInits.has, empty]⟩

theorem Follows.copied {l : List Addr} (h : m.Follows l) : m.copied.Follows l :=
  ⟨h.valid.copied, ⟨h.ordered.sorted, h.ordered.small⟩, h.has⟩

theorem follows_update {s : ℕ → MemInits} {t : ℕ → List Addr} (h : ∀ i, (s i).Follows (t i))
    (i : ℕ) {l : List Addr} (hm : m.Follows l) :
    ∀ j, (Function.update s i m j).Follows (Function.update t i l j) := by
  intro j
  rcases eq_or_ne j i with rfl | hne
  · rwa [Function.update_self, Function.update_self]
  · rw [Function.update_of_ne hne, Function.update_of_ne hne]
    exact h j

theorem containers_touched {s : ℕ → MemInits} {t : ℕ → List Addr} (op : InitsOp)
    (h : ∀ i, (s i).Follows (t i)) : (containers s op).1 = (touched t op).1 ∧
      ∀ i, ((containers s op).2 i).Follows ((touched t op).2 i) := by
  cases op with
  | set i a =>
    obtain ⟨m', hset, hvalid, hhas⟩ := (h i).valid.set a
    rw [containers, hset, touched]
    refine ⟨congrArg (some !·) ?_, follows_update h i ⟨hvalid, (h i).ordered.set hset, fun b => ?_⟩⟩
    · rw [Bool.eq_iff_iff, (h i).has, List.any_eq_true]
      simp only [decide_eq_true_eq]
    · rw [hhas, (h i).has, List.exists_mem_cons_iff, or_comm]
      exact or_congr_left eq_comm
  | clear i => exact ⟨rfl, follows_update h i follows_empty⟩
  | copy i source => exact ⟨rfl, follows_update h i (h source).copied⟩
  | assign i source => exact ⟨rfl, follows_update h i (h source).copied⟩

/-- After any calls, the answers of `set` have been right, and each container lists the aligned
addresses of its words, each once, in increasing order. -/
theorem iterate_runs (ops : List InitsOp) :
    (runs containers (fun _ => empty) ops).1 = (runs touched (fun _ => []) ops).1 ∧
    ∀ i, ∃ out, ((runs containers (fun _ => empty) ops).2 i).Lists out ∧ out.Pairwise (· < ·) ∧
      ∀ b, b ∈ out ↔ b.toNat % 4 = 0 ∧
        ∃ a ∈ (runs touched (fun _ => []) ops).2 i, word a = word b := by
  obtain ⟨hanswers, hfollows⟩ :
      (runs containers (fun _ => empty) ops).1 = (runs touched (fun _ => []) ops).1 ∧
        ∀ i, ((runs containers (fun _ => empty) ops).2 i).Follows
          ((runs touched (fun _ => []) ops).2 i) :=
    runs_simulation (R := fun (s : ℕ → MemInits) (t : ℕ → List Addr) => ∀ i, (s i).Follows (t i))
      (fun s t op (_ : True) h => containers_touched op h) (fun _ _ => trivial)
      fun _ => follows_empty
  refine ⟨hanswers, fun i =>
    ⟨_, finishes_iterate _, (hfollows i).ordered.pairwise_addrs, fun b => ?_⟩⟩
  rw [(hfollows i).ordered.mem_addrs, (hfollows i).has]

end MemInits

end Adl.Memory
