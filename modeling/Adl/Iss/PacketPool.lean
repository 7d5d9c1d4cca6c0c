import Mathlib.Data.List.FinRange
import Mathlib.Data.List.Perm.Basic
import Adl.Math.Linked
import Adl.Math.Machine

/-!
# Pools of packets

A pool has a fixed number of elements, the free ones in a list with the links in the elements
(`iss/PacketPool.h`). A client may use the links for chains of its own, and give back a whole chain
at once.
-/

namespace Adl.Iss

open Adl.Math

variable {N : ℕ}

/-- A pool of `N` elements, which are known by their index in `_data`. -/
structure PacketPool (N : ℕ) where
  /-- The links in the elements. -/
  next : Fin N → Option (Fin N)
  head : Option (Fin N)

namespace PacketPool

variable (p : PacketPool N)

/-- The elements are linked in the order of their indices. -/
def reset (_ : PacketPool N) : PacketPool N where
  next i := if h : i + 1 < N then some ⟨i + 1, h⟩ else none
  head := if h : 0 < N then some ⟨0, h⟩ else none

/-- The loop of `numFree`, which follows the links. There is no result when they do not end. -/
def numFreeLoop (next : Fin N → Option (Fin N)) : ℕ → Option (Fin N) → Option ℕ
  | _, none => some 0
  | 0, some _ => none
  | fuel + 1, some x => (numFreeLoop next fuel (next x)).map (· + 1)

def numFree : Option ℕ := numFreeLoop p.next N p.head

/-- Takes the first free element. There is no result when the assertion fails. -/
def alloc : Option (Fin N × PacketPool N) :=
  p.head.map fun x => (x, { p with head := p.next x })

/-- Puts an element back. There is no result when the assertion fails. -/
def free (x : Fin N) : Option (PacketPool N) :=
  if p.head = some x then none
  else some { next := Function.update p.next x p.head, head := some x }

/-- Puts a chain of elements back that goes from `h` to `t`. -/
def freeAll (h t : Fin N) : PacketPool N :=
  { next := Function.update p.next t p.head, head := some h }

/-- A client links an element of its own to another one. -/
def link (x : Fin N) (y : Option (Fin N)) : PacketPool N :=
  { p with next := Function.update p.next x y }

end PacketPool

structure PacketPoolCounted (N : ℕ) extends PacketPool N where
  count : ℕ

namespace PacketPoolCounted

variable (p : PacketPoolCounted N)

/-- The constructor links the elements. -/
def new : PacketPoolCounted N := { PacketPool.reset ⟨fun _ => none, none⟩ with count := 0 }

def reset : PacketPoolCounted N := { p.toPacketPool.reset with count := 0 }

def alloc : Option (Fin N × PacketPoolCounted N) :=
  p.toPacketPool.alloc.map fun (x, base) => (x, { base with count := p.count + 1 })

def free (x : Fin N) : Option (PacketPoolCounted N) :=
  (p.toPacketPool.free x).map fun base => { base with count := p.count - 1 }

def numAlloced : ℕ := p.count

end PacketPoolCounted

/-! ### Clients -/

inductive PoolOp (N : ℕ) where
  | alloc
  | free (x : Fin N)
  /-- Only for pools without a counter. -/
  | freeAll (chain : List (Fin N))
  | link (x : Fin N) (y : Option (Fin N))
  | reset

def PoolOp.isFreeAll : PoolOp N → Bool
  | freeAll _ => true
  | _ => false

/-- A pool, with the elements that are outstanding. -/
structure Tracked (N : ℕ) where
  pool : PacketPoolCounted N
  out : List (Fin N)

namespace Tracked

def new : Tracked N := ⟨.new, []⟩

def step (s : Tracked N) : PoolOp N → Option (Tracked N)
  | .alloc => s.pool.alloc.map fun (x, pool) => ⟨pool, x :: s.out⟩
  | .free x => (s.pool.free x).map fun pool => ⟨pool, s.out.erase x⟩
  | .freeAll chain => do
    let h ← chain.head?
    let t ← chain.getLast?
    some ⟨{ s.pool.toPacketPool.freeAll h t with count := s.pool.count },
      s.out.filter (· ∉ chain)⟩
  | .link x y => some ⟨{ s.pool.toPacketPool.link x y with count := s.pool.count }, s.out⟩
  | .reset => some ⟨s.pool.reset, []⟩

/-- Elements are taken while there are some, clients give back what they have, and chains are
linked. -/
def Ok (s : Tracked N) : PoolOp N → Prop
  | .alloc => s.out.length < N
  | .free x => x ∈ s.out
  | .freeAll chain => chain ≠ [] ∧ chain.Nodup ∧ (∀ x ∈ chain, x ∈ s.out) ∧
    chain.IsChain fun a b => s.pool.next a = some b
  | .link x _ => x ∈ s.out
  | .reset => True

instance (s : Tracked N) : (op : PoolOp N) → Decidable (s.Ok op)
  | .alloc => inferInstanceAs (Decidable (_ < _))
  | .free _ => inferInstanceAs (Decidable (_ ∈ _))
  | .freeAll _ => inferInstanceAs (Decidable (_ ∧ _ ∧ _ ∧ _))
  | .link _ _ => inferInstanceAs (Decidable (_ ∈ _))
  | .reset => .isTrue trivial

/-! ### The free list -/

variable {s s' : Tracked N} {l : List (Fin N)}

/-- The free elements, in the order of their links, and the outstanding ones make up the pool. -/
structure Partition (s : Tracked N) (l : List (Fin N)) : Prop where
  linked : Linked s.pool.next s.pool.head l
  nodup : (l ++ s.out).Nodup
  mem : ∀ x, x ∈ l ++ s.out

theorem Partition.length (h : s.Partition l) : l.length + s.out.length = N := by
  have hperm : (l ++ s.out).Perm (List.finRange N) :=
    (List.perm_ext_iff_of_nodup h.nodup (List.nodup_finRange N)).mpr fun x =>
      iff_of_true (h.mem x) (List.mem_finRange x)
  rw [← List.length_append, hperm.length_eq, List.length_finRange]

theorem linked_reset (p : PacketPool N) : Linked p.reset.next p.reset.head (List.finRange N) := by
  -- from each element on, the links lead through those behind it
  have hfrom (k i : ℕ) (hi : i + k = N) :
      Linked p.reset.next (if h : i < N then some ⟨i, h⟩ else none) ((List.finRange N).drop i) := by
    induction k generalizing i with
    | zero =>
      rw [dif_neg (by omega), List.drop_eq_nil_of_le (by rw [List.length_finRange]; omega)]
      rfl
    | succ k ih =>
      have hlt : i < (List.finRange N).length := by
        rw [List.length_finRange]
        omega
      rw [dif_pos (by omega), List.drop_eq_getElem_cons hlt]
      rw [List.getElem_finRange]
      exact ⟨rfl, ih (i + 1) (by omega)⟩
  exact hfrom N 0 (Nat.zero_add N)

theorem partition_new : (new : Tracked N).Partition (List.finRange N) where
  linked := linked_reset ⟨fun _ => none, none⟩
  nodup := by simpa [new] using List.nodup_finRange N
  mem := fun x => List.mem_append_left _ (List.mem_finRange x)

theorem numFreeLoop_eq {next : Fin N → Option (Fin N)} {p : Option (Fin N)} {fuel : ℕ}
    (h : Linked next p l) (hfuel : l.length ≤ fuel) :
    PacketPool.numFreeLoop next fuel p = some l.length := by
  induction l generalizing p fuel with
  | nil =>
    rw [show p = none from h]
    cases fuel <;> rfl
  | cons x l ih =>
    cases fuel with
    | zero => exact absurd hfuel (Nat.not_succ_le_zero _)
    | succ fuel =>
      rw [h.1, PacketPool.numFreeLoop, ih h.2 (Nat.le_of_succ_le_succ hfuel)]
      rfl

theorem Partition.numFree (h : s.Partition l) : s.pool.numFree = some l.length := by
  have hlength := h.length
  exact numFreeLoop_eq h.linked (by omega)

theorem Partition.notMem_of_alloc (h : s.Partition l) {x : Fin N} {pool : PacketPoolCounted N}
    (halloc : s.pool.alloc = some (x, pool)) : x ∉ s.out := by
  have hhead : s.pool.head = some x := by
    obtain ⟨⟨y, base⟩, hbase, heq⟩ := Option.map_eq_some_iff.mp halloc
    obtain ⟨z, hz, heq'⟩ := Option.map_eq_some_iff.mp hbase
    rw [hz, (Prod.mk.inj heq').1, (Prod.mk.inj heq).1]
  cases l with
  | nil =>
    rw [show s.pool.head = none from h.linked] at hhead
    cases hhead
  | cons y l =>
    obtain rfl : y = x := Option.some.inj (h.linked.1.symm.trans hhead)
    have hnodup := h.nodup
    rw [List.cons_append, List.nodup_cons, List.mem_append, not_or] at hnodup
    exact hnodup.1.2

/-! ### Steps -/

theorem Partition.alloc (h : s.Partition l) (hfree : s.out.length < N) :
    ∃ s' l', s.step .alloc = some s' ∧ s'.Partition l' := by
  have hlength := h.length
  cases l with
  | nil =>
    rw [List.length_nil] at hlength
    omega
  | cons x l =>
    obtain ⟨hhead, hrest⟩ := h.linked
    refine ⟨⟨{ s.pool with head := s.pool.next x, count := s.pool.count + 1 }, x :: s.out⟩, l, ?_,
      hrest, ?_, fun y => ?_⟩
    · rw [step, PacketPoolCounted.alloc, PacketPool.alloc, hhead]
      rfl
    · exact List.nodup_middle.mpr h.nodup
    · have hmem := h.mem y
      simp only [List.mem_append, List.mem_cons] at hmem ⊢
      tauto

theorem Partition.free (h : s.Partition l) {x : Fin N} (hx : x ∈ s.out) :
    ∃ s' l', s.step (.free x) = some s' ∧ s'.Partition l' := by
  obtain ⟨hl, hout, hdisjoint⟩ := List.nodup_append'.mp h.nodup
  have hxl : x ∉ l := fun hmem => hdisjoint hmem hx
  -- an outstanding element is not the first free one
  have hhead : s.pool.head ≠ some x := by
    rw [h.linked.head_eq]
    exact fun heq => hxl (List.mem_of_head? heq)
  refine ⟨⟨⟨⟨Function.update s.pool.next x s.pool.head, some x⟩, s.pool.count - 1⟩, s.out.erase x⟩,
    x :: l, ?_, ?_, ?_, fun y => ?_⟩
  · rw [step, PacketPoolCounted.free, PacketPool.free, if_neg hhead]
    rfl
  · exact h.linked.prepend (c := []) (.singleton x) (List.nodup_singleton x) hxl
  · refine List.nodup_append'.mpr ⟨List.nodup_cons.mpr ⟨hxl, hl⟩, hout.erase x, fun y hy hye => ?_⟩
    rcases List.mem_cons.mp hy with rfl | hy
    · exact hout.not_mem_erase hye
    · exact hdisjoint hy (List.mem_of_mem_erase hye)
  · have hmem := h.mem y
    simp only [List.mem_append, List.mem_cons, hout.mem_erase_iff] at hmem ⊢
    tauto

theorem Partition.freeAll (h : s.Partition l) {chain : List (Fin N)} (hne : chain ≠ [])
    (hnodup : chain.Nodup) (hsub : ∀ x ∈ chain, x ∈ s.out)
    (hchain : chain.IsChain fun a b => s.pool.next a = some b) :
    ∃ s' l', s.step (.freeAll chain) = some s' ∧ s'.Partition l' := by
  obtain ⟨hl, hout, hdisjoint⟩ := List.nodup_append'.mp h.nodup
  -- only the link of the last element of the chain changes
  obtain rfl | ⟨c, x, rfl⟩ := List.eq_nil_or_concat chain
  · exact absurd rfl hne
  rw [List.concat_eq_append] at hnodup hsub hchain ⊢
  have hxl : x ∉ l := fun hmem => hdisjoint hmem (hsub x (by simp))
  obtain ⟨first, hfirst⟩ : ∃ first, (c ++ [x]).head? = some first := by
    cases c <;> exact ⟨_, rfl⟩
  refine ⟨⟨{ s.pool.toPacketPool.freeAll first x with count := s.pool.count },
    s.out.filter (· ∉ c ++ [x])⟩, (c ++ [x]) ++ l, ?_, ?_, ?_, fun y => ?_⟩
  · simp only [step, hfirst, List.getLast?_concat, Option.bind_eq_bind, Option.bind_some]
  · have hlinked := h.linked.prepend hchain hnodup hxl
    rw [hfirst] at hlinked
    rwa [List.append_assoc]
  · refine List.nodup_append'.mpr
      ⟨List.nodup_append'.mpr ⟨hnodup, hl, fun y hy hyl => hdisjoint hyl (hsub y hy)⟩,
        hout.filter _, fun y hy hyf => ?_⟩
    obtain ⟨hyo, hyc⟩ := List.mem_filter.mp hyf
    rcases List.mem_append.mp hy with hy | hy
    · exact of_decide_eq_true hyc hy
    · exact hdisjoint hy hyo
  · have hmem := h.mem y
    rw [List.mem_append] at hmem
    rw [List.mem_append, List.mem_append (s := c ++ [x]), List.mem_filter, decide_eq_true_eq]
    tauto

theorem Partition.link (h : s.Partition l) {x : Fin N} (hx : x ∈ s.out) (y : Option (Fin N)) :
    ∃ s' l', s.step (.link x y) = some s' ∧ s'.Partition l' := by
  refine ⟨_, l, rfl, ?_, h.nodup, h.mem⟩
  have hxl : x ∉ l := fun hmem => (List.nodup_append'.mp h.nodup).2.2 hmem hx
  exact h.linked.update_of_notMem hxl y

/-- Allowed steps succeed, and free and outstanding elements make up the pool afterwards. -/
theorem Partition.step (h : s.Partition l) {op : PoolOp N} (hop : s.Ok op) :
    ∃ s' l', s.step op = some s' ∧ s'.Partition l' := by
  cases op with
  | alloc => exact h.alloc hop
  | free x => exact h.free hop
  | freeAll chain =>
    obtain ⟨hne, hnodup, hsub, hchain⟩ := hop
    exact h.freeAll hne hnodup hsub hchain
  | link x y => exact h.link hop y
  | reset =>
    refine ⟨_, List.finRange N, rfl, linked_reset s.pool.toPacketPool, ?_, fun x => ?_⟩
    · simpa using List.nodup_finRange N
    · exact List.mem_append_left _ (List.mem_finRange x)

theorem count_step {op : PoolOp N} (hop : s.Ok op) (hnot : op.isFreeAll = false)
    (hcount : s.pool.count = s.out.length) (hstep : s.step op = some s') :
    s'.pool.count = s'.out.length := by
  cases op with
  | alloc =>
    obtain ⟨⟨x, pool⟩, halloc, rfl⟩ := Option.map_eq_some_iff.mp hstep
    obtain ⟨base, -, heq⟩ := Option.map_eq_some_iff.mp halloc
    obtain ⟨-, rfl⟩ := Prod.mk.inj heq
    rw [List.length_cons, ← hcount]
  | free x =>
    obtain ⟨pool, hfree, rfl⟩ := Option.map_eq_some_iff.mp hstep
    obtain ⟨base, -, rfl⟩ := Option.map_eq_some_iff.mp hfree
    rw [List.length_erase_of_mem hop, ← hcount]
  | freeAll chain => cases hnot -- `freeAll` of the base class, which does not count
  | link x y =>
    obtain rfl := Option.some.inj hstep
    exact hcount
  | reset =>
    obtain rfl := Option.some.inj hstep
    rfl

end Tracked

/-- Every sequence of calls by clients that give back what they have succeeds. Afterwards no element
is outstanding twice, the next one that is taken is not outstanding, and free and outstanding
elements make up the pool. Without chains, the counter is the number of outstanding elements. -/
theorem pool_accounts {N : ℕ} {ops : List (PoolOp N)}
    (hops : Allowed Tracked.step Tracked.Ok .new ops) :
    ∃ s, ops.foldlM Tracked.step .new = some s ∧ s.out.Nodup ∧
      (∀ x pool, s.pool.alloc = some (x, pool) → x ∉ s.out) ∧
      (∃ n, s.pool.numFree = some n ∧ n + s.out.length = N) ∧
      ((∀ op ∈ ops, op.isFreeAll = false) → s.pool.numAlloced = s.out.length) := by
  have hstep (s : Tracked N) (op : PoolOp N) (hop : s.Ok op) (hs : ∃ l, s.Partition l) :
      ∃ s', s.step op = some s' ∧ ∃ l, s'.Partition l := by
    obtain ⟨l, hl⟩ := hs
    obtain ⟨s', l', hs', hl'⟩ := hl.step hop
    exact ⟨s', hs', l', hl'⟩
  obtain ⟨s, hrun, l, hl⟩ := foldlM_invariant hstep hops ⟨_, Tracked.partition_new⟩
  refine ⟨s, hrun, (List.nodup_append'.mp hl.nodup).2.1, fun x pool => hl.notMem_of_alloc,
    ⟨l.length, hl.numFree, hl.length⟩, fun hnot => ?_⟩
  exact foldlM_along (P := fun s : Tracked N => s.pool.count = s.out.length)
    (fun s op s' hop hcount hs' => Tracked.count_step hop.1 hop.2 hcount hs')
    (hops.and hnot) rfl hrun

/-- Two elements are taken, linked and given back together, and one of them is taken again. -/
def chainOps : List (PoolOp 3) := [.alloc, .alloc, .link 0 (some 1), .freeAll [0, 1], .alloc]

theorem pool_accounts_chain :
    ∃ s, chainOps.foldlM Tracked.step .new = some s ∧ s.out.Nodup ∧
      (∀ x pool, s.pool.alloc = some (x, pool) → x ∉ s.out) ∧
      (∃ n, s.pool.numFree = some n ∧ n + s.out.length = 3) ∧
      ((∀ op ∈ chainOps, op.isFreeAll = false) → s.pool.numAlloced = s.out.length) :=
  pool_accounts (by decide)

end Adl.Iss
