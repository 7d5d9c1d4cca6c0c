import Adl.Math.Machine
import Adl.Memory.Sparse
import Mathlib.Data.List.Induction
import Mathlib.Data.List.Nodup

/-!
# Allocation of nodes by several threads

With `THREAD_SAFE_MEMORY`, threads walk the tree of a sparse memory without a lock (`Node::get`,
`iss/Memory.h`). A thread that finds no child tries to put one into the node by a weak
compare-and-exchange. If that fails, which may happen when the pointer is null, too, it returns what
the exchange has found.

Threads take turns in any order; a turn is one atomic action. Children are named by the order in
which they were allocated.
-/

namespace Adl.Memory.NodeGet

open Adl.Math

/-- Where a thread is in a call of `get`. -/
inductive Place where
  | idle
  /-- Loads the pointer. -/
  | loading (index : ℕ)
  /-- Has loaded a null pointer. -/
  | allocating (index : ℕ)
  | exchanging (index newItem : ℕ)
  /-- The exchange has failed and stored `n`. -/
  | deleting (index newItem : ℕ) (n : Option ℕ) (spurious : Bool)

inductive Outcome where
  /-- The pointer was there. -/
  | found (n : ℕ)
  | won (newItem : ℕ)
  | lost (newItem : ℕ) (n : Option ℕ) (spurious : Bool)
deriving DecidableEq

def Outcome.child : Outcome → Option ℕ
  | found n => some n
  | won newItem => some newItem
  | lost _ n _ => n

structure Returned (κ : Type) where
  thread : κ
  index : ℕ
  outcome : Outcome
deriving DecidableEq

structure State (κ : Type) where
  /-- The pointers of the node. -/
  mem : ℕ → Option ℕ
  /-- The number of children allocated so far. -/
  allocated : ℕ
  /-- The children that have been deleted. -/
  deleted : List ℕ
  place : κ → Place
  returned : List (Returned κ)

/-- What a thread does at its turn: begin a call, or go on with the one it is in. A weak exchange
of a null pointer may fail spuriously. -/
inductive Turn (κ : Type) where
  | call (t : κ) (addr : ℕ)
  | go (t : κ) (spurious : Bool)

variable {κ : Type} [DecidableEq κ]

namespace State

def init : State κ := ⟨fun _ => none, 0, [], fun _ => .idle, []⟩

variable (s : State κ) (t : κ)

def goTo (p : Place) : State κ := { s with place := Function.update s.place t p }

def finish (index : ℕ) (outcome : Outcome) : State κ :=
  { s.goTo t .idle with returned := ⟨t, index, outcome⟩ :: s.returned }

/-- `new Child` -/
def allocate (index : ℕ) : State κ :=
  { s.goTo t (.exchanging index s.allocated) with allocated := s.allocated + 1 }

/-- The exchange succeeds. -/
def publish (index newItem : ℕ) : State κ :=
  { s.finish t index (.won newItem) with mem := Function.update s.mem index (some newItem) }

/-- `delete new_item` -/
def delete (index newItem : ℕ) (n : Option ℕ) (spurious : Bool) : State κ :=
  { s.finish t index (.lost newItem n spurious) with deleted := newItem :: s.deleted }

/-- A thread that is in a call does not begin another one. -/
def call (index : ℕ) : State κ :=
  match s.place t with
  | .idle => s.goTo t (.loading index)
  | _ => s

/-- `Node::get` after the index has been computed. -/
def go (spurious : Bool) : State κ :=
  match s.place t with
  | .idle => s
  | .loading index =>
    match s.mem index with
    | some n => s.finish t index (.found n)
    | none => s.goTo t (.allocating index)
  | .allocating index => s.allocate t index
  | .exchanging index newItem =>
    match s.mem index with
    | some n => s.goTo t (.deleting index newItem (some n) false)
    | none =>
      -- on a spurious failure the value found, null, is stored
      if spurious then s.goTo t (.deleting index newItem none true)
      else s.publish t index newItem
  | .deleting index newItem n spurious => s.delete t index newItem n spurious

/-- A turn, for a node of a level. -/
def step (c : Layout) (level : ℕ) : Turn κ → State κ
  | .call t addr => s.call t (c.index level addr)
  | .go t spurious => s.go t spurious

end State

section

variable {s : State κ} {t u : κ} {p : Place}

@[simp] theorem State.goTo_place_self : (s.goTo t p).place t = p := Function.update_self ..

theorem State.goTo_place_of_ne (h : u ≠ t) : (s.goTo t p).place u = s.place u :=
  Function.update_of_ne h ..

end

/-- Threads take turns at a new node. -/
def run (c : Layout) (level : ℕ) (turns : List (Turn κ)) : State κ :=
  turns.foldl (fun s turn => s.step c level turn) .init

/-! ### Where children are -/

inductive Spot (κ : Type) where
  | unborn
  /-- Allocated by the call of a thread, and not yet published. -/
  | held (t : κ)
  | published (index : ℕ)
  | deleted

def Place.item : Place → Option ℕ
  | idle | loading _ | allocating _ => none
  | exchanging _ newItem | deleting _ newItem _ _ => some newItem

def State.Has (s : State κ) : Spot κ → ℕ → Prop
  | .unborn, k => s.allocated ≤ k
  | .held t, k => (s.place t).item = some k
  | .published index, k => s.mem index = some k
  | .deleted, k => k ∈ s.deleted

variable {s : State κ} {t : κ} {index newItem : ℕ} {n : Option ℕ} {spurious : Bool}

omit [DecidableEq κ] in
theorem owned_init : Owned (State.init : State κ).Has := by
  intro k
  refine ⟨.unborn, Nat.zero_le k, fun spot hspot => ?_⟩
  cases spot with
  | unborn => rfl
  | held t => exact nomatch hspot
  | published index => exact nomatch hspot
  | deleted => exact absurd hspot List.not_mem_nil

theorem has_goTo {p : Place} (hp : p.item = (s.place t).item) : (s.goTo t p).Has = s.Has := by
  funext spot k
  cases spot with
  | held t' =>
    rw [State.Has, State.Has]
    by_cases ht : t' = t
    · rw [ht, State.goTo_place_self, hp]
    · rw [State.goTo_place_of_ne ht]
  | unborn | published _ | deleted => rfl

theorem has_held_goTo {p : Place} {t' : κ} {k : ℕ} (ht : Spot.held t' ≠ Spot.held t) :
    ((s.goTo t p).place t').item = some k ↔ s.Has (.held t') k := by
  rw [State.goTo_place_of_ne (mt (congrArg Spot.held) ht), State.Has]

theorem has_held_idle {k : ℕ} (hitem : (s.place t).item = some newItem) :
    ((s.goTo t .idle).place t).item = some k ↔ s.Has (.held t) k ∧ k ≠ newItem := by
  rw [State.goTo_place_self, State.Has, hitem, Option.some_inj]
  exact iff_of_false nofun fun h => h.2 h.1.symm

theorem has_finish (index : ℕ) (outcome : Outcome) (hp : (s.place t).item = none) :
    (s.finish t index outcome).Has = s.Has :=
  (has_goTo (p := .idle) hp.symm).symm ▸ rfl

theorem owned_allocate (h : Owned s.Has) (ht : s.place t = .allocating index) :
    Owned (s.allocate t index).Has := by
  refine h.handOver .unborn (.held t) s.allocated nofun (Nat.le_refl _) ?_ ?_ ?_
  · intro k
    exact Nat.lt_iff_le_and_ne.trans (and_congr_right fun _ => ne_comm)
  · intro k
    change ((s.goTo t (.exchanging index s.allocated)).place t).item = some k ↔ _
    rw [State.goTo_place_self, State.Has, ht]
    simp [Place.item, eq_comm]
  · rintro (_ | t' | _ | _) k hunborn hheld
    · exact absurd rfl hunborn
    · exact has_held_goTo hheld
    · exact Iff.rfl
    · exact Iff.rfl

theorem owned_publish (h : Owned s.Has) (ht : s.place t = .exchanging index newItem)
    (hmem : s.mem index = none) :
    Owned (s.publish t index newItem).Has := by
  have hitem : (s.place t).item = some newItem := by rw [ht, Place.item]
  refine h.handOver (.held t) (.published index) newItem nofun hitem ?_ ?_ ?_
  · intro k
    exact has_held_idle hitem
  · intro k
    change Function.update s.mem index (some newItem) index = some k ↔ _
    rw [Function.update_self, State.Has, hmem]
    simp [eq_comm]
  · rintro (_ | t' | index' | _) k hheld hpublished
    · exact Iff.rfl
    · exact has_held_goTo hheld
    · change Function.update s.mem index (some newItem) index' = some k ↔ _
      rw [Function.update_of_ne (mt (congrArg Spot.published) hpublished), State.Has]
    · exact Iff.rfl

theorem owned_delete (h : Owned s.Has) (ht : s.place t = .deleting index newItem n spurious) :
    Owned (s.delete t index newItem n spurious).Has := by
  have hitem : (s.place t).item = some newItem := by rw [ht, Place.item]
  refine h.handOver (.held t) .deleted newItem nofun hitem ?_ ?_ ?_
  · intro k
    exact has_held_idle hitem
  · intro k
    exact List.mem_cons.trans or_comm
  · rintro (_ | t' | _ | _) k hheld hdeleted
    · exact Iff.rfl
    · exact has_held_goTo hheld
    · exact Iff.rfl
    · exact absurd rfl hdeleted

/-! ### What calls return -/

/-- A failed exchange has found the published child, or null if it has failed spuriously. -/
def Found (s : State κ) (index : ℕ) (n : Option ℕ) (spurious : Bool) : Prop :=
  if spurious then n = none else n ≠ none ∧ s.mem index = n

def Place.Ok (s : State κ) : Place → Prop
  | deleting index _ n spurious => Found s index n spurious
  | _ => True

def Returned.Ok (s : State κ) (r : Returned κ) : Prop :=
  match r.outcome with
  | .found n => s.mem r.index = some n
  | .won newItem => s.mem r.index = some newItem
  | .lost newItem n spurious => newItem ∈ s.deleted ∧ Found s r.index n spurious

structure Inv (s : State κ) : Prop where
  owned : Owned s.Has
  nodup : s.deleted.Nodup
  place : ∀ t, (s.place t).Ok s
  returned : ∀ r ∈ s.returned, r.Ok s

/-- Pointers are never changed again, and children stay deleted. -/
structure Extends (s s' : State κ) : Prop where
  mem : ∀ index k, s.mem index = some k → s'.mem index = some k
  deleted : s.deleted ⊆ s'.deleted

section Extends

omit [DecidableEq κ]

variable {s' : State κ}

theorem Found.mono (h : Found s index n spurious) (hs : Extends s s') :
    Found s' index n spurious := by
  unfold Found at h ⊢
  split_ifs at h ⊢ with hspurious
  · exact h
  · obtain ⟨hn, hmem⟩ := h
    obtain ⟨k, rfl⟩ := Option.ne_none_iff_exists'.mp hn
    exact ⟨hn, hs.mem index k hmem⟩

theorem Place.Ok.mono {p : Place} (h : p.Ok s) (hs : Extends s s') : p.Ok s' := by
  cases p with
  | deleting index newItem n spurious => exact Found.mono h hs
  | idle | loading _ | allocating _ | exchanging _ _ => exact trivial

theorem Returned.Ok.mono {r : Returned κ} (h : r.Ok s) (hs : Extends s s') : r.Ok s' := by
  unfold Returned.Ok at h ⊢
  split at h
  · exact hs.mem _ _ h
  · exact hs.mem _ _ h
  · exact ⟨hs.deleted h.1, h.2.mono hs⟩

end Extends

theorem place_of_moved {s' : State κ} {p : Place} (h : Inv s) (hs : Extends s s')
    (hplace : s'.place = Function.update s.place t p) (hp : p.Ok s') : ∀ u, (s'.place u).Ok s' := by
  intro u
  rw [hplace]
  by_cases hu : u = t
  · rw [hu, Function.update_self]
    exact hp
  · rw [Function.update_of_ne hu]
    exact (h.place u).mono hs

theorem Inv.goTo (h : Inv s) {p : Place} (hitem : p.item = (s.place t).item) (hp : p.Ok s) :
    Inv (s.goTo t p) := by
  have hs : Extends s (s.goTo t p) := ⟨fun _ _ => id, fun _ => id⟩
  refine ⟨?_, h.nodup, place_of_moved h hs rfl (hp.mono hs), fun r hr => (h.returned r hr).mono hs⟩
  rw [has_goTo hitem]
  exact h.owned

/-- A call returns after a change of the node or of the deleted children. -/
theorem Inv.finish {s' : State κ} {outcome : Outcome} (h : Inv s) (howned : Owned s'.Has)
    (hnodup : s'.deleted.Nodup) (hs : Extends s s')
    (hplace : s'.place = Function.update s.place t .idle)
    (hreturned : s'.returned = ⟨t, index, outcome⟩ :: s.returned)
    (houtcome : Returned.Ok s' ⟨t, index, outcome⟩) : Inv s' := by
  refine ⟨howned, hnodup, place_of_moved h hs hplace trivial, fun r hr => ?_⟩
  rw [hreturned] at hr
  rcases List.mem_cons.mp hr with rfl | hr
  · exact houtcome
  · exact (h.returned r hr).mono hs

theorem Inv.call (h : Inv s) (t : κ) (index : ℕ) : Inv (s.call t index) := by
  unfold State.call
  split
  · next ht => exact h.goTo (by rw [ht]; rfl) trivial
  · exact h

theorem Inv.go (h : Inv s) (t : κ) (spurious : Bool) : Inv (s.go t spurious) := by
  have hok := h.place t
  unfold State.go
  split
  · exact h
  · next index ht =>
    split
    · next k hmem =>
      have howned := h.owned
      rw [← has_finish index (.found k) (by rw [ht]; rfl)] at howned
      exact h.finish howned h.nodup ⟨fun _ _ => id, fun _ => id⟩ rfl rfl hmem
    · exact h.goTo (by rw [ht]; rfl) trivial
  · next index ht =>
    have hs : Extends s (s.allocate t index) := ⟨fun _ _ => id, fun _ => id⟩
    exact ⟨owned_allocate h.owned ht, h.nodup, place_of_moved h hs rfl trivial,
      fun r hr => (h.returned r hr).mono hs⟩
  · next index newItem ht =>
    split
    · next k hmem => exact h.goTo (by rw [ht]; rfl) ⟨nofun, hmem⟩
    · next hmem =>
      split
      · exact h.goTo (by rw [ht]; rfl) rfl
      · refine h.finish (owned_publish h.owned ht hmem) h.nodup ⟨fun index' k hk => ?_, fun _ => id⟩
          rfl rfl (Function.update_self ..)
        -- the pointer that changes was null
        have hne : index' ≠ index := fun heq => by simp [heq, hmem] at hk
        exact (Function.update_of_ne hne _ _).trans hk
  · next index newItem n spurious ht =>
    rw [ht] at hok
    have hheld : s.Has (.held t) newItem := by rw [State.Has, ht, Place.item]
    have hs : Extends s (s.delete t index newItem n spurious) :=
      ⟨fun _ _ => id, List.subset_cons_self _ _⟩
    refine h.finish (owned_delete h.owned ht) ?_ hs rfl rfl
      ⟨List.mem_cons_self, Found.mono hok hs⟩
    exact List.nodup_cons.mpr ⟨h.owned.not_owns (w := .deleted) hheld nofun, h.nodup⟩

theorem Inv.step (h : Inv s) (c : Layout) (level : ℕ) (turn : Turn κ) :
    Inv (s.step c level turn) := by
  cases turn with
  | call t addr => exact h.call t _
  | go t spurious => exact h.go t spurious

/-- After any turns, every child has one place, and calls have returned what they should. -/
theorem inv_run (c : Layout) (level : ℕ) (turns : List (Turn κ)) : Inv (run c level turns) := by
  have hinit : Inv (State.init : State κ) :=
    ⟨owned_init, List.nodup_nil, fun _ => trivial, fun _ hr => absurd hr List.not_mem_nil⟩
  exact List.foldlRecOn turns _ hinit fun _ h turn _ => h.step c level turn

/-! ### Calls return -/

/-- How many turns of its own a call needs at most. -/
def Place.turnsLeft : Place → ℕ
  | idle => 0
  | deleting _ _ _ _ => 1
  | exchanging _ _ => 2
  | allocating _ => 3
  | loading _ => 4

def State.calls (s : State κ) (t : κ) : ℕ := s.returned.countP (·.thread = t)

/-- The turn is one at which a thread goes on with its call. -/
def Turn.isGo (t : κ) : Turn κ → Bool
  | .call _ _ => false
  | .go u _ => u = t

omit [DecidableEq κ] in
theorem Place.turnsLeft_le_four (p : Place) : p.turnsLeft ≤ 4 := by
  cases p <;> simp [Place.turnsLeft]

theorem calls_cons (r : Returned κ) :
    (r :: s.returned).countP (·.thread = t) = s.calls t + if r.thread = t then 1 else 0 := by
  rw [List.countP_cons, State.calls]
  simp

theorem go_self (h : s.place t ≠ .idle) (spurious : Bool) :
    s.calls t < (s.go t spurious).calls t ∨
      (s.go t spurious).place t ≠ .idle ∧
        ((s.go t spurious).place t).turnsLeft < (s.place t).turnsLeft := by
  have hfinish (index : ℕ) (outcome : Outcome) :
      s.calls t < (⟨t, index, outcome⟩ :: s.returned).countP (·.thread = t) := by
    rw [calls_cons, if_pos rfl]
    exact Nat.lt_succ_self _
  have hgoTo {p : Place} (hp : p ≠ .idle) (hleft : p.turnsLeft < (s.place t).turnsLeft) :
      (s.goTo t p).place t ≠ .idle ∧
        ((s.goTo t p).place t).turnsLeft < (s.place t).turnsLeft := by
    rw [State.goTo_place_self]
    exact ⟨hp, hleft⟩
  unfold State.go
  split
  · next ht => exact absurd ht h
  · next index ht =>
    split
    · exact .inl (hfinish _ _)
    · exact .inr (hgoTo nofun (by rw [ht]; exact Nat.lt_succ_self 3))
  · next index ht =>
    exact .inr (hgoTo (p := .exchanging index s.allocated) nofun
      (by rw [ht]; exact Nat.lt_succ_self 2))
  · next index newItem ht =>
    split
    · exact .inr (hgoTo nofun (by rw [ht]; exact Nat.lt_succ_self 1))
    · split
      · exact .inr (hgoTo nofun (by rw [ht]; exact Nat.lt_succ_self 1))
      · exact .inl (hfinish _ _)
  · exact .inl (hfinish _ _)

theorem go_of_ne {u : κ} (hu : t ≠ u) (spurious : Bool) :
    (s.go u spurious).place t = s.place t ∧ (s.go u spurious).calls t = s.calls t := by
  have hgoTo (p : Place) : (s.goTo u p).place t = s.place t := State.goTo_place_of_ne hu
  have hfinish (index : ℕ) (outcome : Outcome) :
      (⟨u, index, outcome⟩ :: s.returned).countP (·.thread = t) = s.calls t := by
    rw [calls_cons, if_neg hu.symm]
    rfl
  unfold State.go
  split
  · exact ⟨rfl, rfl⟩
  · split
    · exact ⟨hgoTo _, hfinish _ _⟩
    · exact ⟨hgoTo _, rfl⟩
  · exact ⟨hgoTo _, rfl⟩
  · split
    · exact ⟨hgoTo _, rfl⟩
    · split
      · exact ⟨hgoTo _, rfl⟩
      · exact ⟨hgoTo _, hfinish _ _⟩
  · exact ⟨hgoTo _, hfinish _ _⟩

theorem call_of_busy (h : s.place t ≠ .idle) (u : κ) (index : ℕ) :
    (s.call u index).place t = s.place t ∧ (s.call u index).calls t = s.calls t := by
  unfold State.call
  split
  · next hu =>
    have hne : t ≠ u := fun heq => h (heq ▸ hu)
    exact ⟨State.goTo_place_of_ne hne, rfl⟩
  · exact ⟨rfl, rfl⟩

theorem returned_suffix_step (c : Layout) (level : ℕ) (turn : Turn κ) :
    s.returned <:+ (s.step c level turn).returned := by
  cases turn with
  | call u addr =>
    rw [State.step, State.call]
    split <;> exact List.suffix_rfl
  | go u spurious =>
    rw [State.step, State.go]
    split
    · exact List.suffix_rfl
    · split
      · exact List.suffix_cons _ _
      · exact List.suffix_rfl
    · exact List.suffix_rfl
    · split
      · exact List.suffix_rfl
      · split
        · exact List.suffix_rfl
        · exact List.suffix_cons _ _
    · exact List.suffix_cons _ _

theorem calls_le_calls_foldl (c : Layout) (level : ℕ) (turns : List (Turn κ)) :
    s.calls t ≤ (turns.foldl (fun s turn => s.step c level turn) s).calls t := by
  have hsuffix : s.returned <:+ (turns.foldl (fun s turn => s.step c level turn) s).returned :=
    List.foldlRecOn turns _
      (motive := fun s' : State κ => s.returned <:+ s'.returned) List.suffix_rfl
      fun _ h turn _ => h.trans (returned_suffix_step c level turn)
  exact hsuffix.sublist.countP_le

/-- A call returns when its thread has had enough turns, whatever the other threads do. -/
theorem calls_lt_calls_foldl (c : Layout) (level : ℕ) {turns : List (Turn κ)}
    (h : s.place t ≠ .idle) (hturns : (s.place t).turnsLeft ≤ turns.countP (Turn.isGo t)) :
    s.calls t < (turns.foldl (fun s turn => s.step c level turn) s).calls t := by
  induction turns generalizing s with
  | nil =>
    rw [List.countP_nil, Nat.le_zero] at hturns
    cases hplace : s.place t <;> simp [hplace, Place.turnsLeft] at h hturns
  | cons turn rest ih =>
    rw [List.foldl_cons]
    cases turn with
    | call u addr =>
      obtain ⟨hplace, hcalls⟩ := call_of_busy h u (c.index level addr)
      rw [List.countP_cons_of_neg (by simp [Turn.isGo])] at hturns
      rw [← hcalls]
      exact ih (hplace ▸ h) (hplace ▸ hturns)
    | go u spurious =>
      by_cases hu : t = u
      · subst hu
        rw [List.countP_cons_of_pos (by simp [Turn.isGo])] at hturns
        rcases go_self h spurious with hlt | ⟨hbusy, hleft⟩
        · exact Nat.lt_of_lt_of_le hlt (calls_le_calls_foldl c level rest)
        · have hstep := calls_le_calls_foldl (s := s) (t := t) c level [.go t spurious]
          have hrest := ih hbusy (by omega)
          exact Nat.lt_of_le_of_lt hstep hrest
      · obtain ⟨hplace, hcalls⟩ := go_of_ne hu (s := s) spurious
        rw [List.countP_cons_of_neg (by simp [Turn.isGo, Ne.symm hu])] at hturns
        rw [← hcalls]
        exact ih (hplace ▸ h) (hplace ▸ hturns)

/-! ### Agreement -/

def Returned.child (r : Returned κ) : Option ℕ := r.outcome.child

/-- The call has made a child that has lost the race. -/
def Returned.Loses (r : Returned κ) (newItem : ℕ) : Prop :=
  ∃ n spurious, r.outcome = .lost newItem n spurious

/-- The exchange of the call has failed although the pointer was null. -/
def Returned.Spurious (r : Returned κ) : Prop :=
  ∃ newItem n, r.outcome = .lost newItem n true

/-- Calls return children, and for one index the same; children that lose are deleted once. -/
structure Agreement (s : State κ) : Prop where
  nonnull : ∀ r ∈ s.returned, r.child ≠ none
  same : ∀ r ∈ s.returned, ∀ r' ∈ s.returned, r.index = r'.index → r.child = r'.child
  deletedOnce : ∀ r ∈ s.returned, ∀ newItem, r.Loses newItem → s.deleted.count newItem = 1

omit [DecidableEq κ] in
/-- What a call returns is null after a spurious failure, and published otherwise. -/
theorem Returned.Ok.child_eq {r : Returned κ} (h : r.Ok s) :
    r.Spurious ∧ r.child = none ∨ ¬ r.Spurious ∧ r.child ≠ none ∧ s.mem r.index = r.child := by
  obtain ⟨t, index, outcome⟩ := r
  cases outcome with
  | found n => exact .inr ⟨nofun, nofun, h⟩
  | won newItem => exact .inr ⟨nofun, nofun, h⟩
  | lost newItem n spurious =>
    obtain ⟨-, hfound⟩ := h
    cases spurious with
    | true => exact .inl ⟨⟨newItem, n, rfl⟩, hfound⟩
    | false => exact .inr ⟨nofun, hfound⟩

omit [DecidableEq κ] in
theorem Inv.deletedOnce (h : Inv s) {r : Returned κ} (hr : r ∈ s.returned)
    (hloses : r.Loses newItem) : s.deleted.count newItem = 1 := by
  obtain ⟨n, spurious, houtcome⟩ := hloses
  have hok := h.returned r hr
  rw [Returned.Ok, houtcome] at hok
  exact List.count_eq_one_of_mem h.nodup hok.1

/-- No exchange has failed spuriously so far. -/
structure Strong (s : State κ) : Prop where
  place : ∀ t index newItem n, s.place t ≠ .deleting index newItem n true
  returned : ∀ r ∈ s.returned, ¬ r.Spurious

theorem Strong.goTo (h : Strong s) {p : Place}
    (hp : ∀ index newItem n, p ≠ .deleting index newItem n true) : Strong (s.goTo t p) := by
  refine ⟨fun u => ?_, h.returned⟩
  by_cases hu : u = t
  · rw [hu, State.goTo_place_self]
    exact hp
  · rw [State.goTo_place_of_ne hu]
    exact h.place u

theorem Strong.finish (h : Strong s) (outcome : Outcome)
    (houtcome : ∀ newItem n, outcome ≠ .lost newItem n true) :
    Strong (s.finish t index outcome) := by
  refine ⟨(h.goTo (p := .idle) nofun).place, fun r hr => ?_⟩
  rcases List.mem_cons.mp hr with rfl | hr
  · rintro ⟨newItem, n, heq⟩
    exact houtcome newItem n heq
  · exact h.returned r hr

theorem Strong.step (h : Strong s) (c : Layout) (level : ℕ) {turn : Turn κ}
    (hturn : ∀ t, turn ≠ .go t true) : Strong (s.step c level turn) := by
  cases turn with
  | call t addr =>
    rw [State.step, State.call]
    split
    · exact h.goTo nofun
    · exact h
  | go t spurious =>
    rw [State.step, State.go]
    split
    · exact h
    · split
      · exact h.finish _ nofun
      · exact h.goTo nofun
    · next index _ =>
      exact ⟨(h.goTo (p := .exchanging index _) nofun).place, h.returned⟩
    · next index newItem _ =>
      split
      · exact h.goTo nofun
      · split
        · next hspurious => exact absurd (hspurious ▸ rfl) (hturn t)
        · have hwon : Strong (s.finish t index (.won newItem)) := h.finish _ nofun
          exact ⟨hwon.place, hwon.returned⟩
    · next index newItem n spurious ht =>
      have hlost : Strong (s.finish t index (.lost newItem n spurious)) := by
        refine h.finish _ ?_
        rintro _ _ ⟨⟩
        exact h.place t index newItem n ht
      exact ⟨hlost.place, hlost.returned⟩

theorem strong_run (c : Layout) (level : ℕ) {turns : List (Turn κ)}
    (hturns : ∀ t, Turn.go t true ∉ turns) : Strong (run c level turns) := by
  have hinit : Strong (State.init : State κ) := ⟨nofun, fun _ hr => absurd hr List.not_mem_nil⟩
  refine List.foldlRecOn turns _ hinit fun _ h turn hturn => h.step c level ?_
  rintro t rfl
  exact hturns t hturn

/-- After any turns, calls agree exactly if none that has returned has had a spurious failure; this
is so when no turn makes an exchange fail. Every call returns after four turns of its thread,
whatever the others do. -/
theorem get_agreement_iff (c : Layout) (level : ℕ) (turns : List (Turn κ)) :
    (Agreement (run c level turns) ↔ ∀ r ∈ (run c level turns).returned, ¬ r.Spurious) ∧
      ((∀ t, Turn.go t true ∉ turns) → ∀ r ∈ (run c level turns).returned, ¬ r.Spurious) ∧
      ∀ t more, (run c level turns).place t ≠ .idle → 4 ≤ more.countP (Turn.isGo t) →
        (run c level turns).calls t < (run c level (turns ++ more)).calls t := by
  have hinv := inv_run c level turns
  refine ⟨⟨fun h r hr hspurious => ?_, fun h => ⟨fun r hr => ?_, fun r hr r' hr' hindex => ?_,
    fun r hr newItem => hinv.deletedOnce hr⟩⟩, fun hturns => (strong_run c level hturns).returned,
    fun t more hbusy hmore => ?_⟩
  · rcases (hinv.returned r hr).child_eq with ⟨-, hnull⟩ | ⟨hnot, -⟩
    · exact h.nonnull r hr hnull
    · exact hnot hspurious
  · rcases (hinv.returned r hr).child_eq with ⟨hspurious, -⟩ | ⟨-, hchild, -⟩
    · exact absurd hspurious (h r hr)
    · exact hchild
  · -- both have returned the published child
    have hmem {r : Returned κ} (hr : r ∈ (run c level turns).returned) :
        (run c level turns).mem r.index = r.child := by
      rcases (hinv.returned r hr).child_eq with ⟨hspurious, -⟩ | ⟨-, -, hmem⟩
      · exact absurd hspurious (h r hr)
      · exact hmem
    rw [← hmem hr, ← hmem hr', hindex]
  · rw [run, run, List.foldl_append]
    exact calls_lt_calls_foldl c level hbusy (Nat.le_trans (Place.turnsLeft_le_four _) hmore)

def layout32 : Layout := ⟨32, 0⟩

/-- Thread 0 finds no child, and its exchange fails spuriously: it returns the null pointer. Thread
1 then calls with the same address, and returns a child. -/
theorem spurious_failure_returns_null :
    (run layout32 1 [.call 0 0x10000, .go 0 false, .go 0 false, .go 0 true, .go 0 false,
        .call 1 0x10000, .go 1 false, .go 1 false, .go 1 false]).returned =
      [(⟨1, 1, .won 1⟩ : Returned ℕ), ⟨0, 1, .lost 0 none true⟩] ∧
    ¬ Agreement (run (κ := ℕ) layout32 1
      [.call 0 0x10000, .go 0 false, .go 0 false, .go 0 true, .go 0 false]) := by
  refine ⟨by decide, fun h => ?_⟩
  exact h.nonnull ⟨0, 1, .lost 0 none true⟩ (by decide) rfl

end Adl.Memory.NodeGet
