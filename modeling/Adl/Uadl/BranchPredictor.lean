import Adl.Math.Machine
import Mathlib.Data.List.Forall2

/-!
# Branch predictors with a counter

A branch predictor keeps branches in a queue of a fixed capacity, each with a counter of `2 ^ w`
states, of which the lower half predicts that the branch is taken (`uadl/BranchPredictor.h`).

The queue is a list here. It finds entries with an `int`, so that this needs that it has less than
`2 ^ 31` elements; and the number of states is shifted from an `int`.
-/

namespace Adl.Uadl

open Math

inductive Prediction where
  | noPrediction
  | miss
  | taken
  | notTaken
deriving DecidableEq

structure PredictData (α : Type) where
  addr : α
  target : α
  state : ℕ
  size : ℕ
  pred : Prediction
deriving DecidableEq

/-- The predictor is constructed with the capacity of its queue. -/
structure BranchPredictorCounter (α : Type) where
  capacity : ℕ
  states : ℕ
  thresh : ℕ
  preds : List (PredictData α)
  enabled : Bool

/-- How a branch has gone: the instruction's `branch_taken`, `branch_target` and `size`. -/
structure Outcome (α : Type) where
  taken : Bool
  target : α
  size : ℕ

inductive PredictorOp (α : Type) where
  | predict (addr : α)
  | update (addr : α) (outcome : Outcome α)

variable {α : Type}

namespace BranchPredictorCounter

/-- It is `none` if the shift is not defined. -/
def new (size counterWidth : ℕ) (enabled : Bool) : Option (BranchPredictorCounter α) :=
  if counterWidth < 32 then
    let states := 1 <<< counterWidth
    some ⟨size, states, states >>> 1, [], enabled⟩
  else none

section

variable [DecidableEq α] (b : BranchPredictorCounter α)

/-- The index of an entry, or -1. -/
def find (addr : α) : ℤ :=
  match b.preds.findIdx? (·.addr = addr) with
  | none => -1
  | some i => (BitVec.ofNat 32 i).toInt

def incrState (s : ℕ) : ℕ := if s < b.states then s + 1 else s

def decrState (s : ℕ) : ℕ := if 1 < s then s - 1 else s

/-- The prediction with target and size, which are set for taken branches only. -/
def forecast (e : PredictData α) : Prediction × Option (α × ℕ) :=
  if b.thresh < e.state then (.notTaken, none) else (.taken, some (e.target, e.size))

def doPredict (addr : α) : Option ((Prediction × Option (α × ℕ)) × BranchPredictorCounter α) :=
  if b.enabled then
    let it := b.find addr
    if 0 ≤ it then do
      let e ← b.preds[it.toNat]?
      let answer := b.forecast e
      let preds := b.preds.modify it.toNat fun e => { e with pred := answer.1 }
      some (answer, { b with preds })
    else some ((.miss, none), b)
  else some ((.noPrediction, none), b)

def learn (o : Outcome α) (e : PredictData α) : PredictData α :=
  if o.taken then { e with state := decrState e.state, target := o.target }
  else { e with state := b.incrState e.state }

def newEntry (addr : α) (o : Outcome α) : PredictData α where
  addr := addr
  target := o.target
  state := if o.taken then b.thresh else b.thresh + 1
  size := o.size
  pred := .noPrediction

def popFront : Option (List (PredictData α)) :=
  match b.preds with
  | [] => none
  | _ :: rest => some rest

/-- The queue after the oldest entry has made room, if that is needed. -/
def makeRoom : Option (List (PredictData α)) :=
  if b.preds.length = b.capacity then b.popFront else some b.preds

def update (addr : α) (o : Outcome α) : Option (BranchPredictorCounter α) :=
  if b.enabled then
    let it := b.find addr
    if it < 0 then do
      let preds ← b.makeRoom
      some { b with preds := preds ++ [b.newEntry addr o] }
    else some { b with preds := b.preds.modify it.toNat (b.learn o) }
  else some b

def step : PredictorOp α → Option (BranchPredictorCounter α)
  | .predict addr => (b.doPredict addr).map Prod.snd
  | .update addr o => b.update addr o

end

end BranchPredictorCounter

/-! ### Branches and their outcomes -/

/-- A branch, with its outcomes since it came into the queue. -/
structure Branch (α : Type) where
  addr : α
  first : Outcome α
  later : List (Outcome α)

namespace Branch

/-- A counter over `1 … 2 ^ w` that stops at both ends. -/
def saturate (w s : ℕ) (o : Outcome α) : ℕ := if o.taken then max 1 (s - 1) else min (2 ^ w) (s + 1)

/-- The counter starts next to the middle. -/
def counter (w : ℕ) (t : Branch α) : ℕ :=
  t.later.foldl (saturate w) (if t.first.taken then 2 ^ (w - 1) else 2 ^ (w - 1) + 1)

def lastTarget (t : Branch α) : Option α :=
  ((t.first :: t.later).filter (·.taken)).getLast?.map (·.target)

def add (t : Branch α) (o : Outcome α) : Branch α := { t with later := t.later ++ [o] }

def expected (w : ℕ) (t : Branch α) : Prediction × Option (α × ℕ) :=
  if t.counter w ≤ 2 ^ (w - 1) then (.taken, t.lastTarget.map (·, t.first.size))
  else (.notTaken, none)

theorem counter_add {w : ℕ} {t : Branch α} {o : Outcome α} :
    (t.add o).counter w = saturate w (t.counter w) o := by
  rw [counter, add, List.foldl_append]
  rfl

theorem lastTarget_add {t : Branch α} {o : Outcome α} :
    (t.add o).lastTarget = if o.taken then some o.target else t.lastTarget := by
  rw [lastTarget, add, ← List.cons_append, List.filter_append]
  split_ifs with h
  · simp [h]
  · simp [h, lastTarget]

end Branch

section

variable [DecidableEq α]

/-- The branches in the queue, the oldest one first. -/
def nextBranches (capacity : ℕ) (branches : List (Branch α)) : PredictorOp α → List (Branch α)
  | .predict _ => branches
  | .update addr o =>
    if addr ∈ branches.map (·.addr) then
      branches.map fun t => if t.addr = addr then t.add o else t
    else
      (if branches.length = capacity then branches.tail else branches) ++ [⟨addr, o, []⟩]

def expectedAt (w : ℕ) (branches : List (Branch α)) (addr : α) : Prediction × Option (α × ℕ) :=
  match branches.find? (·.addr = addr) with
  | none => (.miss, none)
  | some t => t.expected w

end

namespace BranchPredictorCounter

/-! ### Entries follow branches -/

/-- An entry has the state of its branch. Without an outcome that was taken, its target is not
used. -/
structure Follows (w : ℕ) (e : PredictData α) (t : Branch α) : Prop where
  addr : e.addr = t.addr
  state : e.state = t.counter w
  pos : 1 ≤ e.state
  le : e.state ≤ 2 ^ w
  size : e.size = t.first.size
  target : ∀ x, t.lastTarget = some x → e.target = x
  upper : t.lastTarget = none → 2 ^ (w - 1) < e.state

variable {w : ℕ} {e : PredictData α} {t : Branch α} {b : BranchPredictorCounter α}

theorem Follows.mark (h : Follows w e t) (pred : Prediction) : Follows w { e with pred } t :=
  ⟨h.addr, h.state, h.pos, h.le, h.size, h.target, h.upper⟩

theorem state_learn (hstates : b.states = 2 ^ w) (hpos : 1 ≤ e.state) (hle : e.state ≤ 2 ^ w)
    (o : Outcome α) : (b.learn o e).state = Branch.saturate w e.state o := by
  rw [learn, Branch.saturate]
  split_ifs
  · simp only [decrState]
    split_ifs <;> omega
  · simp only [incrState, hstates]
    split_ifs <;> omega

theorem two_pow_eq (hw : 0 < w) : 2 ^ w = 2 ^ (w - 1) + 2 ^ (w - 1) := by
  rw [← Nat.two_mul, Nat.mul_comm, Nat.two_pow_pred_mul_two hw]

theorem Follows.learn (h : Follows w e t) (hw : 0 < w) (hstates : b.states = 2 ^ w)
    (o : Outcome α) : Follows w (b.learn o e) (t.add o) := by
  have hpos := h.pos
  have hle := h.le
  have hmiddle := Nat.two_pow_pos (w - 1)
  have htwo := two_pow_eq hw
  have hstate := state_learn hstates hpos hle o
  have hsame : (b.learn o e).addr = e.addr ∧ (b.learn o e).size = e.size := by
    rw [BranchPredictorCounter.learn]
    split_ifs <;> exact ⟨rfl, rfl⟩
  refine ⟨hsame.1.trans h.addr, by rw [hstate, h.state, Branch.counter_add], ?_, ?_,
    hsame.2.trans h.size, fun x hx => ?_, fun hnone => ?_⟩
  · rw [hstate, Branch.saturate]
    split_ifs <;> omega
  · rw [hstate, Branch.saturate]
    split_ifs <;> omega
  · rw [Branch.lastTarget_add] at hx
    rw [BranchPredictorCounter.learn]
    split_ifs at hx ⊢ with ho
    · exact Option.some.inj hx
    · exact h.target x hx
  · -- nothing was taken, so the counter has only gone up
    rw [Branch.lastTarget_add] at hnone
    split_ifs at hnone with ho
    have hupper := h.upper hnone
    rw [hstate, Branch.saturate, if_neg ho]
    omega

theorem follows_newEntry (hw : 0 < w) (hthresh : b.thresh = 2 ^ (w - 1)) (addr : α)
    (o : Outcome α) : Follows w (b.newEntry addr o) ⟨addr, o, []⟩ := by
  have hmiddle := Nat.two_pow_pos (w - 1)
  have htwo := two_pow_eq hw
  have hstate : (b.newEntry addr o).state =
      if o.taken then 2 ^ (w - 1) else 2 ^ (w - 1) + 1 := by rw [newEntry, hthresh]
  have hlast : Branch.lastTarget ⟨addr, o, []⟩ = if o.taken then some o.target else none := by
    cases ho : o.taken <;> simp [Branch.lastTarget, ho]
  refine ⟨rfl, hstate, ?_, ?_, rfl, fun x hx => ?_, fun hnone => ?_⟩
  · rw [hstate]
    split_ifs <;> omega
  · rw [hstate]
    split_ifs <;> omega
  · rw [hlast] at hx
    split_ifs at hx
    exact Option.some.inj hx
  · rw [hlast] at hnone
    split_ifs at hnone with ho
    rw [hstate, if_neg ho]
    omega

theorem Follows.forecast (h : Follows w e t) (hthresh : b.thresh = 2 ^ (w - 1)) :
    b.forecast e = t.expected w := by
  have hupper := h.upper
  rw [BranchPredictorCounter.forecast, Branch.expected, hthresh, ← h.state, ← h.size]
  split_ifs with h₁ h₂
  · omega
  · rfl
  · -- a branch that is predicted taken has been taken once, so its target is known
    cases hlast : t.lastTarget with
    | none => exact absurd (hupper hlast) h₁
    | some x => rw [h.target x hlast]; rfl
  · omega

/-! ### The queue -/

/-- The predictor has been constructed for `n` entries and `w` bits, and its entries follow the
branches. -/
structure Predicts (n w : ℕ) (b : BranchPredictorCounter α) (branches : List (Branch α)) :
    Prop where
  capacity : b.capacity = n
  enabled : b.enabled = true
  states : b.states = 2 ^ w
  thresh : b.thresh = 2 ^ (w - 1)
  follows : List.Forall₂ (Follows w) b.preds branches
  nodup : (b.preds.map (·.addr)).Nodup
  length_le : b.preds.length ≤ n

variable {n : ℕ} {branches : List (Branch α)}

theorem map_addr_eq {l : List (PredictData α)} (h : List.Forall₂ (Follows w) l branches) :
    l.map (·.addr) = branches.map (·.addr) := by
  induction h with
  | nil => rfl
  | cons he _ ih => rw [List.map_cons, List.map_cons, he.addr, ih]

theorem Predicts.makeRoom (h : b.Predicts n w branches) (hpos : 0 < n) :
    ∃ l, b.makeRoom = some l ∧ l.length < n ∧ l <:+ b.preds ∧
      List.Forall₂ (Follows w) l
        (if branches.length = n then branches.tail else branches) := by
  have hfollows := h.follows
  have hle := h.length_le
  rw [BranchPredictorCounter.makeRoom, popFront, h.capacity, ← hfollows.length_eq]
  cases hpreds : b.preds with
  | nil =>
    rw [hpreds] at hfollows
    have hne : ([] : List (PredictData α)).length ≠ n := Nat.ne_of_lt hpos
    simp only [if_neg hne]
    exact ⟨[], rfl, hpos, List.suffix_refl _, hfollows⟩
  | cons e rest =>
    rw [hpreds] at hfollows hle
    rw [List.length_cons] at hle
    simp only [List.length_cons]
    split_ifs with hfull
    · obtain ⟨t, branches', -, hrest, rfl⟩ := List.forall₂_cons_left_iff.mp hfollows
      exact ⟨rest, rfl, by omega, List.suffix_cons _ _, hrest⟩
    · exact ⟨e :: rest, rfl, by rw [List.length_cons]; omega, List.suffix_refl _, hfollows⟩

variable [DecidableEq α]

theorem find_eq (hlen : b.preds.length < 2 ^ 31) (addr : α) :
    b.find addr = ((b.preds.findIdx? (·.addr = addr)).map Int.ofNat).getD (-1) := by
  rw [find]
  cases h : b.preds.findIdx? (·.addr = addr) with
  | none => rfl
  | some i =>
    have hi := (List.findIdx?_eq_some_iff_findIdx_eq.mp h).1
    -- the index stays positive as an `int`
    have htoNat : (BitVec.ofNat 32 i).toNat = i := by
      rw [BitVec.toNat_ofNat]
      exact Nat.mod_eq_of_lt (by omega)
    simp only [Option.map_some, Option.getD_some]
    rw [BitVec.toInt_eq_toNat_of_lt (by omega), htoNat]
    rfl

/-- With unique keys, changing the entry that is found is changing the entry of an address. -/
theorem modify_findIdx {l : List (PredictData α)} {addr : α} {i : ℕ}
    (hnodup : (l.map (·.addr)).Nodup) (hi : l.findIdx? (·.addr = addr) = some i)
    (f : PredictData α → PredictData α) :
    l.modify i f = l.map fun e => if e.addr = addr then f e else e := by
  induction l generalizing i with
  | nil => cases hi
  | cons e rest ih =>
    rw [List.map_cons, List.nodup_cons] at hnodup
    rw [List.findIdx?_cons] at hi
    by_cases he : e.addr = addr
    · simp only [he, decide_true, if_true, Option.some_inj] at hi
      subst hi
      have hrest : rest.map (fun e => if e.addr = addr then f e else e) = rest := by
        refine (List.map_congr_left fun e' he' => if_neg fun heq => ?_).trans (List.map_id' rest)
        exact hnodup.1 (List.mem_map.mpr ⟨e', he', heq.trans he.symm⟩)
      simp [he, hrest]
    · simp only [he, decide_false, Bool.false_eq_true, if_false] at hi
      obtain ⟨k, hk, rfl⟩ := Option.map_eq_some_iff.mp hi
      simp [he, ih hnodup.2 hk]

theorem find_follows {l : List (PredictData α)} {addr : α}
    (h : List.Forall₂ (Follows w) l branches) :
    (l.findIdx? (·.addr = addr) = none ∧ branches.find? (·.addr = addr) = none) ∨
      ∃ i e t, l.findIdx? (·.addr = addr) = some i ∧ l[i]? = some e ∧
        branches.find? (·.addr = addr) = some t ∧ Follows w e t := by
  induction h with
  | nil => exact .inl ⟨rfl, rfl⟩
  | @cons e t _ _ he _ ih =>
    rw [List.findIdx?_cons, List.find?_cons, ← he.addr]
    by_cases haddr : e.addr = addr
    · exact .inr ⟨0, e, t, by simp [haddr], rfl, by simp [haddr], he⟩
    · simp only [haddr, decide_false, Bool.false_eq_true, if_false]
      rcases ih with ⟨hidx, hfind⟩ | ⟨i, e', t', hidx, hget, hfind, he'⟩
      · exact .inl ⟨by rw [hidx]; rfl, hfind⟩
      · exact .inr ⟨i + 1, e', t', by rw [hidx]; rfl, hget, hfind, he'⟩

theorem Predicts.change (h : b.Predicts n w branches) {addr : α} {i : ℕ}
    (hi : b.preds.findIdx? (·.addr = addr) = some i) {f : PredictData α → PredictData α}
    {g : Branch α → Branch α} (hf : ∀ e, (f e).addr = e.addr)
    (hfg : ∀ e t, Follows w e t → Follows w (f e) (g t)) :
    Predicts n w { b with preds := b.preds.modify i f }
      (branches.map fun t => if t.addr = addr then g t else t) := by
  have hmap := modify_findIdx h.nodup hi f
  have haddr : (b.preds.map fun e => if e.addr = addr then f e else e).map (·.addr) =
      b.preds.map (·.addr) := by
    rw [List.map_map]
    refine List.map_congr_left fun e _ => ?_
    simp only [Function.comp_apply]
    split_ifs
    · exact hf e
    · rfl
  refine ⟨h.capacity, h.enabled, h.states, h.thresh, ?_, ?_, ?_⟩
  · simp only [hmap]
    refine List.rel_map (fun e t het => ?_) h.follows
    rw [← het.addr]
    split_ifs
    · exact hfg e t het
    · exact het
  · simp only [hmap, haddr]
    exact h.nodup
  · simp only [List.length_modify]
    exact h.length_le

theorem Predicts.doPredict (h : b.Predicts n w branches) (hn : n < 2 ^ 31) (addr : α) :
    ∃ b', b.doPredict addr = some (expectedAt w branches addr, b') ∧
      b'.Predicts n w branches := by
  rw [BranchPredictorCounter.doPredict, if_pos h.enabled,
    find_eq (Nat.lt_of_le_of_lt h.length_le hn), expectedAt]
  rcases @find_follows _ _ _ _ _ addr h.follows with
    ⟨hidx, hfind⟩ | ⟨i, e, t, hidx, hget, hfind, het⟩
  · rw [hidx, hfind]
    exact ⟨b, rfl, h⟩
  · rw [hidx, hfind]
    refine ⟨{ b with preds := b.preds.modify i fun e => { e with pred := (t.expected w).1 } },
      ?_, ?_⟩
    · simp [hget, het.forecast h.thresh]
    · have hchange := h.change hidx (f := fun e => { e with pred := (t.expected w).1 }) (g := id)
        (fun _ => rfl) fun e t het => het.mark _
      simpa using hchange

theorem Predicts.update (h : b.Predicts n w branches) (hpos : 0 < n) (hn : n < 2 ^ 31)
    (hw : 0 < w) (addr : α) (o : Outcome α) :
    ∃ b', b.update addr o = some b' ∧
      b'.Predicts n w (nextBranches n branches (.update addr o)) := by
  have hmem : (b.preds.findIdx? (·.addr = addr)).isSome ↔ addr ∈ b.preds.map (·.addr) := by
    simp [List.findIdx?_isSome]
  rw [BranchPredictorCounter.update, if_pos h.enabled,
    find_eq (Nat.lt_of_le_of_lt h.length_le hn), nextBranches, ← map_addr_eq h.follows]
  cases hidx : b.preds.findIdx? (·.addr = addr) with
  | some i =>
    rw [if_pos (hmem.mp (by rw [hidx]; rfl))]
    refine ⟨_, if_neg (Int.not_lt.mpr (Int.natCast_nonneg i)), ?_⟩
    refine h.change hidx (fun e => ?_) fun e t het => het.learn hw h.states o
    rw [learn]
    split_ifs <;> rfl
  | none =>
    have hnew : addr ∉ b.preds.map (·.addr) := fun hin => by simp [hidx, hin] at hmem
    obtain ⟨l, hl, hlt, hsuffix, hfollows⟩ := h.makeRoom hpos
    rw [if_neg hnew]
    refine ⟨{ b with preds := l ++ [b.newEntry addr o] }, by simp [hl], h.capacity, h.enabled,
      h.states, h.thresh, ?_, ?_, ?_⟩
    · exact List.rel_append hfollows (.cons (follows_newEntry hw h.thresh addr o) .nil)
    · -- what is left of the queue has its addresses from the queue, where the new one is not
      have hkeys := hsuffix.map (·.addr)
      rw [List.map_append, List.nodup_append]
      refine ⟨h.nodup.sublist hkeys.sublist, by simp, fun x hx y hy hxy => ?_⟩
      rw [List.map_singleton, List.mem_singleton] at hy
      exact hnew (hkeys.subset (by rwa [hxy, hy] at hx))
    · simpa using Nat.succ_le_of_lt hlt

/-- After any calls of a predictor for `n` entries and `w` bits, the addresses in its queue are
unique and at most `n`, and a branch is predicted as its outcomes since it came into the queue
say. -/
theorem run_predicts (hpos : 0 < n) (hn : n < 2 ^ 31) (hw : 0 < w) (hw' : w < 32)
    (ops : List (PredictorOp α)) :
    ∃ b₀ b, new n w true = some b₀ ∧ ops.foldlM step b₀ = some b ∧
      (b.preds.map (·.addr)).Nodup ∧ b.preds.length ≤ n ∧
      ∀ addr, ∃ b', b.doPredict addr =
        some (expectedAt w (ops.foldl (nextBranches n) []) addr, b') := by
  have hnew : (new n w true : Option (BranchPredictorCounter α)) =
      some ⟨n, 2 ^ w, 2 ^ (w - 1), [], true⟩ := by
    have hthresh : 2 ^ w >>> 1 = 2 ^ (w - 1) := by
      rw [Nat.shiftRight_one, two_pow_eq hw]
      omega
    rw [new, if_pos hw', Nat.one_shiftLeft]
    simp only [hthresh]
  have hstep (b : BranchPredictorCounter α) (branches : List (Branch α)) (op : PredictorOp α)
      (_ : True) (h : b.Predicts n w branches) :
      ∃ b', b.step op = some b' ∧ b'.Predicts n w (nextBranches n branches op) := by
    cases op with
    | predict addr =>
      obtain ⟨b', hb', hpredicts⟩ := h.doPredict hn addr
      exact ⟨b', by rw [step, hb']; rfl, hpredicts⟩
    | update addr o => exact h.update hpos hn hw addr o
  have hfirst : Predicts n w (⟨n, 2 ^ w, 2 ^ (w - 1), [], true⟩ : BranchPredictorCounter α) [] :=
    ⟨rfl, rfl, rfl, rfl, .nil, .nil, Nat.zero_le _⟩
  obtain ⟨b, hrun, h⟩ := foldlM_refines hstep (permits_true ops) hfirst
  refine ⟨_, b, hnew, hrun, h.nodup, h.length_le, fun addr => ?_⟩
  obtain ⟨b', hb', -⟩ := h.doPredict hn addr
  exact ⟨b', hb'⟩

/-- A predictor with one entry. -/
def loopOps : List (PredictorOp ℕ) :=
  [.update 4 ⟨true, 16, 4⟩, .predict 4, .update 8 ⟨false, 20, 4⟩, .update 8 ⟨true, 24, 4⟩]

theorem run_loop :
    ∃ b₀ b, new 1 2 true = some b₀ ∧ loopOps.foldlM step b₀ = some b ∧
      (b.preds.map (·.addr)).Nodup ∧ b.preds.length ≤ 1 ∧
      (∃ b', b.doPredict 8 = some ((.taken, some (24, 4)), b')) ∧
      ∃ b', b.doPredict 4 = some ((.miss, none), b') := by
  obtain ⟨b₀, b, hnew, hrun, hnodup, hlen, hpredict⟩ :=
    run_predicts (n := 1) (w := 2) (by decide) (by decide) (by decide) (by decide) loopOps
  exact ⟨b₀, b, hnew, hrun, hnodup, hlen, hpredict 8, hpredict 4⟩

/-- There is no predictor with a counter of 32 bits. -/
theorem new_wide : (new 8 32 true : Option (BranchPredictorCounter ℕ)) = none := rfl

end BranchPredictorCounter

end Adl.Uadl
