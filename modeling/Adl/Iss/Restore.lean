import Mathlib.Data.List.Nodup
import Adl.Math.Linked

/-!
# Writes that wait, and writes that can be undone

`CommitQueue` keeps writes that are to be done later, `RestoreStack` the old values of locations, to
be written back in reverse order (`iss/ModelSupport.h`). The queue uses its loop for commits also to
reset, so that a reset performs the writes instead of dropping them.
-/

namespace Adl.Iss

open Adl.Math

variable {ν : Type*}

inductive Effect (ν : Type*) where
  | commit (w : ν)
  | free (w : ν)
deriving DecidableEq

def Effect.performed : Effect ν → Option ν
  | .commit w => some w
  | .free _ => none

/-- The first element of the stack, and the links in the elements. -/
structure RestoreStack (ν : Type*) where
  head : Option ν
  nextp : ν → Option ν

/-- A queue has a pointer to the last element, too. -/
structure CommitQueue (ν : Type*) extends RestoreStack ν where
  tail : Option ν

/-- The loop that takes elements from the front up to the element `last`. The link of an element is
read before anything is done to it. There is no result at the end of the list. -/
def scan [DecidableEq ν] (each : ν → List (Effect ν)) (nextp : ν → Option ν) (last : Option ν) :
    ℕ → Option ν → Option (List (Effect ν))
  | 0, p => if p = last then some [] else none
  | fuel + 1, p =>
    if p = last then some []
    else do
      let w ← p
      let rest ← scan each nextp last fuel (nextp w)
      some (each w ++ rest)

variable [DecidableEq ν]

namespace RestoreStack

def empty : RestoreStack ν where
  head := none
  nextp := fun _ => none

variable (s : RestoreStack ν)

def add (w : ν) : RestoreStack ν :=
  match s.head with
  | none => ⟨some w, Function.update s.nextp w none⟩
  | some head => ⟨some w, Function.update s.nextp w (some head)⟩

/-- Commits and frees elements from the front up to the element `last`. -/
def commit (fuel : ℕ) (last : Option ν) : Option (List (Effect ν) × RestoreStack ν) := do
  let effects ← scan (fun w => [.commit w, .free w]) s.nextp last fuel s.head
  some (effects, { s with head := last })

def reset (fuel : ℕ) : Option (List (Effect ν) × RestoreStack ν) := do
  let effects ← scan (fun w => [.free w]) s.nextp none fuel s.head
  some (effects, { s with head := none })

end RestoreStack

namespace CommitQueue

def empty : CommitQueue ν where
  toRestoreStack := .empty
  tail := none

variable (q : CommitQueue ν)

/-- Adds to the back. There is no result when the last element is missing. -/
def add (w : ν) : Option (CommitQueue ν) :=
  match q.head with
  | none => some { head := some w, tail := some w, nextp := Function.update q.nextp w none }
  | some head => do
    let tail ← q.tail
    let nextp := Function.update q.nextp tail (some w)
    some { head := some head, tail := some w, nextp := Function.update nextp w none }

def commit (fuel : ℕ) : Option (List (Effect ν) × CommitQueue ν) := do
  let (effects, s) ← q.toRestoreStack.commit fuel none
  some (effects, { s with tail := none })

/-- Calls `RestoreStack::commit`, and not `RestoreStack::reset`. -/
def reset (fuel : ℕ) : Option (List (Effect ν) × CommitQueue ν) := q.commit fuel

end CommitQueue

/-! ### The loop -/

/-- The loop visits the elements before `last` in the order of their links. -/
theorem scan_eq {each : ν → List (Effect ν)} {nextp : ν → Option ν} {p : Option ν} {l l' : List ν}
    {fuel : ℕ} (h : Linked nextp p (l ++ l')) (hlast : ∀ x ∈ l, l'.head? ≠ some x)
    (hfuel : l.length ≤ fuel) :
    scan each nextp l'.head? fuel p = some (l.flatMap each) := by
  induction l generalizing p fuel with
  | nil =>
    have hp : p = l'.head? := h.head_eq
    cases fuel <;> exact if_pos hp
  | cons x l ih =>
    cases fuel with
    | zero => exact absurd hfuel (Nat.not_succ_le_zero _)
    | succ fuel =>
      obtain ⟨rfl, hrest⟩ := h
      rw [scan, if_neg (hlast x List.mem_cons_self).symm, Option.bind_eq_bind, Option.bind_some,
        ih hrest (fun y hy => hlast y (List.mem_cons_of_mem _ hy)) (Nat.le_of_succ_le_succ hfuel)]
      rfl

theorem scan_all {each : ν → List (Effect ν)} {nextp : ν → Option ν} {p : Option ν} {l : List ν}
    {fuel : ℕ} (h : Linked nextp p l) (hfuel : l.length ≤ fuel) :
    scan each nextp none fuel p = some (l.flatMap each) :=
  @scan_eq _ _ _ _ _ l [] _ (by rwa [List.append_nil]) (fun _ _ => nofun) hfuel

theorem RestoreStack.add_eq (s : RestoreStack ν) (w : ν) :
    s.add w = ⟨some w, Function.update s.nextp w s.head⟩ := by
  rw [add]
  cases s.head <;> rfl

theorem RestoreStack.linked_add {s : RestoreStack ν} {l : List ν} {w : ν}
    (h : Linked s.nextp s.head l) (hw : w ∉ l) :
    Linked (s.add w).nextp (s.add w).head (w :: l) := by
  rw [add_eq]
  exact h.prepend (c := []) (.singleton w) (List.nodup_singleton w) hw

/-! ### Resets -/

/-- A queue with these elements, in the order of its links. -/
structure CommitQueue.Holds (q : CommitQueue ν) (l : List ν) : Prop where
  linked : Linked q.nextp q.head l
  tail : q.tail = l.getLast?

omit [DecidableEq ν] in
theorem CommitQueue.Holds.congr {q : CommitQueue ν} {l : List ν} (h : q.Holds l)
    {nextp : ν → Option ν} (hframe : ∀ x ∈ l, nextp x = q.nextp x) :
    CommitQueue.Holds ⟨⟨q.head, nextp⟩, q.tail⟩ l :=
  ⟨h.linked.congr hframe, h.tail⟩

/-- Only the links of the last element and of the new one change. -/
theorem CommitQueue.Holds.add {q : CommitQueue ν} {l : List ν} (h : q.Holds l) {w : ν}
    (hnodup : (l ++ [w]).Nodup) :
    ∃ q', q.add w = some q' ∧ q'.Holds (l ++ [w]) ∧
      ∀ x, x ≠ w → x ∉ l → q'.nextp x = q.nextp x := by
  obtain ⟨hl, -, hdisjoint⟩ := List.nodup_append'.mp hnodup
  have hw : w ∉ l := fun hmem => hdisjoint hmem (List.mem_singleton_self w)
  have hhead := h.linked.head_eq
  rw [CommitQueue.add]
  rcases List.eq_nil_or_concat l with rfl | ⟨l, x, rfl⟩
  · rw [hhead]
    exact ⟨_, rfl, ⟨⟨rfl, Function.update_self ..⟩, rfl⟩,
      fun x hx _ => Function.update_of_ne hx ..⟩
  · rw [List.concat_eq_append] at *
    obtain ⟨first, hfirst⟩ : ∃ first, (l ++ [x]).head? = some first := by
      cases l <;> exact ⟨_, rfl⟩
    have hlinked := h.linked
    rw [hhead, hfirst] at hlinked
    rw [hhead, hfirst, h.tail, List.getLast?_concat]
    refine ⟨_, rfl, ⟨hlinked.push hl hw, by rw [List.getLast?_concat]⟩, fun y hy hyl => ?_⟩
    have hyx : y ≠ x := fun heq => hyl (by simp [heq])
    exact (Function.update_of_ne hy ..).trans (Function.update_of_ne hyx ..)

theorem CommitQueue.Holds.adds {q : CommitQueue ν} {l ws : List ν} (h : q.Holds l)
    (hnodup : (l ++ ws).Nodup) :
    ∃ q', ws.foldlM CommitQueue.add q = some q' ∧ q'.Holds (l ++ ws) := by
  induction ws generalizing q l with
  | nil => exact ⟨q, rfl, by rwa [List.append_nil]⟩
  | cons w ws ih =>
    rw [List.append_cons] at hnodup ⊢
    obtain ⟨q₁, hadd, h₁, -⟩ := h.add hnodup.of_append_left
    obtain ⟨q', hrest, h'⟩ := ih h₁ hnodup
    refine ⟨q', ?_, h'⟩
    rw [List.foldlM_cons, hadd]
    exact hrest

theorem RestoreStack.linked_adds {s : RestoreStack ν} {l ws : List ν}
    (h : Linked s.nextp s.head l) (hnodup : (ws.reverse ++ l).Nodup) :
    Linked (ws.foldl RestoreStack.add s).nextp (ws.foldl RestoreStack.add s).head
      (ws.reverse ++ l) := by
  induction ws generalizing s l with
  | nil => exact h
  | cons w ws ih =>
    rw [List.reverse_cons, List.append_assoc] at hnodup ⊢
    have hw : w ∉ l := (List.nodup_cons.mp hnodup.of_append_right).1
    exact ih (linked_add h hw) hnodup

/-- No write is performed, and every element is freed exactly once. -/
def Drops (ws : List ν) (effects : List (Effect ν)) : Prop := effects.Perm (ws.map .free)

def committed (ws : List ν) : List (Effect ν) := ws.flatMap fun w => [.commit w, .free w]

omit [DecidableEq ν] in
theorem performed_committed (ws : List ν) : (committed ws).filterMap Effect.performed = ws := by
  induction ws with
  | nil => rfl
  | cons w ws ih => exact congrArg (w :: ·) ih

theorem CommitQueue.Holds.commit {q : CommitQueue ν} {l : List ν} (h : q.Holds l) {fuel : ℕ}
    (hfuel : l.length ≤ fuel) :
    q.commit fuel = some (committed l, ⟨⟨none, q.nextp⟩, none⟩) := by
  rw [CommitQueue.commit, RestoreStack.commit, scan_all h.linked hfuel]
  rfl

theorem count_free_committed (ws : List ν) (w : ν) :
    (committed ws).count (.free w) = ws.count w := by
  induction ws with
  | nil => rfl
  | cons x ws ih =>
    have hcons : committed (x :: ws) = .commit x :: .free x :: committed ws := rfl
    rw [hcons, List.count_cons, List.count_cons, ih, List.count_cons]
    simp

omit [DecidableEq ν] in
theorem drops_committed_iff (ws : List ν) : Drops ws (committed ws) ↔ ws = [] := by
  constructor
  · intro hdrops
    cases ws with
    | nil => rfl
    | cons w ws =>
      -- the first write is performed
      have hcommit : Effect.commit w ∈ (w :: ws).map Effect.free :=
        hdrops.mem_iff.mp List.mem_cons_self
      obtain ⟨_, -, heq⟩ := List.mem_map.mp hcommit
      cases heq
  · rintro rfl
    exact List.Perm.refl _

/-- A reset of a stack drops all elements. A reset of a queue also frees them once and leaves the
queue empty, but drops them only if there are none. -/
theorem reset_drops_iff (ws : List ν) (hnodup : ws.Nodup) (s : RestoreStack ν) (hs : s.head = none)
    (q : CommitQueue ν) (hq : q.head = none ∧ q.tail = none) (fuel : ℕ) (hfuel : ws.length ≤ fuel) :
    (∃ effects s', (ws.foldl RestoreStack.add s).reset fuel = some (effects, s') ∧
        s'.head = none ∧ Drops ws effects) ∧
      ∃ effects q', (ws.foldlM CommitQueue.add q).bind (·.reset fuel) = some (effects, q') ∧
        q'.head = none ∧ q'.tail = none ∧ (∀ w ∈ ws, effects.count (.free w) = 1) ∧
        (Drops ws effects ↔ ws = []) := by
  constructor
  · have hlinked : Linked (ws.foldl RestoreStack.add s).nextp (ws.foldl RestoreStack.add s).head
        (ws.reverse ++ []) :=
      RestoreStack.linked_adds hs (by rwa [List.append_nil, List.nodup_reverse])
    rw [List.append_nil] at hlinked
    refine ⟨_, _, by rw [RestoreStack.reset, scan_all hlinked (by rwa [List.length_reverse])]; rfl,
      rfl, ?_⟩
    rw [Drops, ← List.map_eq_flatMap]
    exact (List.reverse_perm ws).map _
  · -- the reset of a queue calls `commit` of the stack, which performs the writes
    obtain ⟨q', hadds, h'⟩ := CommitQueue.Holds.adds (q := q) (l := []) ⟨hq.1, hq.2⟩ hnodup
    refine ⟨committed ws, ⟨⟨none, q'.nextp⟩, none⟩, ?_, rfl, rfl,
      fun w hw => ?_, drops_committed_iff ws⟩
    · rw [hadds, Option.bind_some, CommitQueue.reset, h'.commit hfuel]
      rfl
    · rw [count_free_committed, List.count_eq_one_of_mem hnodup hw]

/-- A stack with two elements. -/
theorem reset_drops_two :
    ([0, 1] : List ℕ).Nodup ∧
      ∃ effects s', ([0, 1].foldl RestoreStack.add RestoreStack.empty).reset 2 =
        some (effects, s') ∧ s'.head = none ∧ Drops [0, 1] effects :=
  ⟨by decide, (reset_drops_iff [0, 1] (by decide) .empty rfl .empty ⟨rfl, rfl⟩ 2 le_rfl).1⟩

/-- A write that waits is performed by the reset. -/
theorem reset_performs_write :
    ([0].foldlM CommitQueue.add CommitQueue.empty).bind (fun q => (q.reset 1).map Prod.fst) =
      some [.commit 0, .free 0] := by
  decide

/-! ### Restores -/

section Journal

variable {L V : Type*} [DecidableEq L]

/-- A store, with the old values of locations in the elements of a stack. -/
structure Journal (ν L V : Type*) where
  stack : RestoreStack ν
  /-- The location of an element, and its old value. -/
  saved : ν → L × V
  store : L → V

structure JournalWrite (ν L V : Type*) where
  element : ν
  loc : L
  value : V

namespace Journal

variable {store : L → V} {j : Journal ν L V}

/-- The restore of the old value is added, and then the location is written. -/
def write (j : Journal ν L V) (x : JournalWrite ν L V) : Journal ν L V where
  stack := j.stack.add x.element
  saved := Function.update j.saved x.element (x.loc, j.store x.loc)
  store := Function.update j.store x.loc x.value

/-- The commit of an element restores its location. -/
def perform (saved : ν → L × V) (store : L → V) : Effect ν → L → V
  | .commit w => Function.update store (saved w).1 (saved w).2
  | .free _ => store

def commit (j : Journal ν L V) (fuel : ℕ) (last : Option ν) : Option (Journal ν L V) :=
  (j.stack.commit fuel last).map fun (effects, stack) =>
    { j with stack := stack, store := effects.foldl (perform j.saved) j.store }

/-! The history of a store is a list of writes, the last one first. -/

def written (store : L → V) : List (JournalWrite ν L V) → L → V
  | [] => store
  | x :: rest => Function.update (written store rest) x.loc x.value

/-- The elements hold the locations of their writes and the values from before. -/
def Saved (saved : ν → L × V) (store : L → V) : List (JournalWrite ν L V) → Prop
  | [] => True
  | x :: rest => saved x.element = (x.loc, written store rest x.loc) ∧ Saved saved store rest

omit [DecidableEq ν] in
/-- Restoring the latest writes, the last one first, brings back the store from before. -/
theorem perform_committed {saved : ν → L × V} {later earlier : List (JournalWrite ν L V)}
    (h : Saved saved store (later ++ earlier)) :
    (committed (later.map (·.element))).foldl (perform saved) (written store (later ++ earlier)) =
      written store earlier := by
  induction later with
  | nil => rfl
  | cons x later ih =>
    have hx : saved x.element = (x.loc, written store (later ++ earlier) x.loc) := h.1
    have hundo : perform saved (written store (x :: (later ++ earlier))) (.commit x.element) =
        written store (later ++ earlier) := by
      rw [perform, hx]
      dsimp only
      rw [written, Function.update_idem, Function.update_eq_self]
    have hcons : committed ((x :: later).map (·.element)) =
        .commit x.element :: .free x.element :: committed (later.map (·.element)) := rfl
    rw [hcons, List.foldl_cons, List.foldl_cons, List.cons_append, hundo]
    exact ih h.2

theorem Saved.update {saved : ν → L × V} {hist : List (JournalWrite ν L V)}
    (h : Saved saved store hist) {w : ν} (hw : w ∉ hist.map (·.element)) (y : L × V) :
    Saved (Function.update saved w y) store hist := by
  induction hist with
  | nil => trivial
  | cons x hist ih =>
    rw [List.map_cons, List.mem_cons, not_or] at hw
    refine ⟨?_, ih h.2 hw.2⟩
    rw [Function.update_of_ne (Ne.symm hw.1)]
    exact h.1

structure Holds (j : Journal ν L V) (store : L → V) (hist : List (JournalWrite ν L V)) :
    Prop where
  linked : Linked j.stack.nextp j.stack.head (hist.map (·.element))
  saved : Saved j.saved store hist
  store_eq : j.store = written store hist

theorem Holds.write {hist : List (JournalWrite ν L V)}
    (h : j.Holds store hist) {x : JournalWrite ν L V} (hx : x.element ∉ hist.map (·.element)) :
    (j.write x).Holds store (x :: hist) where
  linked := RestoreStack.linked_add h.linked hx
  saved := by
    refine ⟨?_, h.saved.update hx _⟩
    rw [← h.store_eq]
    exact Function.update_self ..
  store_eq := by
    rw [written, ← h.store_eq]
    rfl

theorem Holds.writes {hist ws : List (JournalWrite ν L V)} (h : j.Holds store hist)
    (hnodup : ((ws.reverse ++ hist).map (·.element)).Nodup) :
    (ws.foldl Journal.write j).Holds store (ws.reverse ++ hist) := by
  induction ws generalizing j hist with
  | nil => exact h
  | cons x ws ih =>
    rw [List.reverse_cons, List.append_assoc] at hnodup ⊢
    refine ih (h.write ?_) hnodup
    rw [List.map_append] at hnodup
    exact (List.nodup_cons.mp hnodup.of_append_right).1

theorem Holds.commit {later earlier : List (JournalWrite ν L V)}
    (h : j.Holds store (later ++ earlier)) (hnodup : ((later ++ earlier).map (·.element)).Nodup)
    {fuel : ℕ} (hfuel : later.length ≤ fuel) :
    ∃ j', j.commit fuel (earlier.map (·.element)).head? = some j' ∧
      j'.store = written store earlier := by
  have hlinked := h.linked
  rw [List.map_append] at hlinked hnodup
  -- the loop does not meet the element it stops at before it has restored all later writes
  have hlast : ∀ x ∈ later.map (·.element), (earlier.map (·.element)).head? ≠ some x :=
    fun x hx heq => (List.nodup_append'.mp hnodup).2.2 hx (List.mem_of_head? heq)
  have hcommit : j.stack.commit fuel (earlier.map (·.element)).head? = some
      (committed (later.map (·.element)),
        { j.stack with head := (earlier.map (·.element)).head? }) := by
    rw [RestoreStack.commit, scan_eq hlinked hlast (by rwa [List.length_map])]
    rfl
  refine ⟨_, by rw [Journal.commit, hcommit, Option.map_some], ?_⟩
  dsimp only
  rw [h.store_eq]
  exact perform_committed h.saved

end Journal

/-- After any sequence of writes, a commit of the stack brings back the store from before, and a
commit up to an element the store from right after the write of this element. -/
theorem restore_undoes (j : Journal ν L V) (hj : j.stack.head = none)
    (ws : List (JournalWrite ν L V)) (hnodup : (ws.map (·.element)).Nodup) (fuel : ℕ)
    (hfuel : ws.length ≤ fuel) :
    (∃ j', (ws.foldl Journal.write j).commit fuel none = some j' ∧ j'.store = j.store) ∧
      ∀ before x after, ws = before ++ x :: after →
        ∃ j', (ws.foldl Journal.write j).commit fuel (some x.element) = some j' ∧
          j'.store = ((before ++ [x]).foldl Journal.write j).store := by
  -- the stack has the last write first
  have hstart : j.Holds j.store [] := ⟨hj, trivial, rfl⟩
  have hrun (ws : List (JournalWrite ν L V)) (hnodup : (ws.map (·.element)).Nodup) :
      (ws.foldl Journal.write j).Holds j.store ws.reverse := by
    rw [← List.append_nil ws.reverse]
    apply hstart.writes
    rwa [List.append_nil, List.map_reverse, List.nodup_reverse]
  have hreverse : (ws.reverse.map (·.element)).Nodup := by
    rwa [List.map_reverse, List.nodup_reverse]
  constructor
  · have hholds := hrun ws hnodup
    rw [← List.append_nil ws.reverse] at hholds hreverse
    exact hholds.commit hreverse (by rwa [List.length_reverse])
  · rintro before x after rfl
    have hsplit : (before ++ x :: after).reverse = after.reverse ++ (before ++ [x]).reverse := by
      rw [List.append_cons, List.reverse_append]
    have hholds := hrun _ hnodup
    rw [hsplit] at hholds hreverse
    have hbefore : ((before ++ [x]).map (·.element)).Nodup := by
      rw [List.append_cons, List.map_append] at hnodup
      exact hnodup.of_append_left
    have hafter : after.reverse.length ≤ fuel := by
      rw [List.length_append, List.length_cons] at hfuel
      rw [List.length_reverse]
      omega
    obtain ⟨j', hcommit, hstore⟩ := hholds.commit hreverse hafter
    have hlast : ((before ++ [x]).reverse.map (·.element)).head? = some x.element := by
      rw [List.reverse_append]
      rfl
    rw [hlast] at hcommit
    exact ⟨j', hcommit, hstore.trans (hrun _ hbefore).store_eq.symm⟩

/-- A location is written twice, and a location in between. -/
theorem restore_undoes_three :
    let j : Journal ℕ ℕ ℕ := ⟨.empty, fun _ => (0, 0), fun _ => 0⟩
    let ws : List (JournalWrite ℕ ℕ ℕ) := [⟨0, 4, 1⟩, ⟨1, 5, 2⟩, ⟨2, 4, 3⟩]
    (ws.map (·.element)).Nodup ∧
      ∃ j', (ws.foldl Journal.write j).commit 3 (some 1) = some j' ∧
        j'.store = ((ws.take 2).foldl Journal.write j).store :=
  ⟨by decide, (restore_undoes ⟨.empty, fun _ => (0, 0), fun _ => 0⟩ rfl
    [⟨0, 4, 1⟩, ⟨1, 5, 2⟩, ⟨2, 4, 3⟩] (by decide) 3 le_rfl).2 [⟨0, 4, 1⟩] ⟨1, 5, 2⟩ [⟨2, 4, 3⟩] rfl⟩

end Journal

end Adl.Iss
