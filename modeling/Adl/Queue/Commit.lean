import Adl.Iss.Restore

/-!
# Delayed commits

A write takes effect at the end of a later cycle. `CommitQueues` has a queue for each of the next
`D` cycles and reuses them in turn. The number of queues is a `size_t`, whereas the current queue
and delays are unsigned numbers of 32 bits, whose sum may wrap around.
-/

namespace Adl.Queue

open Math Iss

/-- `unsigned`. -/
abbrev Delay := BitVec 32

/-- Each queue has a pointer to its first and one to its last write. The links are in the writes, so
that all queues share them. -/
structure CommitQueues (ν : Type) where
  q : ℕ → Option ν × Option ν
  cur : BitVec 32
  nextp : ν → Option ν

abbrev Add (ν : Type) := ν × Delay

variable {ν : Type} [DecidableEq ν]

namespace CommitQueues

variable (d : ℕ)

def init : CommitQueues ν := ⟨fun _ => (none, none), 0, fun _ => none⟩

def queue (s : CommitQueues ν) (i : ℕ) : CommitQueue ν := ⟨⟨(s.q i).1, s.nextp⟩, (s.q i).2⟩

def setQueue (s : CommitQueues ν) (i : ℕ) (c : CommitQueue ν) : CommitQueues ν :=
  { s with q := Function.update s.q i (c.head, c.tail), nextp := c.nextp }

def addTo (s : CommitQueues ν) (i : ℕ) (w : ν) : Option (CommitQueues ν) :=
  ((s.queue i).add w).map (s.setQueue i)

def add (s : CommitQueues ν) (a : Add ν) : Option (CommitQueues ν) :=
  s.addTo ((s.cur + a.2).toNat % d) a.1

/-- The writes that the current queue performs. -/
def commit (fuel : ℕ) (s : CommitQueues ν) : Option (List ν × CommitQueues ν) := do
  let i := s.cur.toNat
  let (effects, c) ← (s.queue i).commit fuel
  some (effects.filterMap Effect.performed, s.setQueue i c)

def next (s : CommitQueues ν) : CommitQueues ν :=
  { s with cur := BitVec.ofNat 32 ((s.cur + 1).toNat % d) }

/-- A cycle: writes are added, the current queue is committed, and the next one becomes current. -/
def cycle (fuel : ℕ) (s : CommitQueues ν) (adds : List (Add ν)) :
    Option (List ν × CommitQueues ν) := do
  let s ← adds.foldlM (add d) s
  let (committed, s) ← s.commit fuel
  some (committed, s.next d)

def run (fuel : ℕ) : CommitQueues ν → List (List (Add ν)) → Option (List (List ν))
  | _, [] => some []
  | s, adds :: rest => do
    let (committed, s) ← s.cycle d fuel adds
    let later ← run fuel s rest
    some (committed :: later)

end CommitQueues

/-! ### What is due -/

/-- The writes that are to be committed in the cycle `v`, in the order in which they are added. The
schedule begins in the cycle `u`. -/
def dueFrom (u : ℕ) (schedule : List (List (Add ν))) (v : ℕ) : List ν :=
  (schedule.zipIdx u).flatMap fun e => (e.1.filter fun a => e.2 + a.2.toNat = v).map Prod.fst

def due (schedule : List (List (Add ν))) (v : ℕ) : List ν := dueFrom 0 schedule v

/-- The writes that wait, each with its cycle, after more have been added in the cycle `u`. -/
def pendingAfter (u : ℕ) (pending : List (ν × ℕ)) (adds : List (Add ν)) : List (ν × ℕ) :=
  pending ++ adds.map fun a => (a.1, u + a.2.toNat)

def waiting (pending : List (ν × ℕ)) (u : ℕ) : List ν :=
  (pending.filter fun p => p.2 = u).map Prod.fst

/-- Delays are smaller than the number of queues, and a write that waits is not added again. -/
def Fits (d u : ℕ) (pending : List (ν × ℕ)) : List (List (Add ν)) → Prop
  | [] => True
  | adds :: rest =>
    (∀ a ∈ adds, a.2.toNat < d) ∧ ((pendingAfter u pending adds).map Prod.fst).Nodup ∧
      Fits d (u + 1) ((pendingAfter u pending adds).filter fun p => p.2 ≠ u) rest

omit [DecidableEq ν] in
@[simp] theorem waiting_append (pending pending' : List (ν × ℕ)) (v : ℕ) :
    waiting (pending ++ pending') v = waiting pending v ++ waiting pending' v := by
  rw [waiting, List.filter_append, List.map_append, waiting, waiting]

omit [DecidableEq ν] in
theorem mem_waiting {pending : List (ν × ℕ)} {v : ℕ} {w : ν} :
    w ∈ waiting pending v ↔ (w, v) ∈ pending := by
  simp [waiting]

omit [DecidableEq ν] in
theorem nodup_waiting {pending : List (ν × ℕ)} (h : (pending.map Prod.fst).Nodup) (v : ℕ) :
    (waiting pending v).Nodup :=
  (List.filter_sublist.map Prod.fst).nodup h

omit [DecidableEq ν] in
theorem waiting_filter_ne {pending : List (ν × ℕ)} {u v : ℕ} (hv : u + 1 ≤ v) :
    waiting (pending.filter fun p => p.2 ≠ u) v = waiting pending v := by
  rw [waiting, List.filter_filter, waiting]
  congr 2
  funext p
  by_cases hp : p.2 = v
  · simp only [hp, decide_true, Bool.true_and, decide_eq_true_eq]
    omega
  · simp [hp]

omit [DecidableEq ν] in
theorem dueFrom_cons (u v : ℕ) (adds : List (Add ν)) (rest : List (List (Add ν))) :
    dueFrom u (adds :: rest) v =
      (adds.filter fun a => u + a.2.toNat = v).map Prod.fst ++ dueFrom (u + 1) rest v := by
  rw [dueFrom, List.zipIdx_cons, List.flatMap_cons, dueFrom]

omit [DecidableEq ν] in
theorem dueFrom_of_lt {u v : ℕ} (h : v < u) (schedule : List (List (Add ν))) :
    dueFrom u schedule v = [] := by
  induction schedule generalizing u with
  | nil => rfl
  | cons adds rest ih =>
    have hnone : (adds.filter fun a => u + a.2.toNat = v) = [] := by
      rw [List.filter_eq_nil_iff]
      intro a _
      simp only [decide_eq_true_eq]
      omega
    rw [dueFrom_cons, hnone, ih (Nat.lt_succ_of_lt h)]
    rfl

omit [DecidableEq ν] in
theorem eq_of_mem_waiting {pending : List (ν × ℕ)} (h : (pending.map Prod.fst).Nodup) {v v' : ℕ}
    {w : ν} (hv : w ∈ waiting pending v) (hv' : w ∈ waiting pending v') : v = v' := by
  have := List.inj_on_of_nodup_map h (mem_waiting.mp hv) (mem_waiting.mp hv') rfl
  exact (Prod.mk.inj this).2

namespace CommitQueues

variable {d u : ℕ} {s : CommitQueues ν} {pending : List (ν × ℕ)}

/-- Before or within the cycle `u`, the queues hold the writes that wait for this cycle and the ones
after it. -/
structure Holds (d u : ℕ) (s : CommitQueues ν) (pending : List (ν × ℕ)) : Prop where
  cur : s.cur.toNat = u % d
  nodup : (pending.map Prod.fst).Nodup
  range : ∀ p ∈ pending, u ≤ p.2 ∧ p.2 < u + d
  queue : ∀ v, u ≤ v → v < u + d → (s.queue (v % d)).Holds (waiting pending v)

omit [DecidableEq ν] in
theorem holds_init : Holds d 0 (init : CommitQueues ν) [] where
  cur := (Nat.zero_mod d).symm
  nodup := List.nodup_nil
  range := fun _ h => absurd h List.not_mem_nil
  queue := fun _ _ _ => ⟨rfl, rfl⟩

/-- Cycles that are less than `d` apart have different queues. -/
theorem slot_ne {v v' : ℕ} (hv : u ≤ v) (hvd : v < u + d) (hv' : u ≤ v') (hvd' : v' < u + d)
    (hne : v' ≠ v) : v' % d ≠ v % d := by
  intro hmod
  rcases Nat.lt_or_gt_of_ne hne with hlt | hlt
  · have hzero := Nat.sub_mod_eq_zero_of_mod_eq hmod.symm
    rw [Nat.mod_eq_of_lt (by omega)] at hzero
    omega
  · have hzero := Nat.sub_mod_eq_zero_of_mod_eq hmod
    rw [Nat.mod_eq_of_lt (by omega)] at hzero
    omega

omit [DecidableEq ν] in
theorem queue_setQueue {i : ℕ} {c : CommitQueue ν} : (s.setQueue i c).queue i = c := by
  rw [queue, setQueue]
  dsimp only
  rw [Function.update_self]

omit [DecidableEq ν] in
theorem queue_setQueue_of_ne {i j : ℕ} (h : j ≠ i) {c : CommitQueue ν} :
    (s.setQueue i c).queue j = ⟨⟨(s.queue j).head, c.nextp⟩, (s.queue j).tail⟩ := by
  rw [queue, setQueue]
  dsimp only
  rw [Function.update_of_ne h]
  rfl

/-- The links of the writes in the other queues stay. -/
theorem Holds.addTo (h : Holds d u s pending) {v : ℕ} (hv : u ≤ v) (hvd : v < u + d) {w : ν}
    (hw : w ∉ pending.map Prod.fst) :
    ∃ s', s.addTo (v % d) w = some s' ∧ Holds d u s' (pending ++ [(w, v)]) := by
  have hnotin (v' : ℕ) : w ∉ waiting pending v' := fun hmem =>
    hw (List.mem_map.mpr ⟨(w, v'), mem_waiting.mp hmem, rfl⟩)
  have hqueue := h.queue v hv hvd
  obtain ⟨c, hadd, hc, hframe⟩ := hqueue.add (w := w) (List.nodup_append'.mpr
    ⟨nodup_waiting h.nodup v, List.nodup_singleton w, by simpa using hnotin v⟩)
  refine ⟨s.setQueue (v % d) c, congrArg (Option.map _) hadd, h.cur, ?_, fun p hp => ?_,
    fun v' hv' hvd' => ?_⟩
  · rw [List.map_append, List.nodup_append']
    exact ⟨h.nodup, List.nodup_singleton w, by simpa using hw⟩
  · rcases List.mem_append.mp hp with hp | hp
    · exact h.range p hp
    · obtain rfl := List.mem_singleton.mp hp
      exact ⟨hv, hvd⟩
  · by_cases heq : v' = v
    · subst heq
      rw [queue_setQueue]
      simpa [waiting] using hc
    · have hsame : waiting (pending ++ [(w, v)]) v' = waiting pending v' := by
        simp [waiting, Ne.symm heq]
      rw [hsame, queue_setQueue_of_ne (slot_ne hv hvd hv' hvd' heq)]
      exact (h.queue v' hv' hvd').congr fun x hx =>
        hframe x (ne_of_mem_of_not_mem hx (hnotin v')) fun hmem =>
          heq (eq_of_mem_waiting h.nodup hx hmem)

theorem Holds.add (h : Holds d u s pending) (hd : d ≤ 2 ^ 31) {a : Add ν} (ha : a.2.toNat < d)
    (hw : a.1 ∉ pending.map Prod.fst) :
    ∃ s', s.add d a = some s' ∧ Holds d u s' (pending ++ [(a.1, u + a.2.toNat)]) := by
  have hslot : (s.cur + a.2).toNat % d = (u + a.2.toNat) % d := by
    have hlt := Nat.mod_lt u (Nat.zero_lt_of_lt ha)
    rw [BitVec.toNat_add, h.cur, Nat.mod_eq_of_lt (b := 2 ^ 32) (by omega), Nat.mod_add_mod]
  rw [CommitQueues.add, hslot]
  exact h.addTo (Nat.le_add_right _ _) (by omega) hw

theorem Holds.adds (h : Holds d u s pending) (hd : d ≤ 2 ^ 31) {adds : List (Add ν)}
    (hadds : ∀ a ∈ adds, a.2.toNat < d)
    (hnodup : ((pendingAfter u pending adds).map Prod.fst).Nodup) :
    ∃ s', adds.foldlM (CommitQueues.add d) s = some s' ∧
      Holds d u s' (pendingAfter u pending adds) := by
  induction adds generalizing s pending with
  | nil => exact ⟨s, rfl, by simpa [pendingAfter] using h⟩
  | cons a adds ih =>
    have hsplit : pendingAfter u pending (a :: adds) =
        pendingAfter u (pending ++ [(a.1, u + a.2.toNat)]) adds := by
      simp [pendingAfter]
    rw [hsplit] at hnodup ⊢
    have hw : a.1 ∉ pending.map Prod.fst := by
      rw [pendingAfter, List.map_append, List.map_append] at hnodup
      have := hnodup.of_append_left
      rw [List.nodup_append'] at this
      simpa using this.2.2
    obtain ⟨s₁, hadd, h₁⟩ := h.add hd (hadds a List.mem_cons_self) hw
    obtain ⟨s', hrest, h'⟩ := ih h₁ (fun b hb => hadds b (List.mem_cons_of_mem _ hb)) hnodup
    refine ⟨s', ?_, h'⟩
    rw [List.foldlM_cons, hadd]
    exact hrest

/-- The queue of a cycle that is over serves for the cycle `d` cycles later. -/
theorem Holds.commitNext (h : Holds d u s pending) (hpos : 0 < d) (hd : d ≤ 2 ^ 31) {fuel : ℕ}
    (hfuel : pending.length ≤ fuel) :
    ∃ s', s.commit fuel = some (waiting pending u, s') ∧
      Holds d (u + 1) (s'.next d) (pending.filter fun p => p.2 ≠ u) := by
  have hlen : (waiting pending u).length ≤ fuel := by
    rw [waiting, List.length_map]
    exact Nat.le_trans (List.length_filter_le _ _) hfuel
  refine ⟨s.setQueue (u % d) ⟨⟨none, s.nextp⟩, none⟩, ?_, ?_, ?_, fun p hp => ?_,
    fun v hv hvd => ?_⟩
  · rw [CommitQueues.commit, h.cur, (h.queue u (Nat.le_refl _) (by omega)).commit hlen]
    simp only [Option.bind_eq_bind, Option.bind_some, performed_committed]
    rfl
  · have hlt := Nat.mod_lt u hpos
    have hlt' := Nat.mod_lt (u + 1) hpos
    have hsum : (s.cur + 1).toNat % d = (u + 1) % d := by
      rw [BitVec.toNat_add, h.cur]
      refine (congrArg (· % d) (Nat.mod_eq_of_lt (by simp; omega))).trans ?_
      exact Nat.mod_add_mod u d 1
    refine (BitVec.toNat_ofNat ..).trans ?_
    rw [setQueue, hsum, Nat.mod_eq_of_lt (by omega)]
  · exact (List.filter_sublist.map Prod.fst).nodup h.nodup
  · have hp' := List.mem_filter.mp hp
    have hrange := h.range p hp'.1
    have hne : p.2 ≠ u := by simpa using hp'.2
    omega
  · rw [waiting_filter_ne hv]
    change ((s.setQueue (u % d) ⟨⟨none, s.nextp⟩, none⟩).queue (v % d)).Holds _
    by_cases hlast : v = u + d
    · -- the queue that has just been committed
      have hnil : waiting pending v = [] := by
        rw [List.eq_nil_iff_forall_not_mem]
        intro w hw
        have := h.range _ (mem_waiting.mp hw)
        dsimp only at this
        omega
      rw [hlast, Nat.add_mod_right, queue_setQueue, ← hlast, hnil]
      exact ⟨rfl, rfl⟩
    · rw [queue_setQueue_of_ne
        (@slot_ne d u u v (Nat.le_refl _) (by omega) (by omega) (by omega) (by omega))]
      exact (h.queue v (by omega) (by omega)).congr fun _ _ => rfl

theorem Holds.cycle (h : Holds d u s pending) (hpos : 0 < d) (hd : d ≤ 2 ^ 31) {fuel : ℕ}
    {adds : List (Add ν)} (hadds : ∀ a ∈ adds, a.2.toNat < d)
    (hnodup : ((pendingAfter u pending adds).map Prod.fst).Nodup)
    (hfuel : pending.length + adds.length ≤ fuel) :
    ∃ s', s.cycle d fuel adds = some (waiting (pendingAfter u pending adds) u, s') ∧
      Holds d (u + 1) s' ((pendingAfter u pending adds).filter fun p => p.2 ≠ u) := by
  obtain ⟨s₁, hadd, h₁⟩ := h.adds hd hadds hnodup
  obtain ⟨s₂, hcommit, h₂⟩ := @CommitQueues.Holds.commitNext _ _ _ _ _ _ h₁ hpos hd fuel
    (by simpa [pendingAfter] using hfuel)
  refine ⟨s₂.next d, ?_, h₂⟩
  rw [CommitQueues.cycle, hadd]
  simp only [Option.bind_eq_bind, Option.bind_some, hcommit]

omit [DecidableEq ν] in
theorem waiting_pendingAfter (u v : ℕ) (pending : List (ν × ℕ)) (adds : List (Add ν)) :
    waiting (pendingAfter u pending adds) v =
      waiting pending v ++ (adds.filter fun a => u + a.2.toNat = v).map Prod.fst := by
  rw [pendingAfter, waiting_append]
  congr 1
  rw [waiting, List.filter_map, List.map_map]
  rfl

/-- From the cycle `u` on, each cycle commits what waits for it already and what is added for it. -/
theorem Holds.run (h : Holds d u s pending) (hpos : 0 < d) (hd : d ≤ 2 ^ 31) {fuel : ℕ}
    {schedule : List (List (Add ν))} (hfits : Fits d u pending schedule)
    (hfuel : pending.length + schedule.flatten.length ≤ fuel) :
    s.run d fuel schedule = some ((List.range' u schedule.length).map fun v =>
      waiting pending v ++ dueFrom u schedule v) := by
  induction schedule generalizing s u pending with
  | nil => rfl
  | cons adds rest ih =>
    obtain ⟨hadds, hnodup, hrest⟩ := hfits
    rw [List.flatten_cons, List.length_append] at hfuel
    have hlen : ((pendingAfter u pending adds).filter fun p => p.2 ≠ u).length ≤
        pending.length + adds.length := by
      refine Nat.le_trans (List.length_filter_le _ _) (Nat.le_of_eq ?_)
      rw [pendingAfter, List.length_append, List.length_map]
    obtain ⟨s', hcycle, h'⟩ := @CommitQueues.Holds.cycle _ _ _ _ _ _ h hpos hd fuel _ hadds hnodup
      (by omega)
    rw [CommitQueues.run, hcycle, List.length_cons, List.range'_succ, List.map_cons]
    simp only [Option.bind_eq_bind, Option.bind_some, ih h' hrest (by omega)]
    rw [waiting_pendingAfter, dueFrom_cons, dueFrom_of_lt (Nat.lt_succ_self u), List.append_nil]
    congr 2
    refine List.map_congr_left fun v hv => ?_
    rw [waiting_filter_ne (List.mem_range'_1.mp hv).1, waiting_pendingAfter, dueFrom_cons,
      List.append_assoc]

end CommitQueues

/-- With at most `2 ^ 31` queues every write is committed once, at the end of the cycle in which it
is due, and the writes of a cycle in the order in which they were added. -/
theorem run_eq_due {d fuel : ℕ} {schedule : List (List (Add ν))} (hpos : 0 < d) (hd : d ≤ 2 ^ 31)
    (hfits : Fits d 0 [] schedule) (hfuel : schedule.flatten.length ≤ fuel) :
    CommitQueues.init.run d fuel schedule =
      some ((List.range schedule.length).map (due schedule)) := by
  rw [CommitQueues.holds_init.run hpos hd hfits (by simpa using hfuel), List.range_eq_range']
  rfl

/-- A write for the next cycle and one for the cycle after it. -/
theorem run_two_writes :
    CommitQueues.init.run 2 2 [[(true, 1), (false, 0)], []] = some [[false], [true]] :=
  run_eq_due (by decide) (by decide) (by simp [Fits, pendingAfter]) (by decide)

/-! ### Too many queues -/

namespace CommitQueues

/-- Nothing has been added for `n` cycles. -/
def idle (n : ℕ) : CommitQueues ν := ⟨fun _ => ⟨none, none⟩, BitVec.ofNat 32 n, fun _ => none⟩

theorem commit_idle (n fuel : ℕ) : (idle n : CommitQueues ν).commit fuel = some ([], idle n) := by
  have hholds : ((idle n : CommitQueues ν).queue (idle n : CommitQueues ν).cur.toNat).Holds [] :=
    ⟨rfl, rfl⟩
  have hq : Function.update (idle n : CommitQueues ν).q (idle n : CommitQueues ν).cur.toNat
      (none, none) = (idle n : CommitQueues ν).q := Function.update_eq_self ..
  rw [commit]
  simp only [hholds.commit (Nat.zero_le fuel), Option.bind_eq_bind, Option.bind_some, setQueue, hq]
  rfl

theorem cycle_idle {d n : ℕ} (hn : n + 1 < d) (hd : d ≤ 2 ^ 32) (fuel : ℕ) :
    (idle n : CommitQueues ν).cycle d fuel [] = some ([], idle (n + 1)) := by
  have hnext : (idle n : CommitQueues ν).next d = idle (n + 1) := by
    have hsum : (BitVec.ofNat 32 n + 1).toNat % d = n + 1 := by
      rw [BitVec.toNat_add, BitVec.toNat_ofNat, Nat.mod_eq_of_lt (a := n) (by omega)]
      refine (congrArg (· % d) (Nat.mod_eq_of_lt (by simp; omega))).trans ?_
      exact Nat.mod_eq_of_lt hn
    rw [next]
    simp only [idle, hsum]
  rw [cycle, List.foldlM_nil]
  simp only [Option.bind_eq_bind, Option.pure_def, Option.bind_some, commit_idle, hnext]

theorem run_idle {d n k : ℕ} (hn : n + k < d) (hd : d ≤ 2 ^ 32) (fuel : ℕ)
    (rest : List (List (Add ν))) :
    (idle n : CommitQueues ν).run d fuel (List.replicate k [] ++ rest) =
      ((idle (n + k)).run d fuel rest).map (List.replicate k [] ++ ·) := by
  induction k generalizing n with
  | zero => simp
  | succ k ih =>
    rw [List.replicate_succ, List.cons_append, run, cycle_idle (by omega) hd]
    simp only [Option.bind_eq_bind, Option.bind_some]
    rw [ih (by omega), show n + 1 + k = n + (k + 1) by omega]
    cases (idle (n + (k + 1)) : CommitQueues ν).run d fuel rest <;> rfl

end CommitQueues

omit [DecidableEq ν] in
theorem fits_replicate_nil {d u k : ℕ} {rest : List (List (Add ν))} :
    Fits d u [] (List.replicate k [] ++ rest) ↔ Fits d (u + k) [] rest := by
  induction k generalizing u with
  | zero => rfl
  | succ k ih =>
    rw [List.replicate_succ, List.cons_append, Fits, show u + (k + 1) = u + 1 + k by omega, ← ih]
    simp [pendingAfter]

omit [DecidableEq ν] in
theorem dueFrom_replicate_nil (u k v : ℕ) (rest : List (List (Add ν))) :
    dueFrom u (List.replicate k [] ++ rest) v = dueFrom (u + k) rest v := by
  induction k generalizing u with
  | zero => rfl
  | succ k ih =>
    rw [List.replicate_succ, List.cons_append, dueFrom_cons, ih,
      show u + 1 + k = u + (k + 1) by omega]
    rfl

/-- With one queue more the sum of the current queue and a delay wraps around, and a write is
committed too early. -/
theorem committed_too_early :
    ∃ schedule : List (List (Add Unit)), Fits (2 ^ 31 + 1) 0 [] schedule ∧
      ∃ committed, CommitQueues.init.run (2 ^ 31 + 1) 1 schedule = some committed ∧
        committed[2 ^ 31 + 1]? = some [()] ∧ due schedule (2 ^ 31 + 1) = [] := by
  -- The number of idle cycles is kept abstract, so that nothing unfolds them.
  obtain ⟨k, hk⟩ : ∃ k, k = 2 ^ 31 := ⟨_, rfl⟩
  have hlast : (CommitQueues.idle (2 ^ 31)).run (2 ^ 31 + 1) 1
      [[((), BitVec.ofNat 32 (2 ^ 31))], []] = some [[], [()]] := by decide +kernel
  have hrun := CommitQueues.run_idle (ν := Unit) (d := 2 ^ 31 + 1) (n := 0) (k := k) (by omega)
    (by decide) 1 [[((), BitVec.ofNat 32 (2 ^ 31))], []]
  have hidle : (CommitQueues.idle (0 + k) : CommitQueues Unit) = CommitQueues.idle (2 ^ 31) := by
    rw [Nat.zero_add, hk]
  rw [hidle, hlast] at hrun
  refine ⟨List.replicate k [] ++ [[((), BitVec.ofNat 32 (2 ^ 31))], []], ?_,
    List.replicate k [] ++ [[], [()]], hrun, ?_, ?_⟩
  · rw [fits_replicate_nil, Nat.zero_add]
    simp [Fits, pendingAfter]
  · rw [List.getElem?_append_right (by rw [List.length_replicate]; omega), List.length_replicate,
      hk]
    rfl
  · rw [due, dueFrom_replicate_nil, hk]
    decide +kernel

end Adl.Queue
