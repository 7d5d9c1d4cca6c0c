import Adl.Math.Machine
import Adl.Memory.Sparse

/-!
# The ways of a generated cache

For each cache of a core the generator writes a functional model (`iss/GenCache.C`). The ways of a
set are linked in a list, and on a miss the first of them that is not locked is replaced and goes to
the end. The source calls this least recently used, but a hit does not touch the list, so the ways
are replaced in turn.
-/

namespace Adl.Iss

open Memory (Addr)

structure CacheLine where
  tag : Addr
  valid : Bool
  dirty : Bool
  data : ℕ → BitVec 8

/-- The links of the ways end with -1. -/
structure CacheSet where
  head : ℕ
  tail : ℕ
  next : ℕ → ℤ
  prev : ℕ → ℤ
  locked : ℕ → Bool
  lockCount : ℕ
  line : ℕ → CacheLine

namespace CacheSet

/-- A set that has not been reset. -/
def blank : CacheSet where
  head := 0
  tail := 0
  next _ := 0
  prev _ := 0
  locked _ := false
  lockCount := 0
  line _ := { tag := 0, valid := false, dirty := false, data := fun _ => 0 }

def resetLru (ways : ℕ) (s : CacheSet) : CacheSet :=
  { s with
    next := fun i => if i = ways - 1 then -1 else i + 1
    prev := fun i => if i = 0 then -1 else i - 1
    head := 0
    tail := ways - 1 }

def reset (ways : ℕ) (s : CacheSet) : CacheSet :=
  { s.resetLru ways with
    locked := fun _ => false
    lockCount := 0
    line := fun i => { tag := (s.line i).tag, valid := false, dirty := false, data := fun _ => 0 } }

def fullyLocked (ways : ℕ) (s : CacheSet) : Bool := s.lockCount == ways

/-- One turn of the search: the first way of the list goes to its end. -/
def rotate (s : CacheSet) : CacheSet :=
  let i := s.head
  let h := (BitVec.ofInt 32 (s.next i)).toNat
  { s with
    head := h
    tail := i
    next := Function.update (Function.update s.next i (-1)) s.tail i
    prev := Function.update (Function.update s.prev h (-1)) i s.tail }

/-- The search for a way to replace, which may not end. -/
def search (ways : ℕ) : ℕ → CacheSet → Option (ℕ × CacheSet)
  | 0, _ => none
  | fuel + 1, s =>
    let i := s.head
    let s := s.rotate
    if !s.fullyLocked ways && s.locked i then search ways fuel s else some (i, s)

/-- The way that is replaced. With one way there is no list. -/
def victim (ways : ℕ) (s : CacheSet) : Option (ℕ × CacheSet) :=
  if ways = 1 then some (0, s) else s.search ways ways

/-- Lock or unlock a way. The answer tells whether it was locked. -/
def lock (i : ℕ) (l : Bool) (s : CacheSet) : Bool × CacheSet :=
  let p := s.locked i
  (p, { s with
    locked := Function.update s.locked i l
    lockCount :=
      if l then (if !p then s.lockCount + 1 else s.lockCount)
      else if p then s.lockCount - 1 else s.lockCount })

/-! ### The list -/

variable {ways r i fuel : ℕ} {s : CacheSet} {locked : ℕ → Bool}

/-- The list goes through all ways in turn, from `r` on, and the locks are counted. -/
structure InTurn (ways : ℕ) (s : CacheSet) (r : ℕ) : Prop where
  lt : r < ways
  head : s.head = r
  tail_lt : s.tail < ways
  tail : (s.tail + 1) % ways = r
  next : ∀ i < ways, i ≠ s.tail → s.next i = ((i + 1) % ways : ℕ)
  count : s.lockCount = (List.range ways).countP s.locked

theorem inTurn_reset (h : 0 < ways) : InTurn ways (s.reset ways) 0 where
  lt := h
  head := rfl
  tail_lt := Nat.sub_lt h Nat.one_pos
  tail := by rw [reset, resetLru, Nat.sub_add_cancel h, Nat.mod_self]
  next i hi hne := by
    have hlast : i ≠ ways - 1 := hne
    simp only [reset, resetLru, if_neg hlast]
    rw [Nat.mod_eq_of_lt (by omega)]
    rfl
  count := by simp [reset]

theorem InTurn.rotate (h : InTurn ways s r) (hways : 2 ≤ ways) (hsize : ways ≤ 2 ^ 32) :
    InTurn ways s.rotate ((r + 1) % ways) where
  lt := Nat.mod_lt _ (by omega)
  head := by
    -- the first way is not the last one
    have hne : r ≠ s.tail := by
      rintro rfl
      have htail := h.tail
      rcases Nat.lt_or_ge (s.tail + 1) ways with hlt | hge
      · rw [Nat.mod_eq_of_lt hlt] at htail
        omega
      · rw [show s.tail + 1 = ways by have := h.tail_lt; omega, Nat.mod_self] at htail
        omega
    have hlt := Nat.mod_lt (r + 1) (by omega : 0 < ways)
    simp only [CacheSet.rotate, h.head, h.next r h.lt hne]
    rw [BitVec.ofInt_natCast, BitVec.toNat_ofNat, Nat.mod_eq_of_lt (by omega)]
  tail_lt := by rw [CacheSet.rotate, h.head]; exact h.lt
  tail := by rw [CacheSet.rotate, h.head]
  next i hi hne := by
    have hi' : i ≠ s.head := hne
    simp only [CacheSet.rotate]
    rw [Function.update_apply, Function.update_of_ne hi']
    split
    case isTrue heq => rw [heq, h.tail, h.head]
    case isFalse hlast => exact h.next i hi hlast
  count := h.count

theorem InTurn.fullyLocked_iff (h : InTurn ways s r) :
    s.fullyLocked ways = true ↔ ∀ i < ways, s.locked i = true := by
  have hall : (List.range ways).countP s.locked = (List.range ways).length ↔ _ :=
    List.countP_eq_length
  rw [List.length_range] at hall
  rw [fullyLocked, h.count, beq_iff_eq, hall]
  simp only [List.mem_range]

/-! ### Turns -/

/-- The first way from `r` on that is not locked. -/
def turn (ways : ℕ) (locked : ℕ → Bool) : ℕ → ℕ → ℕ
  | 0, r => r
  | fuel + 1, r => if locked r then turn ways locked fuel ((r + 1) % ways) else r

/-- When all ways are locked, the search comes back to where it began. -/
theorem turn_of_locked (hr : r < ways) (hall : ∀ i < ways, locked i = true) :
    turn ways locked fuel r = (r + fuel) % ways := by
  induction fuel generalizing r with
  | zero => exact (Nat.mod_eq_of_lt hr).symm
  | succ fuel ih =>
    rw [turn, if_pos (hall r hr), ih (Nat.mod_lt _ (by omega)), Nat.mod_add_mod, Nat.add_assoc,
      Nat.add_comm 1]

theorem turn_lt (hr : r < ways) : turn ways locked fuel r < ways := by
  induction fuel generalizing r with
  | zero => exact hr
  | succ fuel ih =>
    rw [turn]
    split
    · exact ih (Nat.mod_lt _ (by omega))
    · exact hr

/-- The search passes over locked ways until it finds one that is not. -/
theorem search_eq (hways : 2 ≤ ways) (hsize : ways ≤ 2 ^ 32) (h : InTurn ways s r)
    (hnot : s.fullyLocked ways = false) {d : ℕ} (hd : s.locked ((r + d) % ways) = false)
    (hfuel : d < fuel) :
    ∃ s', s.search ways fuel = some (turn ways s.locked fuel r, s') ∧
      InTurn ways s' ((turn ways s.locked fuel r + 1) % ways) ∧ s'.locked = s.locked ∧
      s'.line = s.line := by
  induction fuel generalizing s r d with
  | zero => omega
  | succ fuel ih =>
    have hrotate := h.rotate hways hsize
    simp only [search, turn, h.head]
    cases hr : s.locked r with
    | false =>
      rw [if_neg (by simp [CacheSet.rotate, hr])]
      exact ⟨_, rfl, hrotate, rfl, rfl⟩
    | true =>
      rw [if_pos (by simp [CacheSet.rotate, hr, fullyLocked] at hnot ⊢; exact hnot), if_pos rfl]
      cases d with
      | zero =>
        rw [Nat.add_zero, Nat.mod_eq_of_lt h.lt, hr] at hd
        cases hd
      | succ d =>
        refine ih hrotate hnot (d := d) ?_ (by omega)
        rw [Nat.mod_add_mod, Nat.add_assoc, Nat.add_comm 1]
        exact hd

theorem victim_eq (hsize : ways ≤ 2 ^ 32) (h : InTurn ways s r) :
    ∃ s', s.victim ways = some (turn ways s.locked ways r, s') ∧
      InTurn ways s' ((turn ways s.locked ways r + 1) % ways) ∧ s'.locked = s.locked ∧
      s'.line = s.line := by
  have hr := h.lt
  by_cases hone : ways = 1
  · have hturn : turn ways s.locked ways r = r := by
      have hlt := @turn_lt _ _ ways s.locked hr
      omega
    rw [hturn, victim, if_pos hone, show r = 0 by omega]
    refine ⟨s, rfl, ?_, rfl, rfl⟩
    rwa [hone, show (0 + 1) % 1 = r by omega, ← hone]
  rw [victim, if_neg hone]
  cases hfull : s.fullyLocked ways with
  | true =>
    -- the first way is taken, locked or not
    rw [turn_of_locked hr (h.fullyLocked_iff.mp hfull), Nat.add_mod_right, Nat.mod_eq_of_lt hr]
    obtain ⟨fuel, rfl⟩ : ∃ fuel, ways = fuel + 1 := ⟨ways - 1, by omega⟩
    rw [search, h.head, if_neg (by simp [CacheSet.rotate, fullyLocked] at hfull ⊢; simp [hfull])]
    exact ⟨_, rfl, h.rotate (by omega) hsize, rfl, rfl⟩
  | false =>
    obtain ⟨i, hi, hfree⟩ : ∃ i < ways, s.locked i = false := by
      by_contra hall
      push Not at hall
      rw [h.fullyLocked_iff.mpr fun i hi => by simpa using hall i hi] at hfull
      cases hfull
    -- every way is reached from `r`
    refine search_eq (by omega) hsize h hfull (d := (i + (ways - r)) % ways) ?_
      (Nat.mod_lt _ (by omega))
    rwa [Nat.add_mod_mod, show r + (i + (ways - r)) = i + ways by omega, Nat.add_mod_right,
      Nat.mod_eq_of_lt hi]

theorem countP_range_update {n : ℕ} (hi : i < n) (b : Bool) :
    (List.range n).countP (Function.update locked i b) + (locked i).toNat =
      (List.range n).countP locked + b.toNat := by
  induction n with
  | zero => omega
  | succ n ih =>
    rw [List.range_succ, List.countP_append, List.countP_append, List.countP_singleton,
      List.countP_singleton]
    by_cases hlast : i = n
    · subst hlast
      have hsame : (List.range i).countP (Function.update locked i b) =
          (List.range i).countP locked := by
        refine List.countP_congr fun j hj => ?_
        rw [Function.update_of_ne (Nat.ne_of_lt (List.mem_range.mp hj))]
      rw [hsame, Function.update_self]
      cases b <;> cases locked i <;> simp
    · rw [Function.update_of_ne (Ne.symm hlast)]
      have := ih (by omega)
      omega

theorem InTurn.lock (h : InTurn ways s r) (l : Bool) (hi : i < ways) :
    InTurn ways (s.lock i l).2 r where
  lt := h.lt
  head := h.head
  tail_lt := h.tail_lt
  tail := h.tail
  next := h.next
  count := by
    have hcount := @countP_range_update _ s.locked _ hi l
    simp only [CacheSet.lock]
    rw [h.count]
    cases l <;> cases hp : s.locked i <;> simp [hp] at hcount ⊢ <;> omega

/-! ### Runs -/

/-- What happens to a set: a way is replaced, a way is locked or unlocked, or the lines change,
because of a hit for example. -/
inductive Op where
  | replace
  | lock (i : ℕ) (l : Bool)
  | lines (change : (ℕ → CacheLine) → ℕ → CacheLine)

def step (ways : ℕ) (s : CacheSet) : Op → Option ℕ × CacheSet
  | .replace =>
    match s.victim ways with
    | none => (none, s)
    | some (i, s) => (some i, s)
  | .lock i l => (some (s.lock i l).1.toNat, (s.lock i l).2)
  | .lines change => (some 0, { s with line := change s.line })

/-- The same with the way whose turn it is, and the locks. -/
def turnStep (ways : ℕ) (t : ℕ × (ℕ → Bool)) : Op → Option ℕ × (ℕ × (ℕ → Bool))
  | .replace => (some (turn ways t.2 ways t.1), (turn ways t.2 ways t.1 + 1) % ways, t.2)
  | .lock i l => (some (t.2 i).toNat, t.1, Function.update t.2 i l)
  | .lines _ => (some 0, t)

/-- Ways are replaced in turn, however they are used in between. Locked ones are passed over unless
all are locked, and the search for a way always ends. -/
theorem replaced_in_turn (hways : 0 < ways) (hsize : ways ≤ 2 ^ 32) (s : CacheSet) {ops : List Op}
    (hops : ∀ i l, Op.lock i l ∈ ops → i < ways) :
    (Math.runs (step ways) (s.reset ways) ops).1 =
      (Math.runs (turnStep ways) (0, fun _ => false) ops).1 := by
  let ok (op : Op) : Prop := ∀ i l, op = .lock i l → i < ways
  have hstep (s : CacheSet) (t : ℕ × (ℕ → Bool)) (op : Op) (hop : ok op)
      (h : InTurn ways s t.1 ∧ s.locked = t.2) :
      (step ways s op).1 = (turnStep ways t op).1 ∧
        InTurn ways (step ways s op).2 (turnStep ways t op).2.1 ∧
        (step ways s op).2.locked = (turnStep ways t op).2.2 := by
    obtain ⟨r, locked⟩ := t
    obtain ⟨hturn, rfl⟩ := h
    cases op with
    | replace =>
      obtain ⟨s', hvictim, hturn', hlocked, -⟩ := victim_eq hsize hturn
      simp only [step, hvictim]
      exact ⟨rfl, hturn', hlocked⟩
    | lock i l => exact ⟨rfl, hturn.lock l (hop i l rfl), rfl⟩
    | lines change => exact ⟨rfl, ⟨hturn.1, hturn.2, hturn.3, hturn.4, hturn.5, hturn.6⟩, rfl⟩
  exact (Math.runs_simulation hstep (fun op hop i l heq => hops i l (heq ▸ hop))
    ⟨inTurn_reset hways, rfl⟩).1

theorem replaced_in_turn_four :
    (Math.runs (step 4) (blank.reset 4) [.replace, .lock 1 true, .replace, .replace]).1 =
      [some 0, some 0, some 2, some 3] := by
  rw [replaced_in_turn (by decide) (by decide) blank (by simp)]
  rfl

end CacheSet

end Adl.Iss
