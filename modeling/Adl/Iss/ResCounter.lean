import Mathlib.Data.List.FinRange
import Adl.Iss.TimeTags
import Adl.Math.Bookings

/-!
# Counters for limited resources

Instructions that need one of `N` units of a resource wait until one is available
(`iss/ModelSupport.h`). The counter keeps for each unit the time until which it is reserved, but not
the time from which on.
-/

namespace Adl.Iss

open Adl.Math

variable {N : ℕ} [NeZero N]

/-- For each unit, when it is available. `cur` is the unit to be reserved. -/
structure ResCounter (N : ℕ) where
  avail : Fin N → BitVec 64
  cur : Fin N

/-- The loop over all units but the first. `x` is the one with the smallest time so far, `s`. -/
def nextAvailableLoop (avail : Fin N → BitVec 64) (x : Fin N) (s : BitVec 64) :
    List (Fin N) → Fin N
  | [] => x
  | i :: rest =>
    if avail i < s then nextAvailableLoop avail i (avail i) rest
    else nextAvailableLoop avail x s rest

def nextAvailable (avail : Fin N → BitVec 64) : Fin N :=
  nextAvailableLoop avail 0 (avail 0) (List.finRange N).tail

namespace ResCounter

def reset : ResCounter N where
  avail := fun _ => 0
  cur := 0

def updateTime (c : ResCounter N) (t : TimeTaggedBase) : ResCounter N × TimeTaggedBase :=
  let x := nextAvailable c.avail
  ({ c with cur := x }, t.accumulateTime (c.avail x))

def updateAvail (delay : BitVec 64) (c : ResCounter N) (t : TimeTaggedBase) : ResCounter N :=
  { c with avail := Function.update c.avail c.cur (t.currentTime + delay) }

end ResCounter

structure SingleCounter where
  avail : BitVec 64

namespace SingleCounter

def reset : SingleCounter where
  avail := 0

def updateTime (c : SingleCounter) (t : TimeTaggedBase) : TimeTaggedBase :=
  t.accumulateTime c.avail

def updateAvail (delay : BitVec 64) (_ : SingleCounter) (t : TimeTaggedBase) : SingleCounter where
  avail := t.currentTime + delay

end SingleCounter

/-- A reservation by an instruction. Its time may be raised between the two calls, here to
`further`. -/
structure Request where
  base : TimeTaggedBase
  further : BitVec 64

/-- The times of an instruction after `update_time` and at `update_avail`. -/
structure Granted where
  granted : TimeTaggedBase
  started : TimeTaggedBase
deriving DecidableEq

def ResCounter.reserve (delay : BitVec 64) (c : ResCounter N) (r : Request) :
    ResCounter N × Granted :=
  let (c, granted) := c.updateTime r.base
  let started := granted.accumulateTime r.further
  (c.updateAvail delay started, ⟨granted, started⟩)

def SingleCounter.reserve (delay : BitVec 64) (c : SingleCounter) (r : Request) :
    SingleCounter × Granted :=
  let granted := c.updateTime r.base
  let started := granted.accumulateTime r.further
  (c.updateAvail delay started, ⟨granted, started⟩)

def ResCounter.times (delay : BitVec 64) (c : ResCounter N) : List Request → List Granted
  | [] => []
  | r :: rest => (c.reserve delay r).2 :: times delay (c.reserve delay r).1 rest

def SingleCounter.times (delay : BitVec 64) (c : SingleCounter) : List Request → List Granted
  | [] => []
  | r :: rest => (c.reserve delay r).2 :: times delay (c.reserve delay r).1 rest

namespace ResCounter

/-- A reservation takes up its unit from the time at `update_avail` on, for `delay` time units. -/
def booking (delay : BitVec 64) (c : ResCounter N) (r : Request) : Booking (Fin N) ℕ where
  unit := (c.updateTime r.base).1.cur
  start := (c.reserve delay r).2.started.currentTime.toNat
  stop := (c.reserve delay r).2.started.currentTime.toNat + delay.toNat

def bookedStep (delay : BitVec 64) (s : ResCounter N × List (Booking (Fin N) ℕ)) (r : Request) :
    ResCounter N × List (Booking (Fin N) ℕ) :=
  ((s.1.reserve delay r).1, s.1.booking delay r :: s.2)

/-- A sequence of reservations, the last one first. -/
def booked (delay : BitVec 64) (requests : List Request) :
    ResCounter N × List (Booking (Fin N) ℕ) :=
  requests.foldl (bookedStep delay) (.reset, [])

end ResCounter

/-! ### The first unit that is available -/

omit [NeZero N] in
theorem nextAvailableLoop_le {avail : Fin N → BitVec 64} {x : Fin N} {units : List (Fin N)}
    {i : Fin N} (hi : i = x ∨ i ∈ units) :
    avail (nextAvailableLoop avail x (avail x) units) ≤ avail i := by
  -- the unit found so far is at least as early as the ones before it
  induction units generalizing x i with
  | nil =>
    obtain rfl | hi := hi
    · exact BitVec.le_refl _
    · exact absurd hi List.not_mem_nil
  | cons j units ih =>
    rw [nextAvailableLoop]
    split_ifs with hlt
    · rcases hi with rfl | hi
      · exact BitVec.le_trans (ih (Or.inl rfl)) (BitVec.le_of_lt hlt)
      · exact ih (List.mem_cons.mp hi)
    · rcases hi with rfl | hi
      · exact ih (Or.inl rfl)
      · rcases List.mem_cons.mp hi with rfl | hi
        · exact BitVec.le_trans (ih (Or.inl rfl)) (BitVec.not_lt.mp hlt)
        · exact ih (Or.inr hi)

theorem nextAvailable_le (avail : Fin N → BitVec 64) (i : Fin N) :
    avail (nextAvailable avail) ≤ avail i := by
  apply nextAvailableLoop_le
  obtain ⟨n, rfl⟩ := Nat.exists_eq_succ_of_ne_zero (NeZero.ne N)
  have hmem := List.mem_finRange i
  rw [List.finRange_succ] at hmem ⊢
  exact List.mem_cons.mp hmem

/-! ### Reservations -/

/-- The reservations of each unit follow one another, and the counter has the end of the last
one. -/
structure ResCounter.Holds (c : ResCounter N) (bookings : List (Booking (Fin N) ℕ)) : Prop where
  successive : Successive bookings
  stop_le (b : Booking (Fin N) ℕ) (hb : b ∈ bookings) : b.stop ≤ (c.avail b.unit).toNat
  last (i : Fin N) (hi : c.avail i ≠ 0) :
    ∃ b ∈ bookings, b.unit = i ∧ b.stop = (c.avail i).toNat

theorem ResCounter.Holds.reset : ResCounter.Holds (.reset : ResCounter N) [] where
  successive := .nil
  stop_le _ hb := absurd hb List.not_mem_nil
  last _ hi := absurd rfl hi

theorem avail_le_start (delay : BitVec 64) (c : ResCounter N) (r : Request) :
    (c.avail (c.booking delay r).unit).toNat ≤ (c.booking delay r).start := by
  have hgranted : (c.avail (nextAvailable c.avail)).toNat ≤
      (r.base.accumulateTime (c.avail (nextAvailable c.avail))).accumTime.toNat := by
    rw [TimeTaggedBase.accumulateTime, toNat_stdMax]
    exact Nat.le_max_left _ _
  refine hgranted.trans ?_
  change _ ≤ (stdMax _ _).toNat
  rw [toNat_stdMax]
  exact Nat.le_max_right _ _

theorem ResCounter.Holds.reserve {delay : BitVec 64} {c : ResCounter N} {r : Request}
    {bookings : List (Booking (Fin N) ℕ)} (h : ResCounter.Holds c bookings)
    (hfit : (c.booking delay r).stop < 2 ^ 64) :
    ResCounter.Holds (ResCounter.bookedStep delay (c, bookings) r).1
      (ResCounter.bookedStep delay (c, bookings) r).2 := by
  have hstart := avail_le_start delay c r
  have havail : (c.reserve delay r).1.avail = Function.update c.avail (c.booking delay r).unit
      ((c.reserve delay r).2.started.currentTime + delay) := rfl
  have hstop : ((c.reserve delay r).2.started.currentTime + delay).toNat =
      (c.booking delay r).stop := by
    rw [BitVec.toNat_add]
    exact Nat.mod_eq_of_lt hfit
  refine ⟨List.pairwise_cons.mpr ⟨fun b hb hunit => ?_, h.successive⟩, fun b hb => ?_,
    fun i hi => ?_⟩
  · exact (h.stop_le b hb).trans (hunit ▸ hstart)
  · change b.stop ≤ ((c.reserve delay r).1.avail b.unit).toNat
    rw [havail]
    rcases List.mem_cons.mp hb with rfl | hb
    · rw [Function.update_self, hstop]
    · rcases eq_or_ne b.unit (c.booking delay r).unit with hunit | hunit
      · rw [hunit, Function.update_self, hstop]
        -- an earlier reservation of the unit is over
        exact ((h.stop_le b hb).trans (hunit ▸ hstart)).trans (Nat.le_add_right _ _)
      · rw [Function.update_of_ne hunit]
        exact h.stop_le b hb
  · change ∃ b ∈ c.booking delay r :: bookings,
      b.unit = i ∧ b.stop = ((c.reserve delay r).1.avail i).toNat
    change (c.reserve delay r).1.avail i ≠ 0 at hi
    rw [havail] at hi ⊢
    rcases eq_or_ne i (c.booking delay r).unit with rfl | hunit
    · rw [Function.update_self, hstop]
      exact ⟨_, List.mem_cons_self, rfl, rfl⟩
    · rw [Function.update_of_ne hunit] at hi ⊢
      obtain ⟨b, hb, hlast⟩ := h.last i hi
      exact ⟨b, List.mem_cons_of_mem _ hb, hlast⟩

/-- The ends of all reservations can be represented. -/
def StopsFit (bookings : List (Booking (Fin N) ℕ)) : Prop := ∀ b ∈ bookings, b.stop < 2 ^ 64

instance (bookings : List (Booking (Fin N) ℕ)) : Decidable (StopsFit bookings) :=
  inferInstanceAs (Decidable (∀ b ∈ bookings, b.stop < 2 ^ 64))

theorem holds_booked {delay : BitVec 64} {requests : List Request}
    (hfits : StopsFit (ResCounter.booked (N := N) delay requests).2) :
    ResCounter.Holds (ResCounter.booked (N := N) delay requests).1
      (ResCounter.booked delay requests).2 := by
  induction requests using List.reverseRecOn with
  | nil => exact .reset
  | append_singleton requests r ih =>
    rw [ResCounter.booked, List.foldl_append] at hfits ⊢
    have hbefore := ih fun b hb => hfits b (List.mem_cons_of_mem _ hb)
    exact hbefore.reserve (hfits _ List.mem_cons_self)

/-! ### Delays -/

theorem toNat_granted (c : ResCounter N) (t : TimeTaggedBase) :
    (c.updateTime t).2.currentTime.toNat =
      max (c.avail (nextAvailable c.avail)).toNat t.currentTime.toNat :=
  toNat_stdMax _ _

section Delays

variable {c : ResCounter N} {bookings : List (Booking (Fin N) ℕ)} {t : TimeTaggedBase}

theorem granted_le_avail (h : (c.updateTime t).2.currentTime.toNat ≠ t.currentTime.toNat) :
    t.currentTime.toNat < (c.updateTime t).2.currentTime.toNat ∧
      (c.updateTime t).2.currentTime = c.avail (nextAvailable c.avail) ∧
      ∀ i, (c.updateTime t).2.currentTime.toNat ≤ (c.avail i).toNat := by
  have hgranted := toNat_granted c t
  have hlt : t.currentTime.toNat < (c.avail (nextAvailable c.avail)).toNat := by
    by_contra hle
    exact h (hgranted.trans (Nat.max_eq_right (Nat.le_of_not_lt hle)))
  rw [Nat.max_eq_left hlt.le] at hgranted
  refine ⟨hgranted ▸ hlt, BitVec.eq_of_toNat_eq hgranted, fun i => ?_⟩
  rw [hgranted]
  exact BitVec.le_def.mp (nextAvailable_le c.avail i)

/-- There is a reservation on each unit that lasts at least as long as the delay. -/
theorem ResCounter.Holds.exists_booking (hc : ResCounter.Holds c bookings)
    (h : (c.updateTime t).2.currentTime.toNat ≠ t.currentTime.toNat) (i : Fin N) :
    ∃ b ∈ bookings, b.unit = i ∧ b.stop = (c.avail i).toNat ∧
      (c.updateTime t).2.currentTime.toNat ≤ b.stop := by
  obtain ⟨hlt, -, hle⟩ := granted_le_avail h
  have hi : c.avail i ≠ 0 := by
    intro hzero
    have hpos := (Nat.zero_le _).trans_lt (hlt.trans_le (hle i))
    rw [hzero] at hpos
    exact absurd hpos (Nat.lt_irrefl 0)
  obtain ⟨b, hb, hunit, hstop⟩ := hc.last i hi
  exact ⟨b, hb, hunit, hstop, hstop ▸ hle i⟩

/-- The delay lasts until the end of a reservation, when its unit is available. -/
theorem ResCounter.Holds.exists_released (hc : ResCounter.Holds c bookings)
    (h : (c.updateTime t).2.currentTime.toNat ≠ t.currentTime.toNat) :
    ∃ b ∈ bookings, b.stop = (c.updateTime t).2.currentTime.toNat ∧
      ∀ b' ∈ bookings, b'.unit = b.unit → b'.stop ≤ b.stop := by
  obtain ⟨-, heq, -⟩ := granted_le_avail h
  obtain ⟨b, hb, hunit, hstop, -⟩ := hc.exists_booking h (nextAvailable c.avail)
  refine ⟨b, hb, hstop.trans (congrArg _ heq.symm), fun b' hb' hsame => ?_⟩
  rw [hstop, ← hunit, ← hsame]
  exact hc.stop_le b' hb'

/-- All units are in use during a delay if the reservations have started before. -/
theorem ResCounter.Holds.length_occupied (hc : ResCounter.Holds c bookings)
    (h : (c.updateTime t).2.currentTime.toNat ≠ t.currentTime.toNat)
    (hstarted : ∀ b ∈ bookings, b.start ≤ t.currentTime.toNat) {time : ℕ}
    (hfrom : t.currentTime.toNat ≤ time) (hto : time < (c.updateTime t).2.currentTime.toNat) :
    (occupied bookings time).length = N := by
  have hall (i : Fin N) : ∃ b ∈ bookings, b.unit = i ∧ b.Occupies time := by
    obtain ⟨b, hb, hunit, -, hle⟩ := hc.exists_booking h i
    exact ⟨b, hb, hunit, (hstarted b hb).trans hfrom, hto.trans_le hle⟩
  rw [hc.successive.length_occupied_eq hall, Fintype.card_fin]

end Delays

/-! ### The version for a single unit -/

theorem single_simulates (delay : BitVec 64) (requests : List Request) {c : ResCounter 1}
    {c' : SingleCounter} (h : c.avail 0 = c'.avail) :
    c.times delay requests = c'.times delay requests := by
  induction requests generalizing c c' with
  | nil => rfl
  | cons r requests ih =>
    -- there are no units but the first
    have hupdate : c.updateTime r.base = ({ c with cur := 0 }, c'.updateTime r.base) := by
      rw [SingleCounter.updateTime, ← h]
      rfl
    have htime : (c.reserve delay r).2 = (c'.reserve delay r).2 := by
      rw [ResCounter.reserve, hupdate]
      rfl
    have havail : (c.reserve delay r).1.avail 0 = (c'.reserve delay r).1.avail := by
      rw [ResCounter.reserve, hupdate]
      exact Function.update_self (0 : Fin 1) _ c.avail
    rw [ResCounter.times, SingleCounter.times, htime, ih havail]

/-- If the ends of all reservations can be represented, there are at most `N` of them at a time.
The next one is delayed only if there is one on each unit that ends later, up to the first time a
unit is available. All units are in use meanwhile if no reservation starts later than the next one
is made. The version for a single unit gives the same times, whatever the ends are. -/
theorem reservations_respect_capacity (delay : BitVec 64) (requests : List Request)
    (t : TimeTaggedBase) :
    let c : ResCounter N := (ResCounter.booked delay requests).1
    let bookings := (ResCounter.booked (N := N) delay requests).2
    let asked := t.currentTime.toNat
    let granted := (c.updateTime t).2.currentTime.toNat
    (StopsFit bookings → (∀ time, (occupied bookings time).length ≤ N) ∧
      (granted ≠ asked → asked < granted ∧
        (∃ b ∈ bookings, b.stop = granted ∧ ∀ b' ∈ bookings, b'.unit = b.unit → b'.stop ≤ b.stop) ∧
        (∀ i, ∃ b ∈ bookings, b.unit = i ∧ granted ≤ b.stop) ∧
        ((∀ b ∈ bookings, b.start ≤ asked) →
          ∀ time, asked ≤ time → time < granted → (occupied bookings time).length = N))) ∧
      (SingleCounter.reset.times delay requests =
        (ResCounter.reset : ResCounter 1).times delay requests) := by
  refine ⟨fun hfits => ?_, ?_⟩
  · have hc := holds_booked hfits
    refine ⟨fun time => ?_, fun hdelayed =>
      ⟨?_, ?_, fun i => ?_, fun hstarted time hfrom hto => ?_⟩⟩
    · exact (hc.successive.length_occupied_le time).trans_eq (Fintype.card_fin N)
    · exact (granted_le_avail hdelayed).1
    · exact hc.exists_released hdelayed
    · obtain ⟨b, hb, hunit, -, hle⟩ := hc.exists_booking hdelayed i
      exact ⟨b, hb, hunit, hle⟩
    · exact hc.length_occupied hdelayed hstarted hfrom hto
  · have hreset : (ResCounter.reset : ResCounter 1).avail 0 = SingleCounter.reset.avail := rfl
    exact (single_simulates delay requests hreset).symm

/-- Two units for 4 time units each, and three instructions at time 5. -/
theorem third_reservation_waits :
    let at5 : TimeTaggedBase := ⟨0, 5, 0, 0⟩
    let bookings := (ResCounter.booked (N := 2) 4 [⟨at5, 0⟩, ⟨at5, 0⟩]).2
    StopsFit bookings ∧ ∀ time, 5 ≤ time → time < 9 → (occupied bookings time).length = 2 :=
  ⟨by decide, ((((reservations_respect_capacity (N := 2) 4 [⟨⟨0, 5, 0, 0⟩, 0⟩, ⟨⟨0, 5, 0, 0⟩, 0⟩]
    ⟨0, 5, 0, 0⟩).1 (by decide)).2 (by decide)).2.2.2 (by decide))⟩

/-- A unit is reserved from time 10 on, and an instruction at time 5 waits until the end of this
reservation. If the end of a reservation cannot be represented, it is taken as early, and a second
reservation is made for the same time. -/
theorem delayed_while_free :
    let s := ResCounter.booked (N := 1) 1 [⟨⟨0, 0, 0, 0⟩, 10⟩]
    let bookings :=
      (ResCounter.booked (N := 1) (BitVec.allOnes 64) [⟨⟨0, 1, 0, 0⟩, 0⟩, ⟨⟨0, 1, 0, 0⟩, 0⟩]).2
    (s.1.updateTime ⟨0, 5, 0, 0⟩).2.currentTime = 11 ∧ (occupied s.2 5).length = 0 ∧
      (occupied bookings 1).length = 2 := by
  decide

end Adl.Iss
