import Mathlib.Data.Fintype.Card
import Mathlib.Order.Basic

/-!
# Bookings of units

Units of some resource are booked for intervals of time. If the bookings of each unit follow one
another, there are never more of them at a time than there are units.
-/

namespace Adl.Math

/-- A unit is booked from `start` up to `stop`. -/
structure Booking (ι T : Type*) where
  unit : ι
  start : T
  stop : T

variable {ι T : Type*} [LinearOrder T]

def Booking.Occupies (b : Booking ι T) (time : T) : Prop := b.start ≤ time ∧ time < b.stop

instance (b : Booking ι T) (time : T) : Decidable (b.Occupies time) :=
  inferInstanceAs (Decidable (_ ∧ _))

/-- The bookings at a time. -/
def occupied (bookings : List (Booking ι T)) (time : T) : List (Booking ι T) :=
  bookings.filter (·.Occupies time)

/-- A booking starts after the earlier ones of its unit. The last booking comes first. -/
def Successive (bookings : List (Booking ι T)) : Prop :=
  bookings.Pairwise fun b b' => b.unit = b'.unit → b'.stop ≤ b.start

namespace Successive

variable {bookings : List (Booking ι T)}

theorem nodup_occupied (h : Successive bookings) (time : T) :
    ((occupied bookings time).map (·.unit)).Nodup := by
  refine List.pairwise_map.mpr ((h.filter _).imp_of_mem fun {b b'} hb hb' hlater heq => ?_)
  have hnow : b.Occupies time := of_decide_eq_true (List.mem_filter.mp hb).2
  have hnow' : b'.Occupies time := of_decide_eq_true (List.mem_filter.mp hb').2
  -- the earlier one is over when the later one starts
  exact absurd ((hlater heq).trans hnow.1) (not_le_of_gt hnow'.2)

variable [Fintype ι]

theorem length_occupied_le (h : Successive bookings) (time : T) :
    (occupied bookings time).length ≤ Fintype.card ι := by
  rw [← List.length_map]
  exact (h.nodup_occupied time).length_le_card

theorem length_occupied_eq (h : Successive bookings) {time : T}
    (hall : ∀ i, ∃ b ∈ bookings, b.unit = i ∧ b.Occupies time) :
    (occupied bookings time).length = Fintype.card ι := by
  classical
  have huniv : ((occupied bookings time).map (·.unit)).toFinset = Finset.univ := by
    ext i
    obtain ⟨b, hb, rfl, hnow⟩ := hall i
    have hmem : b ∈ occupied bookings time := List.mem_filter.mpr ⟨hb, decide_eq_true hnow⟩
    exact iff_of_true (List.mem_toFinset.mpr (List.mem_map_of_mem hmem)) (Finset.mem_univ _)
  rw [← List.length_map, ← List.toFinset_card_of_nodup (h.nodup_occupied time), huniv,
    Finset.card_univ]

end Successive

end Adl.Math
