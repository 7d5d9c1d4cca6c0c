import Adl.Math.Search
import Mathlib.Algebra.GroupWithZero.Nat
import Mathlib.Data.List.Pairwise
import Mathlib.Order.Nat

/-!
# Physical addresses of ELF segments

Program headers are sorted by an order in which a segment comes before another one if it ends before
the other one begins, and looked up by a binary search for a segment of one byte. An empty segment
counts as one byte too.
-/

namespace Adl.Loader.Segments

open Adl.Math

abbrev Addr := BitVec 64

structure Segment where
  vaddr : Addr
  paddr : Addr
  size : Addr
  deriving DecidableEq

namespace Segment

def key (v : Addr) : Segment := ⟨v, 0, 1⟩

/-- The last address, as `SegmentOrder` computes it. -/
def last (s : Segment) : Addr := if s.size ≠ 0 then s.vaddr + s.size - 1 else s.vaddr

/-- `SegmentOrder`. -/
def lt (x y : Segment) : Bool := x.last < y.vaddr

def Contains (s : Segment) (v : Addr) : Prop :=
  s.vaddr.toNat ≤ v.toNat ∧ v.toNat < s.vaddr.toNat + s.size.toNat

instance (s : Segment) (v : Addr) : Decidable (s.Contains v) :=
  inferInstanceAs (Decidable (_ ∧ _))

end Segment

/-- What `setup_segments` may leave behind: the sorted segments, or no segments and no mapping if
no physical address has been given. -/
def SetupSegments (headers segments : List Segment) (usePa : Bool) : Prop :=
  if headers.any fun s => s.paddr ≠ 0 then Sorts Segment.lt headers segments ∧ usePa = true
  else segments = [] ∧ usePa = false

def getPhysAddr (segments : List Segment) (usePa : Bool) (vaddr : Addr) : Option Addr :=
  if usePa then
    (search (fun s => s.lt (.key vaddr)) (fun s => Segment.lt (.key vaddr) s) segments).map
      fun s => vaddr - s.vaddr + s.paddr
  else some vaddr

/-- Segments that are not empty do not wrap and have no address in common. -/
structure Disjoint (headers : List Segment) : Prop where
  no_wrap : ∀ s ∈ headers, s.size ≠ 0 → s.vaddr.toNat + s.size.toNat ≤ 2 ^ 64
  disjoint : headers.Pairwise fun s t => ∀ v, ¬ (s.Contains v ∧ t.Contains v)

/-- An empty segment inside another one is only a second name for its one byte. -/
def EmptyOutside (headers : List Segment) : Prop :=
  ∀ z ∈ headers, z.size = 0 → ∀ s ∈ headers, s.Contains z.vaddr → s.size = 1 ∧ z.paddr = s.paddr

/-- Every address of a segment is mapped as its header says, whatever order sorting gives. -/
def Maps (headers : List Segment) : Prop :=
  ∀ segments, Sorts Segment.lt headers segments → ∀ s ∈ headers, ∀ v, s.Contains v →
    getPhysAddr segments true v = some (v - s.vaddr + s.paddr)

section Order

variable {headers segments : List Segment} {s t : Segment} {v : Addr}

theorem toNat_last (hs : s.size ≠ 0 → s.vaddr.toNat + s.size.toNat ≤ 2 ^ 64) :
    s.last.toNat = s.vaddr.toNat + (s.size.toNat - 1) := by
  rw [Segment.last]
  split_ifs with hsize
  · have hpos : s.size.toNat ≠ 0 := fun h => hsize (BitVec.eq_of_toNat_eq h)
    have := hs hsize
    have hone : (1 : Addr).toNat = 1 := rfl
    rw [BitVec.toNat_sub, BitVec.toNat_add, hone]
    omega
  · simp [not_not.mp hsize]

theorem lt_iff : s.lt t = true ↔ s.last.toNat < t.vaddr.toNat := by
  rw [Segment.lt, decide_eq_true_iff, BitVec.lt_def]

theorem lt_key_iff : s.lt (.key v) = true ↔ s.last.toNat < v.toNat := lt_iff

theorem key_lt_iff : Segment.lt (.key v) s = true ↔ v.toNat < s.vaddr.toNat := by
  rw [lt_iff, toNat_last (s := .key v) fun _ => v.isLt]
  rfl

namespace Disjoint

variable (h : Disjoint headers)
include h

theorem toNat_last (hs : s ∈ headers) : s.last.toNat = s.vaddr.toNat + (s.size.toNat - 1) :=
  Segments.toNat_last (h.no_wrap s hs)

theorem size_eq_zero (hs : s ∈ headers) (ht : t ∈ headers) (hne : s ≠ t)
    (hcontains : s.Contains t.vaddr) : t.size = 0 := by
  by_contra hsize
  have : Std.Symm fun s t : Segment => ∀ v, ¬ (s.Contains v ∧ t.Contains v) :=
    ⟨fun _ _ hst v hv => hst v hv.symm⟩
  have hdisjoint := h.disjoint.forall hs ht hne
  have hpos : t.size.toNat ≠ 0 := fun h => hsize (BitVec.eq_of_toNat_eq h)
  exact hdisjoint t.vaddr ⟨hcontains, le_rfl, by omega⟩

theorem last_lt (hempty : EmptyOutside headers) (hs : s ∈ headers) (ht : t ∈ headers)
    (hlt : s.vaddr.toNat < t.vaddr.toNat) : s.last.toNat < t.vaddr.toNat := by
  rw [h.toNat_last hs]
  by_contra hinside
  have hcontains : s.Contains t.vaddr := ⟨hlt.le, by omega⟩
  have hsize := (hempty t ht (h.size_eq_zero hs ht (fun heq => by simp [heq] at hlt) hcontains) s hs
    hcontains).1
  rw [hsize] at hinside
  exact hinside hlt

theorem last_le (hempty : EmptyOutside headers) (hs : s ∈ headers) (ht : t ∈ headers)
    (hle : s.vaddr.toNat ≤ t.vaddr.toNat) : s.last.toNat ≤ t.last.toNat := by
  have hslast := h.toNat_last hs
  have htlast := h.toNat_last ht
  rcases hle.lt_or_eq with hlt | heq
  · have := h.last_lt hempty hs ht hlt
    omega
  · by_contra hlonger
    have hcontains : s.Contains t.vaddr := ⟨hle, by omega⟩
    have hne : s ≠ t := fun h => hlonger (by rw [h])
    have hsize := (hempty t ht (h.size_eq_zero hs ht hne hcontains) s hs hcontains).1
    rw [hsize] at hslast
    simp at hslast
    omega

theorem strictOrder : StrictOrder Segment.lt headers := by
  constructor
  · intro a ha b hb hab
    rw [← Bool.not_eq_true, lt_iff, h.toNat_last hb]
    rw [lt_iff, h.toNat_last ha] at hab
    omega
  · intro a ha b hb c hc hab hbc
    rw [lt_iff, h.toNat_last hb] at hbc
    rw [lt_iff] at hab ⊢
    omega

theorem strictWeak (hempty : EmptyOutside headers) : StrictWeak Segment.lt headers := by
  refine ⟨h.strictOrder, fun a ha b hb c hc hab hbc => ?_⟩
  rw [← Bool.not_eq_true, lt_iff, not_lt] at hab hbc ⊢
  have hba := mt (h.last_lt hempty ha hb) hab.not_gt
  have hcb := mt (h.last_lt hempty hb hc) hbc.not_gt
  have := h.toNat_last ha
  omega

theorem map_eq_of_found {e : Segment} (hempty : EmptyOutside headers) (he : e ∈ headers)
    (hs : s ∈ headers) (hv : s.Contains v) (hle : e.vaddr.toNat ≤ s.vaddr.toNat)
    (hfound : v.toNat ≤ e.last.toNat) : v - e.vaddr + e.paddr = v - s.vaddr + s.paddr := by
  obtain ⟨hfrom, hto⟩ := hv
  by_cases hne : e = s
  · rw [hne]
  have heq : e.vaddr = s.vaddr := by
    refine BitVec.eq_of_toNat_eq (hle.eq_of_not_lt fun hlt => ?_)
    have := h.last_lt hempty he hs hlt
    omega
  have hcontains : s.Contains e.vaddr := heq ▸ ⟨le_rfl, by omega⟩
  have hsize := h.size_eq_zero hs he (Ne.symm hne) hcontains
  rw [heq, (hempty e he hsize s hs hcontains).2]

theorem search_eq (hempty : EmptyOutside headers) (hsort : Sorts Segment.lt headers segments)
    (hs : s ∈ headers) (hv : s.Contains v) :
    getPhysAddr segments true v = some (v - s.vaddr + s.paddr) := by
  have hmem : ∀ {a}, a ∈ segments → a ∈ headers := fun ha => hsort.perm.subset ha
  have hsorted : segments.Pairwise fun a b => a.vaddr.toNat ≤ b.vaddr.toNat := by
    refine (hsort.sorted (h.strictWeak hempty)).imp_of_mem fun {a b} ha hb hab => ?_
    rw [← Bool.not_eq_true, lt_iff] at hab
    exact not_lt.mp (mt (h.last_lt hempty (hmem hb) (hmem ha)) hab)
  have hslast := h.toNat_last hs
  obtain ⟨hfrom, hto⟩ := id hv
  have hnotBelow : s.lt (.key v) = false := by
    rw [← Bool.not_eq_true, lt_key_iff]
    omega
  obtain ⟨e, he⟩ : ∃ e, segments.find? (fun e => !e.lt (.key v)) = some e := by
    rw [← Option.isSome_iff_exists, List.find?_isSome]
    exact ⟨s, hsort.perm.symm.subset hs, by rw [hnotBelow]; rfl⟩
  obtain ⟨hfound, before, after, rfl, hbefore⟩ := List.find?_eq_some_iff_append.mp he
  rw [Bool.not_eq_true', ← Bool.not_eq_true, lt_key_iff, not_lt] at hfound
  -- The segment itself stands at the place that is found, or behind it.
  have hle : e.vaddr.toNat ≤ s.vaddr.toNat := by
    rcases List.mem_append.mp (hsort.perm.symm.subset hs) with hb | ha
    · have := hbefore s hb
      rw [hnotBelow] at this
      cases this
    · rcases List.mem_cons.mp ha with rfl | ha
      · exact le_rfl
      · exact (List.pairwise_cons.mp (List.pairwise_append.mp hsorted).2.1).1 s ha
  have hemem : e ∈ headers := hmem (List.mem_append_right _ List.mem_cons_self)
  rw [getPhysAddr, if_pos rfl, search_eq_some_iff.mpr ⟨?_, ?_, he, ?_⟩, Option.map_some,
    h.map_eq_of_found hempty hemem hs hv hle hfound]
  · refine hsorted.imp_of_mem fun {a b} ha hb hab hbelow => ?_
    have := h.last_le hempty (hmem ha) (hmem hb) hab
    rw [lt_key_iff] at hbelow ⊢
    omega
  · refine hsorted.imp fun {a b} hab habove => ?_
    rw [key_lt_iff] at habove ⊢
    omega
  · rw [← Bool.not_eq_true, key_lt_iff]
    omega

theorem exists_search (hmaps : Maps headers) {x : Segment} (hx : x ∈ headers) :
    ∃ before after, (∀ a ∈ before, a.lt x = true) ∧
      (∀ y ∈ headers, y ≠ x → y.lt x = false → y ∈ after) ∧
      ∀ s ∈ headers, ∀ v, s.Contains v → ∃ e,
        search (fun s => s.lt (.key v)) (fun s => Segment.lt (.key v) s) (before ++ x :: after) =
          some e ∧ v - e.vaddr + e.paddr = v - s.vaddr + s.paddr := by
  obtain ⟨before, after, hperm, hsorted, hbefore, -⟩ := h.strictOrder.exists_sorted_first hx
  refine ⟨before, after, hbefore, fun y hy hne hlt => ?_, fun s hs v hv => ?_⟩
  · rcases List.mem_append.mp (hperm.symm.subset hy) with hy | hy
    · exact absurd (hbefore y hy) (by simp [hlt])
    · exact (List.mem_cons.mp hy).resolve_left hne
  · have hget := hmaps _ ⟨hperm, fun _ => hsorted⟩ s hs v hv
    rwa [getPhysAddr, if_pos rfl, Option.map_eq_some_iff] at hget

/-- Next to a longer segment, an empty one breaks the order that the search needs. -/
theorem size_eq_one (hmaps : Maps headers) {z : Segment} (hz : z ∈ headers) (hzsize : z.size = 0)
    (hs : s ∈ headers) (hcontains : s.Contains z.vaddr) : s.size.toNat = 1 := by
  have hslast := h.toNat_last hs
  have hzlast : z.last = z.vaddr := if_neg (not_not.mpr hzsize)
  obtain ⟨hfrom, hto⟩ := hcontains
  have hne : s ≠ z := by
    rintro rfl
    rw [hzsize] at hto
    exact Nat.lt_irrefl _ hto
  by_contra hsize
  rcases hfrom.lt_or_eq with hlt | heq
  · -- The first address is below the empty segment, which stands before the other one.
    obtain ⟨before, after, -, hafter, hget⟩ := h.exists_search hmaps hz
    obtain ⟨e, he, -⟩ := hget s hs s.vaddr ⟨le_rfl, by omega⟩
    have hmem := hafter s hs hne (by rw [← Bool.not_eq_true, lt_iff, hslast]; omega)
    have habove := (search_eq_some_iff.mp he).2.1
    have := (List.pairwise_cons.mp (List.pairwise_append.mp habove).2.1).1 s hmem
    rw [key_lt_iff, key_lt_iff] at this
    exact Nat.lt_irrefl _ (this hlt)
  · -- The last address is above the empty segment, which stands behind the other one.
    obtain ⟨before, after, -, hafter, hget⟩ := h.exists_search hmaps hs
    obtain ⟨e, he, -⟩ := hget s hs s.last ⟨by omega, by omega⟩
    have hmem := hafter z hz hne.symm (by rw [← Bool.not_eq_true, lt_iff, hzlast]; omega)
    have hbelow := (search_eq_some_iff.mp he).1
    have := (List.pairwise_cons.mp (List.pairwise_append.mp hbelow).2.1).1 z hmem
    rw [lt_key_iff, lt_key_iff, hzlast] at this
    exact Nat.lt_irrefl _ (this (by omega))

/-- An empty segment that comes first is found in the place of the other one. -/
theorem paddr_eq (hmaps : Maps headers) {z : Segment} (hz : z ∈ headers) (hzsize : z.size = 0)
    (hs : s ∈ headers) (hcontains : s.Contains z.vaddr) : z.paddr = s.paddr := by
  have hone := h.size_eq_one hmaps hz hzsize hs hcontains
  have hvaddr : z.vaddr = s.vaddr := BitVec.eq_of_toNat_eq (by
    obtain ⟨hfrom, hto⟩ := hcontains
    omega)
  obtain ⟨before, after, hbefore, -, hget⟩ := h.exists_search hmaps hz
  obtain ⟨e, he, hvalue⟩ := hget s hs z.vaddr hcontains
  have hfind : (before ++ z :: after).find? (fun e => !e.lt (.key z.vaddr)) = some z := by
    refine List.find?_eq_some_iff_append.mpr ⟨?_, before, after, rfl, fun a ha => ?_⟩
    · rw [Bool.not_eq_true', ← Bool.not_eq_true, lt_key_iff, Segment.last,
        if_neg (not_not.mpr hzsize)]
      exact Nat.lt_irrefl _
    · rw [Bool.not_not]
      exact hbefore a ha
  obtain rfl := Option.some.inj (hfind.symm.trans (search_eq_some_iff.mp he).2.2.1)
  rwa [← hvaddr, BitVec.sub_self, BitVec.zero_add, BitVec.zero_add] at hvalue

end Disjoint

end Order

/-- Every address of a segment is mapped as its header says, whatever order of equivalent segments
sorting gives, exactly when no empty segment lies inside a segment of more than one byte and those
at the place of a single byte have its physical address. -/
theorem getPhysAddr_iff {headers : List Segment} (hpaddr : ∃ s ∈ headers, s.paddr ≠ 0)
    (h : Disjoint headers) :
    (∀ segments usePa, SetupSegments headers segments usePa → ∀ s ∈ headers, ∀ v, s.Contains v →
      getPhysAddr segments usePa v = some (v - s.vaddr + s.paddr)) ↔ EmptyOutside headers := by
  have hany : (headers.any fun s => s.paddr ≠ 0) = true := by
    obtain ⟨s, hs, hne⟩ := hpaddr
    exact List.any_eq_true.mpr ⟨s, hs, decide_eq_true hne⟩
  simp only [SetupSegments, if_pos hany]
  constructor
  · intro hmap z hz hzsize s hs hcontains
    have hmaps : Maps headers := fun segments hsort => hmap segments true ⟨hsort, rfl⟩
    exact ⟨BitVec.eq_of_toNat_eq (h.size_eq_one hmaps hz hzsize hs hcontains),
      h.paddr_eq hmaps hz hzsize hs hcontains⟩
  · intro hempty segments usePa hsetup s hs v hv
    rw [hsetup.2]
    exact h.search_eq hempty hsetup.1 hs hv

/-- Two segments that touch, and an empty one behind them. -/
theorem getPhysAddr_touching :
    let headers : List Segment := [⟨0x1000, 0x8000, 0x1000⟩, ⟨0x2000, 0, 0x10⟩, ⟨0x2010, 0, 0⟩]
    (∀ segments usePa, SetupSegments headers segments usePa → ∀ s ∈ headers, ∀ v, s.Contains v →
      getPhysAddr segments usePa v = some (v - s.vaddr + s.paddr)) ↔ EmptyOutside headers :=
  getPhysAddr_iff ⟨_, .head _, by decide⟩
    ⟨by decide, by
      simp only [List.pairwise_cons, List.mem_cons, List.not_mem_nil, or_false, forall_eq_or_imp,
        forall_eq, Segment.Contains]
      simp
      omega⟩

/-- An empty segment at the start of another one is found in its place. -/
theorem empty_segment_found :
    let headers : List Segment := [⟨0x1000, 0, 0⟩, ⟨0x1000, 0x8000, 0x1000⟩]
    SetupSegments headers headers true ∧
      getPhysAddr headers true 0x1000 ≠ some (0x1000 - 0x1000 + 0x8000) := by
  refine ⟨?_, by decide⟩
  rw [SetupSegments, if_pos (by decide)]
  exact ⟨⟨.refl _, fun _ => by decide⟩, rfl⟩

end Adl.Loader.Segments
