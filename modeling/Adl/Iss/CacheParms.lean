import Mathlib.Algebra.Prime.Lemmas
import Mathlib.Data.Nat.Prime.Basic
import Adl.Helpers.BitTwiddles
import Adl.Math.Machine

/-!
# Parameters of a cache

Lines, sets, ways and the size of a cache can be set by name (`iss/ModelSupport.C`). Lines and sets
are checked for being powers of two. From the size the number of sets is computed by a division, and
the result is not checked.
-/

namespace Adl.Iss

open Adl.Math Adl.Helpers

/-- The numbers of a cache, all of them `unsigned`. -/
structure CacheGeometry where
  lineSize : BitVec 32
  lineMask : BitVec 32
  lineShift : BitVec 32
  sets : BitVec 32
  ways : BitVec 32
deriving DecidableEq

inductive SetReply where
  | accepted (g : CacheGeometry)
  /-- There is no parameter of this name. -/
  | unknown
  | error (message : String)
  | divideByZero
deriving DecidableEq

/-- Set the parameter with a name. All names start with `pfx`. -/
def setModelCacheParm (g : CacheGeometry) (pfx parm : String) (value : BitVec 32) : SetReply :=
  if parm = pfx ++ "cache-line-size" then
    if value = 0 then .error "Cache line size must be non-zero."
    else if !isPower2 value then .error "Cache line size must be a power of 2."
    else if value % 4 ≠ 0 then .error "Cache linesize must be an even number of 32-bit words."
    else .accepted { g with
      lineSize := value
      lineMask := value - 1
      lineShift := BitVec.ofNat 32 (countTrailingZerosUInt32 value) }
  else if parm = pfx ++ "cache-size" then
    if value = 0 then .error "Cache suize must be non-zero."
    else if !isPower2 value then .error "Cache size must be a power of 2."
    else if g.ways * g.lineSize = 0 then .divideByZero
    else .accepted { g with sets := value / (g.ways * g.lineSize) }
  else if parm = pfx ++ "cache-num-sets" then
    if value = 0 then .error "Cache set size must be non-zero."
    else if !isPower2 value then .error "Cache set size must be a power of 2."
    else .accepted { g with sets := value }
  else if parm = pfx ++ "cache-num-ways" then
    if value = 0 then .error "Cache way size must be non-zero."
    else .accepted { g with ways := value }
  else .unknown

def getModelCacheParm (g : CacheGeometry) (pfx parm : String) : Option (BitVec 32) :=
  if parm = pfx ++ "cache-line-size" then some g.lineSize
  else if parm = pfx ++ "cache-size" then some (g.sets * g.ways * g.lineSize)
  else if parm = pfx ++ "cache-num-sets" then some g.sets
  else if parm = pfx ++ "cache-num-ways" then some g.ways
  else none

namespace CacheGeometry

/-- The size of lines is a power of two of at least four with its mask and its logarithm, and the
number of sets is a power of two. -/
structure Consistent (g : CacheGeometry) : Prop where
  line : ∃ k, 2 ≤ k ∧ g.lineSize.toNat = 2 ^ k ∧ g.lineShift.toNat = k
  mask : g.lineMask = g.lineSize - 1
  sets : ∃ k, g.sets.toNat = 2 ^ k

/-- The size of a cache is made up of whole sets. -/
def Fits (pfx : String) (g : CacheGeometry) (call : String × BitVec 32) : Prop :=
  call.1 = pfx ++ "cache-size" → (g.ways * g.lineSize).toNat ∣ call.2.toNat

instance (pfx : String) (g : CacheGeometry) (call : String × BitVec 32) :
    Decidable (g.Fits pfx call) :=
  inferInstanceAs (Decidable (_ → _))

/-- A call, which leaves the numbers alone if it is not accepted. -/
def step (pfx : String) (g : CacheGeometry) (call : String × BitVec 32) :
    SetReply × CacheGeometry :=
  let reply := setModelCacheParm g pfx call.1 call.2
  match reply with
  | .accepted g' => (reply, g')
  | _ => (reply, g)

def Done (pfx parm : String) (value : BitVec 32) (g : CacheGeometry) : Prop :=
  g.Consistent ∧ getModelCacheParm g pfx parm = some value

end CacheGeometry

open CacheGeometry

variable {g g' : CacheGeometry} {pfx parm : String} {value : BitVec 32}

/-! ### One call -/

theorem accepted_cases (h : setModelCacheParm g pfx parm value = .accepted g') :
    (parm = pfx ++ "cache-line-size" ∧ isPower2 value = true ∧ value % 4 = 0 ∧
      g' = { g with
        lineSize := value
        lineMask := value - 1
        lineShift := BitVec.ofNat 32 (countTrailingZerosUInt32 value) }) ∨
    (parm = pfx ++ "cache-size" ∧ isPower2 value = true ∧
      g' = { g with sets := value / (g.ways * g.lineSize) }) ∨
    (parm = pfx ++ "cache-num-sets" ∧ isPower2 value = true ∧ g' = { g with sets := value }) ∨
    (parm = pfx ++ "cache-num-ways" ∧ g' = { g with ways := value }) := by
  unfold setModelCacheParm at h
  split_ifs at h with hline hzero hpower hwords hsize hzero hpower
    hset hsets hzero hpower hways hzero
  -- the branches that refuse the value are gone, and the four parameters are left
  all_goals cases h
  · exact .inl ⟨hline, by simpa using hpower, by simpa using hwords, rfl⟩
  · exact .inr (.inl ⟨hsize, by simpa using hpower, rfl⟩)
  · exact .inr (.inr (.inl ⟨hsets, by simpa using hpower, rfl⟩))
  · exact .inr (.inr (.inr ⟨hways, rfl⟩))

theorem consistent_of_lineSize (hg : g.Consistent) (hpower : isPower2 value = true)
    (hwords : value % 4 = 0) :
    CacheGeometry.Consistent { g with
      lineSize := value
      lineMask := value - 1
      lineShift := BitVec.ofNat 32 (countTrailingZerosUInt32 value) } := by
  obtain ⟨k, hk⟩ := isPower2_iff.mp hpower
  have hpos : 0 < 2 ^ k := Nat.two_pow_pos k
  have hvalue : value ≠ 0 := by
    rintro rfl
    rw [← hk] at hpos
    exact absurd hpos (by decide)
  have hfour : value.toNat % 4 = 0 := congrArg BitVec.toNat hwords
  -- the exponent is small enough to be kept in the field of the shift
  have hshift : k < 32 := by
    by_contra hge
    have hle : 2 ^ 32 ≤ 2 ^ k := Nat.pow_le_pow_right (by decide) (by omega)
    have hlt := value.isLt
    omega
  refine ⟨⟨k, ?_, hk, ?_⟩, rfl, hg.sets⟩
  · -- a power of two that four divides
    rcases k with _ | _ | k
    · omega
    · omega
    · omega
  · rw [countTrailingZerosUInt32_eq hvalue, toNat_ctz_of_two_pow hk, BitVec.toNat_ofNat,
      Nat.mod_eq_of_lt (by omega)]

theorem mul_ways_mul_lineSize :
    (value / (g.ways * g.lineSize) * g.ways * g.lineSize).toNat =
      value.toNat / (g.ways * g.lineSize).toNat * (g.ways * g.lineSize).toNat := by
  rw [BitVec.mul_assoc, BitVec.toNat_mul, BitVec.toNat_udiv, Nat.mod_eq_of_lt]
  exact Nat.lt_of_le_of_lt (Nat.div_mul_le_self _ _) value.isLt

/-- A size gives a power of two as the number of sets, and is returned afterwards, exactly if it is
made up of whole sets. -/
theorem cacheSize_iff (hg : g.Consistent) (hpower : isPower2 value = true) :
    Done pfx (pfx ++ "cache-size") value { g with sets := value / (g.ways * g.lineSize) } ↔
      (g.ways * g.lineSize).toNat ∣ value.toNat := by
  have hget : getModelCacheParm { g with sets := value / (g.ways * g.lineSize) } pfx
      (pfx ++ "cache-size") = some (value / (g.ways * g.lineSize) * g.ways * g.lineSize) := by
    simp [getModelCacheParm]
  rw [Done, hget, Option.some.injEq, ← BitVec.toNat_inj, mul_ways_mul_lineSize]
  constructor
  · rintro ⟨-, hvalue⟩
    exact Nat.dvd_of_mod_eq_zero (by rw [Nat.mod_eq_sub_div_mul, hvalue, Nat.sub_self])
  · intro hdvd
    refine ⟨⟨hg.line, hg.mask, ?_⟩, Nat.div_mul_cancel hdvd⟩
    obtain ⟨k, hk⟩ := isPower2_iff.mp hpower
    -- a divisor of a power of two is one, and so is the quotient
    rw [hk] at hdvd
    obtain ⟨j, hj, hset⟩ := (Nat.dvd_prime_pow Nat.prime_two).mp hdvd
    refine ⟨k - j, ?_⟩
    rw [BitVec.toNat_udiv, hset, hk, Nat.pow_div hj (by decide)]

/-- An accepted call has done what it is for exactly if the size fits. -/
theorem done_iff (hg : g.Consistent)
    (haccepted : setModelCacheParm g pfx parm value = .accepted g') :
    Done pfx parm value g' ↔ g.Fits pfx (parm, value) := by
  have hother {name : String} (hname : name ≠ "cache-size") :
      g.Fits pfx (pfx ++ name, value) := fun heq =>
    absurd ((String.append_right_inj _).mp heq) hname
  obtain ⟨rfl, hpower, hwords, rfl⟩ | ⟨rfl, hpower, rfl⟩ | ⟨rfl, hpower, rfl⟩ | ⟨rfl, rfl⟩ :=
    accepted_cases haccepted
  · refine iff_of_true ⟨consistent_of_lineSize hg hpower hwords, ?_⟩ (hother (by decide))
    simp [getModelCacheParm]
  · rw [cacheSize_iff hg hpower, Fits]
    exact ⟨fun hdvd _ => hdvd, fun hfits => hfits rfl⟩
  · refine iff_of_true ⟨⟨hg.line, hg.mask, isPower2_iff.mp hpower⟩, ?_⟩ (hother (by decide))
    simp [getModelCacheParm]
  · refine iff_of_true ⟨⟨hg.line, hg.mask, hg.sets⟩, ?_⟩ (hother (by decide))
    simp [getModelCacheParm]

/-! ### Sequences of calls -/

theorem CacheGeometry.Consistent.step (hg : g.Consistent) {call : String × BitVec 32}
    (hfits : g.Fits pfx call) : (g.step pfx call).2.Consistent := by
  rw [CacheGeometry.step]
  split
  case h_1 g' haccepted => exact ((done_iff hg haccepted).mpr hfits).1
  case h_2 => exact hg

/-- As long as the sizes fit, the numbers stay consistent. The next call that is accepted keeps
them so and gets what it has set exactly if its size fits. -/
theorem cache_parms_iff (pfx : String) (g : CacheGeometry) (hg : g.Consistent)
    (calls : List (String × BitVec 32))
    (hcalls : Along (CacheGeometry.step pfx) (CacheGeometry.Fits pfx) g calls) :
    let g := (runs (CacheGeometry.step pfx) g calls).2
    g.Consistent ∧ ∀ parm value g', setModelCacheParm g pfx parm value = .accepted g' →
      (g'.Consistent ∧ getModelCacheParm g' pfx parm = some value ↔
        g.Fits pfx (parm, value)) := by
  intro g
  have hg : g.Consistent :=
    runs_along (P := Consistent) (fun _ _ hfits hg => hg.step hfits) hcalls hg
  exact ⟨hg, fun parm value g' => done_iff hg⟩

/-! ### A cache of 16 KB -/

def smallCache : CacheGeometry := ⟨32, 31, 5, 64, 8⟩

theorem smallCache_consistent : smallCache.Consistent :=
  ⟨⟨5, by decide, by decide, by decide⟩, by decide, ⟨6, by decide⟩⟩

/-- Longer lines, and then the size that they give. -/
theorem cache_parms_longer_lines :
    (runs (CacheGeometry.step "l1-") smallCache
      [("l1-cache-line-size", 64), ("l1-cache-size", 0x8000)]).2.Consistent :=
  (cache_parms_iff "l1-" smallCache smallCache_consistent
    [("l1-cache-line-size", 64), ("l1-cache-size", 0x8000)] (by decide +kernel)).1

/-- A size that is smaller than one line of each way leaves no set. -/
theorem cache_size_without_sets :
    setModelCacheParm smallCache "l1-" "l1-cache-size" 128 = .accepted ⟨32, 31, 5, 0, 8⟩ ∧
      getModelCacheParm ⟨32, 31, 5, 0, 8⟩ "l1-" "l1-cache-size" = some 0 := by
  decide +kernel

end Adl.Iss
