import Adl.Decode.Insert
import Adl.Math.Words

/-!
# The generated decoder

The generators print a decode tree as nested `switch` statements over the fetched 32-bit words
(`writeDecodeTable` in `iss/GenInstrs.C`). `decode` is the printed code; `walk` is the same descent
with masks of the whole encoding. They agree on trees whose masks are confined to one word each.
-/

namespace Adl.Decode

open Adl.Math

variable {W : ℕ}

/-! ### Words of an encoding -/

/-- The nonzero word of a mask. -/
def getSubmask (mask : BitVec W) : BitVec 32 :=
  go (W / 32 + 1) mask
where
  go : ℕ → BitVec W → BitVec 32
    | 0, _ => 0
    | n + 1, mask =>
      if mask = 0 then 0
      else if mask.setWidth 32 ≠ 0 then mask.setWidth 32
      else go n (mask >>> 32)

def getIndex (mask : BitVec W) : ℕ :=
  go (W / 32 + 1) mask 0
where
  go : ℕ → BitVec W → ℕ → ℕ
    | 0, _, ret => ret
    | n + 1, mask, ret =>
      if mask = 0 then ret
      else if mask.setWidth 32 ≠ 0 then W / 32 - 1 - ret
      else go n (mask >>> 32) (ret + 1)

def fetchWord (w : BitVec W) (ind : ℕ) : BitVec 32 :=
  word w ind

/-! ### Descending into a table -/

mutual

/-- Descend into the first case that is hit. A node without branches yields its own
instruction. -/
def InstrTable.walkWith (hit : BitVec W → BitVec W → Bool) :
    InstrTable W → Option (Instr W)
  | ⟨_, mask, table, defaultTable, _, instr, _⟩ =>
    if table.isEmpty then instr
    else walkCases hit mask (walkDefault hit instr defaultTable) table

def walkDefault (hit : BitVec W → BitVec W → Bool) (instr : Option (Instr W)) :
    Option (InstrTable W) → Option (Instr W)
  | none => instr
  | some d => d.walkWith hit

/-- The cases of a node, tried in order. -/
def walkCases (hit : BitVec W → BitVec W → Bool) (mask : BitVec W)
    (otherwise : Option (Instr W)) : List (BitVec W × InstrTable W) → Option (Instr W)
  | [] => otherwise
  | (key, c) :: rest => if hit mask key then c.walkWith hit else walkCases hit mask otherwise rest

end

namespace InstrTable

/-- The generated decoder, run on an array of fetched words. -/
def decode (fetch : ℕ → BitVec 32) : InstrTable W → Option (Instr W) :=
  walkWith fun mask key =>
    fetch (getIndex mask) &&& getSubmask mask == fetchWord key (getIndex mask)

/-- The descent along the masked values of an instruction word. -/
def walk (w : BitVec W) : InstrTable W → Option (Instr W) :=
  walkWith fun mask key => w &&& mask == key

/-- Masks of nodes with branches are nonzero and lie inside one word, and keys lie inside the
mask of their node. -/
inductive WellMasked : InstrTable W → Prop
  | mk {t : InstrTable W}
      (legal : t.table ≠ [] → t.mask ≠ 0 ∧ legalMask t.mask = true)
      (within : ∀ k c, (k, c) ∈ t.table → Within k t.mask)
      (cases : ∀ k c, (k, c) ∈ t.table → WellMasked c)
      (default : ∀ d, t.defaultTable = some d → WellMasked d) : WellMasked t

theorem walkWith_eq (hit : BitVec W → BitVec W → Bool) (t : InstrTable W) :
    t.walkWith hit = if t.table.isEmpty then t.instr
      else walkCases hit t.mask (walkDefault hit t.instr t.defaultTable) t.table := by
  cases t
  rw [walkWith]

private theorem walkCases_eq (w mask : BitVec W) (otherwise : Option (Instr W))
    (l : List (BitVec W × InstrTable W)) :
    walkCases (fun mask key => w &&& mask == key) mask otherwise l =
      match KeyedList.find (w &&& mask) l with
      | some c => c.walk w
      | none => otherwise := by
  induction l with
  | nil => rw [walkCases]; rfl
  | cons entry rest ih =>
    obtain ⟨key, c⟩ := entry
    rw [walkCases, KeyedList.find_cons, ih]
    by_cases hkey : key = w &&& mask
    · simp [hkey, walk]
    · simp [hkey, Ne.symm hkey]

theorem walk_eq (w : BitVec W) (t : InstrTable W) :
    t.walk w = if t.table = [] then t.instr
      else match t.find (w &&& t.mask) with
        | some c => c.walk w
        | none => match t.defaultTable with
          | some d => d.walk w
          | none => t.instr := by
  have hdefault : walkDefault (fun mask key => w &&& mask == key) t.instr t.defaultTable =
      match t.defaultTable with
      | some d => d.walk w
      | none => t.instr := by
    cases t.defaultTable with
    | none => rw [walkDefault]
    | some d => rw [walkDefault]; rfl
  change t.walkWith (fun mask key => w &&& mask == key) = _
  rw [walkWith_eq, walkCases_eq, hdefault, find]
  simp only [List.isEmpty_iff]

theorem walk_eq_bind {t : InstrTable W} (hinstr : t.instr = none)
    (hdefault : t.defaultTable = none) (w : BitVec W) :
    t.walk w = (t.find (w &&& t.mask)).bind (walk w) := by
  rw [walk_eq, hinstr, hdefault]
  split_ifs with hnil
  · simp [find, hnil]
  · cases t.find (w &&& t.mask) <;> rfl

end InstrTable

/-! ### The generated code follows the masks -/

theorem exists_word_of_legalMask {mask : BitVec W} (hne : mask ≠ 0)
    (hlegal : legalMask mask = true) :
    ∃ j, 32 * j < W ∧ ∀ i, mask.getLsbD i = true → 32 * j ≤ i ∧ i < 32 * j + 32 := by
  obtain ⟨b, hb⟩ := ne_zero_iff.mp hne
  have hbW : b < W := BitVec.lt_of_getLsbD hb
  -- the lowest bit is where the search for the shift stops
  obtain ⟨s, hs⟩ : ∃ s, (List.range W).find? (mask.getLsbD ·) = some s := by
    rw [← Option.isSome_iff_exists, List.find?_isSome]
    exact ⟨b, List.mem_range.mpr hbW, hb⟩
  have hshift : getShift mask = s := by simp [getShift, hs]
  have hlow : ∀ i, mask.getLsbD i = true → s ≤ i := by
    intro i hi
    rw [List.find?_range_eq_some] at hs
    by_contra hlt
    have := hs.2.2 i (by omega)
    simp [hi] at this
  have hsW : s < W := by
    have := List.mem_of_find?_eq_some hs
    simpa using this
  refine ⟨s / 32, by omega, fun i hi => ⟨by have := hlow i hi; omega, ?_⟩⟩
  rw [legalMask, hshift, beq_iff_eq, eq_zero_iff] at hlegal
  by_contra hge
  have hhigh := hlegal (i - (32 * (s / 32) + 32))
  rw [BitVec.getLsbD_ushiftRight, show 32 * (s / 32) + 32 + (i - (32 * (s / 32) + 32)) = i by omega,
    hi] at hhigh
  exact absurd hhigh (by simp)

private theorem submask_index (j : ℕ) : ∀ (mask : BitVec W) (fuel ret : ℕ), mask ≠ 0 →
    (∀ i, mask.getLsbD i = true → 32 * j ≤ i ∧ i < 32 * j + 32) → j < fuel →
    getSubmask.go fuel mask = (mask >>> (32 * j)).setWidth 32 ∧
      getIndex.go fuel mask ret = W / 32 - 1 - (ret + j) := by
  -- on the number of words below the one with the bits; each round drops a word
  induction j with
  | zero =>
    intro mask fuel ret hne hbits hfuel
    obtain ⟨fuel, rfl⟩ : ∃ k, fuel = k + 1 := ⟨fuel - 1, by omega⟩
    have hlow : mask.setWidth 32 ≠ 0 := by
      obtain ⟨b, hb⟩ := ne_zero_iff.mp hne
      refine ne_zero_iff.mpr ⟨b, ?_⟩
      have := hbits b hb
      simp [BitVec.getLsbD_setWidth, hb]
      omega
    rw [getSubmask.go, getIndex.go, if_neg hne, if_neg hne, if_pos hlow, if_pos hlow]
    simp
  | succ j ih =>
    intro mask fuel ret hne hbits hfuel
    obtain ⟨fuel, rfl⟩ : ∃ k, fuel = k + 1 := ⟨fuel - 1, by omega⟩
    have hlow : ¬ mask.setWidth 32 ≠ 0 := by
      rw [not_not, eq_zero_iff]
      intro i
      rw [BitVec.getLsbD_setWidth]
      by_contra h
      simp only [Bool.and_eq_false_imp, decide_eq_true_eq, not_forall, Bool.not_eq_false] at h
      obtain ⟨hi, hm⟩ := h
      have := hbits i hm
      omega
    have hne' : mask >>> 32 ≠ 0 := by
      obtain ⟨b, hb⟩ := ne_zero_iff.mp hne
      refine ne_zero_iff.mpr ⟨b - 32, ?_⟩
      have := hbits b hb
      rw [BitVec.getLsbD_ushiftRight, show 32 + (b - 32) = b by omega]
      exact hb
    have hbits' : ∀ i, (mask >>> 32).getLsbD i = true → 32 * j ≤ i ∧ i < 32 * j + 32 := by
      intro i hi
      rw [BitVec.getLsbD_ushiftRight] at hi
      have := hbits _ hi
      omega
    obtain ⟨hsub, hidx⟩ := ih (mask >>> 32) fuel (ret + 1) hne' hbits' (by omega)
    rw [getSubmask.go, getIndex.go, if_neg hne, if_neg hne, if_neg hlow, if_neg hlow, hsub, hidx,
      ← BitVec.shiftRight_add]
    exact ⟨by rw [show 32 + 32 * j = 32 * (j + 1) by omega], by omega⟩

section Fetch

variable {n : ℕ}

theorem fetchWord_hit_iff {mask key : BitVec (32 * n)} (hne : mask ≠ 0)
    (hlegal : legalMask mask = true) (hkey : Within key mask) (w : BitVec (32 * n)) :
    fetchWord w (getIndex mask) &&& getSubmask mask = fetchWord key (getIndex mask) ↔
      w &&& mask = key := by
  obtain ⟨j, hj, hbits⟩ := exists_word_of_legalMask hne hlegal
  obtain ⟨hsub, hidx⟩ := submask_index j mask (32 * n / 32 + 1) 0 hne hbits (by omega)
  have hshift : 32 * n - 32 * (getIndex mask + 1) = 32 * j := by
    rw [getIndex, hidx]
    omega
  rw [within_iff] at hkey
  simp only [fetchWord, word, hshift, getSubmask, hsub, eq_iff_getLsbD, BitVec.getLsbD_and,
    BitVec.getLsbD_setWidth, BitVec.getLsbD_ushiftRight]
  constructor
  · intro h i
    by_cases hi : 32 * j ≤ i ∧ i < 32 * j + 32
    · have := h (i - 32 * j)
      rw [show 32 * j + (i - 32 * j) = i by omega] at this
      simpa [show i - 32 * j < 32 by omega] using this
    · have hm : mask.getLsbD i = false := by
        by_contra hm
        exact hi (hbits i (by simpa using hm))
      have hk : key.getLsbD i = false := by
        by_contra hk
        have := hkey i (by simpa using hk)
        simp [hm] at this
      simp [hm, hk]
  · intro h i
    rw [← h (32 * j + i)]
    cases decide (i < 32) <;> simp

namespace InstrTable

private theorem walkCases_congr {hit hit' : BitVec W → BitVec W → Bool} {mask : BitVec W}
    {otherwise otherwise' : Option (Instr W)} {l : List (BitVec W × InstrTable W)}
    (hhit : ∀ k c, (k, c) ∈ l → hit mask k = hit' mask k)
    (hcases : ∀ k c, (k, c) ∈ l → c.walkWith hit = c.walkWith hit')
    (hother : otherwise = otherwise') :
    walkCases hit mask otherwise l = walkCases hit' mask otherwise' l := by
  induction l with
  | nil => rw [walkCases, walkCases, hother]
  | cons entry rest ih =>
    obtain ⟨key, c⟩ := entry
    rw [walkCases, walkCases, hhit key c List.mem_cons_self, hcases key c List.mem_cons_self,
      ih (fun k c h => hhit k c (List.mem_cons_of_mem _ h))
        (fun k c h => hcases k c (List.mem_cons_of_mem _ h))]

theorem decode_eq_walk {t : InstrTable (32 * n)} (ht : t.WellMasked) (w : BitVec (32 * n)) :
    t.decode (fetchWord w) = t.walk w := by
  induction ht with
  | @mk t legal within _ _ ihCases ihDefault =>
    rw [decode, walk, walkWith_eq, walkWith_eq]
    split_ifs with hempty
    · rfl
    · obtain ⟨hne, hlegal⟩ := legal (by simpa using hempty)
      refine walkCases_congr (fun k c hmem => ?_) ihCases ?_
      · rw [Bool.eq_iff_iff, beq_iff_eq, beq_iff_eq]
        exact fetchWord_hit_iff hne hlegal (within k c hmem) w
      · cases hd : t.defaultTable with
        | none => rw [walkDefault, walkDefault]
        | some d =>
          rw [walkDefault, walkDefault]
          exact ihDefault d hd

end InstrTable

end Fetch

end Adl.Decode
