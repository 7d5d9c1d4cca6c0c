import Adl.Math.Machine
import Mathlib.Data.BitVec
import Mathlib.Data.List.DropRight

/-!
# Register allocations

Instructions allocate the registers they are going to write, all of a register or the part that a
mask gives. Allocations of whole registers are only counted. Those of parts are queued, and the
union of their masks is kept beside the queue (`uadl/RegResource.h`).

The counter has 32 bits, and so has the size of the queue's buffer, which is doubled: it has room
for less than `2 ^ 31` elements.
-/

namespace Adl.Uadl

open Math

structure RegAlloc (τ : Type) (w : ℕ) where
  fullAllocCount : BitVec 32
  partialMask : BitVec w
  lastAllocator : τ
  partialAllocs : List (τ × BitVec w)
deriving DecidableEq

inductive AllocOp (τ : Type) (w : ℕ) where
  | allocate (id : τ)
  | allocatePartial (id : τ) (mask : BitVec w)
  | deallocate
  | deallocatePartial (mask : BitVec w)
deriving DecidableEq

variable {τ : Type} {w : ℕ}

namespace RegAlloc

/-- The last allocator stays. -/
def reset (r : RegAlloc τ w) : RegAlloc τ w :=
  { r with fullAllocCount := 0, partialMask := 0, partialAllocs := [] }

def canAlloc [DecidableEq τ] (r : RegAlloc τ w) (id : τ) : Bool :=
  r.partialMask == 0 && (r.fullAllocCount == 0 || r.lastAllocator == id)

def canAllocPartial (r : RegAlloc τ w) (mask : BitVec w) : Bool :=
  mask == 0 || (r.fullAllocCount == 0 && mask &&& r.partialMask == 0)

def allocate (r : RegAlloc τ w) (id : τ) : RegAlloc τ w :=
  { r with fullAllocCount := r.fullAllocCount + 1, lastAllocator := id }

/-- It is `none` when the queue cannot grow any more. -/
def allocatePartial (r : RegAlloc τ w) (id : τ) (mask : BitVec w) : Option (RegAlloc τ w) :=
  if r.partialAllocs.length + 1 < 2 ^ 31 then
    some { r with
      partialAllocs := r.partialAllocs ++ [(id, mask)]
      partialMask := r.partialMask ||| mask
      lastAllocator := id }
  else none

/-- The loop of `rm_later_partial_alloc`, on the allocations from the last one on. -/
def rmLaterLoop [DecidableEq τ] (tag : τ) : List (τ × BitVec w) → BitVec w → BitVec w
  | [], mask => mask
  | a :: older, mask => if tag = a.1 then mask else rmLaterLoop tag older (mask &&& ~~~a.2)

def rmLaterPartialAlloc [DecidableEq τ] (r : RegAlloc τ w) (mask : BitVec w) (tag : τ) :
    BitVec w :=
  if r.fullAllocCount ≠ 0 then if tag = r.lastAllocator then mask else 0
  else rmLaterLoop tag r.partialAllocs.reverse mask

def deallocate (r : RegAlloc τ w) : RegAlloc τ w :=
  if r.fullAllocCount ≠ 0 then { r with fullAllocCount := r.fullAllocCount - 1 } else r

/-- The loop of `deallocate` from element `i` on: where the mask was found, and the union of all
other masks. -/
def deallocateLoop (mask : BitVec w) :
    List (τ × BitVec w) → ℕ → Option ℕ × BitVec w → Option ℕ × BitVec w
  | [], _, found => found
  | a :: rest, i, (tmp, union) =>
    if tmp.isNone && a.2 == mask then deallocateLoop mask rest (i + 1) (some i, union)
    else deallocateLoop mask rest (i + 1) (tmp, union ||| a.2)

def deallocatePartial (r : RegAlloc τ w) (mask : BitVec w) : RegAlloc τ w :=
  let (tmp, partialMask) := deallocateLoop mask r.partialAllocs 0 (none, 0)
  match tmp with
  | none => { r with partialMask }
  | some i => { r with partialMask, partialAllocs := r.partialAllocs.eraseIdx i }

def step (r : RegAlloc τ w) : AllocOp τ w → Option (RegAlloc τ w)
  | .allocate id => some (r.allocate id)
  | .allocatePartial id mask => r.allocatePartial id mask
  | .deallocate => some r.deallocate
  | .deallocatePartial mask => some (r.deallocatePartial mask)

end RegAlloc

/-! ### Claims -/

/-- The allocations of a register that are outstanding, the oldest first, and who made the last
one. -/
structure Claims (τ : Type) (w : ℕ) where
  fulls : List τ
  parts : List (τ × BitVec w)
  last : τ

namespace Claims

/-- Of equal masks the oldest one is released. -/
def next (c : Claims τ w) : AllocOp τ w → Claims τ w
  | .allocate id => { c with fulls := c.fulls ++ [id], last := id }
  | .allocatePartial id mask => { c with parts := c.parts ++ [(id, mask)], last := id }
  | .deallocate => { c with fulls := c.fulls.tail }
  | .deallocatePartial mask => { c with parts := c.parts.eraseP (·.2 == mask) }

/-- Only what is outstanding is released. -/
def Matches (c : Claims τ w) : AllocOp τ w → Prop
  | .deallocate => c.fulls ≠ []
  | .deallocatePartial mask => ∃ a ∈ c.parts, a.2 = mask
  | _ => True

def Fits (c : Claims τ w) : AllocOp τ w → Prop
  | .allocate _ => c.fulls.length + 1 < 2 ^ 32
  | .allocatePartial _ _ => c.parts.length + 1 < 2 ^ 31
  | _ => True

/-- The parts that were claimed after the last one of a tag, all of them if it has none. -/
def later [DecidableEq τ] (c : Claims τ w) (tag : τ) : List (τ × BitVec w) :=
  c.parts.rtakeWhile (tag ≠ ·.1)

end Claims

namespace RegAlloc

variable {parts : List (τ × BitVec w)} {mask : BitVec w}

/-- The union of the masks. -/
def union (parts : List (τ × BitVec w)) : BitVec w := parts.foldr (fun a mask => a.2 ||| mask) 0

@[simp] theorem union_cons {a : τ × BitVec w} : union (a :: parts) = a.2 ||| union parts := rfl

theorem union_append {l l' : List (τ × BitVec w)} : union (l ++ l') = union l ||| union l' := by
  induction l with
  | nil => exact BitVec.zero_or.symm
  | cons a rest ih => rw [List.cons_append, union_cons, ih, union_cons, BitVec.or_assoc]

theorem getLsbD_union {j : ℕ} :
    (union parts).getLsbD j = true ↔ ∃ a ∈ parts, a.2.getLsbD j = true := by
  induction parts with
  | nil => simp [union]
  | cons a rest ih => simp [ih]

theorem and_union_eq_zero : mask &&& union parts = 0 ↔ ∀ a ∈ parts, mask &&& a.2 = 0 := by
  induction parts with
  | nil => simp [union]
  | cons a rest ih =>
    rw [union_cons, BitVec.and_or_distrib_left, List.forall_mem_cons, ← ih]
    exact BitVec.or_eq_zero_iff

theorem union_eq_zero : union parts = 0 ↔ ∀ a ∈ parts, a.2 = 0 := by
  have h := @and_union_eq_zero _ _ parts (BitVec.allOnes w)
  simpa using h

/-! ### The loops -/

theorem deallocateLoop_some {mask acc : BitVec w} {i k : ℕ} :
    deallocateLoop mask parts i (some k, acc) = (some k, acc ||| union parts) := by
  induction parts generalizing i acc with
  | nil => simp [deallocateLoop, union]
  | cons a rest ih => simp [deallocateLoop, ih, BitVec.or_assoc]

theorem deallocateLoop_none {mask acc : BitVec w} {i : ℕ} :
    deallocateLoop mask parts i (none, acc) =
      ((parts.findIdx? (·.2 == mask)).map (i + ·), acc ||| union (parts.eraseP (·.2 == mask))) := by
  induction parts generalizing i acc with
  | nil => simp [deallocateLoop, union]
  | cons a rest ih =>
    rw [deallocateLoop, List.findIdx?_cons, List.eraseP_cons]
    by_cases ha : a.2 == mask
    · -- the first match is skipped in the mask, and later ones are not looked for
      simp [ha, deallocateLoop_some]
    · simp only [ha, Option.isNone_none, Bool.and_false, Bool.false_eq_true, if_false, ih,
        cond_false, union_cons, BitVec.or_assoc, Option.map_map]
      congr 2
      funext k
      simp only [Function.comp_apply]
      omega

theorem deallocatePartial_eq {r : RegAlloc τ w} :
    r.deallocatePartial mask = { r with
      partialMask := union (r.partialAllocs.eraseP (·.2 == mask))
      partialAllocs := r.partialAllocs.eraseP (·.2 == mask) } := by
  rw [deallocatePartial, deallocateLoop_none, List.eraseP_eq_eraseIdx]
  cases r.partialAllocs.findIdx? (·.2 == mask) <;> simp

theorem getLsbD_rmLaterLoop [DecidableEq τ] {tag : τ} {j : ℕ} :
    (rmLaterLoop tag parts mask).getLsbD j = true ↔ mask.getLsbD j = true ∧
      ∀ a ∈ parts.takeWhile (tag ≠ ·.1), a.2.getLsbD j = false := by
  induction parts generalizing mask with
  | nil => simp [rmLaterLoop]
  | cons a older ih =>
    rw [rmLaterLoop]
    split_ifs with htag
    · simp [htag]
    · rw [ih, List.takeWhile_cons_of_pos (by simpa using htag), List.forall_mem_cons, ← and_assoc,
        BitVec.getLsbD_and, Bool.and_eq_true, BitVec.getLsbD_not]
      refine and_congr_left fun _ => and_congr_right fun hj => ?_
      simp [BitVec.lt_of_getLsbD hj]

/-! ### Refinement -/

/-- Counter, mask and queue are those of the claims. -/
structure Tracks (r : RegAlloc τ w) (c : Claims τ w) : Prop where
  count : r.fullAllocCount.toNat = c.fulls.length
  mask : r.partialMask = union c.parts
  last : r.lastAllocator = c.last
  queue : r.partialAllocs = c.parts

/-- The queries answer what the claims say. -/
structure Answers [DecidableEq τ] (r : RegAlloc τ w) (c : Claims τ w) : Prop where
  mask : ∀ j, r.partialMask.getLsbD j = true ↔ ∃ a ∈ c.parts, a.2.getLsbD j = true
  canAllocPartial : ∀ mask ≠ 0, r.canAllocPartial mask = true ↔
    c.fulls = [] ∧ ∀ a ∈ c.parts, mask &&& a.2 = 0
  canAlloc : ∀ id, r.canAlloc id = true ↔
    (∀ a ∈ c.parts, a.2 = 0) ∧ (c.fulls = [] ∨ c.last = id)
  rmLater : c.fulls = [] → ∀ mask tag j, (r.rmLaterPartialAlloc mask tag).getLsbD j = true ↔
    mask.getLsbD j = true ∧ ∀ a ∈ c.later tag, a.2.getLsbD j = false

variable {r : RegAlloc τ w} {c : Claims τ w}

theorem Tracks.count_eq_zero (h : r.Tracks c) : r.fullAllocCount = 0 ↔ c.fulls = [] := by
  rw [← List.length_eq_zero_iff, ← h.count, ← BitVec.toNat_inj]
  rfl

theorem Tracks.answers [DecidableEq τ] (h : r.Tracks c) : r.Answers c where
  mask := fun j => by rw [h.mask, getLsbD_union]
  canAllocPartial := fun mask hmask => by
    rw [← h.count_eq_zero, ← and_union_eq_zero, RegAlloc.canAllocPartial, h.mask]
    simp only [BitVec.ofNat_eq_ofNat, Bool.or_eq_true, Bool.and_eq_true, beq_iff_eq]
    exact or_iff_right hmask
  canAlloc := fun id => by
    rw [← h.count_eq_zero, ← union_eq_zero, RegAlloc.canAlloc, h.mask, h.last]
    simp
  rmLater := fun hfull mask tag j => by
    rw [rmLaterPartialAlloc, if_neg (not_not.mpr (h.count_eq_zero.mpr hfull)), h.queue,
      getLsbD_rmLaterLoop, Claims.later, List.rtakeWhile]
    simp

theorem Tracks.step (h : r.Tracks c) {op : AllocOp τ w} (hmatches : c.Matches op)
    (hfits : c.Fits op) : ∃ r', r.step op = some r' ∧ r'.Tracks (c.next op) := by
  cases op with
  | allocate id =>
    refine ⟨_, rfl, ?_, h.mask, rfl, h.queue⟩
    have hlt : c.fulls.length + 1 < 2 ^ 32 := hfits
    simp only [allocate, Claims.next, List.length_append, List.length_singleton]
    rw [BitVec.toNat_add, h.count]
    exact Nat.mod_eq_of_lt hlt
  | allocatePartial id mask =>
    have hlt : r.partialAllocs.length + 1 < 2 ^ 31 := h.queue ▸ hfits
    refine ⟨_, if_pos hlt, h.count, ?_, rfl, ?_⟩
    · simp [Claims.next, union_append, show union [(id, mask)] = mask from BitVec.or_zero, h.mask]
    · simp [Claims.next, h.queue]
  | deallocate =>
    have hne : r.fullAllocCount ≠ 0 := h.count_eq_zero.not.mpr hmatches
    refine ⟨_, congrArg some (if_pos hne), ?_, h.mask, h.last, h.queue⟩
    have hpos := List.length_pos_iff.mpr hmatches
    simp only [Claims.next, List.length_tail]
    rw [BitVec.toNat_sub_of_le (by simp [BitVec.le_def, h.count]; omega), h.count]
    rfl
  | deallocatePartial mask =>
    refine ⟨_, congrArg some deallocatePartial_eq, h.count, ?_, h.last, ?_⟩
    · simp [Claims.next, h.queue]
    · simp [Claims.next, h.queue]

def fresh (r : RegAlloc τ w) : Claims τ w := ⟨[], [], r.lastAllocator⟩

theorem tracks_reset : r.reset.Tracks r.fresh := ⟨rfl, rfl, rfl, rfl⟩

/-- After any allocations and matching releases from a reset on, the queries answer what the
outstanding claims say, as long as the counter and the queue do not overflow. -/
theorem claims_refined [DecidableEq τ] (r : RegAlloc τ w) (ops : List (AllocOp τ w))
    (hops : Permits Claims.next (fun c op => c.Matches op ∧ c.Fits op) r.fresh ops) :
    ∃ r', ops.foldlM step r.reset = some r' ∧ r'.Answers (ops.foldl Claims.next r.fresh) := by
  have hstep (s : RegAlloc τ w) (c : Claims τ w) (op : AllocOp τ w)
      (hop : c.Matches op ∧ c.Fits op) (hs : s.Tracks c) :
      ∃ s', s.step op = some s' ∧ s'.Tracks (c.next op) := hs.step hop.1 hop.2
  obtain ⟨r', hrun, hr'⟩ := foldlM_refines hstep hops r.tracks_reset
  exact ⟨r', hrun, hr'.answers⟩

/-- Two parts of one mask, of which the older one is released. -/
theorem run_two_parts :
    let ops : List (AllocOp ℕ 8) := [.allocatePartial 1 0x0F, .allocate 2, .allocatePartial 3 0x0F,
      .deallocate, .deallocatePartial 0x0F]
    let r : RegAlloc ℕ 8 := ⟨0, 0, 0, []⟩
    ∃ r', ops.foldlM step r.reset = some r' ∧ r'.Answers ⟨[], [(3, 0x0F)], 3⟩ :=
  claims_refined ⟨0, 0, 0, []⟩ [.allocatePartial 1 0x0F, .allocate 2, .allocatePartial 3 0x0F,
    .deallocate, .deallocatePartial 0x0F] (by simp [Permits, Claims.Matches, Claims.Fits,
      Claims.next, fresh])

theorem foldlM_allocate {n : ℕ} {id : τ} :
    (List.replicate n (.allocate id)).foldlM step r =
      some { r with
        fullAllocCount := r.fullAllocCount + BitVec.ofNat 32 n
        lastAllocator := if n = 0 then r.lastAllocator else id } := by
  induction n generalizing r with
  | zero => simp
  | succ n ih =>
    rw [List.replicate_succ, List.foldlM_cons]
    simp [step, ih, allocate, BitVec.ofNat_add, BitVec.add_assoc, BitVec.add_comm (1#32)]

theorem permits_allocate {n : ℕ} {id : τ} :
    Permits Claims.next Claims.Matches c (List.replicate n (.allocate id)) := by
  induction n generalizing c with
  | zero => exact trivial
  | succ n ih => exact ⟨trivial, ih⟩

theorem fulls_allocate {n : ℕ} {id : τ} :
    ((List.replicate n (.allocate id)).foldl Claims.next c).fulls =
      c.fulls ++ List.replicate n id := by
  induction n generalizing c with
  | zero => simp
  | succ n ih => simp [List.replicate_succ, ih, Claims.next]

/-- After `2 ^ 32` allocations of the whole register by one instruction it looks free to others. -/
theorem count_wraps :
    let ops : List (AllocOp ℕ 8) := List.replicate (2 ^ 32) (.allocate 1)
    let r : RegAlloc ℕ 8 := ⟨0, 0, 0, []⟩
    Permits Claims.next Claims.Matches r.fresh ops ∧
      ∃ r', ops.foldlM step r.reset = some r' ∧ r'.canAlloc 2 = true ∧
        ¬r'.Answers (ops.foldl Claims.next r.fresh) := by
  refine ⟨permits_allocate, _, foldlM_allocate, by simp [canAlloc, reset], fun h => ?_⟩
  have hfree := (h.canAllocPartial 1 (by decide)).mp (by simp [canAllocPartial, reset])
  have hfulls := hfree.1
  rw [fulls_allocate, fresh, List.nil_append, List.replicate_eq_nil_iff] at hfulls
  exact absurd hfulls (by decide)

end RegAlloc

end Adl.Uadl
