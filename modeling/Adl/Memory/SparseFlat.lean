import Adl.Math.Aligned
import Adl.Memory.Sparse
import Mathlib.Tactic.Ring

/-!
# Sparse memory is a flat map

Every run of accesses that stay inside of a page gives the same results on a sparse memory as
on one map of bytes. The cache never gives another page than a walk of the tree does.
-/

namespace Adl.Memory

open Adl.Math Adl.Math.Radix

variable {c : Layout} {a b : ℕ}

/-! ### Addresses -/

namespace Layout

theorem pageSize_pos : 0 < c.pageSize := Nat.two_pow_pos _

theorem pageOffset_eq : c.pageOffset a = a % c.pageSize := Nat.and_two_pow_sub_one_eq_mod a _

theorem pageAddr_eq : c.pageAddr a = a / c.pageSize * c.pageSize := by
  rw [pageAddr, Nat.shiftRight_eq_div_pow, Nat.shiftLeft_eq, pageSize]

theorem key_eq {l : ℕ} : c.key a l = a / c.pageSize / 2 ^ (c.bits * l) % 2 ^ c.bits := by
  rw [key, index, Nat.and_two_pow_sub_one_eq_mod, Nat.shiftRight_eq_div_pow, shift, pageSize,
    Nat.add_sub_cancel, Nat.div_div_eq_div_mul, ← Nat.pow_add, Nat.add_comm c.pageBits]

/-- A number is determined by its digits. -/
private theorem digits_eq_iff {x y w : ℕ} (l : ℕ) :
    (∀ i < l, x / 2 ^ (w * i) % 2 ^ w = y / 2 ^ (w * i) % 2 ^ w) ↔
      x % 2 ^ (w * l) = y % 2 ^ (w * l) := by
  induction l with
  | zero => simp [Nat.mod_one]
  | succ l ih =>
    rw [Nat.mul_succ, Nat.pow_add, Blocks.mod_mul_eq_iff (Nat.two_pow_pos _), ← ih]
    constructor
    · exact fun h => ⟨fun i hi => h i (by omega), h l (by omega)⟩
    · rintro ⟨h, hl⟩ i hi
      rcases Nat.lt_succ_iff_lt_or_eq.mp hi with hlt | rfl
      · exact h i hlt
      · exact hl

theorem two_pow_bitWidth :
    2 ^ c.bitWidth = c.pageSize * 2 ^ (c.bits * (c.extraLevels + 1)) := by
  rw [pageSize, ← Nat.pow_add]
  congr 1
  have hdiv := Nat.div_add_mod c.bitWidth c.levels
  calc c.bitWidth = c.levels * c.bits + c.bitWidth % c.levels := hdiv.symm
    _ = c.pageBits + c.bits * (c.extraLevels + 1) := by
      rw [pageBits, levels]
      ring

def SamePage (c : Layout) (a b : ℕ) : Prop := Agree (c.extraLevels + 1) (c.key a) (c.key b)

theorem samePage_iff : c.SamePage a b ↔
    a / c.pageSize % 2 ^ (c.bits * (c.extraLevels + 1)) =
      b / c.pageSize % 2 ^ (c.bits * (c.extraLevels + 1)) := by
  rw [SamePage, Agree, ← digits_eq_iff]
  simp only [key_eq]

/-- Addresses are the same byte when they agree in page and offset. -/
theorem mod_two_pow_eq_iff : a % 2 ^ c.bitWidth = b % 2 ^ c.bitWidth ↔
    c.SamePage a b ∧ a % c.pageSize = b % c.pageSize := by
  rw [two_pow_bitWidth, Blocks.mod_mul_eq_iff pageSize_pos, samePage_iff, and_comm]

theorem samePage_pageAddr : c.SamePage (c.pageAddr a) a := by
  rw [samePage_iff, pageAddr_eq, Nat.mul_div_cancel _ pageSize_pos]

theorem samePage_add {i : ℕ} (hi : a % c.pageSize + i < c.pageSize) : c.SamePage (a + i) a := by
  rw [samePage_iff, Blocks.add_div_of_lt hi]

end Layout

namespace SparseMemory

variable {s : SparseMemory c} {f : Flat} {p : ℕ} {threadSafe : Bool}

/-! ### Finding pages -/

/-- The page of an address, if it has been allocated. -/
def find (s : SparseMemory c) (a : ℕ) : Option ℕ := s.root.find (c.key a)

def byteAt (s : SparseMemory c) (a : ℕ) : BitVec 8 :=
  match s.find a with
  | some p => s.heap.pages p (a % c.pageSize)
  | none => 0

theorem find_congr (h : c.SamePage a b) : s.find a = s.find b := Node.find_congr h

theorem byteAt_of_find (h : s.find a = some p) : s.byteAt a = s.heap.pages p (a % c.pageSize) := by
  rw [byteAt, h]

theorem byteAt_of_not_find (h : s.find a = none) : s.byteAt a = 0 := by
  rw [byteAt, h]

/-- A sparse memory stands for a map of bytes: the bytes agree, pages are not shared between
addresses, and what is cached can be found in the tree. -/
structure Represents (s : SparseMemory c) (f : Flat) : Prop where
  byte_eq : ∀ a, f (a % 2 ^ c.bitWidth) = s.byteAt a
  find_lt : ∀ a p, s.find a = some p → p < s.heap.next
  find_inj : ∀ a b p, s.find a = some p → s.find b = some p → c.SamePage a b
  cached : ∀ i p, (s.cache i).page = some p → s.find (s.cache i).addr = some p

theorem walk_of_find (h : s.find a = some p) : s.walk a = (p, s) := by
  rw [walk, Node.fetch_of_find h]

theorem walk_of_not_find (h : s.find a = none) :
    (s.walk a).1 = s.heap.next ∧ (s.walk a).2.heap = s.heap.newPage.2 ∧
      (s.walk a).2.cache = s.cache ∧
      (∀ b, c.SamePage a b → (s.walk a).2.find b = some s.heap.next) ∧
      ∀ b, ¬ c.SamePage a b → (s.walk a).2.find b = s.find b := by
  obtain ⟨hpage, hheap⟩ : (s.root.fetch Heap.newPage (c.key a) s.heap).1 = s.heap.newPage.1 ∧
      (s.root.fetch Heap.newPage (c.key a) s.heap).2.2 = s.heap.newPage.2 :=
    Node.fetch_of_not_find h
  refine ⟨hpage, hheap, rfl, fun b hb => ?_, fun b hb => ?_⟩
  · exact (Node.find_fetch_of_agree hb).trans (congrArg some hpage)
  · exact Node.find_fetch_of_not_agree hb

theorem Represents.walk (h : s.Represents f) (a : ℕ) :
    (s.walk a).2.find a = some (s.walk a).1 ∧ (s.walk a).2.Represents f := by
  cases hfind : s.find a with
  | some p =>
    rw [walk_of_find hfind]
    exact ⟨hfind, h⟩
  | none =>
    -- a page is allocated, whose bytes are zero like those of a page that is missing
    obtain ⟨hpage, hheap, hcache, hsame, hother⟩ := walk_of_not_find hfind
    have hnone {b : ℕ} (hb : c.SamePage a b) : s.find b = none := find_congr hb ▸ hfind
    have hcases {b q : ℕ} (hq : (s.walk a).2.find b = some q) :
        (c.SamePage a b ∧ s.heap.next = q) ∨ (¬ c.SamePage a b ∧ s.find b = some q) := by
      by_cases hb : c.SamePage a b
      · exact .inl ⟨hb, Option.some.inj ((hsame b hb).symm.trans hq)⟩
      · exact .inr ⟨hb, (hother b hb).symm.trans hq⟩
    refine ⟨hpage ▸ hsame a Agree.refl, ?_, ?_, ?_, ?_⟩
    · intro b
      rw [h.byte_eq]
      by_cases hb : c.SamePage a b
      · rw [byteAt_of_not_find (hnone hb), byteAt_of_find (hsame b hb), hheap]
        simp [Heap.newPage]
      · cases hold : s.find b with
        | none => rw [byteAt_of_not_find hold, byteAt_of_not_find ((hother b hb).trans hold)]
        | some q =>
          have hne : q ≠ s.heap.next := Nat.ne_of_lt (h.find_lt b q hold)
          rw [byteAt_of_find hold, byteAt_of_find ((hother b hb).trans hold), hheap]
          simp [Heap.newPage, hne]
    · intro b q hq
      rw [hheap]
      rcases hcases hq with ⟨_, rfl⟩ | ⟨_, hold⟩
      · exact Nat.lt_succ_self _
      · exact Nat.lt_succ_of_lt (h.find_lt b q hold)
    · intro b b' q hq hq'
      rcases hcases hq with ⟨hb, rfl⟩ | ⟨_, hold⟩ <;> rcases hcases hq' with ⟨hb', heq⟩ | ⟨_, hold'⟩
      · exact fun i hi => (hb i hi).symm.trans (hb' i hi)
      · exact absurd (h.find_lt b' _ hold') (Nat.lt_irrefl _)
      · exact absurd (heq ▸ h.find_lt b _ hold) (Nat.lt_irrefl _)
      · exact h.find_inj b b' q hold hold'
    · intro i q hq
      rw [hcache] at hq ⊢
      have hold := h.cached i q hq
      have hb : ¬ c.SamePage a (s.cache i).addr := by
        intro hb
        rw [hnone hb] at hold
        cases hold
      exact (hother _ hb).trans hold

/-- Finding a page, in the cache or in the tree, changes no byte; the cache gives the page that
a walk of the tree gives. -/
theorem Represents.getPage (h : s.Represents f) (threadSafe : Bool) (a : ℕ) :
    (s.getPage threadSafe a).2.find a = some (s.getPage threadSafe a).1 ∧
      (s.getPage threadSafe a).2.Represents f ∧
      (s.getPage threadSafe a).1 = (s.walk a).1 := by
  obtain ⟨hfind, hwalk⟩ := h.walk a
  unfold SparseMemory.getPage
  split_ifs
  · exact ⟨hfind, hwalk, rfl⟩
  · simp only
    split
    · next p hp =>
      rw [CacheItem.match?] at hp
      split_ifs at hp with haddr
      have hcached := h.cached _ p hp
      rw [← haddr, find_congr Layout.samePage_pageAddr] at hcached
      rw [walk_of_find hcached]
      exact ⟨hcached, h, rfl⟩
    · refine ⟨hfind, ⟨hwalk.byte_eq, hwalk.find_lt, hwalk.find_inj, fun i p hp => ?_⟩, rfl⟩
      by_cases hi : i = c.cacheIndex a
      · subst hi
        simp only [Function.update_self, CacheItem.update, Option.some.injEq] at hp ⊢
        subst hp
        exact (find_congr Layout.samePage_pageAddr).trans hfind
      · simp only [Function.update_of_ne hi] at hp ⊢
        exact hwalk.cached i p hp

/-! ### Accesses -/

/-- Bytes read from the page of an address. -/
theorem Represents.pageByte_eq (h : s.Represents f) (hp : s.find a = some p) {i : ℕ}
    (hi : a % c.pageSize + i < c.pageSize) :
    s.pageByte p (c.pageOffset a) i = f ((a + i) % 2 ^ c.bitWidth) := by
  rw [h.byte_eq, byteAt_of_find ((find_congr (Layout.samePage_add hi)).trans hp),
    Blocks.add_mod_of_lt hi, pageByte, Layout.pageOffset_eq]

theorem Represents.writeBytes (h : s.Represents f) (hp : s.find a = some p) {n : ℕ}
    (hfit : a % c.pageSize + n ≤ c.pageSize) (v : ℕ → BitVec 8) :
    (s.writeBytes p (c.pageOffset a) v n).Represents
      (store f (fun i => (a + i) % 2 ^ c.bitWidth) v n) := by
  refine ⟨fun b => ?_, h.find_lt, h.find_inj, h.cached⟩
  have hfind : (s.writeBytes p (c.pageOffset a) v n).find b = s.find b := rfl
  have hbyte {i : ℕ} (hi : i < n) : (a + i) % 2 ^ c.bitWidth = b % 2 ^ c.bitWidth ↔
      c.SamePage a b ∧ a % c.pageSize + i = b % c.pageSize := by
    have hadd := Layout.samePage_add (by omega : a % c.pageSize + i < c.pageSize)
    rw [Layout.mod_two_pow_eq_iff, Blocks.add_mod_of_lt (by omega)]
    refine and_congr_left fun _ => ⟨fun hb j hj => ?_, fun hb j hj => (hadd j hj).trans (hb j hj)⟩
    exact (hadd j hj).symm.trans (hb j hj)
  by_cases hb : c.SamePage a b
  · have hpb : s.find b = some p := find_congr hb ▸ hp
    rw [byteAt_of_find (hfind.trans hpb)]
    simp only [SparseMemory.writeBytes, Function.update_self]
    apply store_eq_store
    · rw [h.byte_eq, byteAt_of_find hpb]
    · intro i hi
      rw [hbyte hi, Layout.pageOffset_eq]
      exact ⟨fun hi => hi.2, fun hi => ⟨hb, hi⟩⟩
  · rw [store_of_ne fun i hi heq => hb ((hbyte hi).mp heq).1, h.byte_eq]
    cases hq : s.find b with
    | none => rw [byteAt_of_not_find hq, byteAt_of_not_find (hfind.trans hq)]
    | some q =>
      -- different pages have different storage
      have hne : q ≠ p := fun heq => hb (h.find_inj a b p hp (heq ▸ hq))
      rw [byteAt_of_find hq, byteAt_of_find (hfind.trans hq)]
      simp [SparseMemory.writeBytes, hne]

/-- An empty tree stands for zeros. -/
theorem represents_empty (heap : Heap) :
    (⟨.empty, heap, fun _ => .reset⟩ : SparseMemory c).Represents fun _ => 0 where
  byte_eq _ := rfl
  find_lt _ _ h := nomatch h
  find_inj _ _ _ h := nomatch h
  cached _ _ h := nomatch h

/-- The state of a run: thread-safe memories have no cache. -/
def Simulates (threadSafe : Bool) (s : SparseMemory c) (f : Flat) : Prop :=
  s.Represents f ∧ (threadSafe = true → s.cache = fun _ => .reset)

theorem simulates_resetCache (hroot : s.root = .empty)
    (hcache : threadSafe = true → s.cache = fun _ => .reset) :
    Simulates threadSafe (s.resetCache threadSafe) fun _ => 0 := by
  obtain ⟨root, heap, cache⟩ := s
  subst hroot
  unfold resetCache
  split_ifs with hsafe
  · obtain rfl := hcache hsafe
    exact ⟨represents_empty heap, hcache⟩
  · exact ⟨((represents_empty heap).getPage false 0).2.1, fun h => absurd h hsafe⟩

theorem Simulates.getPage (h : Simulates threadSafe s f) (a : ℕ) :
    Simulates threadSafe (s.getPage threadSafe a).2 f := by
  refine ⟨(h.1.getPage threadSafe a).2.1, fun hsafe => ?_⟩
  rw [SparseMemory.getPage, if_pos hsafe]
  exact h.2 hsafe

end SparseMemory

/-- The bytes of an access stay inside of the page of its address, and no more bytes are
written than the value has. -/
def Op.InPage (c : Layout) : Op → Prop
  | .read64 addr => c.pageOffset addr + 8 ≤ c.pageSize
  | .read32 addr => c.pageOffset addr + 4 ≤ c.pageSize
  | .read16 addr => c.pageOffset addr + 2 ≤ c.pageSize
  | .read8 addr => c.pageOffset addr + 1 ≤ c.pageSize
  | .readpage n addr => c.pageOffset addr + n ≤ c.pageSize
  | .write64 addr _ nb => nb ≤ 8 ∧ c.pageOffset addr + nb ≤ c.pageSize
  | .write32 addr _ nb => nb ≤ 4 ∧ c.pageOffset addr + nb ≤ c.pageSize
  | .write16 addr _ nb => nb ≤ 2 ∧ c.pageOffset addr + nb ≤ c.pageSize
  | .write8 addr _ => c.pageOffset addr + 1 ≤ c.pageSize
  | .writepage data addr => c.pageOffset addr + data.length ≤ c.pageSize
  | .fillpage _ n addr => c.pageOffset addr + n ≤ c.pageSize
  | .reset => True

instance (c : Layout) : (op : Op) → Decidable (op.InPage c)
  | .read64 _ | .read32 _ | .read16 _ | .read8 _ | .readpage _ _ | .write8 _ _ | .writepage _ _
  | .fillpage _ _ _ => inferInstanceAs (Decidable (_ ≤ _))
  | .write64 _ _ _ | .write32 _ _ _ | .write16 _ _ _ => inferInstanceAs (Decidable (_ ∧ _))
  | .reset => inferInstanceAs (Decidable True)

namespace Op

variable {op : Op}

theorem InPage.read (h : op.InPage c) {addr n : ℕ} {result : (ℕ → BitVec 8) → Result}
    (hop : op.access = .read addr n result) :
    c.pageOffset addr + n ≤ c.pageSize ∧
      ∀ g g' : ℕ → BitVec 8, (∀ i < n, g i = g' i) → result g = result g' := by
  cases op <;> cases hop
  case readpage =>
    refine ⟨h, fun g g' hg => congrArg Result.bytes (List.map_congr_left fun i hi => ?_)⟩
    exact hg i (List.mem_range.mp hi)
  all_goals exact ⟨h, fun g g' hg => congrArg (Result.value _) (concat_congr hg)⟩

theorem InPage.write (h : op.InPage c) {addr n : ℕ} {v : ℕ → BitVec 8}
    (hop : op.access = .write addr n v) : c.pageOffset addr + n ≤ c.pageSize := by
  cases op <;> cases hop
  case write64 | write32 | write16 => exact h.2
  all_goals exact h

end Op

theorem SparseMemory.Simulates.step {s : SparseMemory c} {f : Flat} {threadSafe : Bool}
    (h : Simulates threadSafe s f) {op : Op} (hop : op.InPage c) :
    (s.step threadSafe op).1 = (f.step c.bitWidth op).1 ∧
      Simulates threadSafe (s.step threadSafe op).2 (f.step c.bitWidth op).2 := by
  unfold SparseMemory.step Flat.step
  split
  · next addr n result haccess =>
    obtain ⟨hfit, hresult⟩ := hop.read haccess
    rw [Layout.pageOffset_eq] at hfit
    obtain ⟨hfind, hrep, _⟩ := h.1.getPage threadSafe addr
    exact ⟨hresult _ _ fun i hi => hrep.pageByte_eq hfind (by omega), h.getPage addr⟩
  · next addr n v haccess =>
    have hfit := hop.write haccess
    rw [Layout.pageOffset_eq] at hfit
    obtain ⟨hfind, hrep, _⟩ := h.1.getPage threadSafe addr
    exact ⟨rfl, hrep.writeBytes hfind hfit v, (h.getPage addr).2⟩
  · exact ⟨rfl, simulates_resetCache rfl h.2⟩

/-- Every run of accesses inside of pages gives the same results on a new sparse memory as on
an empty map of bytes; afterwards, every page that the cache gives is the one that a walk of
the tree gives. -/
theorem sparse_refines_flat (c : Layout) (threadSafe : Bool) (ops : List Op)
    (hops : ∀ op ∈ ops, op.InPage c) :
    (runs (SparseMemory.step threadSafe) (SparseMemory.init threadSafe : SparseMemory c) ops).1 =
        (runs (Flat.step c.bitWidth) (fun _ => 0) ops).1 ∧
      ∀ addr, ((runs (SparseMemory.step threadSafe)
          (SparseMemory.init threadSafe : SparseMemory c) ops).2.getPage threadSafe addr).1 =
        ((runs (SparseMemory.step threadSafe)
          (SparseMemory.init threadSafe : SparseMemory c) ops).2.walk addr).1 := by
  have hinit : SparseMemory.Simulates threadSafe (SparseMemory.init threadSafe : SparseMemory c)
      fun _ => 0 := SparseMemory.simulates_resetCache rfl fun _ => rfl
  have hstep (s : SparseMemory c) (f : Flat) (op : Op) (hop : op.InPage c)
      (hs : SparseMemory.Simulates threadSafe s f) := hs.step hop
  obtain ⟨hresults, hend⟩ := runs_simulation hstep hops hinit
  exact ⟨hresults, fun addr => (hend.1.getPage threadSafe addr).2.2⟩

/-- A partial write, read through an address beyond the bit width, before and after a reset. -/
theorem sparse_refines_flat_partial :
    (runs (SparseMemory.step false) (SparseMemory.init false : SparseMemory ⟨16, 1⟩)
        [.write32 0x1234 0xAABBCCDD 2, .read64 0x11230, .reset, .read64 0x1230]).1 =
      [.done, .value 8 0x00000000AABB0000, .done, .value 8 0] :=
  (sparse_refines_flat ⟨16, 1⟩ false
    [.write32 0x1234 0xAABBCCDD 2, .read64 0x11230, .reset, .read64 0x1230] (by decide)).1

end Adl.Memory
