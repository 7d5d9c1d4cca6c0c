import Adl.Iss.CacheSets
import Adl.Math.Aligned
import Adl.Uadl.Request

/-!
# Generated caches

A generated cache works on the next level, which is another cache or the memory (`iss/GenCache.C`).
A line is read when it is missed, and written back when it is replaced or flushed and has been
changed. Hooks decide which addresses are cached, which misses get a line and which writes go
through.
-/

namespace Adl.Iss.GenCache

open Memory (Addr Mem)
open Uadl (CacheAccess)
open Math (store)

/-- What a user can do to the lines of a cache. -/
inductive Command where
  | flush (addr : Addr)
  | lock (set way : ℕ) (l : Bool)

/-- The functions of a level: reads of `n` bytes for a critical address, and writes, in lines with
or without loading a missing line. The log functions look at the data and change them without moving
lines. A command is for this level or one below it. -/
structure Level (σ : Type) where
  readpage : σ → CacheAccess → (addr : Addr) → (n : ℕ) → (crit : Addr) → (ℕ → BitVec 8) × σ
  writepage : (doLoad : Bool) → σ → CacheAccess → (ℕ → BitVec 8) → (n : ℕ) → (addr crit : Addr) → σ
  write : σ → Addr → (ℕ → BitVec 8) → ℕ → σ
  logRead : σ → (force : Bool) → CacheAccess → Addr → ℕ → (ℕ → BitVec 8) × σ
  logWrite : σ → (force : Bool) → Addr → (ℕ → BitVec 8) → ℕ → σ
  command : ℕ → σ → Command → σ

/-- A memory after `n` bytes have been written. -/
def put (m : Mem) (a : Addr) (v : ℕ → BitVec 8) (n : ℕ) : Mem :=
  store m (fun i => a + BitVec.ofNat 64 i) v n

/-- A memory without pages. -/
def memory : Level Mem where
  readpage m _ a _ _ := (fun i => m (a + BitVec.ofNat 64 i), m)
  writepage _ m _ v n a _ := put m a v n
  write := put
  logRead m _ _ a _ := (fun i => m (a + BitVec.ofNat 64 i), m)
  logWrite m _ := put m
  command _ m _ := m

/-- The parameters of a cache and its hooks. A cache without a hook is always enabled, allocates
every line that is missed and never writes through. -/
structure CacheConfig where
  ways : ℕ
  sets : ℕ
  lineShift : ℕ
  enabled : CacheAccess → Addr → Bool
  allocatePred : CacheAccess → Addr → ℕ → Bool
  writeThroughPred : CacheAccess → Addr → Bool
  ways_pos : 0 < ways
  ways_le : ways ≤ 2 ^ 32
  lineShift_lt : lineShift < 32

abbrev CacheSets := ℕ → CacheSet

namespace CacheConfig

variable (cfg : CacheConfig)

def lineSize : ℕ := 2 ^ cfg.lineShift

def lineMask : Addr := BitVec.ofNat 64 (2 ^ cfg.lineShift) - 1

def lineAddr (a : Addr) : Addr := a &&& ~~~cfg.lineMask

def getOffset (a : Addr) : ℕ := (a &&& cfg.lineMask).toNat

/-- The set of an address, of which only 32 bits are used. -/
def getSet (a : Addr) : ℕ :=
  ((a.setWidth 32 >>> cfg.lineShift) &&& (BitVec.ofNat 32 cfg.sets - 1)).toNat

/-- A cache without hooks. -/
def Plain : Prop :=
  ∀ ca a k, cfg.enabled ca a = true ∧ cfg.allocatePred ca a k = true ∧
    cfg.writeThroughPred ca a = false

end CacheConfig

def CacheSets.setLine (c : CacheSets) (k i : ℕ) (l : CacheLine) : CacheSets :=
  Function.update c k { c k with line := Function.update (c k).line i l }

section Operations

variable {σ : Type} (cfg : CacheConfig) (loadArg : Bool) (next : Level σ)

def find (c : CacheSets) (a : Addr) : Option ℕ :=
  (List.range cfg.ways).find? fun i =>
    ((c (cfg.getSet a)).line i).valid && ((c (cfg.getSet a)).line i).tag == cfg.lineAddr a

def flushLine (ca : CacheAccess) (k i : ℕ) (x : CacheSets × σ) : CacheSets × σ :=
  let l := (x.1 k).line i
  if l.valid && l.dirty then
    (x.1.setLine k i { l with dirty := false },
      next.writepage loadArg x.2 ca l.data cfg.lineSize l.tag l.tag)
  else x

/-- Choose a way for an address and write its line back. -/
def makeRoom (ca : CacheAccess) (a : Addr) (x : CacheSets × σ) : ℕ × (CacheSets × σ) :=
  let k := cfg.getSet a
  let (i, s) := ((x.1 k).victim cfg.ways).getD (0, x.1 k)
  (i, flushLine cfg loadArg next ca k i (Function.update x.1 k s, x.2))

def replace (ca : CacheAccess) (a : Addr) (x : CacheSets × σ) : ℕ × (CacheSets × σ) :=
  let (i, c, y) := makeRoom cfg loadArg next ca a x
  let l := (c (cfg.getSet a)).line i
  (i, c.setLine (cfg.getSet a) i { l with tag := cfg.lineAddr a, valid := true, dirty := false }, y)

/-- Read a line from the next level. -/
def load (ca : CacheAccess) (k i : ℕ) (a : Addr) (x : CacheSets × σ) : CacheSets × σ :=
  let (f, y) := next.readpage x.2 ca (cfg.lineAddr a) cfg.lineSize a
  (x.1.setLine k i { (x.1 k).line i with data := f }, y)

/-- The way of an address, if it gets one. -/
def access (doLoad : Bool) (ca : CacheAccess) (a : Addr) (x : CacheSets × σ) :
    Option (ℕ × (CacheSets × σ)) :=
  match find cfg x.1 a with
  | some i => some (i, x)
  | none =>
    if cfg.allocatePred ca a (cfg.getSet a) then
      let (i, x) := replace cfg loadArg next ca a x
      some (i, if doLoad then load cfg next ca (cfg.getSet a) i a x else x)
    else none

/-- The way in which an access is made, which may be for another byte than the critical one. All
other accesses go to the next level. -/
def lookup (doLoad : Bool) (ca : CacheAccess) (a crit : Addr) (x : CacheSets × σ) :
    Option (ℕ × (CacheSets × σ)) :=
  if cfg.enabled ca a then access cfg loadArg next doLoad ca crit x else none

/-- The same for the log functions. -/
def peek (force : Bool) (ca : CacheAccess) (a : Addr) (c : CacheSets) : Option ℕ :=
  if force || cfg.enabled ca a then find cfg c a else none

/-- Copy bytes into a line. -/
def copy (k i : ℕ) (a : Addr) (v : ℕ → BitVec 8) (n : ℕ) (dirty : Bool) (c : CacheSets) :
    CacheSets :=
  let l := (c k).line i
  c.setLine k i { l with data := store l.data (cfg.getOffset a + ·) v n, dirty := l.dirty || dirty }

def cache : Level (CacheSets × σ) where
  readpage x ca a n crit :=
    match lookup cfg loadArg next true ca a crit x with
    | some (i, x) => (fun j => ((x.1 (cfg.getSet crit)).line i).data (cfg.getOffset a + j), x)
    | none => let (f, y) := next.readpage x.2 ca a n crit; (f, x.1, y)
  writepage doLoad x ca v n a crit :=
    match lookup cfg loadArg next doLoad ca a crit x with
    | some (i, c, y) =>
      let k := cfg.getSet crit
      if cfg.writeThroughPred ca a then
        let c := copy cfg k i a v n false c
        let l := (c k).line i
        (c, next.writepage doLoad y ca l.data cfg.lineSize l.tag crit)
      else (copy cfg k i a v n true c, y)
    | none => (x.1, next.writepage doLoad x.2 ca v n a crit)
  write x a v n :=
    match lookup cfg loadArg next true .cacheWrite a a x with
    | some (i, c, y) =>
      let k := cfg.getSet a
      if cfg.writeThroughPred .cacheWrite a then (copy cfg k i a v n false c, next.write y a v n)
      else (copy cfg k i a v n true c, y)
    | none => (x.1, next.write x.2 a v n)
  logRead x force ca a n :=
    match peek cfg force ca a x.1 with
    | some i => (fun j => ((x.1 (cfg.getSet a)).line i).data (cfg.getOffset a + j), x)
    | none => let (f, y) := next.logRead x.2 force ca a n; (f, x.1, y)
  logWrite x force a v n :=
    (match peek cfg force .cacheWrite a x.1 with
      | some i => copy cfg (cfg.getSet a) i a v n false x.1
      | none => x.1,
    next.logWrite x.2 force a v n)
  command
    | 0, x, .flush a =>
      match find cfg x.1 a with
      | some i => flushLine cfg loadArg next .cacheFlush (cfg.getSet a) i x
      | none => x
    | 0, x, .lock k i l =>
      if i < cfg.ways then (Function.update x.1 k ((x.1 k).lock i l).2, x.2) else x
    | d + 1, x, op => (x.1, next.command d x.2 op)

end Operations

/-! ### Lines -/

variable {σ : Type} {cfg : CacheConfig} {next : Level σ} {a b crit : Addr} {n i k : ℕ}

/-- The bytes lie in one line of `2 ^ s` bytes. -/
def Within (s : ℕ) (a : Addr) (n : ℕ) : Prop := a.toNat % 2 ^ s + n ≤ 2 ^ s

theorem getOffset_eq : cfg.getOffset a = a.toNat % cfg.lineSize :=
  Math.toNat_and_two_pow_sub_one a _

theorem lineShift_le : cfg.lineShift ≤ 64 := by
  have := cfg.lineShift_lt
  omega

theorem lineAddr_add (h : Within cfg.lineShift a n) (hi : i < n) :
    cfg.lineAddr (a + BitVec.ofNat 64 i) = cfg.lineAddr a :=
  Math.and_not_add_ofNat lineShift_le (by rw [Within] at h; omega)

theorem getOffset_add (h : Within cfg.lineShift a n) (hi : i < n) :
    cfg.getOffset (a + BitVec.ofNat 64 i) = cfg.getOffset a + i :=
  Math.toNat_and_add_ofNat lineShift_le (by rw [Within] at h; omega)

theorem lineAddr_add_getOffset : cfg.lineAddr a + BitVec.ofNat 64 (cfg.getOffset a) = a := by
  apply BitVec.eq_of_toNat_eq
  have hsum := Math.toNat_and_not_add_and a cfg.lineMask
  rw [BitVec.toNat_add, BitVec.toNat_ofNat, CacheConfig.lineAddr, CacheConfig.getOffset]
  have := a.isLt
  omega

theorem eq_of_lineAddr (hline : cfg.lineAddr a = cfg.lineAddr b)
    (hoffset : cfg.getOffset a = cfg.getOffset b) : a = b := by
  rw [← @lineAddr_add_getOffset cfg a, hline, hoffset, lineAddr_add_getOffset]

theorem toNat_lineAddr : (cfg.lineAddr a).toNat = a.toNat / cfg.lineSize * cfg.lineSize :=
  Math.toNat_and_not_two_pow_sub_one a _

theorem getOffset_lineAddr : cfg.getOffset (cfg.lineAddr a) = 0 := by
  rw [getOffset_eq, toNat_lineAddr, Nat.mul_mod_left]

theorem lineAddr_lineAddr : cfg.lineAddr (cfg.lineAddr a) = cfg.lineAddr a := by
  rw [CacheConfig.lineAddr, CacheConfig.lineAddr, BitVec.and_assoc, BitVec.and_self]

theorem within_lineAddr : Within cfg.lineShift (cfg.lineAddr a) cfg.lineSize := by
  have hoffset := @getOffset_lineAddr cfg a
  rw [getOffset_eq] at hoffset
  rw [Within, ← CacheConfig.lineSize, hoffset, Nat.zero_add]

/-- Addresses of a line are in one set. -/
theorem getSet_eq (hline : cfg.lineAddr a = cfg.lineAddr b) : cfg.getSet a = cfg.getSet b := by
  have hshift : a.setWidth 32 >>> cfg.lineShift = b.setWidth 32 >>> cfg.lineShift := by
    refine Math.eq_iff_getLsbD.mpr fun j => ?_
    have hbit := congrArg (BitVec.getLsbD · (cfg.lineShift + j)) hline
    have hmask : cfg.lineMask.getLsbD (cfg.lineShift + j) = false := by
      rw [CacheConfig.lineMask, ← Math.ofNat_pred_two_pow, BitVec.getLsbD_ofNat,
        Nat.testBit_two_pow_sub_one]
      simp
    simp only [CacheConfig.lineAddr, BitVec.getLsbD_and, BitVec.getLsbD_not, hmask] at hbit
    simp only [BitVec.getLsbD_ushiftRight, BitVec.getLsbD_setWidth]
    by_cases hj : cfg.lineShift + j < 64
    · simpa [hj] using congrArg _ hbit
    · rw [BitVec.getLsbD_of_ge a _ (by omega), BitVec.getLsbD_of_ge b _ (by omega)]
  rw [CacheConfig.getSet, CacheConfig.getSet, hshift]

theorem put_of_ne (h : Within cfg.lineShift a n) {m : Mem}
    {v : ℕ → BitVec 8} (hline : cfg.lineAddr b ≠ cfg.lineAddr a) : put m a v n b = m b := by
  refine Math.store_of_ne fun i hi heq => hline ?_
  rw [← heq, lineAddr_add h hi]

theorem add_eq_iff (h : Within cfg.lineShift a n)
    (hline : cfg.lineAddr b = cfg.lineAddr a) (hi : i < n) :
    a + BitVec.ofNat 64 i = b ↔ cfg.getOffset a + i = cfg.getOffset b := by
  rw [← getOffset_add h hi]
  exact ⟨fun heq => heq ▸ rfl, eq_of_lineAddr ((lineAddr_add h hi).trans hline.symm)⟩

theorem getOffset_lt : cfg.getOffset a < cfg.lineSize := by
  rw [getOffset_eq]
  exact Nat.mod_lt _ (Nat.two_pow_pos _)

/-- A whole line is written. -/
theorem put_line {m : Mem} {v : ℕ → BitVec 8} (hline : cfg.lineAddr b = cfg.lineAddr a) :
    put m (cfg.lineAddr a) v cfg.lineSize b = v (cfg.getOffset b) := by
  have hiff {i : ℕ} (hi : i < cfg.lineSize) : cfg.lineAddr a + BitVec.ofNat 64 i = b ↔ _ :=
    add_eq_iff within_lineAddr (hline.trans lineAddr_lineAddr.symm) hi
  simp only [getOffset_lineAddr, Nat.zero_add] at hiff
  have hself := (hiff (@getOffset_lt cfg b)).mpr rfl
  have hlast := @Math.store_of_last _ _ _ _ m (fun i => cfg.lineAddr a + BitVec.ofNat 64 i) v _
    (@getOffset_lt cfg b) fun j hj hlt heq => hlt.ne ((hiff hj).mp (heq.trans hself)).symm
  rwa [hself] at hlast

/-- The bytes of a line that are written. -/
theorem put_eq_store (h : Within cfg.lineShift a n) {m : Mem} {v data : ℕ → BitVec 8}
    (hline : cfg.lineAddr b = cfg.lineAddr a)
    (hb : data (cfg.getOffset b) = m b ∨ cfg.lineAddr a = a ∧ n = cfg.lineSize) :
    store data (cfg.getOffset a + ·) v n (cfg.getOffset b) = put m a v n b := by
  rcases hb with hb | ⟨ha, rfl⟩
  · exact Math.store_eq_store hb fun i hi => (add_eq_iff h hline hi).symm
  · -- the byte is written, whatever was there before
    have hlast := @Math.store_of_last _ _ _ _ data (0 + ·) v _ (@getOffset_lt cfg b)
      fun j _ hlt => by simpa using hlt.ne'
    rw [← ha, put_line (by rw [hline]), getOffset_lineAddr]
    simpa using hlast

/-! ### What a cache shows -/

/-- A way holds the line of an address. -/
def Holds (cfg : CacheConfig) (c : CacheSets) (b : Addr) (i : ℕ) : Prop :=
  i < cfg.ways ∧ ((c (cfg.getSet b)).line i).valid = true ∧
    ((c (cfg.getSet b)).line i).tag = cfg.lineAddr b

/-- What a cache shows when the next level shows `m'`: the lines it holds, which are those of the
next level unless they are dirty. -/
structure Shows (cfg : CacheConfig) (c : CacheSets) (m' m : Mem) : Prop where
  placed : ∀ k i, i < cfg.ways → ((c k).line i).valid = true →
    cfg.getSet ((c k).line i).tag = k ∧ cfg.lineAddr ((c k).line i).tag = ((c k).line i).tag ∧
      cfg.enabled .cacheRead ((c k).line i).tag = true
  unique : ∀ b i j, Holds cfg c b i → Holds cfg c b j → i = j
  hit : ∀ b i, Holds cfg c b i → m b = ((c (cfg.getSet b)).line i).data (cfg.getOffset b)
  clean : ∀ b i, Holds cfg c b i → ((c (cfg.getSet b)).line i).dirty = false → m b = m' b
  miss : ∀ b, (∀ i, ¬Holds cfg c b i) → m b = m' b
  inTurn : ∀ k, ∃ r, (c k).InTurn cfg.ways r

theorem line_setLine {c : CacheSets} {l : CacheLine} {k' j : ℕ} :
    (c.setLine k i l k').line j = if k' = k ∧ j = i then l else (c k').line j := by
  by_cases hk : k' = k
  · subst hk
    simp [CacheSets.setLine, Function.update_apply]
  · simp [CacheSets.setLine, hk]

/-- A way can take the line of an address: what it has is that line, or not needed any more. -/
structure CanTake (cfg : CacheConfig) (c : CacheSets) (a : Addr) (i : ℕ) : Prop where
  lt : i < cfg.ways
  gone : ((c (cfg.getSet a)).line i).valid = true → ((c (cfg.getSet a)).line i).dirty = true →
    ((c (cfg.getSet a)).line i).tag = cfg.lineAddr a
  only : ∀ j, Holds cfg c a j → j = i

theorem Shows.setLine {c : CacheSets} {m m' m₁ m₁' : Mem} {l : CacheLine} (h : Shows cfg c m' m)
    (htake : CanTake cfg c a i) (hon : cfg.enabled .cacheRead (cfg.lineAddr a) = true)
    (hvalid : l.valid = true) (htag : l.tag = cfg.lineAddr a)
    (hout : ∀ b, cfg.lineAddr b ≠ cfg.lineAddr a → m₁ b = m b ∧ m₁' b = m' b)
    (hin : ∀ b, cfg.lineAddr b = cfg.lineAddr a →
      m₁ b = l.data (cfg.getOffset b) ∧ (l.dirty = false → m₁ b = m₁' b)) :
    Shows cfg (c.setLine (cfg.getSet a) i l) m₁' m₁ := by
  -- in the new cache a line is the new one, or one that was there before
  have hcases : ∀ b j, Holds cfg (c.setLine (cfg.getSet a) i l) b j →
      (cfg.lineAddr b = cfg.lineAddr a ∧ j = i ∧
        (c.setLine (cfg.getSet a) i l (cfg.getSet b)).line j = l) ∨
      (cfg.lineAddr b ≠ cfg.lineAddr a ∧ Holds cfg c b j ∧
        (c.setLine (cfg.getSet a) i l (cfg.getSet b)).line j = (c (cfg.getSet b)).line j) := by
    rintro b j ⟨hj, hv, ht⟩
    rw [line_setLine] at hv ht ⊢
    split at hv
    case isTrue heq =>
      rw [if_pos heq] at ht ⊢
      exact .inl ⟨ht.symm.trans htag, heq.2, rfl⟩
    case isFalse hne =>
      rw [if_neg hne] at ht ⊢
      refine .inr ⟨fun hline => hne ⟨getSet_eq hline, htake.only j ⟨hj, ?_⟩⟩, ⟨hj, hv, ht⟩, rfl⟩
      rw [← getSet_eq hline, ← hline]
      exact ⟨hv, ht⟩
  refine ⟨?_, ?_, ?_, ?_, ?_, ?_⟩
  · intro k' j hj hv
    rw [line_setLine] at hv ⊢
    split at hv
    case isTrue heq =>
      rw [if_pos heq, htag, heq.1]
      exact ⟨getSet_eq lineAddr_lineAddr, lineAddr_lineAddr, hon⟩
    case isFalse hne =>
      rw [if_neg hne]
      exact h.placed k' j hj hv
  · intro b j j' hj hj'
    rcases hcases b j hj with ⟨hline, rfl, -⟩ | ⟨hline, hj, -⟩
    · rcases hcases b j' hj' with ⟨-, rfl, -⟩ | ⟨hne, -⟩
      · rfl
      · exact absurd hline hne
    · rcases hcases b j' hj' with ⟨heq, -⟩ | ⟨-, hj', -⟩
      · exact absurd heq hline
      · exact h.unique b j j' hj hj'
  · intro b j hj
    rcases hcases b j hj with ⟨hline, -, hl⟩ | ⟨hline, hj, hl⟩
    · rw [hl, (hin b hline).1]
    · rw [hl, (hout b hline).1, h.hit b j hj]
  · intro b j hj hdirty
    rcases hcases b j hj with ⟨hline, -, hl⟩ | ⟨hline, hj, hl⟩
    · rw [hl] at hdirty
      exact (hin b hline).2 hdirty
    · rw [hl] at hdirty
      rw [(hout b hline).1, (hout b hline).2, h.clean b j hj hdirty]
  · intro b hb
    have hline : cfg.lineAddr b ≠ cfg.lineAddr a := by
      intro hline
      refine hb i ⟨htake.lt, ?_⟩
      rw [line_setLine, if_pos ⟨getSet_eq hline, rfl⟩, hline]
      exact ⟨hvalid, htag⟩
    rw [(hout b hline).1, (hout b hline).2]
    by_cases hold : ∃ j, Holds cfg c b j
    · -- the line that had to make room was clean
      obtain ⟨j, hj⟩ := hold
      refine h.clean b j hj (Bool.eq_false_iff.mpr fun hdirty => ?_)
      by_cases hsame : cfg.getSet b = cfg.getSet a ∧ j = i
      · obtain ⟨hset, rfl⟩ := hsame
        obtain ⟨-, hv, ht⟩ := hj
        rw [hset] at hv ht hdirty
        exact hline (ht.symm.trans (htake.gone hv hdirty))
      · refine hb j ?_
        rw [Holds, line_setLine, if_neg hsame]
        exact hj
    · exact h.miss b fun j hj => hold ⟨j, hj⟩
  · intro k'
    obtain ⟨r, hr⟩ := h.inTurn k'
    by_cases hk : k' = cfg.getSet a
    · subst hk
      rw [CacheSets.setLine, Function.update_self]
      exact ⟨r, hr.1, hr.2, hr.3, hr.4, hr.5, hr.6⟩
    · rw [CacheSets.setLine, Function.update_of_ne hk]
      exact ⟨r, hr⟩

variable {c : CacheSets} {m m' : Mem} {v : ℕ → BitVec 8}

theorem Holds.congr (h : Holds cfg c b i) (hline : cfg.lineAddr b = cfg.lineAddr a) :
    Holds cfg c a i := by
  rw [Holds, ← hline, ← getSet_eq hline]
  exact h

theorem holds_of_find (h : find cfg c a = some i) : Holds cfg c a i := by
  have hmem := List.mem_range.mp (List.mem_of_find?_eq_some h)
  have hfound := List.find?_some h
  rw [Bool.and_eq_true, beq_iff_eq] at hfound
  exact ⟨hmem, hfound⟩

theorem not_holds_of_find (h : find cfg c a = none) (i : ℕ) : ¬Holds cfg c a i := by
  rintro ⟨hi, hvalid, htag⟩
  have hnot := List.find?_eq_none.mp h i (List.mem_range.mpr hi)
  rw [hvalid, htag] at hnot
  simp at hnot

theorem Shows.enabled (h : Shows cfg c m' m) (hheld : Holds cfg c a i) :
    cfg.enabled .cacheRead (cfg.lineAddr a) = true := by
  rw [← hheld.2.2]
  exact (h.placed _ i hheld.1 hheld.2.1).2.2

/-- Disabled addresses are not held. -/
theorem Shows.not_holds (h : Shows cfg c m' m)
    (hoff : cfg.enabled .cacheRead (cfg.lineAddr a) = false) (i : ℕ) : ¬Holds cfg c a i :=
  fun hheld => Bool.false_ne_true (hoff.symm.trans (h.enabled hheld))

theorem Shows.miss_line (h : Shows cfg c m' m) (hfree : ∀ i, ¬Holds cfg c a i)
    (hline : cfg.lineAddr b = cfg.lineAddr a) : m b = m' b :=
  h.miss b fun i hi => hfree i (hi.congr hline)

/-- Bytes of a line that is not held are written to the next level. -/
theorem Shows.put (h : Shows cfg c m' m) (hw : Within cfg.lineShift a n)
    (hfree : ∀ i, ¬Holds cfg c a i) : Shows cfg c (put m' a v n) (put m a v n) := by
  have hheld : ∀ b i, Holds cfg c b i → GenCache.put m a v n b = m b ∧
      GenCache.put m' a v n b = m' b := fun b i hi =>
    have hne : cfg.lineAddr b ≠ cfg.lineAddr a := fun hline => hfree i (hi.congr hline)
    ⟨put_of_ne hw hne, put_of_ne hw hne⟩
  refine ⟨h.placed, h.unique, fun b i hi => ?_, fun b i hi hdirty => ?_, fun b hb => ?_, h.inTurn⟩
  · rw [(hheld b i hi).1, h.hit b i hi]
  · rw [(hheld b i hi).1, (hheld b i hi).2, h.clean b i hi hdirty]
  · exact Math.store_eq_store (h.miss b hb) fun i _ => Iff.rfl

/-- Nothing is shown differently when only the list or the locks of a set change. -/
theorem Shows.update {s : CacheSet} {r : ℕ} (h : Shows cfg c m' m) (hline : s.line = (c k).line)
    (hturn : s.InTurn cfg.ways r) : Shows cfg (Function.update c k s) m' m := by
  have hlines (k' : ℕ) : (Function.update c k s k').line = (c k').line := by
    by_cases hk : k' = k
    · rw [hk, Function.update_self, hline]
    · rw [Function.update_of_ne hk]
  have hholds (b i) : Holds cfg (Function.update c k s) b i ↔ Holds cfg c b i := by
    rw [Holds, Holds, hlines]
  refine ⟨?_, ?_, ?_, ?_, ?_, ?_⟩
  · simpa only [hlines] using h.placed
  · simpa only [hholds] using h.unique
  · simpa only [hholds, hlines] using h.hit
  · simpa only [hholds, hlines] using h.clean
  · simpa only [hholds] using h.miss
  · intro k'
    by_cases hk : k' = k
    · rw [hk, Function.update_self]
      exact ⟨r, hturn⟩
    · rw [Function.update_of_ne hk]
      exact h.inTurn k'

end Adl.Iss.GenCache
