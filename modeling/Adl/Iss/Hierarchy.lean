import Adl.Iss.GenCache
import Adl.Memory.SparseFlat

/-!
# Hierarchies of generated caches

A cache does to the data it shows what memory does, and so does a cache on top of it. At the bottom
is the sparse memory, whose pages are at least as large as the lines.

A cache that has lines of the same size as the one above it is given whole lines without reading
them first. It passes such a line on in the same way, which is wrong if the level below has larger
lines.
-/

namespace Adl.Iss.GenCache

open Memory (Addr Mem)
open Uadl (CacheAccess)
open Math (store)

variable {σ : Type} {cfg : CacheConfig} {next : Level σ} {a b crit : Addr} {n i k : ℕ}
  {c : CacheSets} {m m' : Mem} {v : ℕ → BitVec 8}

/-! ### What a level does -/

/-- The addresses lie in one line of `2 ^ s` bytes. -/
def SameLine (s : ℕ) (a b : Addr) : Prop := a.toNat / 2 ^ s = b.toNat / 2 ^ s

/-- A level does to the data it shows what memory does, for accesses inside of a line. Bytes can be
written without loading a line if they are `whole`. -/
structure Lawful (L : Level σ) (s : ℕ) (whole : Addr → ℕ → Prop) (R : σ → Mem → Prop) : Prop where
  readpage : ∀ {x m a n crit} ca, R x m → Within s a n → SameLine s crit a →
    R (L.readpage x ca a n crit).2 m ∧
      ∀ i < n, (L.readpage x ca a n crit).1 i = m (a + BitVec.ofNat 64 i)
  writepage : ∀ {x m a n crit doLoad} ca v, R x m → Within s a n → SameLine s crit a →
    (doLoad = false → whole a n) → R (L.writepage doLoad x ca v n a crit) (put m a v n)
  write : ∀ {x m a n} v, R x m → Within s a n → R (L.write x a v n) (put m a v n)
  logRead : ∀ {x m a n} force ca, R x m → Within s a n →
    R (L.logRead x force ca a n).2 m ∧
      ∀ i < n, (L.logRead x force ca a n).1 i = m (a + BitVec.ofNat 64 i)
  logWrite : ∀ {x m a n} force v, R x m → Within s a n → R (L.logWrite x force a v n) (put m a v n)
  command : ∀ {x m} d op, R x m → R (L.command d x op) m

theorem sameLine_iff : SameLine cfg.lineShift a b ↔ cfg.lineAddr a = cfg.lineAddr b := by
  rw [SameLine, ← CacheConfig.lineSize]
  constructor
  · intro h
    apply BitVec.eq_of_toNat_eq
    rw [toNat_lineAddr, toNat_lineAddr, h]
  · intro h
    have htoNat := congrArg BitVec.toNat h
    rw [toNat_lineAddr, toNat_lineAddr] at htoNat
    exact Nat.eq_of_mul_eq_mul_right (Nat.two_pow_pos _) htoNat

theorem SameLine.mono {s t : ℕ} (h : SameLine s a b) (hst : s ≤ t) : SameLine t a b := by
  rw [SameLine, ← Nat.add_sub_of_le hst, Nat.pow_add, ← Nat.div_div_eq_div_mul, h,
    Nat.div_div_eq_div_mul]

theorem Within.mono {s t : ℕ} (h : Within s a n) (hst : s ≤ t) : Within t a n := by
  rw [Within] at h ⊢
  rcases Nat.eq_zero_or_pos n with rfl | hn
  · exact (Nat.mod_lt _ (Nat.two_pow_pos t)).le
  · have := @Math.mod_add_lt_of_le a (n - 1) t s hst (by omega)
    omega

/-! ### Caches -/

/-- A cache on a next level of lines of `2 ^ s` bytes. Whether it is enabled depends on the line
only. -/
structure Fits (cfg : CacheConfig) (loadArg : Bool) (s : ℕ) (whole : Addr → ℕ → Prop) : Prop where
  enabled : ∀ ca a, cfg.enabled ca a = cfg.enabled .cacheRead (cfg.lineAddr a)
  shift : cfg.lineShift ≤ s
  load : loadArg = false → ∀ a, whole (cfg.lineAddr a) cfg.lineSize

def Rel (cfg : CacheConfig) (R : σ → Mem → Prop) (x : CacheSets × σ) (m : Mem) : Prop :=
  ∃ m', R x.2 m' ∧ Shows cfg x.1 m' m

section Cache

variable {loadArg doLoad : Bool} {s : ℕ} {whole : Addr → ℕ → Prop} {R : σ → Mem → Prop}
  {x : CacheSets × σ} {ca : CacheAccess} {l : CacheLine} {force : Bool}

theorem flushLine_clean :
    (((flushLine cfg loadArg next ca k i x).1 k).line i).valid = true →
      (((flushLine cfg loadArg next ca k i x).1 k).line i).dirty = false := by
  rw [flushLine]
  split
  case isTrue => simp [line_setLine]
  case isFalse hclean =>
    intro hvalid
    rw [hvalid] at hclean
    simpa using hclean

theorem holds_flushLine {j : ℕ} :
    Holds cfg (flushLine cfg loadArg next ca k i x).1 b j ↔ Holds cfg x.1 b j := by
  rw [flushLine]
  split
  case isTrue =>
    rw [Holds, Holds, line_setLine]
    split
    case isTrue heq => rw [heq.1, heq.2]
    case isFalse => rfl
  case isFalse => rfl

/-- After an access the line of an address is in a way. The cache is that of before, in which the
way could be used. -/
structure Ready (cfg : CacheConfig) (doLoad : Bool) (a : Addr) (i : ℕ) (m : Mem) (c : CacheSets)
    (m' : Mem) (l : CacheLine) : Prop where
  shows : Shows cfg c m' m
  take : CanTake cfg c a i
  valid : l.valid = true
  tag : l.tag = cfg.lineAddr a
  data : ∀ b, cfg.lineAddr b = cfg.lineAddr a → doLoad = true → l.data (cfg.getOffset b) = m b
  clean : ∀ b, cfg.lineAddr b = cfg.lineAddr a → l.dirty = false → m b = m' b

theorem setLine_self : c.setLine k i ((c k).line i) = c := by
  rw [CacheSets.setLine, Function.update_eq_self]
  exact Function.update_eq_self k c

theorem setLine_setLine {l l' : CacheLine} :
    (c.setLine k i l).setLine k i l' = c.setLine k i l' := by
  simp only [CacheSets.setLine, Function.update_self, Function.update_idem]

theorem load_setLine {y : σ} :
    load cfg next ca k i a (c.setLine k i l, y) =
      (c.setLine k i { l with data := (next.readpage y ca (cfg.lineAddr a) cfg.lineSize a).1 },
        (next.readpage y ca (cfg.lineAddr a) cfg.lineSize a).2) := by
  simp only [load, setLine_setLine, line_setLine, and_self, if_true]

theorem access_eq_none (hnone : access cfg loadArg next doLoad ca a x = none) :
    (∀ i, ¬Holds cfg x.1 a i) ∧ ¬cfg.Plain := by
  rw [access] at hnone
  cases hfind : find cfg x.1 a with
  | some j =>
    rw [hfind] at hnone
    cases hnone
  | none =>
    simp only [hfind] at hnone
    split at hnone
    case isTrue => cases hnone
    case isFalse hnot => exact ⟨not_holds_of_find hfind, fun hplain => hnot (hplain ca a _).2.1⟩

theorem find_of_peek (hsome : peek cfg force ca a c = some i) : find cfg c a = some i := by
  rw [peek] at hsome
  split at hsome
  case isTrue => exact hsome
  case isFalse => cases hsome

theorem Ready.setLine (h : Ready cfg true a i m c m' l)
    (hon : cfg.enabled .cacheRead (cfg.lineAddr a) = true) :
    Shows cfg (c.setLine (cfg.getSet a) i l) m' m :=
  h.shows.setLine h.take hon h.valid h.tag (fun _ _ => ⟨rfl, rfl⟩)
    fun b hb => ⟨(h.data b hb rfl).symm, h.clean b hb⟩

theorem copy_setLine {dirty : Bool} :
    copy cfg k i a v n dirty (c.setLine k i l) = c.setLine k i
      { l with data := store l.data (cfg.getOffset a + ·) v n, dirty := l.dirty || dirty } := by
  simp only [copy, setLine_setLine, line_setLine, and_self, if_true]

theorem Ready.copy_data (h : Ready cfg doLoad a i m c m' l) (hw : Within cfg.lineShift a n)
    (hload : doLoad = false → cfg.lineAddr a = a ∧ n = cfg.lineSize)
    (hb : cfg.lineAddr b = cfg.lineAddr a) :
    store l.data (cfg.getOffset a + ·) v n (cfg.getOffset b) = put m a v n b := by
  refine put_eq_store hw hb ?_
  cases hdo : doLoad with
  | false => exact .inr (hload hdo)
  | true => exact .inl (h.data b hb hdo)

/-- Bytes are copied into a line, and the next level is written unless the line becomes dirty. -/
theorem Ready.copy {dirty : Bool} {m₁ : Mem} (h : Ready cfg doLoad a i m c m' l)
    (hon : cfg.enabled .cacheRead (cfg.lineAddr a) = true) (hw : Within cfg.lineShift a n)
    (hload : doLoad = false → cfg.lineAddr a = a ∧ n = cfg.lineSize)
    (hout : ∀ b, cfg.lineAddr b ≠ cfg.lineAddr a → m₁ b = m' b)
    (hin : ∀ b, cfg.lineAddr b = cfg.lineAddr a → l.dirty = false → dirty = false →
      put m a v n b = m₁ b) :
    Shows cfg (copy cfg (cfg.getSet a) i a v n dirty (c.setLine (cfg.getSet a) i l)) m₁
      (put m a v n) := by
  rw [copy_setLine]
  refine h.shows.setLine h.take hon h.valid h.tag
    (fun b hb => ⟨put_of_ne hw hb, hout b hb⟩)
    fun b hb => ⟨(h.copy_data hw hload hb).symm, fun hdirty => ?_⟩
  rw [Bool.or_eq_false_iff] at hdirty
  exact hin b hb hdirty.1 hdirty.2

/-- Bytes are copied into a line that stays as dirty as it was, and written to the next level. -/
theorem Ready.writeThrough (h : Ready cfg true a i m c m' l)
    (hon : cfg.enabled .cacheRead (cfg.lineAddr a) = true) (hw : Within cfg.lineShift a n) :
    Shows cfg (GenCache.copy cfg (cfg.getSet a) i a v n false (c.setLine (cfg.getSet a) i l))
      (put m' a v n) (put m a v n) :=
  h.copy hon hw (fun h => by cases h) (fun b hb => put_of_ne hw hb)
    fun b hb hdirty _ => Math.store_eq_store (h.clean b hb hdirty) fun _ _ => Iff.rfl

variable (hL : Lawful next s whole R) (hfit : Fits cfg loadArg s whole) (h : Rel cfg R x m)

include hfit h

theorem lookup_eq_none (hline : cfg.lineAddr crit = cfg.lineAddr a)
    (hnone : lookup cfg loadArg next doLoad ca a crit x = none) :
    (∀ i, ¬Holds cfg x.1 a i) ∧ ¬cfg.Plain := by
  rw [lookup] at hnone
  split at hnone
  case isTrue =>
    have hfree := access_eq_none hnone
    exact ⟨fun i hi => hfree.1 i (hi.congr hline.symm), hfree.2⟩
  case isFalse hoff =>
    obtain ⟨m', -, hshows⟩ := h
    refine ⟨hshows.not_holds ?_, fun hplain => hoff (hplain ca a 0).1⟩
    rw [← hfit.enabled, Bool.eq_false_iff]
    exact hoff

theorem peek_eq_none (hnone : peek cfg force ca a x.1 = none) : ∀ i, ¬Holds cfg x.1 a i := by
  rw [peek] at hnone
  split at hnone
  case isTrue => exact not_holds_of_find hnone
  case isFalse hoff =>
    obtain ⟨m', -, hshows⟩ := h
    rw [Bool.or_eq_true, not_or, Bool.not_eq_true, Bool.not_eq_true, hfit.enabled] at hoff
    exact hshows.not_holds hoff.2

include hL

theorem flushLine_rel (ca : CacheAccess) (hi : i < cfg.ways) :
    Rel cfg R (flushLine cfg loadArg next ca k i x) m := by
  rw [flushLine]
  split
  case isFalse => exact h
  case isTrue hdirty =>
    rw [Bool.and_eq_true] at hdirty
    obtain ⟨m', hR, hshows⟩ := h
    obtain ⟨hset, htag, hon⟩ := hshows.placed k i hi hdirty.1
    generalize hl : (x.1 k).line i = l at *
    have hheld (b : Addr) (hline : cfg.lineAddr b = cfg.lineAddr l.tag) : Holds cfg x.1 b i := by
      rw [Holds, getSet_eq hline, hset, hl, hline, htag]
      exact ⟨hi, hdirty.1, rfl⟩
    have hwhole : Within cfg.lineShift l.tag cfg.lineSize := htag ▸ within_lineAddr
    refine ⟨_, hL.writepage ca l.data hR (hwhole.mono hfit.shift) rfl fun hload =>
      htag ▸ hfit.load hload l.tag, ?_⟩
    rw [← hset]
    refine hshows.setLine ⟨hi, fun _ _ => by rw [hset, hl, htag],
      fun j hj => hshows.unique _ _ _ hj (hheld _ rfl)⟩ (by rwa [htag]) hdirty.1 htag.symm
      (fun b hb => ⟨rfl, put_of_ne hwhole hb⟩) fun b hb => ?_
    have hhit := hshows.hit b i (hheld b hb)
    rw [getSet_eq hb, hset, hl] at hhit
    refine ⟨hhit, fun _ => ?_⟩
    rw [hhit, ← @put_line cfg l.tag b m' l.data hb, htag]

/-- A way is chosen and its line is not needed any more. -/
theorem makeRoom_rel (ca : CacheAccess) (hfree : ∀ j, ¬Holds cfg x.1 a j) :
    ∃ i z, makeRoom cfg loadArg next ca a x = (i, z) ∧ Rel cfg R z m ∧ CanTake cfg z.1 a i ∧
      ∀ j, ¬Holds cfg z.1 a j := by
  obtain ⟨m', hR, hshows⟩ := h
  obtain ⟨r, hr⟩ := hshows.inTurn (cfg.getSet a)
  obtain ⟨t, hvictim, hturn, -, hline⟩ := CacheSet.victim_eq cfg.ways_le hr
  have hlt := @CacheSet.turn_lt _ _ cfg.ways (x.1 (cfg.getSet a)).locked hr.lt
  generalize CacheSet.turn cfg.ways (x.1 (cfg.getSet a)).locked cfg.ways r = i at *
  have hroom : makeRoom cfg loadArg next ca a x = (i, flushLine cfg loadArg next ca (cfg.getSet a) i
      (Function.update x.1 (cfg.getSet a) t, x.2)) := by rw [makeRoom, hvictim]; rfl
  have hnone (j : ℕ) (hj : Holds cfg (flushLine cfg loadArg next ca (cfg.getSet a) i
      (Function.update x.1 (cfg.getSet a) t, x.2)).1 a j) : False := by
    have hold : Holds cfg (Function.update x.1 (cfg.getSet a) t) a j := holds_flushLine.mp hj
    rw [Holds, Function.update_self, hline] at hold
    exact hfree j hold
  have hrel : Rel cfg R (Function.update x.1 (cfg.getSet a) t, x.2) m :=
    ⟨m', hR, hshows.update hline hturn⟩
  refine ⟨_, _, hroom, flushLine_rel hL hfit hrel ca hlt,
    ⟨hlt, fun hvalid hdirty => ?_, fun j hj => (hnone j hj).elim⟩, hnone⟩
  rw [flushLine_clean hvalid] at hdirty
  cases hdirty

/-- A cache that has a line for the address. -/
theorem access_eq_some {z : CacheSets × σ}
    (hsome : access cfg loadArg next doLoad ca a x = some (i, z)) :
    ∃ c m' l, Ready cfg doLoad a i m c m' l ∧ z.1 = c.setLine (cfg.getSet a) i l ∧ R z.2 m' := by
  rw [access] at hsome
  cases hfind : find cfg x.1 a with
  | some j =>
    rw [hfind] at hsome
    cases hsome
    obtain ⟨m', hR, hshows⟩ := h
    have hheld := holds_of_find hfind
    refine ⟨x.1, m', _, ⟨hshows, ⟨hheld.1, fun _ _ => hheld.2.2, fun j hj =>
      hshows.unique a j i hj hheld⟩, hheld.2.1, hheld.2.2, fun b hb _ => ?_, fun b hb hdirty => ?_⟩,
      setLine_self.symm, hR⟩
    · rw [hshows.hit b i (hheld.congr hb.symm), getSet_eq hb]
    · refine hshows.clean b i (hheld.congr hb.symm) ?_
      rwa [getSet_eq hb]
  | none =>
    -- room is made first, so that the next level has what is loaded
    obtain ⟨j, ⟨c, y⟩, hroom, ⟨m', hR, hshows⟩, htake, hfree⟩ :=
      makeRoom_rel hL hfit h ca (not_holds_of_find hfind)
    have hmiss (b : Addr) (hb : cfg.lineAddr b = cfg.lineAddr a) := hshows.miss_line hfree hb
    simp only [hfind, replace, hroom] at hsome
    split at hsome
    case isFalse => cases hsome
    case isTrue =>
      cases hsome
      cases doLoad with
      | false =>
        exact ⟨c, m', _, ⟨hshows, htake, rfl, rfl, fun _ _ h => (by cases h), fun b hb _ =>
          hmiss b hb⟩, rfl, hR⟩
      | true =>
        obtain ⟨hR, hdata⟩ := hL.readpage ca hR (within_lineAddr.mono hfit.shift)
          (SameLine.mono (sameLine_iff.mpr lineAddr_lineAddr.symm) hfit.shift)
        rw [if_pos rfl, load_setLine]
        refine ⟨c, m', _, ⟨hshows, htake, rfl, rfl, fun b hb _ => ?_, fun b hb _ => hmiss b hb⟩,
          rfl, hR⟩
        rw [hmiss b hb]
        refine (hdata _ getOffset_lt).trans ?_
        rw [← hb, lineAddr_add_getOffset]

theorem lookup_eq_some (hline : cfg.lineAddr crit = cfg.lineAddr a) {z : CacheSets × σ}
    (hsome : lookup cfg loadArg next doLoad ca a crit x = some (i, z)) :
    cfg.enabled .cacheRead (cfg.lineAddr a) = true ∧ ∃ c m' l,
      Ready cfg doLoad a i m c m' l ∧ z.1 = c.setLine (cfg.getSet a) i l ∧ R z.2 m' := by
  rw [lookup] at hsome
  split at hsome
  case isFalse => cases hsome
  case isTrue hon =>
    obtain ⟨c, m', l, hready, hz, hR⟩ := access_eq_some hL hfit h hsome
    refine ⟨by rw [← hfit.enabled, hon], c, m', l, ⟨hready.shows, ⟨hready.take.lt, ?_, fun j hj =>
      hready.take.only j (hj.congr hline.symm)⟩, hready.valid, hready.tag.trans hline, ?_, ?_⟩, ?_,
      hR⟩
    · rw [← hline, ← getSet_eq hline]
      exact hready.take.gone
    · exact fun b hb => hready.data b (hb.trans hline.symm)
    · exact fun b hb => hready.clean b (hb.trans hline.symm)
    · rw [hz, getSet_eq hline]

theorem readpage_rel (hw : Within cfg.lineShift a n) (hline : SameLine cfg.lineShift crit a) :
    Rel cfg R ((cache cfg loadArg next).readpage x ca a n crit).2 m ∧
      ∀ i < n, ((cache cfg loadArg next).readpage x ca a n crit).1 i =
        m (a + BitVec.ofNat 64 i) := by
  have hsame := sameLine_iff.mp hline
  simp only [cache]
  cases hlook : lookup cfg loadArg next true ca a crit x with
  | none =>
    have hfree := (lookup_eq_none hfit h hsame hlook).1
    obtain ⟨m', hR, hshows⟩ := h
    obtain ⟨hR, hdata⟩ := hL.readpage ca hR (hw.mono hfit.shift) (hline.mono hfit.shift)
    refine ⟨⟨m', hR, hshows⟩, fun i hi => (hdata i hi).trans ?_⟩
    rw [hshows.miss_line hfree (lineAddr_add hw hi)]
  | some r =>
    obtain ⟨j, z⟩ := r
    obtain ⟨hon, c, m', l, hready, hz, hR⟩ := lookup_eq_some hL hfit h hsame hlook
    refine ⟨⟨m', hR, hz ▸ hready.setLine hon⟩, fun i hi => ?_⟩
    simp only [hz, getSet_eq hsame, line_setLine, and_self, if_true]
    rw [← getOffset_add hw hi]
    exact hready.data _ (lineAddr_add hw hi) rfl

theorem writepage_rel (hw : Within cfg.lineShift a n) (hline : SameLine cfg.lineShift crit a)
    (hwhole : doLoad = false → cfg.lineAddr a = a ∧ n = cfg.lineSize ∧ (cfg.Plain ∨ whole a n)) :
    Rel cfg R ((cache cfg loadArg next).writepage doLoad x ca v n a crit) (put m a v n) := by
  have hpass (hplain : ¬cfg.Plain) (hdo : doLoad = false) : whole a n :=
    (hwhole hdo).2.2.resolve_left hplain
  have hsame := sameLine_iff.mp hline
  simp only [cache]
  cases hlook : lookup cfg loadArg next doLoad ca a crit x with
  | none =>
    -- the line is not in the cache, and the write goes to the next level
    obtain ⟨hfree, hplain⟩ := lookup_eq_none hfit h hsame hlook
    obtain ⟨m', hR, hshows⟩ := h
    exact ⟨_, hL.writepage ca v hR (hw.mono hfit.shift) (hline.mono hfit.shift) (hpass hplain),
      hshows.put hw hfree⟩
  | some r =>
    obtain ⟨i, c', y⟩ := r
    obtain ⟨hon, c, m', l, hready, rfl, hR⟩ := lookup_eq_some hL hfit h hsame hlook
    have hload (hdo : doLoad = false) : cfg.lineAddr a = a ∧ n = cfg.lineSize :=
      ⟨(hwhole hdo).1, (hwhole hdo).2.1⟩
    simp only [getSet_eq hsame]
    split
    case isFalse =>
      exact ⟨m', hR, hready.copy hon hw hload (fun _ _ => rfl) fun _ _ _ h => by cases h⟩
    case isTrue hthrough =>
      have hl := @line_setLine i (cfg.getSet a) c
        { l with data := store l.data (cfg.getOffset a + ·) v n, dirty := l.dirty || false }
        (cfg.getSet a) i
      rw [if_pos ⟨rfl, rfl⟩, ← copy_setLine] at hl
      rw [hl, hready.tag]
      refine ⟨_, hL.writepage ca _ hR (within_lineAddr.mono hfit.shift)
        (SameLine.mono (sameLine_iff.mpr (hsame.trans lineAddr_lineAddr.symm)) hfit.shift)
        fun hdo => ?_, hready.copy hon hw hload
          (fun b hb => put_of_ne within_lineAddr (by rwa [lineAddr_lineAddr])) fun b hb _ _ => ?_⟩
      · -- the whole line is passed on as it came
        rw [(hload hdo).1, ← (hload hdo).2]
        refine hpass (fun hplain => ?_) hdo
        rw [(hplain ca a 0).2.2] at hthrough
        cases hthrough
      · rw [put_line hb]
        exact (hready.copy_data hw hload hb).symm

theorem write_rel (hw : Within cfg.lineShift a n) :
    Rel cfg R ((cache cfg loadArg next).write x a v n) (put m a v n) := by
  simp only [cache]
  cases hlook : lookup cfg loadArg next true .cacheWrite a a x with
  | none =>
    have hfree := (lookup_eq_none hfit h rfl hlook).1
    obtain ⟨m', hR, hshows⟩ := h
    exact ⟨_, hL.write v hR (hw.mono hfit.shift), hshows.put hw hfree⟩
  | some r =>
    obtain ⟨i, c', y⟩ := r
    obtain ⟨hon, c, m', l, hready, rfl, hR⟩ := lookup_eq_some hL hfit h rfl hlook
    dsimp only
    split
    case isFalse => exact ⟨m', hR, hready.copy hon hw (fun h => by cases h) (fun _ _ => rfl)
      fun _ _ _ h => by cases h⟩
    case isTrue => exact ⟨_, hL.write v hR (hw.mono hfit.shift), hready.writeThrough hon hw⟩

theorem logRead_rel (hw : Within cfg.lineShift a n) :
    Rel cfg R ((cache cfg loadArg next).logRead x force ca a n).2 m ∧
      ∀ i < n, ((cache cfg loadArg next).logRead x force ca a n).1 i =
        m (a + BitVec.ofNat 64 i) := by
  simp only [cache]
  cases hpeek : peek cfg force ca a x.1 with
  | none =>
    have hfree := peek_eq_none hfit h hpeek
    obtain ⟨m', hR, hshows⟩ := h
    obtain ⟨hR, hdata⟩ := hL.logRead force ca hR (hw.mono hfit.shift)
    exact ⟨⟨m', hR, hshows⟩, fun i hi => (hdata i hi).trans
      (hshows.miss_line hfree (lineAddr_add hw hi)).symm⟩
  | some j =>
    refine ⟨h, fun i hi => ?_⟩
    obtain ⟨m', -, hshows⟩ := h
    have hline := lineAddr_add hw hi
    have hheld := holds_of_find (find_of_peek hpeek)
    rw [hshows.hit _ j (hheld.congr hline.symm), getSet_eq hline, getOffset_add hw hi]

theorem logWrite_rel (hw : Within cfg.lineShift a n) :
    Rel cfg R ((cache cfg loadArg next).logWrite x force a v n) (put m a v n) := by
  have hnext {m' : Mem} (hR : R x.2 m') := hL.logWrite force v hR (hw.mono hfit.shift)
  simp only [cache]
  cases hpeek : peek cfg force .cacheWrite a x.1 with
  | none =>
    have hfree := peek_eq_none hfit h hpeek
    obtain ⟨m', hR, hshows⟩ := h
    exact ⟨_, hnext hR, hshows.put hw hfree⟩
  | some i =>
    have hfind := find_of_peek hpeek
    have hacc : access cfg loadArg next true .cacheWrite a x = some (i, x) := by
      rw [access, hfind]
    obtain ⟨c, m', l, hready, hz, hR⟩ := access_eq_some hL hfit h hacc
    have hon : cfg.enabled .cacheRead (cfg.lineAddr a) = true := by
      obtain ⟨m', -, hshows⟩ := h
      exact hshows.enabled (holds_of_find hfind)
    rw [hz]
    exact ⟨_, hnext hR, hready.writeThrough hon hw⟩

theorem command_rel {d : ℕ} {op : Command} :
    Rel cfg R ((cache cfg loadArg next).command d x op) m := by
  cases d with
  | succ d =>
    obtain ⟨m', hR, hshows⟩ := h
    exact ⟨m', hL.command d op hR, hshows⟩
  | zero =>
    cases op with
    | flush a =>
      simp only [cache]
      cases hfind : find cfg x.1 a with
      | none => exact h
      | some i => exact flushLine_rel hL hfit h _ (holds_of_find hfind).1
    | lock k i l =>
      simp only [cache]
      split
      case isFalse => exact h
      case isTrue hi =>
        obtain ⟨m', hR, hshows⟩ := h
        obtain ⟨r, hr⟩ := hshows.inTurn k
        exact ⟨m', hR, hshows.update rfl (hr.lock l hi)⟩

theorem flush_clean :
    ∃ m', R ((cache cfg loadArg next).command 0 x (.flush a)).2 m' ∧
      ∀ b, cfg.lineAddr b = cfg.lineAddr a → m b = m' b := by
  simp only [cache]
  cases hfind : find cfg x.1 a with
  | none =>
    obtain ⟨m', hR, hshows⟩ := h
    exact ⟨m', hR, fun b hb => hshows.miss_line (not_holds_of_find hfind) hb⟩
  | some i =>
    have hheld := holds_of_find hfind
    obtain ⟨m', hR, hshows⟩ := flushLine_rel hL hfit h .cacheFlush hheld.1
    refine ⟨m', hR, fun b hb => hshows.clean b i (holds_flushLine.mpr (hheld.congr hb.symm)) ?_⟩
    rw [getSet_eq hb]
    exact flushLine_clean (holds_flushLine.mpr hheld).2.1

omit h in
/-- A cache on a lawful level is a lawful level. -/
theorem lawful_cache :
    Lawful (cache cfg loadArg next) cfg.lineShift
      (fun a n => cfg.lineAddr a = a ∧ n = cfg.lineSize ∧ (cfg.Plain ∨ whole a n)) (Rel cfg R) where
  readpage _ h hw hline := readpage_rel hL hfit h hw hline
  writepage _ _ h hw hline hwhole := writepage_rel hL hfit h hw hline hwhole
  write _ h hw := write_rel hL hfit h hw
  logRead _ _ h hw := logRead_rel hL hfit h hw
  logWrite _ _ h hw := logWrite_rel hL hfit h hw
  command _ _ h := command_rel hL hfit h

end Cache

/-! ### Hierarchies -/

section Hierarchies

variable {cfgs : List CacheConfig} {s : ℕ} {L : Level σ} {R : σ → Mem → Prop}

/-- The states of caches from the top down, and of what is below them. -/
def Levels (σ : Type) : List CacheConfig → Type
  | [] => σ
  | _ :: cfgs => CacheSets × Levels σ cfgs

/-- The size of the lines, or of the pages of the memory. -/
def shift (s : ℕ) : List CacheConfig → ℕ
  | [] => s
  | cfg :: _ => cfg.lineShift

def level (s : ℕ) (L : Level σ) : (cfgs : List CacheConfig) → Level (Levels σ cfgs)
  | [] => L
  | cfg :: cfgs => cache cfg (shift s cfgs != cfg.lineShift) (level s L cfgs)

def resetLevels (y : σ) : (cfgs : List CacheConfig) → Levels σ cfgs → Levels σ cfgs
  | [], _ => y
  | cfg :: cfgs, x => (fun k => (x.1 k).reset cfg.ways, resetLevels y cfgs x.2)

/-- What can be written without loading: a line of the first cache that is a line of all the caches
that it reaches. -/
def Whole : List CacheConfig → Addr → ℕ → Prop
  | [], _, _ => True
  | cfg :: cfgs, a, n => cfg.lineAddr a = a ∧ n = cfg.lineSize ∧ (cfg.Plain ∨ Whole cfgs a n)

def Valid (s : ℕ) : List CacheConfig → Prop
  | [] => True
  | cfg :: cfgs =>
    Fits cfg (shift s cfgs != cfg.lineShift) (shift s cfgs) (Whole cfgs) ∧ Valid s cfgs

/-- The memory that a hierarchy shows. -/
def LevelsShow (R : σ → Mem → Prop) : (cfgs : List CacheConfig) → Levels σ cfgs → Mem → Prop
  | [] => R
  | cfg :: cfgs => Rel cfg (LevelsShow R cfgs)

theorem lawful_level (hL : Lawful L s (fun _ _ => True) R) (h : Valid s cfgs) :
    Lawful (level s L cfgs) (shift s cfgs) (Whole cfgs) (LevelsShow R cfgs) := by
  induction cfgs with
  | nil => exact hL
  | cons cfg cfgs ih => exact lawful_cache (ih h.2) h.1

theorem levelsShow_reset {y : σ} {m : Mem} (hR : R y m) (x : Levels σ cfgs) :
    LevelsShow R cfgs (resetLevels y cfgs x) m := by
  induction cfgs with
  | nil => exact hR
  | cons cfg cfgs ih =>
    have hnone (k i : ℕ) : (((x.1 k).reset cfg.ways).line i).valid ≠ true := Bool.false_ne_true
    exact ⟨m, ih x.2, ⟨fun k i _ hvalid => absurd hvalid (hnone k i),
      fun b i _ hi => absurd hi.2.1 (hnone _ i), fun b i hi => absurd hi.2.1 (hnone _ i),
      fun b i hi => absurd hi.2.1 (hnone _ i), fun b _ => rfl,
      fun k => ⟨0, CacheSet.inTurn_reset cfg.ways_pos⟩⟩⟩

/-- What is done at the top of a hierarchy. -/
inductive Op where
  | read (ca : CacheAccess) (a : Addr) (n : ℕ)
  | write (a : Addr) (v : ℕ → BitVec 8) (n : ℕ)
  | logRead (force : Bool) (ca : CacheAccess) (a : Addr) (n : ℕ)
  | logWrite (force : Bool) (a : Addr) (v : ℕ → BitVec 8) (n : ℕ)
  | command (d : ℕ) (op : Command)

/-- The access lies in a line. -/
def Op.Within (s : ℕ) : Op → Prop
  | .read _ a n | .write a _ n | .logRead _ _ a n | .logWrite _ a _ n => GenCache.Within s a n
  | .command _ _ => True

def step (L : Level σ) (x : σ) : Op → List (BitVec 8) × σ
  | .read ca a n => let (f, y) := L.readpage x ca a n a; ((List.range n).map f, y)
  | .write a v n => ([], L.write x a v n)
  | .logRead force ca a n => let (f, y) := L.logRead x force ca a n; ((List.range n).map f, y)
  | .logWrite force a v n => ([], L.logWrite x force a v n)
  | .command d op => ([], L.command d x op)

/-- A lawful level does what memory does, step by step. -/
theorem Lawful.step {whole : Addr → ℕ → Prop} (hL : Lawful L s whole R) {x : σ} (hx : R x m)
    {op : Op} (hop : op.Within s) :
    (step L x op).1 = (step memory m op).1 ∧ R (step L x op).2 (step memory m op).2 := by
  have hbytes {n : ℕ} {f g : ℕ → BitVec 8} (hfg : ∀ i < n, f i = g i) :
      (List.range n).map f = (List.range n).map g :=
    List.map_congr_left fun i hi => hfg i (List.mem_range.mp hi)
  cases op with
  | read ca a n =>
    obtain ⟨hR, hdata⟩ := hL.readpage ca hx hop rfl
    exact ⟨hbytes hdata, hR⟩
  | write a v n => exact ⟨rfl, hL.write v hx hop⟩
  | logRead force ca a n =>
    obtain ⟨hR, hdata⟩ := hL.logRead force ca hx hop
    exact ⟨hbytes hdata, hR⟩
  | logWrite force a v n => exact ⟨rfl, hL.logWrite force v hx hop⟩
  | command d op => exact ⟨rfl, hL.command d op hx⟩

end Hierarchies

/-! ### Caches on a sparse memory -/

section Sparse

open Memory (SparseMemory Layout)

variable {l : Layout} {threadSafe : Bool} {cfgs : List CacheConfig}

def sparseRead (threadSafe : Bool) (s : SparseMemory l) (a : Addr) :
    (ℕ → BitVec 8) × SparseMemory l :=
  let (page, s) := s.getPage threadSafe a.toNat
  (s.pageByte page (l.pageOffset a.toNat), s)

def sparseWrite (threadSafe : Bool) (s : SparseMemory l) (a : Addr) (v : ℕ → BitVec 8) (n : ℕ) :
    SparseMemory l :=
  let (page, s) := s.getPage threadSafe a.toNat
  s.writeBytes page (l.pageOffset a.toNat) v n

def sparse (threadSafe : Bool) : Level (SparseMemory l) where
  readpage s _ a _ _ := sparseRead threadSafe s a
  writepage _ s _ v n a _ := sparseWrite threadSafe s a v n
  write := sparseWrite threadSafe
  logRead s _ _ a _ := sparseRead threadSafe s a
  logWrite s _ := sparseWrite threadSafe s
  command _ s _ := s

/-- A sparse memory for addresses of 64 bits shows the bytes that it stands for. -/
def SparseShows (s : SparseMemory l) (m : Mem) : Prop := s.Represents fun i => m (BitVec.ofNat 64 i)

theorem SparseShows.read {s : SparseMemory l} (hl : l.bitWidth = 64) (h : SparseShows s m)
    (hw : Within l.pageBits a n) : SparseShows (sparseRead threadSafe s a).2 m ∧
      ∀ i < n, (sparseRead threadSafe s a).1 i = m (a + BitVec.ofNat 64 i) := by
  obtain ⟨hfind, hrep, -⟩ := h.getPage threadSafe a.toNat
  refine ⟨hrep, fun i hi => ?_⟩
  have hbyte := hrep.pageByte_eq hfind (i := i) (by rw [Within, ← Layout.pageSize] at hw; omega)
  rw [hl] at hbyte
  refine hbyte.trans (congrArg m (BitVec.eq_of_toNat_eq ?_))
  simp

theorem SparseShows.write {s : SparseMemory l} (hl : l.bitWidth = 64) (h : SparseShows s m)
    (hw : Within l.pageBits a n) (v : ℕ → BitVec 8) :
    SparseShows (sparseWrite threadSafe s a v n) (put m a v n) := by
  obtain ⟨hfind, hrep, -⟩ := h.getPage threadSafe a.toNat
  have hwrite := hrep.writeBytes hfind hw v
  refine ⟨fun b => ?_, hwrite.find_lt, hwrite.find_inj, hwrite.cached⟩
  have hbyte := hwrite.byte_eq b
  rw [hl] at hbyte ⊢
  refine .trans ?_ hbyte
  refine Math.store_eq_store rfl fun i _ => ?_
  rw [← BitVec.toNat_inj]
  simp

theorem lawful_sparse (hl : l.bitWidth = 64) (threadSafe : Bool) :
    Lawful (sparse threadSafe) l.pageBits (fun _ _ => True) (@SparseShows l) where
  readpage _ h hw _ := h.read hl hw
  writepage _ v h hw _ _ := h.write hl hw v
  write v h hw := h.write hl hw v
  logRead _ _ h hw := h.read hl hw
  logWrite _ v h hw := h.write hl hw v
  command _ _ h := h

theorem runs_level (hl : l.bitWidth = 64) (h : Valid l.pageBits cfgs)
    (x : Levels (SparseMemory l) cfgs) {ops : List Op}
    (hops : ∀ op ∈ ops, op.Within (shift l.pageBits cfgs)) :
    (Math.runs (step (level l.pageBits (sparse threadSafe) cfgs))
          (resetLevels (.init threadSafe) cfgs x) ops).1 =
        (Math.runs (step memory) (fun _ => 0) ops).1 ∧
      LevelsShow SparseShows cfgs
        (Math.runs (step (level l.pageBits (sparse threadSafe) cfgs))
          (resetLevels (.init threadSafe) cfgs x) ops).2
        (Math.runs (step memory) (fun _ => 0) ops).2 := by
  have hinit : SparseShows (SparseMemory.init threadSafe : SparseMemory l) fun _ => 0 :=
    (SparseMemory.simulates_resetCache rfl fun _ => rfl).1
  have hstep (x : Levels (SparseMemory l) cfgs) (m : Mem) (op : Op)
      (hop : op.Within (shift l.pageBits cfgs)) (hx : LevelsShow SparseShows cfgs x m) :=
    (lawful_level (lawful_sparse hl threadSafe) h).step hx hop
  exact Math.runs_simulation hstep hops (levelsShow_reset hinit x)

/-- Caches on a sparse memory give the answers of a memory without caches and pages. -/
theorem hierarchy_eq_memory (hl : l.bitWidth = 64) (h : Valid l.pageBits cfgs)
    (x : Levels (SparseMemory l) cfgs) {ops : List Op}
    (hops : ∀ op ∈ ops, op.Within (shift l.pageBits cfgs)) :
    (Math.runs (step (level l.pageBits (sparse threadSafe) cfgs))
        (resetLevels (.init threadSafe) cfgs x) ops).1 =
      (Math.runs (step memory) (fun _ => 0) ops).1 :=
  (runs_level hl h x hops).1

def sampleCache (shift : Fin 32) (through : Bool) : CacheConfig where
  ways := 2
  sets := 4
  lineShift := shift
  enabled _ _ := true
  allocatePred _ _ _ := true
  writeThroughPred _ _ := through
  ways_pos := by decide
  ways_le := by decide
  lineShift_lt := shift.isLt

/-- Lines of 16 bytes that are written back, over lines of 32 bytes that are written through. -/
abbrev sampleCaches : List CacheConfig := [sampleCache 4 false, sampleCache 5 true]

theorem valid_sampleCaches : Valid (Layout.mk 64 1).pageBits sampleCaches :=
  ⟨⟨fun _ _ => rfl, by decide, fun h => absurd h (by decide)⟩,
    ⟨fun _ _ => rfl, by decide, fun _ _ => trivial⟩, trivial⟩

def sampleLevels : Levels (SparseMemory ⟨64, 1⟩) sampleCaches :=
  (fun _ => .blank, fun _ => .blank, .init false)

theorem hierarchy_eq_memory_sample :
    (Math.runs (step (level (Layout.mk 64 1).pageBits (sparse false) sampleCaches))
      (resetLevels (.init false) _ sampleLevels)
      [.write 19 (fun _ => 5) 1, .command 0 (.flush 16), .read .cacheRead 18 2]).1 =
        [[], [], [0, 5]] :=
  (hierarchy_eq_memory rfl valid_sampleCaches sampleLevels (by
    simp [Op.Within, Within, shift, sampleCache])).trans rfl

/-- When an address has been flushed from the first cache, the level below shows every byte of its
line, also those before the address. -/
theorem flushed_below {cfg : CacheConfig} (hl : l.bitWidth = 64)
    (h : Valid l.pageBits (cfg :: cfgs)) (x : Levels (SparseMemory l) (cfg :: cfgs)) {ops : List Op}
    (hops : ∀ op ∈ ops, op.Within cfg.lineShift) (force : Bool) (ca : CacheAccess)
    (hi : i < cfg.lineSize) :
    ((level l.pageBits (sparse threadSafe) cfgs).logRead
        ((level l.pageBits (sparse threadSafe) (cfg :: cfgs)).command 0
          (Math.runs (step (level l.pageBits (sparse threadSafe) (cfg :: cfgs)))
            (resetLevels (.init threadSafe) _ x) ops).2 (.flush a)).2 force ca (cfg.lineAddr a)
        cfg.lineSize).1 i =
      (Math.runs (step memory) (fun _ => 0) ops).2 (cfg.lineAddr a + BitVec.ofNat 64 i) := by
  have hbelow := lawful_level (lawful_sparse hl threadSafe) h.2
  have hshown := (@runs_level l threadSafe _ hl h x ops hops).2
  obtain ⟨m', hR, heq⟩ := @flush_clean _ _ _ a _ _ _ _ _ _ hbelow h.1 hshown
  have hw : Within cfg.lineShift (cfg.lineAddr a) cfg.lineSize := within_lineAddr
  rw [heq _ ((lineAddr_add hw hi).trans lineAddr_lineAddr)]
  exact (hbelow.logRead force ca hR (hw.mono h.1.shift)).2 i hi

theorem flushed_below_sample :
    ((level (Layout.mk 64 1).pageBits (sparse false) [sampleCache 5 true]).logRead
        ((level (Layout.mk 64 1).pageBits (sparse false) sampleCaches).command 0
          (Math.runs (step (level (Layout.mk 64 1).pageBits (sparse false) sampleCaches))
            (resetLevels (.init false) _ sampleLevels) [.write 19 (fun _ => 5) 1]).2
          (.flush 24)).2 false .cacheRead 16 16).1 3 = 5 :=
  (flushed_below rfl valid_sampleCaches sampleLevels (by simp [Op.Within, Within, sampleCache])
    false .cacheRead (by decide)).trans rfl

end Sparse

end Adl.Iss.GenCache
