import Adl.Decode.Routed

/-!
# Merging nodes of a decode tree

`InstrTable::finalize` folds nodes into their children as long as the joined mask stays inside one
word (`fe/InstrTable.C`). This changes masks and keys, and is safe only where the masks of a node
and of its children agree on the bits they share.
-/

namespace Adl.Decode

open Adl.Math

variable {W : ℕ}

namespace InstrTable

/-! ### Model -/

/-- The cases of all children, under the joined keys. -/
def mergeCases (table : List (BitVec W × InstrTable W)) : List (BitVec W × InstrTable W) :=
  table.flatMap fun t => t.2.table.map fun i => (i.1 ||| t.1, i.2)

def merge (t : InstrTable W) : InstrTable W :=
  match t.table with
  | [] => t
  | (_, next) :: _ =>
    { t with mask := t.mask ||| next.mask, table := KeyedList.insertAll (mergeCases t.table) [] }

/-- True if the node can be merged with the next ones: it has no instruction, and its children
have the same mask, in the word of this node's mask. Nothing with a default table is merged. -/
def redundant (t : InstrTable W) : Bool :=
  if t.instr.isNone && t.defaultTable.isNone then
    match t.table with
    | [] => false
    | (_, next) :: _ =>
      if next.mask = 0 ∨ !legalMask (t.mask ||| next.mask) then false
      else t.table.all fun i =>
        i.2.mask == next.mask && i.2.instr.isNone && i.2.defaultTable.isNone
  else false

/-- Merge while possible, with a bound on the number of rounds. -/
def mergeRedundant : ℕ → InstrTable W → Result W (InstrTable W)
  | 0, t => if t.redundant then .error .outOfFuel else .ok t
  | fuel + 1, t => if t.redundant then mergeRedundant fuel t.merge else .ok t

/-- Simplify a tree, with a bound on the depth of recursion. -/
def finalize : ℕ → InstrTable W → Result W (InstrTable W)
  | 0, _ => .error .outOfFuel
  | fuel + 1, t => do
    if t.mask = 0 then return t
    let t ← mergeRedundant fuel t
    if !legalMask t.mask then .error (.decode (.notConfined t.mask))
    let table ← t.table.mapM fun i => do
      let c ← finalize fuel i.2
      return (i.1, c)
    return { t with table := table }

mutual

/-- The number of levels of a tree, default tables aside. -/
def height : InstrTable W → ℕ
  | ⟨_, _, table, _, _, _, _⟩ => heightCases table + 1

def heightCases : List (BitVec W × InstrTable W) → ℕ
  | [] => 0
  | (_, c) :: rest => max c.height (heightCases rest)

end

/-! ### Heights -/

theorem heightCases_le_iff {l : List (BitVec W × InstrTable W)} {n : ℕ} :
    heightCases l ≤ n ↔ ∀ k c, (k, c) ∈ l → c.height ≤ n := by
  induction l with
  | nil => simp [heightCases]
  | cons e rest ih =>
    obtain ⟨k, c⟩ := e
    rw [heightCases, max_le_iff, ih]
    constructor
    · rintro ⟨hc, hrest⟩ k' c' hmem
      rcases List.mem_cons.mp hmem with heq | hmem
      · cases heq
        exact hc
      · exact hrest k' c' hmem
    · intro h
      exact ⟨h k c List.mem_cons_self, fun k' c' hmem => h k' c' (List.mem_cons_of_mem _ hmem)⟩

theorem height_le_succ_iff {t : InstrTable W} {n : ℕ} :
    t.height ≤ n + 1 ↔ ∀ k c, (k, c) ∈ t.table → c.height ≤ n := by
  cases t
  rw [height, Nat.succ_le_succ_iff]
  exact heightCases_le_iff

theorem height_pos (t : InstrTable W) : 0 < t.height := by
  cases t
  exact Nat.succ_pos _

/-! ### One folding step -/

theorem mem_mergeCases {table : List (BitVec W × InstrTable W)} {k : BitVec W}
    {c : InstrTable W} :
    (k, c) ∈ mergeCases table ↔
      ∃ k₁ c₁, (k₁, c₁) ∈ table ∧ ∃ k₂, (k₂, c) ∈ c₁.table ∧ k = k₂ ||| k₁ := by
  simp only [mergeCases, List.mem_flatMap, List.mem_map, Prod.exists, Prod.mk.injEq]
  constructor
  · rintro ⟨k₁, c₁, h₁, k₂, _, h₂, rfl, rfl⟩
    exact ⟨k₁, c₁, h₁, k₂, h₂, rfl⟩
  · rintro ⟨k₁, c₁, h₁, k₂, h₂, rfl⟩
    exact ⟨k₁, c₁, h₁, k₂, c, h₂, rfl, rfl⟩

/-- What the test for redundancy guarantees: the node and its children, all with the mask `m`,
do nothing but pass the word on. -/
structure Foldable (t : InstrTable W) (m : BitVec W) : Prop where
  instr : t.instr = none
  default : t.defaultTable = none
  ne_nil : t.table ≠ []
  mask_ne : m ≠ 0
  legal : legalMask (t.mask ||| m) = true
  cases : ∀ k c, (k, c) ∈ t.table → c.mask = m ∧ c.instr = none ∧ c.defaultTable = none

theorem foldable_of_redundant {t : InstrTable W} (h : t.redundant = true) :
    ∃ m, t.Foldable m ∧ t.merge = { t with
      mask := t.mask ||| m, table := KeyedList.insertAll (mergeCases t.table) [] } := by
  unfold redundant at h
  unfold merge
  split_ifs at h with hleaf
  simp only [Bool.and_eq_true, Option.isNone_iff_eq_none] at hleaf
  split at h
  next => exact absurd h Bool.false_ne_true
  next next rest htable =>
    split_ifs at h with hmask
    simp only [not_or, Bool.not_eq_true', Bool.not_eq_false] at hmask
    refine ⟨next.mask, ⟨hleaf.1, hleaf.2, by simp [htable], hmask.1, hmask.2, ?_⟩, rfl⟩
    intro k c hmem
    have hc := List.all_eq_true.mp h (k, c) hmem
    simp only [Bool.and_eq_true, beq_iff_eq, Option.isNone_iff_eq_none] at hc
    exact ⟨hc.1.1, hc.1.2, hc.2⟩

theorem height_merge {t : InstrTable W} (h : t.redundant = true) :
    t.merge.height < t.height := by
  obtain ⟨m, hfold, hmerge⟩ := foldable_of_redundant h
  obtain ⟨⟨k₀, c₀⟩, _, h₀⟩ := List.exists_cons_of_ne_nil hfold.ne_nil
  obtain ⟨n, hn⟩ : ∃ n, t.height = n + 1 + 1 := by
    have hchild := height_le_succ_iff.mp (Nat.sub_one_add_one t.height_pos.ne').ge k₀ c₀
      (by simp [h₀])
    have := c₀.height_pos
    exact ⟨t.height - 2, by omega⟩
  rw [hn, Nat.lt_succ_iff, hmerge, height_le_succ_iff]
  intro k c hmem
  rcases KeyedList.mem_insertAll hmem with hmem | hmem
  · obtain ⟨k₁, c₁, h₁, k₂, h₂, _⟩ := mem_mergeCases.mp hmem
    exact height_le_succ_iff.mp (height_le_succ_iff.mp hn.le k₁ c₁ h₁) k₂ c h₂
  · cases hmem

end InstrTable

namespace Routed

variable {pm pv m : BitVec W} {t : InstrTable W}

theorem key_agree (h : Routed pm pv t) (hv : Within pv pm) {k₁ k₂ : BitVec W}
    {c₁ c₂ : InstrTable W} (h₁ : (k₁, c₁) ∈ t.table) (h₂ : (k₂, c₂) ∈ c₁.table) :
    k₁ &&& c₁.mask = k₂ &&& t.mask ∧ (k₂ ||| k₁) &&& pm = pv &&& (t.mask ||| c₁.mask) := by
  obtain ⟨_, _, _, within, agree, cases, _⟩ := h
  obtain ⟨_, _, _, _, agree₁, _, _⟩ := cases k₁ c₁ h₁
  exact path_agree hv (within k₁ c₁ h₁) (agree k₁ c₁ h₁) (agree₁ k₂ c₂ h₂)

theorem find_mergeCases {M w : BitVec W} {l : List (BitVec W × InstrTable W)}
    (hnodup : KeyedList.NodupKeys l)
    (hkey : ∀ k c, (k, c) ∈ l → Within k M ∧
      ∀ k₂ c₂, (k₂, c₂) ∈ c.table → Within k₂ m ∧ k &&& m = k₂ &&& M) :
    KeyedList.find (w &&& (M ||| m)) (InstrTable.mergeCases l) =
      (KeyedList.find (w &&& M) l).bind fun c => KeyedList.find (w &&& m) c.table := by
  induction l with
  | nil => rfl
  | cons e rest ih =>
    obtain ⟨k, c⟩ := e
    have hrest := ih (List.nodup_cons.mp hnodup).2
      fun k' c' hmem => hkey k' c' (List.mem_cons_of_mem _ hmem)
    obtain ⟨hk, hcases⟩ := hkey k c List.mem_cons_self
    have hjoin (e₂ : BitVec W × InstrTable W) (h₂ : e₂ ∈ c.table) :
        e₂.1 ||| k = w &&& (M ||| m) ↔ w &&& M = k ∧ w &&& m = e₂.1 := by
      obtain ⟨hk₂, hagree⟩ := hcases e₂.1 e₂.2 h₂
      rw [BitVec.or_comm, eq_comm, and_or_eq_iff hk hk₂ hagree]
    rw [InstrTable.mergeCases, List.flatMap_cons, ← InstrTable.mergeCases, KeyedList.find_append,
      hrest, KeyedList.find_cons]
    by_cases hw : k = w &&& M
    · -- the word takes this case; no later one has the same key
      have htake : KeyedList.find (w &&& (M ||| m)) (c.table.map fun e => (e.1 ||| k, e.2)) =
          KeyedList.find (w &&& m) c.table := by
        refine KeyedList.find_map_key (f := (· ||| k)) fun e₂ h₂ => ?_
        rw [hjoin e₂ h₂, eq_comm (a := w &&& m)]
        exact and_iff_right hw.symm
      have hnone : KeyedList.find (w &&& M) rest = none :=
        KeyedList.find_eq_none_iff.mpr fun c' hmem =>
          (List.nodup_cons.mp hnodup).1 (List.mem_map.mpr ⟨_, hmem, hw.symm⟩)
      simp only [htake, if_pos hw, hnone, Option.bind_none, Option.or_none, Option.bind_some]
    · have hskip : KeyedList.find (w &&& (M ||| m)) (c.table.map fun e => (e.1 ||| k, e.2)) =
          none := by
        refine KeyedList.find_eq_none_iff.mpr fun c₂ hmem => ?_
        obtain ⟨e₂, h₂, heq⟩ := List.mem_map.mp hmem
        exact hw ((hjoin e₂ h₂).mp (congrArg Prod.fst heq)).1.symm
      simp [hskip, hw]

variable (ht : Routed pm pv t) (hv : Within pv pm) (hred : t.redundant = true)
include ht hv hred

theorem merge : Routed pm pv t.merge := by
  obtain ⟨m, hfold, hmerge⟩ := InstrTable.foldable_of_redundant hred
  have hold : ∀ k c, (k, c) ∈ t.merge.table →
      ∃ k₁ c₁, (k₁, c₁) ∈ t.table ∧ ∃ k₂, (k₂, c) ∈ c₁.table ∧ k = k₂ ||| k₁ := by
    intro k c hmem
    rw [hmerge] at hmem
    exact InstrTable.mem_mergeCases.mp ((KeyedList.mem_insertAll hmem).resolve_right nofun)
  have hnodup : KeyedList.NodupKeys t.merge.table := by
    rw [hmerge]
    exact KeyedList.nodupKeys_nil.insertAll _
  have hmask : t.merge.mask = t.mask ||| m := by rw [hmerge]
  have hagree := @key_agree _ _ _ _ ht hv
  obtain ⟨_, _, _, within, _, cases, _⟩ := ht
  refine .mk ?_ (hmask ▸ hfold.legal) hnodup ?_ ?_ ?_ ?_
  · intro _ hzero
    have hm : Within m (t.mask ||| m) := Within.or_right _ _
    rw [← hmask, hzero] at hm
    exact hfold.mask_ne (within_zero_iff.mp hm)
  · intro k c hmem
    obtain ⟨k₁, c₁, h₁, k₂, h₂, rfl⟩ := hold k c hmem
    obtain ⟨_, _, _, within₁, _, _, _⟩ := cases k₁ c₁ h₁
    rw [hmask, ← (hfold.cases k₁ c₁ h₁).1]
    exact ((within₁ k₂ c h₂).trans (Within.or_right _ _)).or
      ((within k₁ c₁ h₁).trans (Within.or_left _ _))
  · intro k c hmem
    obtain ⟨k₁, c₁, h₁, k₂, h₂, rfl⟩ := hold k c hmem
    rw [hmask, ← (hfold.cases k₁ c₁ h₁).1]
    exact (hagree h₁ h₂).2
  · intro k c hmem
    obtain ⟨k₁, c₁, h₁, k₂, h₂, rfl⟩ := hold k c hmem
    obtain ⟨_, _, _, _, _, cases₁, _⟩ := cases k₁ c₁ h₁
    have := cases₁ k₂ c h₂
    rwa [(hfold.cases k₁ c₁ h₁).1, BitVec.or_assoc, BitVec.or_assoc, BitVec.or_comm k₁,
      ← hmask] at this
  · -- a table that can be folded has no default
    intro d hd
    rw [hmerge] at hd
    exact absurd (hfold.default.symm.trans hd) nofun

/-- Folding a node into its children does not change what any word is decoded to. -/
theorem walk_merge (w : BitVec W) : t.merge.walk w = t.walk w := by
  obtain ⟨m, hfold, hmerge⟩ := InstrTable.foldable_of_redundant hred
  have hagree := @key_agree _ _ _ _ ht hv
  obtain ⟨_, _, nodup, within, _, cases, _⟩ := ht
  have hfind : t.merge.find (w &&& t.merge.mask) =
      (t.find (w &&& t.mask)).bind fun c => c.find (w &&& m) := by
    rw [hmerge, InstrTable.find, KeyedList.find_insertAll, KeyedList.find_nil, Option.none_or]
    refine find_mergeCases nodup fun k c hmem => ⟨within k c hmem, fun k₂ c₂ h₂ => ?_⟩
    obtain ⟨_, _, _, within₁, _, _, _⟩ := cases k c hmem
    rw [← (hfold.cases k c hmem).1]
    exact ⟨within₁ k₂ c₂ h₂, (hagree hmem h₂).1⟩
  rw [InstrTable.walk_eq_bind (by rw [hmerge]; exact hfold.instr)
    (by rw [hmerge]; exact hfold.default), hfind, InstrTable.walk_eq_bind hfold.instr hfold.default]
  cases hc : t.find (w &&& t.mask) with
  | none => rfl
  | some c =>
    obtain ⟨hmask, hinstr, hdefault⟩ := hfold.cases _ c (KeyedList.mem_of_find hc)
    rw [Option.bind_some, Option.bind_some, InstrTable.walk_eq_bind hinstr hdefault, hmask]

end Routed

/-! ### The whole simplification -/

namespace Routed

variable {pm pv : BitVec W} {t : InstrTable W} {fuel : ℕ}

/-- Folding a node stops after fewer rounds than the tree has levels. -/
theorem exists_mergeRedundant (hfuel : t.height ≤ fuel + 1) :
    ∃ t', t.mergeRedundant fuel = .ok t' ∧ t'.height ≤ fuel + 1 := by
  induction fuel generalizing t with
  | zero =>
    refine ⟨t, if_neg fun hred => ?_, hfuel⟩
    have := InstrTable.height_merge hred
    have := t.merge.height_pos
    omega
  | succ fuel ih =>
    rw [InstrTable.mergeRedundant]
    split_ifs with hred
    · have := InstrTable.height_merge hred
      obtain ⟨t', hok, hheight⟩ := ih (t := t.merge) (by omega)
      exact ⟨t', hok, by omega⟩
    · exact ⟨t, rfl, hfuel⟩

theorem mergeRedundant {t' : InstrTable W} (ht : Routed pm pv t) (hv : Within pv pm)
    (h : t.mergeRedundant fuel = .ok t') : Routed pm pv t' ∧ ∀ w, t'.walk w = t.walk w := by
  induction fuel generalizing t with
  | zero =>
    rw [InstrTable.mergeRedundant] at h
    split_ifs at h
    cases h
    exact ⟨ht, fun _ => rfl⟩
  | succ fuel ih =>
    rw [InstrTable.mergeRedundant] at h
    split_ifs at h with hred
    · obtain ⟨ht', hwalk⟩ := ih (ht.merge hv hred) h
      exact ⟨ht', fun w => (hwalk w).trans (ht.walk_merge hv hred w)⟩
    · cases h
      exact ⟨ht, fun _ => rfl⟩

theorem replaceCases {l : List (BitVec W × InstrTable W)} (ht : Routed pm pv t)
    (h : KeyedList.Rel (fun k c c' => Routed (pm ||| t.mask) (pv ||| k) c' ∧
      ∀ w, c'.walk w = c.walk w) t.table l) :
    Routed pm pv { t with table := l } ∧
      ∀ w, InstrTable.walk w { t with table := l } = t.walk w := by
  have hnil : l = [] ↔ t.table = [] := by
    rw [← List.map_eq_nil_iff, h.map_fst, List.map_eq_nil_iff]
  constructor
  · obtain ⟨mask_ne, legal, nodup, within, agree, _, default⟩ := ht
    refine .mk (fun hne => mask_ne fun htable => hne (hnil.mpr htable)) legal ?_ ?_ ?_ ?_ default
    · rw [KeyedList.NodupKeys, h.map_fst]
      exact nodup
    all_goals
      intro k c' hmem
      obtain ⟨c, hc, hrouted, _⟩ := h.exists_of_mem_right hmem
    · exact within k c hc
    · exact agree k c hc
    · exact hrouted
  · intro w
    rw [InstrTable.walk_eq, InstrTable.walk_eq]
    simp only [hnil]
    have hfind := h.find (w &&& t.mask)
    rw [show InstrTable.find { t with table := l } (w &&& t.mask) =
      KeyedList.find (w &&& t.mask) l from rfl, InstrTable.find]
    generalize KeyedList.find (w &&& t.mask) t.table = c, KeyedList.find (w &&& t.mask) l = c'
      at hfind
    cases hfind with
    | some hR => simp only [hR.2 w]
    | none => rfl

end Routed

namespace InstrTable

variable {t t' : InstrTable W} {fuel : ℕ}

/-- A node is left alone, or it is folded and then its cases are simplified. -/
theorem finalize_succ_eq_ok : t.finalize (fuel + 1) = .ok t' ↔
    (t.mask = 0 ∧ t' = t) ∨
      t.mask ≠ 0 ∧ ∃ t₁ l, t.mergeRedundant fuel = .ok t₁ ∧ legalMask t₁.mask = true ∧
        KeyedList.Rel (fun _ c c' => c.finalize fuel = .ok c') t₁.table l ∧
        t' = { t₁ with table := l } := by
  rw [finalize]
  split_ifs with hmask
  · constructor
    · intro h
      cases h
      exact .inl ⟨hmask, rfl⟩
    · rintro (⟨_, rfl⟩ | ⟨hne, _⟩)
      · rfl
      · exact absurd hmask hne
  have hmapM {cases cases' : List (BitVec W × InstrTable W)} :
      (cases.mapM fun i => do
        let c ← finalize fuel i.2
        return (i.1, c) : Result W _) = .ok cases' ↔
      KeyedList.Rel (fun _ c c' => c.finalize fuel = .ok c') cases cases' := by
    rw [mapM_eq_ok, KeyedList.Rel]
    refine iff_of_eq (congrArg (fun R => List.Forall₂ R cases cases') ?_)
    ext ⟨k, c⟩ ⟨k', c'⟩
    rw [bind_eq_ok]
    constructor
    · rintro ⟨c'', hc, heq⟩
      cases heq
      exact ⟨rfl, hc⟩
    · rintro ⟨rfl, hc⟩
      exact ⟨c', hc, rfl⟩
  constructor
  · intro h
    obtain ⟨t₁, hmerge, h⟩ := bind_eq_ok.mp h
    simp only at h
    split_ifs at h with hlegal
    · cases h
    obtain ⟨l, hl, heq⟩ := bind_eq_ok.mp h
    cases heq
    exact .inr ⟨hmask, t₁, l, hmerge, by simpa using hlegal, hmapM.mp hl, rfl⟩
  · rintro (⟨hzero, _⟩ | ⟨_, t₁, l, hmerge, hlegal, hl, rfl⟩)
    · exact absurd hzero hmask
    refine bind_eq_ok.mpr ⟨t₁, hmerge, ?_⟩
    simp only [hlegal, Bool.not_true, Bool.false_eq_true, if_false]
    exact bind_eq_ok.mpr ⟨l, hmapM.mpr hl, rfl⟩

end InstrTable

namespace Routed

variable {pm pv : BitVec W} {t : InstrTable W} {fuel : ℕ}

/-- Simplification keeps the routes of a tree and the meaning of every word. -/
theorem finalize {t' : InstrTable W} (ht : Routed pm pv t) (hv : Within pv pm)
    (h : t.finalize fuel = .ok t') : Routed pm pv t' ∧ ∀ w, t'.walk w = t.walk w := by
  induction fuel generalizing t t' pm pv with
  | zero => cases h
  | succ fuel ih =>
    rcases InstrTable.finalize_succ_eq_ok.mp h with ⟨_, rfl⟩ | ⟨_, t₁, l, hmerge, _, hcases, rfl⟩
    · exact ⟨ht, fun _ => rfl⟩
    obtain ⟨ht₁, hwalk⟩ := ht.mergeRedundant hv hmerge
    have hcases' := hcases.imp_mem (S := fun k c c' =>
        Routed (pm ||| t₁.mask) (pv ||| k) c' ∧ ∀ w, c'.walk w = c.walk w) fun k c c' hmem hc => by
      obtain ⟨_, _, _, within, _, cases, _⟩ := ht₁
      refine ih (cases k c hmem) ?_ hc
      exact (hv.trans (Within.or_left _ _)).or ((within k c hmem).trans (Within.or_right _ _))
    obtain ⟨ht', hwalk'⟩ := ht₁.replaceCases hcases'
    exact ⟨ht', fun w => (hwalk' w).trans (hwalk w)⟩

theorem exists_finalize (ht : Routed pm pv t) (hv : Within pv pm) (hfuel : t.height ≤ fuel) :
    ∃ t', t.finalize fuel = .ok t' := by
  induction fuel generalizing t pm pv with
  | zero => exact absurd t.height_pos (by omega)
  | succ fuel ih =>
    simp only [InstrTable.finalize_succ_eq_ok]
    by_cases hmask : t.mask = 0
    · exact ⟨t, .inl ⟨hmask, rfl⟩⟩
    obtain ⟨t₁, hmerge, hheight⟩ := exists_mergeRedundant hfuel
    obtain ⟨_, legal, _, within, _, cases, _⟩ := (ht.mergeRedundant hv hmerge).1
    obtain ⟨l, hl⟩ := KeyedList.Rel.exists_right (l := t₁.table)
      (R := fun _ c c' => InstrTable.finalize fuel c = .ok c') fun k c hmem =>
        ih (cases k c hmem)
          ((hv.trans (Within.or_left _ _)).or ((within k c hmem).trans (Within.or_right _ _)))
          (InstrTable.height_le_succ_iff.mp hheight k c hmem)
    exact ⟨_, .inr ⟨hmask, t₁, l, hmerge, legal, hl, rfl⟩⟩

end Routed

section Finished

variable {n fuel bound : ℕ} {instrs : List (Instr (32 * n))} {t : InstrTable (32 * n)}
  (hids : (instrs.map Instr.id).Nodup) (hbuilt : addInstrs fuel {} instrs = .ok t)
include hids hbuilt

theorem finished_decode_eq_walk {t' : InstrTable (32 * n)} (hfinal : t.finalize bound = .ok t')
    (w : BitVec (32 * n)) : t'.decode (fetchWord w) = t.walk w := by
  have ht : Routed 0 0 t := addInstrs_routed (Nat.dvd_mul_right 32 n) hids Routed.empty hbuilt
  obtain ⟨ht', hwalk⟩ := ht.finalize (Within.refl _) hfinal
  rw [InstrTable.decode_eq_walk ht'.wellMasked, hwalk]

/-- Once a table is built, its simplification terminates, and the decoder generated from the
simplified tree finds the same instruction for every word as the one from the built tree. -/
theorem finalize_decode_eq (hbound : t.height ≤ bound) :
    ∃ t', t.finalize bound = .ok t' ∧
      ∀ w, t'.decode (fetchWord w) = t.decode (fetchWord w) ∧ t'.walk w = t.walk w := by
  have ht : Routed 0 0 t := addInstrs_routed (Nat.dvd_mul_right 32 n) hids Routed.empty hbuilt
  obtain ⟨t', hok⟩ := ht.exists_finalize (Within.refl _) hbound
  refine ⟨t', hok, fun w => ⟨?_, (ht.finalize (Within.refl _) hok).2 w⟩⟩
  rw [finished_decode_eq_walk hids hbuilt hok, InstrTable.decode_eq_walk ht.wellMasked]

end Finished

/-- Three one-word instructions with nested masks: a general form, and two special cases of it
that differ in their second digit. -/
def nestedInstrs : List (Instr 32) :=
  [{ id := 0, name := "c", width := 32, opcMask := 0xF0000000, opcode := 0xA0000000,
     opcode_within := by decide },
   { id := 1, name := "b", width := 32, opcMask := 0xFF000000, opcode := 0xA1000000,
     opcode_within := by decide },
   { id := 2, name := "a", width := 32, opcMask := 0xFFF00000, opcode := 0xA2300000,
     opcode_within := by decide }]

theorem nestedInstrs_accepted : ∃ t, addInstrs 4 {} nestedInstrs = .ok t := by
  cases h : addInstrs 4 {} nestedInstrs with
  | ok t => exact ⟨t, rfl⟩
  | error e =>
    have : (addInstrs 4 {} nestedInstrs).isOk = true := by decide +kernel
    rw [h] at this
    cases this

theorem finalize_nestedInstrs :
    ∃ t, addInstrs 4 {} nestedInstrs = .ok t ∧
      ∃ t', t.finalize t.height = .ok t' ∧
        ∀ w, t'.decode (fetchWord w) = t.decode (fetchWord w) ∧ t'.walk w = t.walk w := by
  obtain ⟨t, ht⟩ := nestedInstrs_accepted
  exact ⟨t, ht, finalize_decode_eq (n := 1) (by decide) ht le_rfl⟩

end Adl.Decode
