import Adl.Decode.Groups
import Adl.Decode.Insert
import Adl.Decode.Outcomes
import Adl.Decode.Walk

/-!
# Routes through a decode tree

A tree is routed when the values of its cases are compatible along each path: the key of a case
agrees with the keys above it wherever the masks overlap. Masks overlap only in tables with
conflicts.
-/

namespace Adl.Decode

open Adl.Math

variable {W : ℕ}

/-- The keys of a tree below a path that has tested the bits `pm` and found the value `pv`. A
default table is reached by leaving the path, so it starts a new one. -/
inductive Routed : BitVec W → BitVec W → InstrTable W → Prop
  | mk {pm pv : BitVec W} {t : InstrTable W}
      (mask_ne : t.table ≠ [] → t.mask ≠ 0)
      (legal : legalMask t.mask = true)
      (nodup : KeyedList.NodupKeys t.table)
      (within : ∀ k c, (k, c) ∈ t.table → Within k t.mask)
      (agree : ∀ k c, (k, c) ∈ t.table → k &&& pm = pv &&& t.mask)
      (cases : ∀ k c, (k, c) ∈ t.table → Routed (pm ||| t.mask) (pv ||| k) c)
      (default : ∀ d, t.defaultTable = some d → Routed 0 0 d) : Routed pm pv t

namespace Routed

variable {pm pv mask key value : BitVec W} {t t' c : InstrTable W}

theorem wellMasked (h : Routed pm pv t) : t.WellMasked := by
  induction h with
  | mk mask_ne legal nodup within agree _ _ ihCases ihDefault =>
    exact .mk (fun hne => ⟨mask_ne hne, legal⟩) within ihCases ihDefault

theorem mask_ne (h : Routed pm pv t) (hne : t.table ≠ []) : t.mask ≠ 0 := by
  cases h with
  | mk mask_ne => exact mask_ne hne

theorem default (h : Routed pm pv t) {d : InstrTable W} (hd : t.defaultTable = some d) :
    Routed 0 0 d := by
  cases h with
  | mk _ _ _ _ _ _ default => exact default d hd

theorem legalMask_zero : legalMask (0 : BitVec W) = true := by
  simp [legalMask]

/-- A node without branches and default table is on every path. -/
theorem of_table_eq_nil (hlegal : legalMask t.mask = true) (htable : t.table = [])
    (hdefault : t.defaultTable = none) : Routed pm pv t := by
  refine .mk (fun h => absurd htable h) hlegal ?_ ?_ ?_ ?_ ?_
  · simp [htable, KeyedList.NodupKeys]
  · simp [htable]
  · simp [htable]
  · simp [htable]
  · simp [hdefault]

theorem empty : Routed pm pv ({} : InstrTable W) :=
  of_table_eq_nil legalMask_zero rfl rfl

theorem congr (h : Routed pm pv t) (hmask : t'.mask = t.mask) (htable : t'.table = t.table)
    (hdefault : t'.defaultTable = t.defaultTable) : Routed pm pv t' := by
  obtain ⟨mask_ne, legal, nodup, within, agree, cases, default⟩ := h
  refine .mk ?_ ?_ ?_ ?_ ?_ ?_ ?_ <;> simpa only [hmask, htable, hdefault]

theorem setWord (h : Routed pm pv t) (w : ℕ) : Routed pm pv { t with word := w } :=
  h.congr rfl rfl rfl

/-! ### Operations on one node -/

theorem find (h : Routed pm pv t) (hc : t.find key = some c) :
    Routed (pm ||| t.mask) (pv ||| key) c := by
  obtain ⟨_, _, _, _, _, cases, _⟩ := h
  exact cases key c (KeyedList.mem_of_find hc)

/-- The node a branch is built from: the child it already has, or an empty one. -/
theorem getChild (h : Routed pm pv t) (key : BitVec W) :
    Routed (pm ||| t.mask) (pv ||| key) ((t.find key).getD {}) := by
  cases hfind : t.find key with
  | none => exact empty
  | some c => exact h.find hfind

theorem setMask (h : Routed pm pv t) (hset : t.setMask mask = .ok t') :
    Routed pm pv t' ∧ t'.mask = mask ∧ t'.table = [] := by
  obtain ⟨mask_ne, _, _, _, _, _, default⟩ := h
  obtain ⟨hzero, hlegal, rfl⟩ := InstrTable.setMask_eq_ok.mp hset
  have htable : t.table = [] := by
    by_contra hne
    exact mask_ne hne hzero
  refine ⟨.mk (fun hne => absurd htable hne) hlegal ?_ ?_ ?_ ?_ default, rfl, htable⟩
  · simp [htable, KeyedList.NodupKeys]
  · simp [htable]
  · simp [htable]
  · simp [htable]

theorem insert (h : Routed pm pv t) (hne : t.mask ≠ 0) (hkey : Within key t.mask)
    (hagree : key &&& pm = pv &&& t.mask) (hc : Routed (pm ||| t.mask) (pv ||| key) c) :
    Routed pm pv { t with table := KeyedList.insert key c t.table } := by
  obtain ⟨_, legal, nodup, within, agree, cases, default⟩ := h
  refine .mk (fun _ => hne) legal (nodup.insert _ _) ?_ ?_ ?_ default
  all_goals
    intro k c' hmem
    rcases KeyedList.mem_insert hmem with heq | hold
  · cases heq
    exact hkey
  · exact within k c' hold
  · cases heq
    exact hagree
  · exact agree k c' hold
  · cases heq
    exact hc
  · exact cases k c' hold

theorem addNode (h : Routed pm pv t) (hne : t.mask ≠ 0)
    (hvalue : (t.mask &&& value) &&& pm = pv &&& t.mask) : Routed pm pv (t.addNode value) :=
  h.insert hne (Within.and_left _ _) hvalue empty

theorem setChild (h : Routed pm pv t) (hc : Routed (pm ||| t.mask) (pv ||| key) c) :
    Routed pm pv (t.setChild key c) := by
  obtain ⟨mask_ne, legal, nodup, within, agree, cases, default⟩ := h
  have hkeys : ∀ k c', (k, c') ∈ (t.setChild key c).table → ∃ c'', (k, c'') ∈ t.table := by
    intro k c' hmem
    have : k ∈ (KeyedList.replace key c t.table).map Prod.fst :=
      List.mem_map.mpr ⟨_, hmem, rfl⟩
    rw [KeyedList.map_fst_replace] at this
    obtain ⟨⟨_, c''⟩, hold, rfl⟩ := List.mem_map.mp this
    exact ⟨c'', hold⟩
  refine .mk ?_ legal (nodup.replace _ _) ?_ ?_ ?_ default
  · intro hne
    exact mask_ne fun htable => hne (KeyedList.replace_eq_nil.mpr htable)
  · intro k c' hmem
    obtain ⟨c'', hold⟩ := hkeys k c' hmem
    exact within k c'' hold
  · intro k c' hmem
    obtain ⟨c'', hold⟩ := hkeys k c' hmem
    exact agree k c'' hold
  · intro k c' hmem
    rcases KeyedList.mem_replace hmem with heq | hold
    · cases heq
      exact hc
    · exact cases k c' hold

theorem setDefault (h : Routed pm pv t) {d : InstrTable W} (hd : Routed 0 0 d) :
    Routed pm pv { t with defaultTable := some d } := by
  obtain ⟨mask_ne, legal, nodup, within, agree, cases, _⟩ := h
  refine .mk mask_ne legal nodup within agree cases ?_
  rintro d' hd'
  cases hd'
  exact hd

end Routed

/-- The instructions of a list agree with the value `pv` under the mask `pm`. -/
def OnPath (pm pv : BitVec W) (instrs : List (Instr W)) : Prop :=
  ∀ i ∈ instrs, i.opcode &&& pm = pv

namespace OnPath

variable {pm pv mask v : BitVec W} {instrs : List (Instr W)}

theorem subset {instrs' : List (Instr W)} (h : OnPath pm pv instrs)
    (hsub : ∀ i ∈ instrs', i ∈ instrs) : OnPath pm pv instrs' :=
  fun i hi => h i (hsub i hi)

theorem extend (h : OnPath pm pv instrs) (hv : OnPath mask v instrs) :
    OnPath (pm ||| mask) (pv ||| v) instrs := by
  intro i hi
  rw [← h i hi, ← hv i hi]
  exact BitVec.and_or_distrib_left

theorem agree (h : OnPath pm pv instrs) : Agree pm instrs := by
  intro i hi j hj
  rw [BitVec.and_comm, h i hi, BitVec.and_comm, h j hj]

theorem key_agree (h : OnPath pm pv instrs) {i : Instr W} (hi : i ∈ instrs) :
    (mask &&& i.opcode) &&& pm = pv &&& mask := by
  rw [BitVec.and_assoc, h i hi, BitVec.and_comm]

end OnPath

/-! ### Building -/

/-- A recursive call keeps the routes of the node it works on. -/
def Builder.Keeps (build : Builder W) : Prop :=
  ∀ t instrs used usedConflict t' done pm pv,
    build t instrs used usedConflict = .ok (t', done) → Routed pm pv t →
      OnPath pm pv instrs → Agree used instrs → (instrs.map Instr.id).Nodup → Routed pm pv t'

section Build

variable {build : Builder W} {pm pv used usedConflict mask key : BitVec W}
  {t t' : InstrTable W} {instrs : List (Instr W)} {done : Bool}

theorem buildChild_routed (hb : build.Keeps) (ht : Routed pm pv t)
    (hpath : OnPath pm pv instrs) (hkey : OnPath t.mask key instrs) (hused : Agree used instrs)
    (hids : (instrs.map Instr.id).Nodup)
    (h : buildChild build t key instrs used usedConflict = .ok (t', done)) :
    Routed pm pv t' ∧ t'.mask = t.mask := by
  obtain ⟨⟨child, d⟩, hchild, heq⟩ := bind_eq_ok.mp h
  cases heq
  exact ⟨ht.setChild (hb _ _ _ _ _ _ _ _ hchild (ht.getChild key) (hpath.extend hkey)
    hused hids), rfl⟩

private theorem addToTree_go_routed (hb : build.Keeps) (hpath : OnPath pm pv instrs)
    (hused : Agree used instrs) (hids : (instrs.map Instr.id).Nodup) (values : List (BitVec W))
    (hvalues : ∀ v ∈ values, ∃ i ∈ instrs, mask &&& i.opcode = v)
    (hmask : values ≠ [] → mask ≠ 0) {t : InstrTable W} (ht : Routed pm pv t)
    (htm : t.mask = mask)
    (h : addToTree.go build instrs used usedConflict t values = .ok (t', done)) :
    Routed pm pv t' := by
  induction values generalizing t with
  | nil =>
    cases h
    exact ht
  | cons v rest ih =>
    obtain ⟨⟨t₁, d⟩, hchild, hrest⟩ := bind_eq_ok.mp h
    obtain ⟨i, hi, hv⟩ := hvalues v List.mem_cons_self
    have hnode : Routed pm pv (t.addNode v) := by
      refine ht.addNode (htm ▸ hmask (List.cons_ne_nil _ _)) ?_
      rw [htm, ← hv, ← BitVec.and_assoc, BitVec.and_self]
      exact hpath.key_agree hi
    have hsub : ∀ j ∈ getCommonInstrs v (t.addNode v).mask instrs, j ∈ instrs :=
      fun j hj => (List.mem_filter.mp hj).1
    have hkey : OnPath (t.addNode v).mask v
        (getCommonInstrs v (t.addNode v).mask instrs) := by
      intro j hj
      have := (List.mem_filter.mp hj).2
      simp only [Bool.and_eq_true, beq_iff_eq] at this
      exact this.1
    obtain ⟨ht₁, hm₁⟩ := buildChild_routed hb hnode (hpath.subset hsub) hkey
      (hkey.agree.or (hused.subset hsub)) ((List.filter_sublist.map _).nodup hids) hchild
    cases d with
    | false =>
      cases hrest
      exact ht₁
    | true =>
      exact ih (fun w hw => hvalues w (List.mem_cons_of_mem _ hw))
        (fun _ => hmask (List.cons_ne_nil _ _)) ht₁ (hm₁.trans htm) hrest

theorem addToTree_routed (hb : build.Keeps) (ht : Routed pm pv t) (hpath : OnPath pm pv instrs)
    (hused : Agree used instrs) (hids : (instrs.map Instr.id).Nodup)
      (hmask : getValues mask instrs ≠ [] → mask ≠ 0)
    (h : addToTree build t (getValues mask instrs) instrs mask used usedConflict =
      .ok (t', done)) : Routed pm pv t' := by
  obtain ⟨t₁, hset, hgo⟩ := bind_eq_ok.mp h
  obtain ⟨ht₁, hm₁, _⟩ := ht.setMask hset
  exact addToTree_go_routed hb hpath hused hids _ (fun v hv => mem_getValues.mp hv) hmask
    ht₁ hm₁ hgo

/-- The default table starts a path of its own. -/
theorem addConflictSets_routed (hb : build.Keeps) (ht : Routed pm pv t)
    {normal conflict : List (Instr W)} {dc : Bool} (hnormal : normal.Sublist instrs)
    (hconflict : conflict.Sublist instrs) (hpath : OnPath pm pv instrs)
    (hused : Agree used instrs) (hids : (instrs.map Instr.id).Nodup) (hmask : mask ≠ 0)
    (h : addConflictSets build t normal conflict dc mask used usedConflict = .ok (t', done)) :
    Routed pm pv t' := by
  obtain ⟨⟨t₁, d⟩, htree, hrest⟩ := bind_eq_ok.mp h
  have ht₁ : Routed pm pv t₁ :=
    addToTree_routed hb ht (hpath.subset hnormal.subset) (hused.subset hnormal.subset)
      ((hnormal.map _).nodup hids) (fun _ => hmask) htree
  cases d with
  | false =>
    cases hrest
    exact ht₁
  | true =>
    obtain ⟨⟨dt, d'⟩, hdflt, heq⟩ := bind_eq_ok.mp hrest
    cases heq
    have hd : Routed 0 0 dt :=
      hb _ _ _ _ _ _ _ _ hdflt Routed.empty (fun i _ => by simp)
        (hused.subset hconflict.subset) ((hconflict.map _).nodup hids)
    exact (ht₁.setDefault hd).congr rfl rfl rfl

/-- A branch for a mask under which the whole group agrees. -/
theorem branch_routed (ht : Routed pm pv t) (hpath : OnPath pm pv instrs)
    (hagree : Agree mask instrs) {x : Instr W} (hx : x ∈ instrs) (hmask : mask ≠ 0)
    {t₁ : InstrTable W} (hset : t.setMask mask = .ok t₁) :
    Routed pm pv (t₁.addNode (mask &&& x.opcode)) ∧ t₁.mask = mask ∧
      OnPath mask (mask &&& x.opcode) instrs := by
  obtain ⟨ht₁, hm₁, _⟩ := ht.setMask hset
  refine ⟨ht₁.addNode (hm₁ ▸ hmask) ?_, hm₁, fun i hi => ?_⟩
  · rw [hm₁, ← BitVec.and_assoc, BitVec.and_self]
    exact hpath.key_agree hx
  · rw [BitVec.and_comm]
    exact hagree i hi x hx

theorem tryWithConflicts_routed (hb : build.Keeps) (ht : Routed pm pv t)
    (hpath : OnPath pm pv instrs) (hused : Agree used instrs)
    (hids : (instrs.map Instr.id).Nodup) (hmask : mask ≠ 0)
    (h : tryWithConflicts build t instrs mask used usedConflict = .ok (t', done)) :
    Routed pm pv t' :=
  addConflictSets_routed hb ht List.filter_sublist List.filter_sublist hpath hused hids hmask h

private theorem partitioning_overWords_routed (hb : build.Keeps) {grp1 grp2 : List (Instr W)}
    {conflict : BitVec W} (hgrp1 : grp1.Sublist instrs) (hgrp2 : grp2.Sublist instrs)
    (hpath : OnPath pm pv instrs) (hused : Agree used instrs)
    (hids : (instrs.map Instr.id).Nodup) (hconflict : conflict ≠ 0) (left w : ℕ)
    {node node' : InstrTable W} (hnode : Routed pm pv node)
    (h : tryConflictPartitioning.overWords build grp1 grp2 conflict used usedConflict left w
      node = .ok (node', done)) : Routed pm pv node' := by
  induction left generalizing w node with
  | zero =>
    cases h
    exact hnode
  | succ left ih =>
    obtain ⟨⟨node₁, d⟩, hsets, h⟩ := bind_eq_ok.mp h
    have hnode₁ : Routed pm pv node₁ :=
      addConflictSets_routed hb (hnode.setWord w) hgrp1 hgrp2 hpath hused hids
        (fun hz => hconflict (splitMask_eq_zero_iff.mp hz)) hsets
    cases d with
    | true =>
      cases h
      exact hnode₁
    | false => exact ih (w + 1) hnode₁ h

theorem tryConflictPartitioning_routed (hb : build.Keeps) (ht : Routed pm pv t)
    (hpath : OnPath pm pv instrs) (hused : Agree used instrs)
    (hcommon : Agree (getCommonOpc instrs) instrs) (hids : (instrs.map Instr.id).Nodup)
    (h : tryConflictPartitioning build t instrs used usedConflict = .ok (t', done)) :
    Routed pm pv t' := by
  obtain ⟨_, grp1, grp2, conflict, mask, last, t₁, node, hgrp1, hgrp2, hconflict, hlast, hmask,
    hwithin, hset, hover, rfl⟩ := tryConflictPartitioning_outcome h
  have hagree : Agree mask instrs := hcommon.mono hwithin
  obtain ⟨ht₁, hm₁, hkey⟩ := branch_routed ht hpath hagree hlast hmask hset
  subst hm₁
  exact ht₁.setChild (partitioning_overWords_routed hb hgrp1 hgrp2 (hpath.extend hkey)
    (hused.or hagree) hids hconflict (W / 32) 0 (ht₁.getChild _) hover)

theorem buildSingle_routed (hb : build.Keeps) {instr : Instr W} (ht : Routed pm pv t)
    (hpath : OnPath pm pv [instr])
    (h : buildSingle build t instr mask used usedConflict = .ok (t', done)) :
    Routed pm pv t' := by
  obtain ⟨_, ⟨_, rfl⟩ | ⟨hmask, t₁, hset, hrest⟩⟩ := buildSingle_outcome h
  · exact ht
  obtain ⟨ht₁, hm₁, hkey⟩ :=
    branch_routed ht hpath (Agree.singleton _) List.mem_cons_self hmask hset
  rcases hrest with ⟨_, rfl⟩ | ⟨d, hchild⟩
  · exact ht₁
  · subst hm₁
    exact (buildChild_routed hb ht₁ hpath hkey (Agree.singleton _) (by simp) hchild).1

/-- The smallest mask of a nested group is its common opcode, so the new branch is for bits
the group agrees on. -/
theorem constructTreeFromInstrs_routed (hb : build.Keeps) {atEnd : Bool} (ht : Routed pm pv t)
    (hpath : OnPath pm pv instrs) (hused : Agree used instrs)
    (hids : (instrs.map Instr.id).Nodup)
    (hfirst : (sortByMask instrs).IsChain Nested →
      Agree (splitMask (used ^^^ getCommonOpc instrs) 0) instrs)
    (h : constructTreeFromInstrs build t instrs used usedConflict atEnd = .ok (t', done)) :
    Routed pm pv t' := by
  have hperm := sortByMask_perm hids
  have hsorted : ∀ i ∈ sortByMask instrs, i ∈ instrs := fun i => hperm.mem_iff.mp
  rcases constructTreeFromInstrs_outcome h with ⟨_, _, rfl⟩ | ⟨hnested, _, hcases⟩
  · exact ht.setWord _
  rcases hcases with ⟨_, rfl⟩ | ⟨init, last, hlast, hcases⟩
  · exact ht
  have hmem : last ∈ sortByMask instrs := by simp [hlast]
  -- the masks are nested, and the last one is inside of all others
  have hcommon : getCommonOpc instrs = last.opcMask :=
    getCommonOpc_eq_of_least (hsorted _ hmem) fun i hi =>
      within_of_nested_concat (hlast ▸ hnested) (hlast ▸ hperm.mem_iff.mpr hi)
  rcases hcases with ⟨mask, t₁, d, hsplit, hmask, hset, hchild⟩ | ⟨_, d, hbuild⟩
  · have hagree : Agree mask instrs := by
      rw [← hsplit, ← hcommon]
      exact hfirst hnested
    obtain ⟨ht₁, hm₁, hkey⟩ := branch_routed ht hpath hagree (hsorted _ hmem) hmask hset
    subst hm₁
    exact (buildChild_routed hb ht₁ (hpath.subset hsorted) (hkey.subset hsorted)
      ((hagree.or hused).subset hsorted) ((hperm.map _).nodup_iff.mpr hids) hchild).1
  · have hsub : ∀ i ∈ init, i ∈ instrs := fun i hi => hsorted i (by simp [hlast, hi])
    have hids' : (init.map Instr.id).Nodup := by
      have := (hperm.map Instr.id).nodup_iff.mpr hids
      rw [hlast, List.map_append] at this
      exact this.of_append_left
    exact hb _ _ _ _ _ _ _ _ hbuild ht (hpath.subset hsub) (hused.subset hsub) hids'

/-- A pass over the words keeps the routes. Only the first word can reach a nested group, and
conflicts are looked at once the group is known to agree on its common opcode. -/
theorem overWords_routed (hb : build.Keeps) {allowConflict : Bool} {left : ℕ} {r : Option Bool}
    (ht : Routed pm pv t) (hpath : OnPath pm pv instrs) (hused : Agree used instrs)
    (hids : (instrs.map Instr.id).Nodup)
    (hcommon : allowConflict = true → Agree (getCommonOpc instrs) instrs)
    (hword : t.word = 0 ∨ ¬ (sortByMask instrs).IsChain Nested)
    (h : overWords build instrs used usedConflict allowConflict left t = .ok (t', r)) :
    Routed pm pv t' := by
  induction left generalizing t with
  | zero =>
    cases h
    exact ht
  | succ left ih =>
    -- a partitioning that was tried in vain may have left nodes behind
    have hpart {t₁ : InstrTable W} (h₁ : allowConflict = false ∧ t₁ = t ∨ allowConflict = true ∧
        tryConflictPartitioning build t instrs used usedConflict = .ok (t₁, false)) :
        Routed pm pv t₁ := by
      rcases h₁ with ⟨_, rfl⟩ | ⟨hallow, h₁⟩
      · exact ht
      · exact tryConflictPartitioning_routed hb ht hpath hused (hcommon hallow) hids h₁
    have hfirst (hagree : Agree (splitMask (used ^^^ getCommonOpc instrs) t.word) instrs)
        (hnested : (sortByMask instrs).IsChain Nested) :
        Agree (splitMask (used ^^^ getCommonOpc instrs) 0) instrs := by
      rwa [hword.resolve_right (not_not.mpr hnested)] at hagree
    cases overWords_outcome h with
    | single hinstrs hsingle =>
      subst hinstrs
      exact buildSingle_routed hb ht hpath hsingle
    | split _ hvalues hsplit =>
      refine addToTree_routed hb ht hpath hused hids (fun hne hmask => hvalues ?_) hsplit
      rw [hmask] at hne ⊢
      exact length_getValues_zero hne
    | conflicts _ hcmask _ hconf =>
      exact tryWithConflicts_routed hb ht hpath hused hids hcmask hconf
    | partitioned hallow hpart =>
      exact tryConflictPartitioning_routed hb ht hpath hused (hcommon hallow) hids hpart
    | constructed _ hagree h₁ hcons =>
      exact constructTreeFromInstrs_routed hb (hpart h₁) hpath hused hids (hfirst hagree) hcons
    | skipped _ hagree h₁ h₂ hnext =>
      refine ih ?_ ?_ hnext
      · exact constructTreeFromInstrs_routed hb (hpart h₁) hpath hused hids (hfirst hagree) h₂
      · rcases constructTreeFromInstrs_outcome h₂ with ⟨hnot, _⟩ | ⟨_, hdone, _⟩
        · exact .inr hnot
        · cases hdone

end Build

/-- One level of the construction keeps the routes if the recursive calls do. -/
theorem buildStep_keeps (hW : 32 ∣ W) {build : Builder W} (hb : build.Keeps) :
    (buildStep build).Keeps := by
  intro t instrs used usedConflict t' done pm pv h ht hpath hused hids
  rcases buildStep_outcome h with hfirst | ⟨hwords, r, _, hsecond⟩
  · exact overWords_routed hb (ht.setWord 0) hpath hused hids
      (fun hc => absurd hc Bool.false_ne_true) (.inl rfl) hfirst
  · -- the first pass has compared the opcodes in all words
    exact overWords_routed hb (ht.setWord 0) hpath hused hids
      (fun _ => hused.of_xor (Agree.of_wordParts hW hwords)) (.inl rfl) hsecond

theorem buildTree_keeps (hW : 32 ∣ W) (fuel : ℕ) : (buildTree (W := W) fuel).Keeps := by
  induction fuel with
  | zero => exact fun _ _ _ _ _ _ _ _ h => nomatch h
  | succ fuel ih => exact buildStep_keeps hW ih

/-! ### Filling -/

/-- An instruction is placed along its own opcode. -/
theorem addInstrInternal_routed {instr : Instr W} {t : InstrTable W} {usedBits pm pv : BitVec W}
    {t' : InstrTable W} (ht : Routed pm pv t) (hpath : instr.opcode &&& pm = pv)
    (h : addInstrInternal instr usedBits t = .ok t') : Routed pm pv t' := by
  induction t using InstrTable.induction generalizing usedBits pm pv t' with
  | node t ihcase ihdefault =>
    cases addInstrInternal_outcome h with
    | recorded => exact ht.congr rfl rfl rfl
    | placed => exact ht.congr rfl rfl rfl
    | intoDefault hd hadd =>
      exact ht.setDefault (ihdefault _ hd (ht.default hd) (by simp) hadd)
    | intoCase hne _ hfind hadd =>
      refine ht.setChild (ihcase _ _ (KeyedList.mem_of_find hfind) (ht.find hfind) ?_ hadd)
      rw [BitVec.and_or_distrib_left, hpath, BitVec.and_comm instr.opcode]
    | newCase hne _ hfind =>
      refine ht.insert (ht.mask_ne hne) (Within.and_left _ _) ?_ (Routed.empty.congr rfl rfl rfl)
      rw [BitVec.and_assoc, hpath, BitVec.and_comm]

theorem addInstrsInternal_routed {instrs : List (Instr W)} {t t' : InstrTable W}
    (ht : Routed 0 0 t) (h : addInstrsInternal instrs t = .ok t') : Routed 0 0 t' := by
  induction instrs generalizing t with
  | nil =>
    cases h
    exact ht
  | cons i rest ih =>
    obtain ⟨t₁, hadd, hrest⟩ := bind_eq_ok.mp h
    exact ih (addInstrInternal_routed ht (by simp) hadd) hrest

/-- Every tree that is built and filled without an error has consistent routes. -/
theorem addInstrs_routed (hW : 32 ∣ W) {fuel : ℕ} {t t' : InstrTable W}
    {instrs : List (Instr W)} (hids : (instrs.map Instr.id).Nodup) (ht : Routed 0 0 t)
    (h : addInstrs fuel t instrs = .ok t') : Routed 0 0 t' := by
  obtain ⟨⟨t₁, done⟩, hbuild, h⟩ := bind_eq_ok.mp h
  have ht₁ : Routed 0 0 t₁ :=
    buildTree_keeps hW fuel _ _ _ _ _ _ _ _ hbuild ht (fun i _ => by simp) Agree.zero
      ((List.filter_sublist.map _).nodup hids)
  cases done with
  | false =>
    cases h
    exact ht₁
  | true =>
    obtain ⟨t₂, hfirst, hsecond⟩ := bind_eq_ok.mp h
    exact addInstrsInternal_routed (addInstrsInternal_routed ht₁ hfirst) hsecond

end Adl.Decode
