import Adl.Decode.Groups

/-!
# Outcomes of the construction

What each method that builds a decode table has done when it returns without an error. The
invariants of built trees are proved from these case analyses, not from the methods.
-/

namespace Adl.Decode

open Adl.Math

variable {W : ℕ} {build : Builder W} {used usedConflict mask : BitVec W}
  {t t' : InstrTable W} {instrs : List (Instr W)} {done : Bool}

/-! ### Agreement under a mask -/

def Agree (mask : BitVec W) (instrs : List (Instr W)) : Prop :=
  ∀ i ∈ instrs, ∀ j ∈ instrs, mask &&& i.opcode = mask &&& j.opcode

namespace Agree

variable {m n : BitVec W} {instrs' : List (Instr W)}

theorem zero : Agree 0 instrs := fun i _ j _ => by simp

theorem singleton (i : Instr W) : Agree m [i] := by
  rintro _ hi _ hj
  rw [List.mem_singleton.mp hi, List.mem_singleton.mp hj]

theorem subset (h : Agree m instrs) (hsub : ∀ i ∈ instrs', i ∈ instrs) : Agree m instrs' :=
  fun i hi j hj => h i (hsub i hi) j (hsub j hj)

theorem or (hm : Agree m instrs) (hn : Agree n instrs) : Agree (m ||| n) instrs := by
  intro i hi j hj
  rw [BitVec.and_comm, BitVec.and_or_distrib_left, BitVec.and_comm _ m, BitVec.and_comm _ n,
    hm i hi j hj, hn i hi j hj, BitVec.and_comm m, BitVec.and_comm n,
    ← BitVec.and_or_distrib_left, BitVec.and_comm]

theorem iff_forall_bit : Agree m instrs ↔
    ∀ b, m.getLsbD b = true → ∀ i ∈ instrs, ∀ j ∈ instrs,
      i.opcode.getLsbD b = j.opcode.getLsbD b := by
  simp only [Agree, eq_iff_getLsbD, BitVec.getLsbD_and]
  constructor
  · intro h b hb i hi j hj
    simpa [hb] using h i hi j hj b
  · intro h i hi j hj b
    cases hb : m.getLsbD b with
    | false => rfl
    | true => simp [h b hb i hi j hj]

theorem mono (h : Agree n instrs) (hmn : Within m n) : Agree m instrs :=
  iff_forall_bit.mpr fun b hb => iff_forall_bit.mp h b (within_iff.mp hmn b hb)

/-- Agreement on the used bits and on the bits left of the common opcode. -/
theorem of_xor (hm : Agree m instrs) (hxor : Agree (m ^^^ n) instrs) : Agree n instrs := by
  refine iff_forall_bit.mpr fun b hb => ?_
  cases hmb : m.getLsbD b with
  | false => exact iff_forall_bit.mp hxor b (by simp [hmb, hb])
  | true => exact iff_forall_bit.mp hm b hmb

theorem of_wordParts (hW : 32 ∣ W) (h : ∀ k < W / 32, Agree (wordPart m k) instrs) :
    Agree m instrs := by
  refine iff_forall_bit.mpr fun b hb => ?_
  have hbW : b < W := BitVec.lt_of_getLsbD hb
  refine iff_forall_bit.mp (h ((W - 1 - b) / 32) (by omega)) b ?_
  rw [getLsbD_wordPart, decide_eq_true (by omega : W - 32 * ((W - 1 - b) / 32 + 1) ≤ b),
    decide_eq_true (by omega : b < W - 32 * ((W - 1 - b) / 32)), hb]
  rfl

end Agree

/-! ### Outcomes of the methods -/

/-- A lone instruction is finished, ends with the branch built here, or continues below it. -/
theorem buildSingle_outcome {instr : Instr W}
    (h : buildSingle build t instr mask used usedConflict = .ok (t', done)) :
    done = true ∧
      ((mask = 0 ∧ t' = t) ∨
        mask ≠ 0 ∧ ∃ t₁, t.setMask mask = .ok t₁ ∧
          (((t₁.mask ||| used) ^^^ instr.opcMask = 0 ∧
              t' = t₁.addNode (mask &&& instr.opcode)) ∨
            ∃ d, buildChild build (t₁.addNode (mask &&& instr.opcode)) (mask &&& instr.opcode)
              [instr] (t₁.mask ||| used) usedConflict = .ok (t', d))) := by
  unfold buildSingle at h
  split_ifs at h with hmask
  · cases h
    exact ⟨rfl, .inl ⟨hmask, rfl⟩⟩
  obtain ⟨t₁, hset, h⟩ := bind_eq_ok.mp h
  simp only [getCommonOpc_singleton] at h
  split_ifs at h with hleft hexcess
  · cases h
    exact ⟨rfl, .inr ⟨hmask, t₁, hset, .inl ⟨hleft, rfl⟩⟩⟩
  · cases h
  · obtain ⟨⟨t₂, d⟩, hchild, heq⟩ := bind_eq_ok.mp h
    cases heq
    exact ⟨rfl, .inr ⟨hmask, t₁, hset, .inr ⟨d, hchild⟩⟩⟩

/-- A group that is not nested moves the node to the next word. The smallest mask of a nested
group gives the next branch, or its instruction is left for this node. -/
theorem constructTreeFromInstrs_outcome {atEnd : Bool}
    (h : constructTreeFromInstrs build t instrs used usedConflict atEnd = .ok (t', done)) :
    (¬ (sortByMask instrs).IsChain Nested ∧ done = false ∧ t' = { t with word := t.word + 1 }) ∨
      ((sortByMask instrs).IsChain Nested ∧ done = true ∧
        ((sortByMask instrs = [] ∧ t' = t) ∨
          ∃ init last, sortByMask instrs = init ++ [last] ∧
            ((∃ mask t₁ d, splitMask (used ^^^ last.opcMask) 0 = mask ∧ mask ≠ 0 ∧
                t.setMask mask = .ok t₁ ∧
                buildChild build (t₁.addNode (mask &&& last.opcode)) (mask &&& last.opcode)
                  (sortByMask instrs) (t₁.mask ||| used) usedConflict = .ok (t', d)) ∨
              (splitMask (used ^^^ last.opcMask) 0 = 0 ∧
                ∃ d, build t init used usedConflict = .ok (t', d))))) := by
  obtain ⟨b, hcheck, h⟩ := bind_eq_ok.mp h
  cases b with
  | false =>
    cases h
    refine .inl ⟨fun hnested => ?_, rfl, rfl⟩
    rw [checkOverlap_eq_ok_true_iff.mpr hnested] at hcheck
    cases hcheck
  | true =>
    refine .inr ⟨checkOverlap_eq_ok_true_iff.mp hcheck, ?_⟩
    rcases List.eq_nil_or_concat' (sortByMask instrs) with hnil | ⟨init, last, hlast⟩
    · simp only [hnil, Bool.not_true, Bool.false_eq_true, if_false, List.getLast?_nil] at h
      cases h
      exact ⟨rfl, .inl ⟨hnil, rfl⟩⟩
    · simp only [hlast, Bool.not_true, Bool.false_eq_true, if_false, List.getLast?_concat,
        List.dropLast_concat, ← BitVec.and_assoc, BitVec.and_self] at h
      rw [hlast]
      split_ifs at h with hmask
      · obtain ⟨t₁, hset, h⟩ := bind_eq_ok.mp h
        obtain ⟨⟨t₂, d⟩, hchild, heq⟩ := bind_eq_ok.mp h
        cases heq
        exact ⟨rfl, .inr ⟨init, last, rfl, .inl ⟨_, t₁, d, rfl, hmask, hset, hchild⟩⟩⟩
      · obtain ⟨⟨t₂, d⟩, hbuild, heq⟩ := bind_eq_ok.mp h
        cases heq
        exact ⟨rfl, .inr ⟨init, last, rfl, .inr ⟨not_not.mp hmask, d, hbuild⟩⟩⟩

theorem scanConflicts_spec (l : List (Instr W)) {common conflict c f : BitVec W}
    {allowed a : Bool} (hdisj : conflict &&& common = 0)
    (h : scanConflicts l (common, conflict, allowed) = (c, f, a)) :
    Within c common ∧ f &&& c = 0 ∧ (2 ≤ l.length → ∀ i ∈ l, Within c i.opcMask) ∧
      (a = true → allowed = true ∨ ∃ i ∈ l, i.allowConflict = true) := by
  induction l generalizing common conflict allowed with
  | nil =>
    cases h
    exact ⟨Within.refl _, hdisj, by simp, .inl⟩
  | cons i rest ih =>
    cases rest with
    | nil =>
      cases h
      exact ⟨Within.refl _, hdisj, by simp, .inl⟩
    | cons j rest =>
      rw [scanConflicts] at h
      obtain ⟨hc, hf, hall, ha⟩ := ih (by
        -- a conflict chosen here avoids the common bits, an old one avoids even more
        rw [and_eq_zero_iff] at hdisj ⊢
        intro b
        have := hdisj b
        split_ifs <;> simp only [BitVec.getLsbD_and, BitVec.getLsbD_not] <;> grind) h
      have hi : Within c i.opcMask :=
        hc.trans ((Within.and_left _ _).trans (Within.and_right _ _))
      have hj : Within c j.opcMask := hc.trans (Within.and_right _ _)
      refine ⟨hc.trans ((Within.and_left _ _).trans (Within.and_left _ _)), hf, ?_, ?_⟩
      · rintro _ k hk
        rcases List.mem_cons.mp hk with rfl | hk
        · exact hi
        · cases rest with
          | nil => rwa [List.mem_singleton.mp hk]
          | cons => exact hall (by simp) k hk
      · intro hat
        rcases ha hat with hor | ⟨k, hk, hka⟩
        · rcases Bool.or_eq_true_iff.mp hor with h | h
          · exact .inl h
          · exact .inr ⟨i, List.mem_cons_self, h⟩
        · exact .inr ⟨k, List.mem_cons_of_mem _ hk, hka⟩

/-- Partitioning needs an instruction that allows conflicts. It adds a branch for a part of
the common opcode and divides the group below it. -/
theorem tryConflictPartitioning_outcome
    (h : tryConflictPartitioning build t instrs used usedConflict = .ok (t', done)) :
    (∃ i ∈ instrs, i.allowConflict = true) ∧
      ∃ grp1 grp2 conflict mask last t₁ node, grp1.Sublist instrs ∧ grp2.Sublist instrs ∧
        conflict ≠ 0 ∧ last ∈ instrs ∧ mask ≠ 0 ∧ Within mask (getCommonOpc instrs) ∧
        t.setMask mask = .ok t₁ ∧
        tryConflictPartitioning.overWords build grp1 grp2 conflict (used ||| mask)
          (usedConflict ||| mask) (W / 32) 0
          (((t₁.addNode (mask &&& last.opcode)).find (mask &&& last.opcode)).getD {}) =
            .ok (node, done) ∧
        t' = (t₁.addNode (mask &&& last.opcode)).setChild (mask &&& last.opcode) node := by
  unfold tryConflictPartitioning at h
  rcases hscan : scanConflicts instrs (BitVec.allOnes W, 0, false) with
    ⟨common, conflict, allowed⟩
  rw [hscan] at h
  simp only at h
  -- the ways to give up are those without a result
  split at h
  next => cases h
  next hlen =>
  split at h
  next => cases h
  next hallow =>
  split at h
  next => split at h <;> cases h
  next hcommon =>
  split at h
  next last _ _ hlast hgrp2 =>
    obtain ⟨t₁, hset, h⟩ := bind_eq_ok.mp h
    obtain ⟨⟨node, d⟩, hover, heq⟩ := bind_eq_ok.mp h
    cases heq
    obtain ⟨_, hdisj, hall, hallowed⟩ := scanConflicts_spec instrs (by simp) hscan
    simp only [Bool.not_eq_true', not_or, Bool.not_eq_false] at hallow
    have hmask : splitMask common t.word &&& (common &&& last.opcode) =
        splitMask common t.word &&& last.opcode := by
      rw [← BitVec.and_assoc, splitMask_within]
    rw [hmask, and_not_eq_self hdisj] at hover
    rw [hmask]
    refine ⟨(hallowed hallow.1).resolve_left nofun, _, _, conflict, _, last, t₁, node,
      List.filter_sublist, List.filter_sublist, hallow.2, ?_, ?_, ?_, hset, hover, rfl⟩
    · exact (List.mem_filter.mp (List.mem_of_getLast? hlast)).1
    · exact fun hz => hcommon (splitMask_eq_zero_iff.mp hz)
    · exact (splitMask_within _ _).trans (within_getCommonOpc.mpr (hall (by omega)))
  next => cases h

/-- The ways a pass over the encoding words can end or go on at a node. The next part of the
common opcode is `mask`; `next` is the rest of the pass. -/
inductive PassOutcome (build : Builder W) (instrs : List (Instr W))
    (used usedConflict mask : BitVec W) (allowConflict : Bool)
    (next : InstrTable W → Result W (InstrTable W × Option Bool)) (t : InstrTable W) :
    InstrTable W → Option Bool → Prop
  | single {instr : Instr W} {t' : InstrTable W} {done : Bool} (hinstrs : instrs = [instr])
      (h : buildSingle build t instr mask used usedConflict = .ok (t', done)) :
      PassOutcome build instrs used usedConflict mask allowConflict next t t' (some done)
  | split {t' : InstrTable W} {done : Bool} (hlen : instrs.length ≠ 1)
      (hvalues : (getValues mask instrs).length ≠ 1)
      (h : addToTree build t (getValues mask instrs) instrs mask used usedConflict =
        .ok (t', done)) :
      PassOutcome build instrs used usedConflict mask allowConflict next t t' (some done)
  | conflicts {cmask : BitVec W} {t' : InstrTable W} {done : Bool}
      (hallow : allowConflict = true) (hcmask : cmask ≠ 0)
      (hwithin : Within cmask (getConflictMask instrs))
      (h : tryWithConflicts build t instrs cmask used usedConflict = .ok (t', done)) :
      PassOutcome build instrs used usedConflict mask allowConflict next t t' (some done)
  | partitioned {t' : InstrTable W} (hallow : allowConflict = true)
      (h : tryConflictPartitioning build t instrs used usedConflict = .ok (t', true)) :
      PassOutcome build instrs used usedConflict mask allowConflict next t t' (some true)
  | constructed {t₁ t' : InstrTable W} {atEnd : Bool} (hlen : instrs.length ≠ 1)
      (hagree : Agree mask instrs)
      (h₁ : allowConflict = false ∧ t₁ = t ∨ allowConflict = true ∧
        tryConflictPartitioning build t instrs used usedConflict = .ok (t₁, false))
      (h : constructTreeFromInstrs build t₁ instrs used usedConflict atEnd = .ok (t', true)) :
      PassOutcome build instrs used usedConflict mask allowConflict next t t' (some true)
  | skipped {t₁ t₂ t' : InstrTable W} {atEnd : Bool} {r : Option Bool}
      (hlen : instrs.length ≠ 1) (hagree : Agree mask instrs)
      (h₁ : allowConflict = false ∧ t₁ = t ∨ allowConflict = true ∧
        tryConflictPartitioning build t instrs used usedConflict = .ok (t₁, false))
      (h₂ : constructTreeFromInstrs build t₁ instrs used usedConflict atEnd = .ok (t₂, false))
      (h : next t₂ = .ok (t', r)) :
      PassOutcome build instrs used usedConflict mask allowConflict next t t' r

theorem overWords_outcome {allowConflict : Bool} {left : ℕ} {r : Option Bool}
    (h : overWords build instrs used usedConflict allowConflict (left + 1) t = .ok (t', r)) :
    PassOutcome build instrs used usedConflict
      (splitMask (used ^^^ getCommonOpc instrs) t.word) allowConflict
      (overWords build instrs used usedConflict allowConflict left) t t' r := by
  unfold overWords at h
  simp only at h
  split at h
  next instr =>
    obtain ⟨⟨t₁, d⟩, hsingle, heq⟩ := bind_eq_ok.mp h
    cases heq
    exact .single rfl hsingle
  -- many instructions: the common opcode bits of this word tell them apart, or they do not
  next hnot =>
  have hlen : instrs.length ≠ 1 := fun h => by
    obtain ⟨i, rfl⟩ := List.length_eq_one_iff.mp h
    exact hnot i rfl
  split at h
  next hvalues =>
    obtain ⟨⟨t₁, d⟩, htree, heq⟩ := bind_eq_ok.mp h
    cases heq
    exact .split hlen hvalues htree
  next hvalues =>
  have hagree : Agree (splitMask (used ^^^ getCommonOpc instrs) t.word) instrs :=
    fun i hi j hj => agree_of_getValues_length_one (not_not.mp hvalues) hi hj
  split at h
  next hc =>
    obtain ⟨⟨t₁, d⟩, hconf, heq⟩ := bind_eq_ok.mp h
    cases heq
    simp only [Bool.and_eq_true, decide_eq_true_eq] at hc
    exact .conflicts hc.1 hc.2 (Within.and_left _ _) hconf
  next hc =>
  cases allowConflict with
  | true =>
    obtain ⟨⟨t₁, d⟩, hpart, h⟩ := bind_eq_ok.mp h
    cases d with
    | true =>
      cases h
      exact .partitioned rfl hpart
    | false =>
      obtain ⟨⟨t₂, d⟩, hcons, h⟩ := bind_eq_ok.mp h
      cases d with
      | true =>
        cases h
        exact .constructed hlen hagree (.inr ⟨rfl, hpart⟩) hcons
      | false => exact .skipped hlen hagree (.inr ⟨rfl, hpart⟩) hcons h
  | false =>
    obtain ⟨_, heq, h⟩ := bind_eq_ok.mp h
    cases heq
    obtain ⟨⟨t₂, d⟩, hcons, h⟩ := bind_eq_ok.mp h
    cases d with
    | true =>
      cases h
      exact .constructed hlen hagree (.inl ⟨rfl, rfl⟩) hcons
    | false => exact .skipped hlen hagree (.inl ⟨rfl, rfl⟩) hcons h

/-- A first pass that can use no word leaves the node as it is. The instructions then agree
on their common opcode in all the words it has tried. -/
theorem overWords_none_agree {left : ℕ} (hleft : t.word + left ≤ W / 32)
    (h : overWords build instrs used usedConflict false left t = .ok (t', none)) :
    t' = { t with word := t.word + left } ∧
      ∀ k, t.word ≤ k → k < t.word + left →
        Agree (wordPart (used ^^^ getCommonOpc instrs) k) instrs := by
  induction left generalizing t with
  | zero =>
    cases h
    exact ⟨by cases t'; rfl, fun k hle hlt => absurd hlt (not_lt.mpr hle)⟩
  | succ left ih =>
    rcases overWords_outcome h with _ | _ | _ | _ | _ | ⟨_, hagree, ht₁, hcons, hnext⟩
    obtain ⟨_, rfl⟩ := ht₁.resolve_right (fun hc => Bool.false_ne_true hc.1)
    rcases constructTreeFromInstrs_outcome hcons with ⟨_, _, rfl⟩ | ⟨_, hdone, _⟩
    · obtain ⟨rfl, hrest⟩ := ih (by simpa using (by omega : _ + 1 + left ≤ _)) hnext
      refine ⟨by simp only [Nat.add_assoc, Nat.add_comm 1], fun k hle hlt => ?_⟩
      rcases hle.eq_or_lt with rfl | hlt'
      · exact hagree.mono (wordPart_within_splitMask (by omega))
      · exact hrest k hlt' (by simpa using (by omega : k < _ + 1 + left))
    · cases hdone

/-- `build_tree` returns what its first pass returns. If that could use no word, it returns
what the second pass does, or fails. -/
theorem buildStep_outcome
    (h : buildStep build t instrs used usedConflict = .ok (t', done)) :
    overWords build instrs used usedConflict false (W / 32) { t with word := 0 } =
        .ok (t', some done) ∨
      (∀ k < W / 32, Agree (wordPart (used ^^^ getCommonOpc instrs) k) instrs) ∧
        ∃ r, r.getD false = done ∧
          overWords build instrs used usedConflict true (W / 32) { t with word := 0 } =
            .ok (t', r) := by
  obtain ⟨⟨t₁, r₁⟩, hfirst, h⟩ := bind_eq_ok.mp h
  cases r₁ with
  | some d =>
    cases h
    exact .inl hfirst
  | none =>
    obtain ⟨rfl, hagree⟩ := overWords_none_agree (by simp) hfirst
    refine .inr ⟨fun k hk => hagree k (Nat.zero_le _) (by simpa using hk), ?_⟩
    obtain ⟨⟨t₂, r₂⟩, hsecond, h⟩ := bind_eq_ok.mp h
    cases r₂ with
    | some d =>
      cases h
      exact ⟨some _, rfl, hsecond⟩
    | none =>
      cases h
      exact ⟨none, rfl, hsecond⟩

end Adl.Decode
