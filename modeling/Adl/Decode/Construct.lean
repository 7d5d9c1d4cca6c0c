import Adl.Decode.Outcomes
import Adl.Decode.Shape

/-!
# Construction gives the shape

For instructions without conflicts and shorthands, `buildTree` either fails or produces a tree
of the right shape, and `addInstrs` then stores every instruction at its place in it.
-/

namespace Adl.Decode

open Adl.Math

variable {W : ℕ}

/-! ### Groups -/

/-- No shorthand, and nothing about the instruction allows conflicts. -/
structure Instr.Plain (i : Instr W) : Prop where
  shorthand : i.shorthand = false
  conflictMask : i.conflictMask = 0
  allowConflict : i.allowConflict = false

/-- A nonempty list of instructions that all contain the bits tested so far, with the values
found there. -/
structure Group (instrs : List (Instr W)) (used value : BitVec W) : Prop where
  ne_nil : instrs ≠ []
  plain : ∀ i ∈ instrs, i.Plain
  ids : (instrs.map Instr.id).Nodup
  within : ∀ i ∈ instrs, Within used i.opcMask
  agree : ∀ i ∈ instrs, used &&& i.opcode = value

namespace Group

variable {instrs l : List (Instr W)} {used value mask k : BitVec W}

theorem sublist (h : Group instrs used value) (hl : l.Sublist instrs) (hne : l ≠ []) :
    Group l used value where
  ne_nil := hne
  plain i hi := h.plain i (hl.subset hi)
  ids := (hl.map _).nodup h.ids
  within i hi := h.within i (hl.subset hi)
  agree i hi := h.agree i (hl.subset hi)

theorem perm (h : Group instrs used value) (hl : l.Perm instrs) : Group l used value where
  ne_nil hnil := h.ne_nil (by rw [hnil] at hl; exact hl.nil_eq.symm)
  plain i hi := h.plain i (hl.mem_iff.mp hi)
  ids := (hl.map _).nodup_iff.mpr h.ids
  within i hi := h.within i (hl.mem_iff.mp hi)
  agree i hi := h.agree i (hl.mem_iff.mp hi)

theorem extend (h : Group instrs used value) (hmask : ∀ i ∈ instrs, Within mask i.opcMask)
    (hk : ∀ i ∈ instrs, mask &&& i.opcode = k) :
    Group instrs (mask ||| used) (k ||| value) where
  ne_nil := h.ne_nil
  plain := h.plain
  ids := h.ids
  within i hi := (hmask i hi).or (h.within i hi)
  agree i hi := by
    rw [BitVec.and_comm, BitVec.and_or_distrib_left, BitVec.and_comm _ mask, hk i hi,
      BitVec.and_comm _ used, h.agree i hi]

theorem opcode_eq (h : Group instrs used value) {i : Instr W} (hi : i ∈ instrs)
    (hmask : i.opcMask = used) : i.opcode = value := by
  rw [← h.agree i hi, ← hmask, BitVec.and_comm]
  exact i.opcode_within.symm

/-- The bits a node tests are new and common to its group. -/
theorem splitMask_spec (h : Group instrs used value) (word : ℕ) :
    splitMask (used ^^^ getCommonOpc instrs) word &&& used = 0 ∧
      ∀ i ∈ instrs, Within (splitMask (used ^^^ getCommonOpc instrs) word) i.opcMask := by
  obtain ⟨hdisj, hwithin⟩ := splitMask_xor_spec (within_getCommonOpc.mpr h.within) word
  exact ⟨hdisj, within_getCommonOpc.mp hwithin⟩

end Group

/-! ### Nodes under construction -/

/-- A node as it is before anything is built. -/
structure InstrTable.Blank (t : InstrTable W) : Prop where
  mask : t.mask = 0
  table : t.table = []
  default : t.defaultTable = none
  instr : t.instr = none

theorem InstrTable.Blank.setWord {t : InstrTable W} (ht : t.Blank) (w : ℕ) :
    InstrTable.Blank { t with word := w } :=
  ⟨ht.mask, ht.table, ht.default, ht.instr⟩

/-- A node that tests the bits `m` and has some of the branches for the instructions of a
group: those for `keys`. -/
structure Branched (instrs : List (Instr W)) (used value m : BitVec W) (keys : Set (BitVec W))
    (t : InstrTable W) : Prop where
  mask : t.mask = m
  default : t.defaultTable = none
  instr : t.instr = none
  isSome : ∀ k, (t.find k).isSome = true ↔ k ∈ keys
  cases : ∀ k c, t.find k = some c →
    Shape ∅ {i | i ∈ instrs ∧ m &&& i.opcode = k} (m ||| used) (k ||| value) c

/-- The construction gives a tree of the right shape. The bits tested first are the first
common bits of the group, if the group is nested and has bits left. -/
def Builder.Shapes (build : Builder W) : Prop :=
  ∀ t instrs used usedConflict t' done value,
    build t instrs used usedConflict = .ok (t', done) → t.Blank → Group instrs used value →
      done = true ∧ Shape ∅ {i | i ∈ instrs} used value t' ∧
        ((sortByMask instrs).IsChain Nested → (∀ i ∈ instrs, i.opcMask ≠ used) →
          t'.mask = splitMask (used ^^^ getCommonOpc instrs) 0)

namespace Branched

variable {instrs l : List (Instr W)} {used usedConflict value m k : BitVec W}
  {keys : Set (BitVec W)} {t t' : InstrTable W} {build : Builder W} {done : Bool}

theorem start (ht : t.Blank) (hset : t.setMask m = .ok t') :
    Branched instrs used value m ∅ t' := by
  obtain ⟨_, _, rfl⟩ := InstrTable.setMask_eq_ok.mp hset
  have hfind (k : BitVec W) : InstrTable.find { t with mask := m } k = none := by
    rw [InstrTable.find, show ({ t with mask := m } : InstrTable W).table = [] from ht.table]
    rfl
  refine ⟨rfl, ht.default, ht.instr, fun k => ?_, fun k c hc => ?_⟩
  · simp [hfind]
  · rw [hfind] at hc
    cases hc

theorem find_addNode_self (h : Branched instrs used value m keys t) (hk : m &&& k = k)
    (hnew : k ∉ keys) : (t.addNode k).find k = some {} := by
  have hold : t.find k = none := by
    rw [← Option.not_isSome_iff_eq_none, h.isSome]
    exact hnew
  rw [InstrTable.find_addNode, h.mask, hk, if_pos rfl, hold]
  rfl

theorem add (h : Branched instrs used value m keys t) {c : InstrTable W}
    (hc : Shape ∅ {i | i ∈ instrs ∧ m &&& i.opcode = k} (m ||| used) (k ||| value) c)
    (hmask : t'.mask = t.mask) (hdefault : t'.defaultTable = t.defaultTable)
    (hinstr : t'.instr = t.instr)
    (hfind : ∀ k', t'.find k' = if k' = k then some c else t.find k') :
    Branched instrs used value m (insert k keys) t' := by
  refine ⟨hmask.trans h.mask, hdefault.trans h.default, hinstr.trans h.instr, fun k' => ?_,
    fun k' c' hc' => ?_⟩
  · rw [hfind, Set.mem_insert_iff]
    split_ifs with heq
    · simp [heq]
    · simp [heq, h.isSome]
  · rw [hfind] at hc'
    split_ifs at hc' with heq
    · cases hc'
      exact heq ▸ hc
    · exact h.cases k' c' hc'

theorem step (h : Branched instrs used value m keys t) (hb : build.Shapes) (hk : m &&& k = k)
    (hnew : k ∉ keys) (hl : ∀ i, i ∈ l ↔ i ∈ instrs ∧ m &&& i.opcode = k)
    (hgroup : Group l (m ||| used) (k ||| value))
    (hchild : buildChild build (t.addNode k) k l (m ||| used) usedConflict = .ok (t', done)) :
    done = true ∧ Branched instrs used value m (insert k keys) t' := by
  obtain ⟨⟨c, d⟩, hbuild, heq⟩ := bind_eq_ok.mp hchild
  cases heq
  rw [h.find_addNode_self hk hnew] at hbuild
  obtain ⟨hdone, hshape, _⟩ := hb _ _ _ _ _ _ _ hbuild ⟨rfl, rfl, rfl, rfl⟩ hgroup
  have hset : {i | i ∈ l} = {i | i ∈ instrs ∧ m &&& i.opcode = k} := Set.ext hl
  refine ⟨hdone, h.add (hset ▸ hshape) rfl rfl rfl fun k' => ?_⟩
  rw [InstrTable.find_setChild, h.find_addNode_self hk hnew, InstrTable.find_addNode, h.mask, hk]
  split_ifs <;> rfl

/-- A branch that is added and has nothing below it. -/
theorem addLeaf (h : Branched instrs used value m keys t) (hk : m &&& k = k) (hnew : k ∉ keys)
    {x : Instr W} (hl : ∀ i, i ∈ instrs ∧ m &&& i.opcode = k ↔ i = x)
    (hmask : x.opcMask = m ||| used) (hopcode : x.opcode = k ||| value) :
    Branched instrs used value m (insert k keys) (t.addNode k) := by
  refine h.add (c := {}) (.leaf hl hmask hopcode rfl rfl (by simp)) rfl rfl rfl fun k' => ?_
  have hself := h.find_addNode_self hk hnew
  rw [InstrTable.find_addNode, h.mask, hk, if_pos rfl] at hself
  rw [InstrTable.find_addNode, h.mask, hk, hself]

/-- With a branch for every value the node is complete. -/
theorem shape (h : Branched instrs used value m keys t) (hgroup : Group instrs used value)
    (hne : m ≠ 0) (hdisj : m &&& used = 0) (hmask : ∀ i ∈ instrs, Within m i.opcMask)
    (hkeys : ∀ k, k ∈ keys ↔ ∃ i ∈ instrs, m &&& i.opcode = k) :
    Shape ∅ {i | i ∈ instrs} used value t := by
  obtain ⟨rfl, default, instr, isSome, cases⟩ := h
  have hsome (k : BitVec W) : (t.find k).isSome = true ↔ ∃ i ∈ instrs, t.mask &&& i.opcode = k :=
    (isSome k).trans (hkeys k)
  refine .node {i | i ∈ instrs} none (fun j => by simp) hne hdisj (fun hnil => ?_)
    (fun i hi => (hmask i hi).or (hgroup.within i hi)) hgroup.agree nofun hsome cases default
    (fun j => by simp [instr]) nofun
  obtain ⟨i, _, hi⟩ := List.exists_cons_of_ne_nil hgroup.ne_nil
  have := (hsome _).mpr ⟨i, by simp [hi], rfl⟩
  simp [InstrTable.find, hnil] at this

end Branched

/-! ### The construction -/

section Build

variable {instrs : List (Instr W)} {used usedConflict value m : BitVec W} {t t' : InstrTable W}
  {build : Builder W} {done : Bool}

theorem Branched.whole (hgroup : Group instrs used value) (hne : m ≠ 0) (hdisj : m &&& used = 0)
    (hmask : ∀ i ∈ instrs, Within m i.opcMask) {x : Instr W} (hx : x ∈ instrs)
    (hagree : Agree m instrs)
    (h : Branched instrs used value m (insert (m &&& x.opcode) ∅) t') :
    Shape ∅ {i | i ∈ instrs} used value t' ∧ t'.mask = m := by
  refine ⟨h.shape hgroup hne hdisj hmask fun k => ?_, h.mask⟩
  rw [Set.mem_insert_iff, or_iff_left (Set.notMem_empty _)]
  constructor
  · rintro rfl
    exact ⟨x, hx, rfl⟩
  · rintro ⟨i, hi, rfl⟩
    exact hagree i hi x hx

/-- The only branch of a node is built from its whole group. -/
theorem Branched.stepWhole (hb : build.Shapes) (ht : t.Blank) (hgroup : Group instrs used value)
    (hmask : ∀ i ∈ instrs, Within m i.opcMask) {x : Instr W} (hx : x ∈ instrs)
    (hagree : Agree m instrs) {t₁ : InstrTable W} (hset : t.setMask m = .ok t₁)
    {l : List (Instr W)} (hl : l.Perm instrs)
    (hchild : buildChild build (t₁.addNode (m &&& x.opcode)) (m &&& x.opcode) l (t₁.mask ||| used)
      usedConflict = .ok (t', done)) :
    Branched instrs used value m (insert (m &&& x.opcode) ∅) t' := by
  have hstart : Branched instrs used value m ∅ t₁ := Branched.start ht hset
  rw [hstart.mask] at hchild
  have hext : Group l (m ||| used) (m &&& x.opcode ||| value) :=
    (hgroup.extend hmask fun i hi => hagree i hi x hx).perm hl
  have hmem (i : Instr W) : i ∈ l ↔ i ∈ instrs ∧ m &&& i.opcode = m &&& x.opcode := by
    rw [hl.mem_iff]
    exact (and_iff_left_of_imp fun hi => hagree i hi x hx).symm
  exact (hstart.step hb (by rw [← BitVec.and_assoc, BitVec.and_self]) (by simp) hmem hext
    hchild).2

theorem buildSingle_shape (hb : build.Shapes) (ht : t.Blank) {i : Instr W}
    (hgroup : Group [i] used value)
    (h : buildSingle build t i (splitMask (used ^^^ getCommonOpc [i]) 0) used usedConflict =
      .ok (t', done)) :
    done = true ∧ Shape ∅ {j | j ∈ [i]} used value t' ∧
      (i.opcMask ≠ used → t'.mask = splitMask (used ^^^ getCommonOpc [i]) 0) := by
  obtain ⟨hdisj, hmask⟩ := hgroup.splitMask_spec 0
  obtain ⟨hdone, ⟨hzero, rfl⟩ | ⟨hne, t₁, hset, hrest⟩⟩ := buildSingle_outcome h
  · -- no bit is left
    rw [splitMask_eq_zero_iff, getCommonOpc_singleton, xor_eq_zero_iff] at hzero
    exact ⟨hdone, .leaf (fun j => by simp) hzero.symm (hgroup.opcode_eq (by simp) hzero.symm)
      ht.table ht.default (fun j => by simp [ht.instr]), fun hne => absurd hzero.symm hne⟩
  refine ⟨hdone, ?_⟩
  generalize splitMask (used ^^^ getCommonOpc [i]) 0 = m at *
  have hagree : Agree m [i] := Agree.singleton i
  suffices hnode : Branched [i] used value m (insert (m &&& i.opcode) ∅) t' by
    obtain ⟨hshape, hm⟩ := hnode.whole hgroup hne hdisj hmask (by simp) hagree
    exact ⟨hshape, fun _ => hm⟩
  rcases hrest with ⟨hlast, rfl⟩ | ⟨d, hchild⟩
  · have hstart : Branched [i] used value m ∅ t₁ := Branched.start ht hset
    have hlast' : i.opcMask = m ||| used := by
      rw [hstart.mask, xor_eq_zero_iff] at hlast
      exact hlast.symm
    refine hstart.addLeaf (by rw [← BitVec.and_assoc, BitVec.and_self]) (by simp) (x := i)
      (fun j => ?_) hlast' ?_
    · simp only [List.mem_singleton]
      exact and_iff_left_of_imp fun hj => by rw [hj]
    · exact (hgroup.extend hmask fun j hj => hagree j hj i (by simp)).opcode_eq (by simp) hlast'
  · exact Branched.stepWhole hb ht hgroup hmask (by simp) hagree hset (List.Perm.refl _) hchild

/-- Every value of the group gets a branch. -/
private theorem addToTree_go_shape (hb : build.Shapes) (hgroup : Group instrs used value)
    (hmask : ∀ i ∈ instrs, Within m i.opcMask) (values : List (BitVec W)) (hnodup : values.Nodup)
    (hvalues : ∀ v ∈ values, ∃ i ∈ instrs, m &&& i.opcode = v) (keys : Set (BitVec W))
    (hkeys : ∀ v ∈ values, v ∉ keys) (ht : Branched instrs used value m keys t)
    (h : addToTree.go build instrs used usedConflict t values = .ok (t', done)) :
    done = true ∧ Branched instrs used value m (keys ∪ {v | v ∈ values}) t' := by
  induction values generalizing t keys with
  | nil =>
    cases h
    simpa using ht
  | cons v rest ih =>
    obtain ⟨⟨t₁, d⟩, hchild, hrest⟩ := bind_eq_ok.mp h
    rw [show (t.addNode v).mask = m from ht.mask] at hchild
    obtain ⟨x, hx, hv⟩ := hvalues v List.mem_cons_self
    have hl (i : Instr W) : i ∈ getCommonInstrs v m instrs ↔ i ∈ instrs ∧ m &&& i.opcode = v := by
      rw [getCommonInstrs, List.mem_filter]
      refine and_congr_right fun hi => ?_
      simp [(hgroup.plain i hi).shorthand, BitVec.and_comm]
    have hsub : Group (getCommonInstrs v m instrs) (m ||| used) (v ||| value) :=
      (hgroup.sublist List.filter_sublist
        (List.ne_nil_of_mem ((hl x).mpr ⟨hx, hv⟩))).extend
          (fun i hi => hmask i ((hl i).mp hi).1) fun i hi => ((hl i).mp hi).2
    obtain ⟨rfl, ht₁⟩ := ht.step hb (by rw [← hv, ← BitVec.and_assoc, BitVec.and_self])
      (hkeys v List.mem_cons_self) hl hsub hchild
    have hnew : ∀ u ∈ rest, u ∉ insert v keys := by
      intro u hu hmem
      rcases Set.mem_insert_iff.mp hmem with rfl | hmem
      · exact (List.nodup_cons.mp hnodup).1 hu
      · exact hkeys u (List.mem_cons_of_mem _ hu) hmem
    obtain ⟨hdone, ht'⟩ := ih (List.nodup_cons.mp hnodup).2
      (fun u hu => hvalues u (List.mem_cons_of_mem _ hu)) _ hnew ht₁ hrest
    have hset : insert v keys ∪ {u | u ∈ rest} = keys ∪ {u | u ∈ v :: rest} := by
      ext u
      simp only [Set.mem_union, Set.mem_insert_iff, Set.mem_ofPred_eq, List.mem_cons]
      tauto
    exact ⟨hdone, hset ▸ ht'⟩

theorem addToTree_shape (hb : build.Shapes) (ht : t.Blank) (hgroup : Group instrs used value)
    (hne : m ≠ 0) (hdisj : m &&& used = 0) (hmask : ∀ i ∈ instrs, Within m i.opcMask)
    (h : addToTree build t (getValues m instrs) instrs m used usedConflict = .ok (t', done)) :
    done = true ∧ Shape ∅ {i | i ∈ instrs} used value t' ∧ t'.mask = m := by
  obtain ⟨t₁, hset, hgo⟩ := bind_eq_ok.mp h
  obtain ⟨hdone, hall⟩ := addToTree_go_shape hb hgroup hmask _ (nodup_getValues m instrs)
    (fun v hv => mem_getValues.mp hv) ∅ (by simp) (Branched.start ht hset) hgo
  refine ⟨hdone, hall.shape hgroup hne hdisj hmask fun k => ?_, hall.mask⟩
  rw [Set.empty_union]
  exact mem_getValues

private theorem ne_of_nested_concat {init : List (Instr W)} {last : Instr W}
    (hnested : (init ++ [last]).IsChain Nested) (hgroup : Group (init ++ [last]) used value)
    (hlast : last.opcMask = used) {i : Instr W} (hi : i ∈ init) : i.opcMask ≠ used := by
  intro heq
  obtain ⟨rest, y, rfl⟩ : ∃ rest y, init = rest ++ [y] :=
    (List.eq_nil_or_concat' init).resolve_left (List.ne_nil_of_mem hi)
  have hy : Nested y last := by
    rw [List.append_assoc] at hnested
    exact (List.isChain_append.mp hnested).2.1.rel
  have hmask : y.opcMask = last.opcMask := by
    have hyi : Within y.opcMask i.opcMask :=
      within_of_nested_concat (List.isChain_append.mp hnested).1 hi
    rw [heq, ← hlast] at hyi
    exact hyi.antisymm hy.1
  refine hy.2 hmask ?_
  rw [hgroup.opcode_eq (by simp) (hmask.trans hlast), hgroup.opcode_eq (by simp) hlast]

private theorem Shape.addStop {init : List (Instr W)} {last : Instr W}
    (h : Shape ∅ {i | i ∈ init} used value t) (hstrict : ∀ i ∈ init, i.opcMask ≠ used)
    (hmask : t.mask = splitMask (used ^^^ getCommonOpc init) 0) (hlast : last.opcMask = used)
    (hvalue : last.opcode = value) (hinstrs : ∀ i, i ∈ instrs ↔ i ∈ init ∨ i = last) :
    Shape ∅ {i | i ∈ instrs} used value t := by
  cases h with
  | @leaf _ _ _ _ i set mask =>
    exact absurd mask (hstrict i ((set i).mpr rfl))
  | node R stop set mask_ne disjoint ne_nil within agree stops isSome cases default instr =>
    obtain rfl : stop = none := by
      by_contra hne
      obtain ⟨i, rfl⟩ := Option.ne_none_iff_exists'.mp hne
      exact hstrict i ((set i).mpr (.inr rfl)) (stops i rfl).1
    have hR (i : Instr W) : i ∈ init ↔ i ∈ R := by simpa using set i
    refine .node R (some last) (fun j => ?_) mask_ne disjoint ne_nil within agree ?_ isSome cases
      default (fun j => ?_) ?_
    · rw [Set.mem_ofPred_eq, hinstrs, hR, Option.some_inj, eq_comm (a := j)]
    · rintro i hi
      cases hi
      exact ⟨hlast, hvalue⟩
    · rw [instr j]
      simp
    · intro _ l hl
      rw [hmask, getCommonOpc_congr fun i => (hl i).trans (hR i).symm]

theorem constructTreeFromInstrs_shape (hb : build.Shapes) (ht : t.Blank)
    (hgroup : Group instrs used value) (hlen : instrs.length ≠ 1) {atEnd : Bool}
    (hagree : (sortByMask instrs).IsChain Nested →
      Agree (splitMask (used ^^^ getCommonOpc instrs) 0) instrs)
    (h : constructTreeFromInstrs build t instrs used usedConflict atEnd = .ok (t', true)) :
    Shape ∅ {i | i ∈ instrs} used value t' ∧
      ((∀ i ∈ instrs, i.opcMask ≠ used) →
        t'.mask = splitMask (used ^^^ getCommonOpc instrs) 0) := by
  have hperm := sortByMask_perm hgroup.ids
  obtain ⟨_, hdone, _⟩ | ⟨hnested, _, ⟨hnil, _⟩ | ⟨init, last, hlast, hcases⟩⟩ :=
    constructTreeFromInstrs_outcome h
  · cases hdone
  · exact absurd (hnil ▸ hperm).nil_eq.symm hgroup.ne_nil
  have hmem (i : Instr W) : i ∈ instrs ↔ i ∈ init ∨ i = last := by
    rw [← hperm.mem_iff, hlast]
    simp
  have hcommon : getCommonOpc instrs = last.opcMask :=
    getCommonOpc_eq_of_least ((hmem last).mpr (.inr rfl)) fun i hi =>
      within_of_nested_concat (hlast ▸ hnested) (hlast ▸ hperm.mem_iff.mpr hi)
  rcases hcases with ⟨m, t₁, d, hm, hne, hset, hchild⟩ | ⟨hzero, d, hbuild⟩
  · obtain ⟨hdisj, hmask⟩ := hgroup.splitMask_spec 0
    have hagree' := hagree hnested
    rw [hcommon, hm] at hdisj hmask hagree'
    have hx : last ∈ instrs := (hmem last).mpr (.inr rfl)
    obtain ⟨hshape, hm'⟩ := (Branched.stepWhole hb ht hgroup hmask hx hagree' hset hperm
      hchild).whole hgroup hne hdisj hmask hx hagree'
    exact ⟨hshape, fun _ => by rw [hm', hcommon, hm]⟩
  · rw [splitMask_eq_zero_iff, xor_eq_zero_iff] at hzero
    have hsorted : Group (init ++ [last]) used value := hgroup.perm (hlast ▸ hperm)
    have hinit : Group init used value := by
      refine hsorted.sublist (List.sublist_append_left _ _) fun hnil => hlen ?_
      rw [← hperm.length_eq, hlast, hnil]
      rfl
    have hstrict : ∀ i ∈ init, i.opcMask ≠ used := fun i hi =>
      ne_of_nested_concat (hlast ▸ hnested) hsorted hzero.symm hi
    obtain ⟨_, hshape, hm⟩ := hb _ _ _ _ _ _ _ hbuild ht hinit
    -- what is left of a nested group is nested, as its encodings differ
    have hnested' : (sortByMask init).IsChain Nested := by
      rw [hlast] at hnested
      exact sortByMask_nested hinit.ids (comparable_of_nested (List.isChain_append.mp hnested).1)
        fun i hi j hj hmask hopcode => hshape.injective hi hj hmask hopcode
    exact ⟨Shape.addStop hshape hstrict (hm hnested' hstrict) hzero.symm
      (hgroup.opcode_eq ((hmem last).mpr (.inr rfl)) hzero.symm) hmem,
      fun hall => absurd hzero.symm (hall last ((hmem last).mpr (.inr rfl)))⟩

private theorem not_tryConflictPartitioning (hgroup : Group instrs used value) :
    tryConflictPartitioning build t instrs used usedConflict ≠ .ok (t', done) := by
  intro h
  obtain ⟨⟨i, hi, hallow⟩, _⟩ := tryConflictPartitioning_outcome h
  rw [(hgroup.plain i hi).allowConflict] at hallow
  cases hallow

theorem Group.getConflictMask_eq_zero (hgroup : Group instrs used value) :
    getConflictMask instrs = 0 := by
  have hfold (l : List (Instr W)) (hl : ∀ i ∈ l, i.conflictMask = 0) :
      l.foldl (fun mask i => mask ||| i.conflictMask) 0 = 0 := by
    induction l with
    | nil => rfl
    | cons i rest ih =>
      rw [List.foldl_cons, hl i List.mem_cons_self]
      simpa using ih fun j hj => hl j (List.mem_cons_of_mem _ hj)
  rw [getConflictMask, hfold instrs fun i hi => (hgroup.plain i hi).conflictMask]
  simp

theorem overWords_shape (hb : build.Shapes) {allowConflict : Bool} {left : ℕ} {r : Option Bool}
    (ht : t.Blank) (hgroup : Group instrs used value)
    (hword : t.word = 0 ∨ ¬ (sortByMask instrs).IsChain Nested)
    (h : overWords build instrs used usedConflict allowConflict left t = .ok (t', r)) :
    (r = none → allowConflict = false ∨ left = 0) ∧
      ∀ done, r = some done → done = true ∧ Shape ∅ {i | i ∈ instrs} used value t' ∧
        ((sortByMask instrs).IsChain Nested → (∀ i ∈ instrs, i.opcMask ≠ used) →
          t'.mask = splitMask (used ^^^ getCommonOpc instrs) 0) := by
  induction left generalizing t with
  | zero =>
    cases h
    exact ⟨fun _ => .inr rfl, nofun⟩
  | succ left ih =>
    -- a group whose masks are nested is always finished at the first word
    have hfirst (hagree : Agree (splitMask (used ^^^ getCommonOpc instrs) t.word) instrs)
        (hnested : (sortByMask instrs).IsChain Nested) :
        Agree (splitMask (used ^^^ getCommonOpc instrs) 0) instrs := by
      rwa [hword.resolve_right (not_not.mpr hnested)] at hagree
    obtain ⟨hdisj, hmask⟩ := hgroup.splitMask_spec t.word
    cases overWords_outcome h with
    | single hinstrs hsingle =>
      subst hinstrs
      have hnested : (sortByMask [_]).IsChain Nested :=
        sortByMask_nested hgroup.ids (by simp [Within.refl]) (by simp)
      rw [hword.resolve_right (not_not.mpr hnested)] at hsingle
      obtain ⟨rfl, hshape, hm⟩ := buildSingle_shape hb ht hgroup hsingle
      refine ⟨nofun, fun done hdone => ?_⟩
      cases hdone
      exact ⟨rfl, hshape, fun _ hstrict => hm (hstrict _ List.mem_cons_self)⟩
    | split hlen hvalues hsplit =>
      have hne : splitMask (used ^^^ getCommonOpc instrs) t.word ≠ 0 := by
        intro hzero
        rw [hzero] at hvalues
        obtain ⟨i, _, hi⟩ := List.exists_cons_of_ne_nil hgroup.ne_nil
        exact hvalues (length_getValues_zero
          (List.ne_nil_of_mem (mem_getValues.mpr ⟨i, by simp [hi], rfl⟩)))
      obtain ⟨rfl, hshape, hm⟩ := addToTree_shape hb ht hgroup hne hdisj hmask hsplit
      refine ⟨nofun, fun done hdone => ?_⟩
      cases hdone
      refine ⟨rfl, hshape, fun hnested _ => ?_⟩
      rw [hm, hword.resolve_right (not_not.mpr hnested)]
    | conflicts _ hcmask hwithin _ =>
      -- plain instructions have no conflict mask and allow no conflicts
      rw [hgroup.getConflictMask_eq_zero] at hwithin
      exact absurd (within_zero_iff.mp hwithin) hcmask
    | partitioned _ hpart => exact absurd hpart (not_tryConflictPartitioning hgroup)
    | constructed hlen hagree h₁ hcons =>
      obtain ⟨_, rfl⟩ :=
        h₁.resolve_right fun hpart => not_tryConflictPartitioning hgroup hpart.2
      obtain ⟨hshape, hm⟩ :=
        constructTreeFromInstrs_shape hb ht hgroup hlen (hfirst hagree) hcons
      refine ⟨nofun, fun done hdone => ?_⟩
      cases hdone
      exact ⟨rfl, hshape, fun _ => hm⟩
    | skipped hlen hagree h₁ h₂ hnext =>
      obtain ⟨hfalse, rfl⟩ :=
        h₁.resolve_right fun hpart => not_tryConflictPartitioning hgroup hpart.2
      obtain ⟨hnot, _, rfl⟩ | ⟨_, hdone, _⟩ := constructTreeFromInstrs_outcome h₂
      · exact ⟨fun _ => .inl hfalse, (ih (ht.setWord _) (.inr hnot) hnext).2⟩
      · cases hdone

theorem buildStep_shapes (hW : 32 ≤ W) (hb : build.Shapes) : (buildStep build).Shapes := by
  intro t instrs used usedConflict t' done value h ht hgroup
  rcases buildStep_outcome h with hfirst | ⟨_, r, hr, hsecond⟩
  · exact (overWords_shape hb (ht.setWord 0) hgroup (.inl rfl) hfirst).2 done rfl
  · obtain ⟨hnone, hsome⟩ := overWords_shape hb (ht.setWord 0) hgroup (.inl rfl) hsecond
    cases r with
    | none =>
      rcases hnone rfl with hfalse | hzero
      · cases hfalse
      · omega
    | some d =>
      cases hr
      exact hsome _ rfl

theorem buildTree_shapes (hW : 32 ≤ W) (fuel : ℕ) : (buildTree (W := W) fuel).Shapes := by
  induction fuel with
  | zero => exact fun _ _ _ _ _ _ _ h => nomatch h
  | succ fuel ih => exact buildStep_shapes hW ih

end Build

/-! ### Filling -/

/-- An instruction of the tree is stored at its place. -/
theorem addInstrInternal_shape {P S : Set (Instr W)} {used value : BitVec W} {t t' : InstrTable W}
    {i : Instr W} {usedBits : BitVec W} (ht : Shape P S used value t) (hi : i ∈ S)
    (hplain : i.Plain) (h : addInstrInternal i usedBits t = .ok t') :
    Shape (insert i P) S used value t' := by
  induction ht generalizing usedBits t' with
  | @leaf S used value t j set mask opcode table default instr =>
    obtain rfl := (set i).mp hi
    cases addInstrInternal_outcome h with
    | recorded _ hshort => exact absurd (hplain.shorthand.symm.trans hshort) Bool.false_ne_true
    | placed =>
      refine .leaf set mask opcode table default fun j => ?_
      rw [Option.some_inj]
      exact ⟨fun heq => ⟨heq.symm, heq ▸ Set.mem_insert i P⟩, fun h => h.1.symm⟩
    | intoDefault hd => exact absurd (default.symm.trans hd) nofun
    | intoCase hne => exact absurd table hne
    | newCase hne => exact absurd table hne
  | @node S used value t R stop set mask_ne disjoint ne_nil within agree stops isSome cases
      default instr split ih =>
    -- the other branches do not have the instruction
    have hother {k : BitVec W} {c : InstrTable W} (hc : t.find k = some c)
        (hnot : ¬ (i ∈ R ∧ t.mask &&& i.opcode = k)) :
        Shape (insert i P) {i | i ∈ R ∧ t.mask &&& i.opcode = k} (t.mask ||| used) (k ||| value)
          c := by
      refine (cases k c hc).congr_placed fun j hj => ?_
      rw [Set.mem_insert_iff, or_iff_right]
      rintro rfl
      exact hnot hj
    cases addInstrInternal_outcome h with
    | recorded _ hshort => exact absurd (hplain.shorthand.symm.trans hshort) Bool.false_ne_true
    | placed hplace =>
      have hstop : i ∉ R ∧ stop = some i := by
        have hnot : i ∉ R := fun hR => mask_ne <|
          ((Within.or_left _ _).trans (within i hR)).symm.trans (hplace.resolve_left ne_nil)
        exact ⟨hnot, ((set i).mp hi).resolve_left hnot⟩
      refine .node R stop set mask_ne disjoint ne_nil within agree stops isSome
        (fun k c hc => hother hc fun hR => hstop.1 hR.1) default (fun j => ?_) split
      rw [hstop.2, Option.some_inj]
      exact ⟨fun heq => ⟨heq, heq ▸ Set.mem_insert i P⟩, fun h => h.1⟩
    | intoDefault hd => exact absurd (default.symm.trans hd) nofun
    | newCase _ hmask hfind =>
      have hR : i ∈ R := ((set i).mp hi).resolve_right fun hstop => hmask (by
        rw [(stops i hstop).1, disjoint])
      have := (isSome _).mpr ⟨i, hR, rfl⟩
      rw [hfind] at this
      cases this
    | @intoCase c c' _ hmask hfind hadd =>
      have hne_stop : stop ≠ some i := fun hstop => hmask (by rw [(stops i hstop).1, disjoint])
      have hR : i ∈ R := ((set i).mp hi).resolve_right hne_stop
      have hc' := ih _ c hfind ⟨hR, rfl⟩ hadd
      have hfind' (k : BitVec W) : (t.setChild (t.mask &&& i.opcode) c').find k =
          if k = t.mask &&& i.opcode then some c' else t.find k := by
        rw [InstrTable.find_setChild, hfind]
        rfl
      refine .node R stop set mask_ne disjoint (mt KeyedList.replace_eq_nil.mp ne_nil) within agree
        stops (fun k => ?_) (fun k c₁ hc₁ => ?_) default (fun j => ?_) split
      · rw [hfind']
        split_ifs with hk
        · exact iff_of_true rfl ⟨i, hR, hk.symm⟩
        · exact isSome k
      · rw [hfind'] at hc₁
        split_ifs at hc₁ with hk
        · cases hc₁
          exact hk ▸ hc'
        · exact hother hc₁ fun hi => hk hi.2.symm
      · refine (instr j).trans (and_congr_right fun hj => ?_)
        rw [Set.mem_insert_iff, or_iff_right]
        rintro rfl
        exact hne_stop hj

theorem addInstrsInternal_shape {P S : Set (Instr W)} {used value : BitVec W}
    {instrs : List (Instr W)} {t t' : InstrTable W} (ht : Shape P S used value t)
    (hS : ∀ i ∈ instrs, i ∈ S) (hplain : ∀ i ∈ instrs, i.Plain)
    (h : addInstrsInternal instrs t = .ok t') :
    Shape (P ∪ {i | i ∈ instrs}) S used value t' := by
  induction instrs generalizing t P with
  | nil =>
    cases h
    simpa using ht
  | cons i rest ih =>
    obtain ⟨t₁, hadd, hrest⟩ := bind_eq_ok.mp h
    have ht₁ := addInstrInternal_shape ht (hS i List.mem_cons_self)
      (hplain i List.mem_cons_self) hadd
    have hset : insert i P ∪ {j | j ∈ rest} = P ∪ {j | j ∈ i :: rest} := by
      ext j
      simp only [Set.mem_union, Set.mem_insert_iff, Set.mem_ofPred_eq, List.mem_cons]
      tauto
    exact hset ▸ ih ht₁ (fun j hj => hS j (List.mem_cons_of_mem _ hj))
      (fun j hj => hplain j (List.mem_cons_of_mem _ hj)) hrest

theorem addInstrs_shape (hW : 32 ≤ W) {fuel : ℕ} {instrs : List (Instr W)} {t : InstrTable W}
    (hne : instrs ≠ []) (hplain : ∀ i ∈ instrs, i.Plain) (hids : (instrs.map Instr.id).Nodup)
    (h : addInstrs fuel {} instrs = .ok t) :
    Shape {i | i ∈ instrs} {i | i ∈ instrs} 0 0 t := by
  have hinstructions : (instrs.filter fun i => !i.shorthand) = instrs :=
    List.filter_eq_self.mpr fun i hi => by simp [(hplain i hi).shorthand]
  have hshorthands : (instrs.filter fun i => i.shorthand && i.aliases.length == 1) = [] :=
    List.filter_eq_nil_iff.mpr fun i hi => by simp [(hplain i hi).shorthand]
  have hgroup : Group instrs 0 0 :=
    ⟨hne, hplain, hids, fun i _ => Within.zero _, fun i _ => by simp⟩
  unfold addInstrs at h
  rw [hinstructions, hshorthands] at h
  obtain ⟨⟨t₁, done⟩, hbuild, h⟩ := bind_eq_ok.mp h
  obtain ⟨rfl, ht₁, _⟩ :=
    buildTree_shapes hW fuel _ _ _ _ _ _ _ hbuild ⟨rfl, rfl, rfl, rfl⟩ hgroup
  obtain ⟨t₂, hadd, heq⟩ := bind_eq_ok.mp h
  cases heq
  simpa using addInstrsInternal_shape ht₁ (fun i hi => hi) hplain hadd

/-- The table of no instructions has no branches. -/
theorem addInstrs_nil (hW : 32 ≤ W) {fuel : ℕ} {t : InstrTable W}
    (h : addInstrs fuel {} ([] : List (Instr W)) = .ok t) : t.table = [] ∧ t.instr = none := by
  obtain ⟨⟨t₁, done⟩, hbuild, h⟩ := bind_eq_ok.mp h
  have ht : t₁ = t := by
    cases done with
    | true => exact Except.ok.inj h
    | false => exact Except.ok.inj h
  subst ht
  obtain ⟨left, hleft⟩ : ∃ left, W / 32 = left + 1 := ⟨W / 32 - 1, by omega⟩
  cases fuel with
  | zero => cases hbuild
  | succ fuel =>
    obtain ⟨⟨t₂, r⟩, hover, hrest⟩ := bind_eq_ok.mp hbuild
    rw [hleft] at hover
    have hnested : (sortByMask ([] : List (Instr W))).IsChain Nested := List.isChain_nil
    cases overWords_outcome hover with
    | single hinstrs => cases hinstrs
    | split _ _ hsplit =>
      -- there is no instruction to make a case of
      obtain ⟨t₃, hset, hgo⟩ := bind_eq_ok.mp hsplit
      obtain ⟨_, _, rfl⟩ := InstrTable.setMask_eq_ok.mp hset
      cases hgo
      cases hrest
      exact ⟨rfl, rfl⟩
    | conflicts hallow => cases hallow
    | partitioned hallow => cases hallow
    | constructed _ _ h₁ hcons =>
      obtain ⟨_, rfl⟩ := h₁.resolve_right fun hpart => Bool.false_ne_true hpart.1
      obtain ⟨hnot, _⟩ | ⟨_, _, ⟨_, rfl⟩ | ⟨init, last, hlast, _⟩⟩ :=
        constructTreeFromInstrs_outcome hcons
      · exact absurd hnested hnot
      · cases hrest
        exact ⟨rfl, rfl⟩
      · exact absurd hlast.symm (by simp [sortByMask, sortByMask.go])
    | skipped _ _ h₁ hcons =>
      obtain ⟨hnot, _⟩ | ⟨_, hdone, _⟩ := constructTreeFromInstrs_outcome hcons
      · exact absurd hnested hnot
      · cases hdone

end Adl.Decode
