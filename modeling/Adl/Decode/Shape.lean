import Adl.Decode.Walk
import Mathlib.Data.Set.Insert

/-!
# The shape of a decode tree

For instructions without conflicts and shorthands each node stands for the set of instructions that
can still be reached there. All of them contain the bits tested so far, at most one has no bit left,
and the others are divided by the bits the node tests.
-/

namespace Adl.Decode

open Adl.Math

variable {W : ℕ}

def Instr.Matches (i : Instr W) (w : BitVec W) : Prop := w &&& i.opcMask = i.opcode

instance (i : Instr W) (w : BitVec W) : Decidable (i.Matches w) :=
  inferInstanceAs (Decidable (_ = _))

theorem Instr.Matches.and_eq {i : Instr W} {w m : BitVec W} (h : i.Matches w)
    (hm : Within m i.opcMask) : m &&& i.opcode = w &&& m := by
  rw [← show w &&& i.opcMask = i.opcode from h, BitVec.and_comm w, ← BitVec.and_assoc,
    show m &&& i.opcMask = m from hm, BitVec.and_comm]

/-- A tree for the instructions `S`, below a path that has tested the bits `used` and found
`value`. The instructions in `P` have already been stored in the tree. A node divides the
instructions `R` that have bits left; `stop` is the one that has none. -/
inductive Shape (P : Set (Instr W)) :
    Set (Instr W) → BitVec W → BitVec W → InstrTable W → Prop
  | leaf {S : Set (Instr W)} {used value : BitVec W} {t : InstrTable W} {i : Instr W}
      (set : ∀ j, j ∈ S ↔ j = i) (mask : i.opcMask = used) (opcode : i.opcode = value)
      (table : t.table = []) (default : t.defaultTable = none)
      (instr : ∀ j, t.instr = some j ↔ j = i ∧ j ∈ P) : Shape P S used value t
  | node {S : Set (Instr W)} {used value : BitVec W} {t : InstrTable W} (R : Set (Instr W))
      (stop : Option (Instr W)) (set : ∀ j, j ∈ S ↔ j ∈ R ∨ stop = some j)
      (mask_ne : t.mask ≠ 0) (disjoint : t.mask &&& used = 0) (ne_nil : t.table ≠ [])
      (within : ∀ i ∈ R, Within (t.mask ||| used) i.opcMask)
      (agree : ∀ i ∈ R, used &&& i.opcode = value)
      (stops : ∀ i, stop = some i → i.opcMask = used ∧ i.opcode = value)
      (isSome : ∀ k, (t.find k).isSome = true ↔ ∃ i ∈ R, t.mask &&& i.opcode = k)
      (cases : ∀ k c, t.find k = some c →
        Shape P {i | i ∈ R ∧ t.mask &&& i.opcode = k} (t.mask ||| used) (k ||| value) c)
      (default : t.defaultTable = none) (instr : ∀ j, t.instr = some j ↔ stop = some j ∧ j ∈ P)
      (split : stop.isSome = true → ∀ l, (∀ i, i ∈ l ↔ i ∈ R) →
        t.mask = splitMask (used ^^^ getCommonOpc l) 0) : Shape P S used value t

namespace Shape

variable {P S : Set (Instr W)} {used value w : BitVec W} {t : InstrTable W} {i j : Instr W}

private theorem not_within_used {mask : BitVec W} (hne : mask ≠ 0) (hdisj : mask &&& used = 0)
    (hi : Within (mask ||| used) i.opcMask) : ¬ Within i.opcMask used := by
  intro h
  have hmask : Within mask used := (Within.or_left _ _).trans (hi.trans h)
  exact hne (hmask.symm.trans hdisj)

theorem injective (h : Shape P S used value t) (hi : i ∈ S) (hj : j ∈ S)
    (hmask : i.opcMask = j.opcMask) (hopcode : i.opcode = j.opcode) : i = j := by
  induction h with
  | leaf set => rw [(set i).mp hi, (set j).mp hj]
  | @node S used value t R stop set mask_ne disjoint ne_nil within agree stops isSome cases
      default instr split ih =>
    have hnot {i j : Instr W} (hi : i ∈ R) (hj : stop = some j) : i.opcMask ≠ j.opcMask := by
      intro heq
      refine not_within_used mask_ne disjoint (within i hi) ?_
      rw [heq, (stops j hj).1]
      exact Within.refl _
    rcases (set i).mp hi with hi | hi <;> rcases (set j).mp hj with hj | hj
    · obtain ⟨c, hc⟩ := Option.isSome_iff_exists.mp ((isSome _).mpr ⟨i, hi, rfl⟩)
      exact ih _ c hc ⟨hi, rfl⟩ ⟨hj, by rw [hopcode]⟩
    · exact absurd hmask (hnot hi hj)
    · exact absurd hmask.symm (hnot hj hi)
    · exact Option.some.inj (hi.symm.trans hj)

private theorem path_extend {mask : BitVec W} (hw : w &&& used = value) :
    w &&& (mask ||| used) = w &&& mask ||| value := by
  rw [BitVec.and_or_distrib_left, hw]

theorem comparable (h : Shape P S used value t) (hi : i ∈ S) (hj : j ∈ S) (hwi : i.Matches w)
    (hwj : j.Matches w) : Within i.opcMask j.opcMask ∨ Within j.opcMask i.opcMask := by
  induction h with
  | leaf set =>
    rw [(set i).mp hi, (set j).mp hj]
    exact .inl (Within.refl _)
  | @node S used value t R stop set mask_ne disjoint ne_nil within agree stops isSome cases
      default instr split ih =>
    have hkey {i : Instr W} (hi : i ∈ R) (hwi : i.Matches w) : t.mask &&& i.opcode = w &&& t.mask :=
      hwi.and_eq ((Within.or_left _ _).trans (within i hi))
    have hstop {i j : Instr W} (hi : i ∈ R) (hj : stop = some j) : Within j.opcMask i.opcMask := by
      rw [(stops j hj).1]
      exact (Within.or_right _ _).trans (within i hi)
    rcases (set i).mp hi with hi | hi <;> rcases (set j).mp hj with hj | hj
    · obtain ⟨c, hc⟩ := Option.isSome_iff_exists.mp ((isSome _).mpr ⟨i, hi, hkey hi hwi⟩)
      exact ih _ c hc ⟨hi, hkey hi hwi⟩ ⟨hj, hkey hj hwj⟩
    · exact .inr (hstop hi hj)
    · exact .inl (hstop hj hi)
    · rw [Option.some.inj (hi.symm.trans hj)]
      exact .inl (Within.refl _)

/-- The descent returns a stored instruction that matches the word and contains the mask of
every other match. -/
theorem walk_sound (h : Shape P S used value t) (hw : w &&& used = value)
    (hwalk : t.walk w = some j) :
    j ∈ S ∧ j.Matches w ∧ ∀ i ∈ S, i.Matches w → Within i.opcMask j.opcMask := by
  induction h with
  | @leaf S used value t i set mask opcode table default instr =>
    rw [InstrTable.walk_eq, if_pos table] at hwalk
    obtain ⟨rfl, _⟩ := (instr j).mp hwalk
    subst mask opcode
    refine ⟨(set j).mpr rfl, hw, fun i hi _ => ?_⟩
    rw [(set i).mp hi]
    exact Within.refl _
  | @node S used value t R stop set mask_ne disjoint ne_nil within agree stops isSome cases
      default instr split ih =>
    have hkey {i : Instr W} (hi : i ∈ R) (hwi : i.Matches w) : t.mask &&& i.opcode = w &&& t.mask :=
      hwi.and_eq ((Within.or_left _ _).trans (within i hi))
    rw [InstrTable.walk_eq, if_neg ne_nil, default] at hwalk
    cases hc : t.find (w &&& t.mask) with
    | some c =>
      rw [hc] at hwalk
      obtain ⟨hj, hmatch, hmax⟩ := ih _ c hc (path_extend hw) hwalk
      refine ⟨(set j).mpr (.inl hj.1), hmatch, fun i hi hwi => ?_⟩
      rcases (set i).mp hi with hi | hi
      · exact hmax i ⟨hi, hkey hi hwi⟩ hwi
      · rw [(stops i hi).1]
        exact (Within.or_right _ _).trans (within j hj.1)
    | none =>
      rw [hc] at hwalk
      obtain ⟨hstop, _⟩ := (instr j).mp hwalk
      obtain ⟨hmask, hopcode⟩ := stops j hstop
      refine ⟨(set j).mpr (.inr hstop), ?_, fun i hi hwi => ?_⟩
      · rw [Instr.Matches, hmask, hopcode, hw]
      · rcases (set i).mp hi with hi | hi
        · -- a match that has bits left would have had a case
          have := (isSome _).mpr ⟨i, hi, hkey hi hwi⟩
          rw [hc] at this
          cases this
        · rw [Option.some.inj (hi.symm.trans hstop)]
          exact Within.refl _

/-- The instructions of `S` that specialise `j`: they test more bits than `j`, and have its
opcode under its mask. -/
def specialising (S : Set (Instr W)) (j : Instr W) : Set (Instr W) :=
  {i | i ∈ S ∧ Within j.opcMask i.opcMask ∧ i.opcMask ≠ j.opcMask ∧
    j.opcMask &&& i.opcode = j.opcode}

/-- The descent ends at a match of the word, unless the word takes the value of an instruction
that specialises this match under the bits tested first. -/
theorem walk_eq_some_iff (h : Shape P S used value t) (hP : S ⊆ P) (hw : w &&& used = value)
    (hj : j ∈ S) (hmatch : j.Matches w) (l : List (Instr W))
    (hl : ∀ i, i ∈ l ↔ i ∈ specialising S j) :
    t.walk w = some j ↔
      ∀ i ∈ l, splitMask (j.opcMask ^^^ getCommonOpc l) 0 &&& i.opcode ≠
        w &&& splitMask (j.opcMask ^^^ getCommonOpc l) 0 := by
  induction h with
  | @leaf S used value t i set mask opcode table default instr =>
    have hnone : ∀ i', i' ∉ l := by
      intro i' hi'
      obtain ⟨hS, _, hne, _⟩ := (hl i').mp hi'
      rw [(set i').mp hS, (set j).mp hj] at hne
      exact hne rfl
    rw [InstrTable.walk_eq, if_pos table]
    exact iff_of_true ((instr j).mpr ⟨(set j).mp hj, hP hj⟩) fun i' hi' => absurd hi' (hnone i')
  | @node S used value t R stop set mask_ne disjoint ne_nil within agree stops isSome cases
      default instr split ih =>
    rw [InstrTable.walk_eq, if_neg ne_nil, default]
    rcases (set j).mp hj with hR | hstop
    · -- the match is further down; its specialisations take the same case
      have hjmask : Within t.mask j.opcMask := (Within.or_left _ _).trans (within j hR)
      have hkey : t.mask &&& j.opcode = w &&& t.mask := hmatch.and_eq hjmask
      obtain ⟨c, hc⟩ := Option.isSome_iff_exists.mp ((isSome _).mpr ⟨j, hR, hkey⟩)
      have hsame : specialising S j =
          specialising {i | i ∈ R ∧ t.mask &&& i.opcode = w &&& t.mask} j := by
        ext i
        simp only [specialising, Set.mem_ofPred_eq]
        refine and_congr_left fun ⟨hjw, hne, hagree⟩ => ?_
        constructor
        · intro hi
          refine ⟨((set i).mp hi).resolve_right fun hi => ?_, ?_⟩
          · rw [(stops i hi).1] at hjw
            exact not_within_used mask_ne disjoint (within j hR) hjw
          · rw [← hkey, ← hagree, ← BitVec.and_assoc,
              show t.mask &&& j.opcMask = t.mask from hjmask]
        · exact fun hi => (set i).mpr (.inl hi.1)
      simp only [hc]
      exact ih _ c hc (fun i hi => hP ((set i).mpr (.inl hi.1))) (path_extend hw) ⟨hR, hkey⟩
        (fun i => by rw [hl i, hsame])
    · -- the match is the instruction of this node, and all others specialise it
      obtain ⟨rfl, rfl⟩ := stops j hstop
      have hspec : ∀ i, i ∈ l ↔ i ∈ R := by
        intro i
        rw [hl i]
        constructor
        · rintro ⟨hi, _, hne, _⟩
          refine ((set i).mp hi).resolve_right fun hi => hne ?_
          rw [Option.some.inj (hi.symm.trans hstop)]
        · intro hi
          refine ⟨(set i).mpr (.inl hi), (Within.or_right _ _).trans (within i hi), ?_, agree i hi⟩
          intro heq
          exact not_within_used mask_ne disjoint (within i hi) (heq ▸ Within.refl _)
      rw [← split (by simp [hstop]) l hspec]
      cases hc : t.find (w &&& t.mask) with
      | none =>
        refine iff_of_true ((instr j).mpr ⟨hstop, hP hj⟩) fun i hi hkey => ?_
        have := (isSome _).mpr ⟨i, (hspec i).mp hi, hkey⟩
        rw [hc] at this
        cases this
      | some c =>
        -- what the branch returns would be a larger match
        obtain ⟨i, hi, hkey⟩ := (isSome (w &&& t.mask)).mp (by rw [hc]; rfl)
        refine iff_of_false (fun hwalk => ?_) fun hall => hall i ((hspec i).mpr hi) hkey
        obtain ⟨hjR, _⟩ := (cases _ c hc).walk_sound (path_extend hw) hwalk
        exact not_within_used mask_ne disjoint (within j hjR.1) (Within.refl _)

theorem congr_placed {P' : Set (Instr W)} (h : Shape P S used value t)
    (hP : ∀ i ∈ S, i ∈ P ↔ i ∈ P') : Shape P' S used value t := by
  induction h with
  | leaf set mask opcode table default instr =>
    refine .leaf set mask opcode table default fun j => ?_
    rw [instr j]
    exact and_congr_right fun hj => hP j ((set j).mpr hj)
  | node R stop set mask_ne disjoint ne_nil within agree stops
      isSome cases default instr split ih =>
    refine .node R stop set mask_ne disjoint ne_nil within agree stops isSome ?_ default
      (fun j => ?_) split
    · exact fun k c hc => ih k c hc fun i hi => hP i ((set i).mpr (.inl hi.1))
    · rw [instr j]
      exact and_congr_right fun hj => hP j ((set j).mpr (.inr hj))

end Shape

end Adl.Decode
