import Adl.Decode.Construct
import Adl.Decode.Finalize

/-!
# What the generated decoder finds

For a set of instructions without conflicts and shorthands, the decoder returns only instructions
that match, and of all matches the one that tests most bits. It may also miss a match:
`decode_mostSpecific_iff` says for which words this happens.
-/

namespace Adl.Decode

open Adl.Math

variable {W : ℕ}

/-- A match of a word such that no other match has a strictly larger mask. -/
structure MostSpecific (instrs : List (Instr W)) (w : BitVec W) (j : Instr W) : Prop where
  mem : j ∈ instrs
  matches_word : j.Matches w
  maximal : ∀ k ∈ instrs, k.Matches w → ¬ (Within j.opcMask k.opcMask ∧ k.opcMask ≠ j.opcMask)

theorem exists_mostSpecific {instrs : List (Instr W)} {w : BitVec W}
    (h : ∃ i ∈ instrs, i.Matches w) : ∃ j, MostSpecific instrs w j := by
  obtain ⟨i, hi, hmatch⟩ := h
  have hne : instrs.filter (·.Matches w) ≠ [] :=
    List.ne_nil_of_mem (List.mem_filter.mpr ⟨hi, decide_eq_true hmatch⟩)
  obtain ⟨j, hj, _, hmax⟩ := exists_maxMask hne
  obtain ⟨hmem, hj⟩ := List.mem_filter.mp hj
  refine ⟨j, hmem, of_decide_eq_true hj, fun k hk hwk ⟨hwithin, hne⟩ => hne ?_⟩
  have hnorm := hmax k (List.mem_filter.mpr ⟨hk, decide_eq_true hwk⟩)
  exact (eq_of_within_of_getNorm_le hwithin hnorm).symm

theorem MostSpecific.eq {instrs : List (Instr W)} {P : Set (Instr W)} {used value w : BitVec W}
    {t : InstrTable W} (ht : Shape P {i | i ∈ instrs} used value t) {i j : Instr W}
    (hi : MostSpecific instrs w i) (hj : MostSpecific instrs w j) : i = j := by
  have hmask : i.opcMask = j.opcMask := by
    by_contra hne
    rcases ht.comparable hi.mem hj.mem hi.matches_word hj.matches_word with hij | hji
    · exact hi.maximal j hj.mem hj.matches_word ⟨hij, Ne.symm hne⟩
    · exact hj.maximal i hi.mem hi.matches_word ⟨hji, hne⟩
  refine ht.injective hi.mem hj.mem hmask ?_
  rw [← show w &&& i.opcMask = i.opcode from hi.matches_word, hmask]
  exact hj.matches_word

/-- The instructions that test more bits than `j` and have its opcode under its mask. -/
def specialisations (instrs : List (Instr W)) (j : Instr W) : List (Instr W) :=
  instrs.filter fun i => decide (Within j.opcMask i.opcMask) && i.opcMask != j.opcMask &&
    j.opcMask &&& i.opcode == j.opcode

/-- The bits tested first below the node of `j`: those in the first word that has opcode bits
common to all special cases of `j`, besides the bits of `j`. -/
def branchBits (instrs : List (Instr W)) (j : Instr W) : BitVec W :=
  splitMask (j.opcMask ^^^ getCommonOpc (specialisations instrs j)) 0

/-- A word takes a branch for special cases of `j`. -/
def Shadowed (instrs : List (Instr W)) (w : BitVec W) (j : Instr W) : Prop :=
  ∃ i ∈ specialisations instrs j, branchBits instrs j &&& i.opcode = w &&& branchBits instrs j

instance (instrs : List (Instr W)) (w : BitVec W) (j : Instr W) :
    Decidable (Shadowed instrs w j) :=
  inferInstanceAs (Decidable (∃ i ∈ specialisations instrs j, _))

theorem mem_specialisations {instrs : List (Instr W)} {i j : Instr W} :
    i ∈ specialisations instrs j ↔ i ∈ Shape.specialising {i | i ∈ instrs} j := by
  simp [specialisations, Shape.specialising, and_assoc]

section Finished

variable {n fuel bound : ℕ} {instrs : List (Instr (32 * n))} {t t' : InstrTable (32 * n)}
  (hn : 0 < n) (hplain : ∀ i ∈ instrs, i.Plain) (hids : (instrs.map Instr.id).Nodup)
  (hbuilt : addInstrs fuel {} instrs = .ok t) (hfinal : t.finalize bound = .ok t')
include hn hplain hids hbuilt hfinal

/-- The generated decoder returns only instructions whose opcode the word has. -/
theorem decode_matches {w : BitVec (32 * n)} {i : Instr (32 * n)}
    (hdecode : t'.decode (fetchWord w) = some i) : i ∈ instrs ∧ w &&& i.opcMask = i.opcode := by
  rw [finished_decode_eq_walk hids hbuilt hfinal] at hdecode
  by_cases hne : instrs = []
  · subst hne
    obtain ⟨htable, hinstr⟩ := addInstrs_nil (by omega) hbuilt
    rw [InstrTable.walk_eq, if_pos htable, hinstr] at hdecode
    cases hdecode
  · have hshape := addInstrs_shape (by omega) hne hplain hids hbuilt
    obtain ⟨hi, hmatch, _⟩ := hshape.walk_sound (by simp) hdecode
    exact ⟨hi, hmatch⟩

/-- A word with a match is decoded to a most specific match exactly if no most specific match
of it is shadowed. -/
theorem decode_mostSpecific_iff {w : BitVec (32 * n)} (hmatch : ∃ i ∈ instrs, i.Matches w) :
    (∃ j, t'.decode (fetchWord w) = some j ∧ MostSpecific instrs w j) ↔
      ∀ j, MostSpecific instrs w j → ¬ Shadowed instrs w j := by
  have hne : instrs ≠ [] := List.ne_nil_of_mem hmatch.choose_spec.1
  have hshape := addInstrs_shape (by omega) hne hplain hids hbuilt
  have hiff (j : Instr (32 * n)) (hj : MostSpecific instrs w j) :
      t.walk w = some j ↔ ¬ Shadowed instrs w j := by
    rw [hshape.walk_eq_some_iff subset_rfl (by simp) hj.mem hj.matches_word _
      fun i => mem_specialisations]
    simp [Shadowed, branchBits]
  simp only [finished_decode_eq_walk hids hbuilt hfinal]
  constructor
  · rintro ⟨j, hwalk, hj⟩ j' hj'
    obtain rfl := hj.eq hshape hj'
    exact (hiff j hj).mp hwalk
  · intro hall
    obtain ⟨j, hj⟩ := exists_mostSpecific hmatch
    exact ⟨j, (hiff j hj).mpr (hall j hj), hj⟩

end Finished

/-! ### Nested masks -/

private theorem nestedInstrs_plain : ∀ i ∈ nestedInstrs, i.Plain := by
  have h : ∀ i ∈ nestedInstrs, i.shorthand = false ∧ i.conflictMask = 0 ∧
      i.allowConflict = false := by decide
  exact fun i hi => ⟨(h i hi).1, (h i hi).2.1, (h i hi).2.2⟩

private theorem nestedInstrs_decode (w : BitVec 32) (r : Option (Instr 32))
    (h : (do
      let t ← addInstrs 4 {} nestedInstrs
      let t' ← t.finalize 4
      return t'.decode (fetchWord w) : Result 32 (Option (Instr 32))) = .ok r) :
    ∃ t t', addInstrs 4 {} nestedInstrs = .ok t ∧ t.finalize 4 = .ok t' ∧
      t'.decode (fetchWord w) = r := by
  obtain ⟨t, hbuilt, h⟩ := bind_eq_ok.mp h
  obtain ⟨t', hfinal, h⟩ := bind_eq_ok.mp h
  exact ⟨t, t', hbuilt, hfinal, Except.ok.inj h⟩

/-- A word of the special form `a` is decoded to an instruction it matches. -/
theorem decode_matches_nestedInstrs :
    ∃ t t' i, addInstrs 4 {} nestedInstrs = .ok t ∧ t.finalize 4 = .ok t' ∧
      t'.decode (fetchWord 0xA2312345#32) = some i ∧
      i ∈ nestedInstrs ∧ 0xA2312345#32 &&& i.opcMask = i.opcode := by
  obtain ⟨t, t', hbuilt, hfinal, hdecode⟩ :=
    nestedInstrs_decode 0xA2312345#32 nestedInstrs[2]? (by decide +kernel)
  exact ⟨t, t', nestedInstrs.get ⟨2, by decide⟩, hbuilt, hfinal, hdecode,
    decode_matches (n := 1) (by decide) nestedInstrs_plain (by decide) hbuilt hfinal hdecode⟩

/-- The general form `c` matches this word and no special case does, but the word takes the
branch that leads to the special case `a`, and is not decoded. -/
theorem nestedInstrs_miss :
    ∃ t t', addInstrs 4 {} nestedInstrs = .ok t ∧ t.finalize 4 = .ok t' ∧
      (∀ i ∈ nestedInstrs, i.Plain) ∧ (nestedInstrs.map Instr.id).Nodup ∧
      (∃ i ∈ nestedInstrs, i.Matches 0xA2400000#32) ∧
      t'.decode (fetchWord 0xA2400000#32) = none ∧
      ¬ ∃ j, t'.decode (fetchWord 0xA2400000#32) = some j ∧
        MostSpecific nestedInstrs 0xA2400000#32 j := by
  obtain ⟨t, t', hbuilt, hfinal, hdecode⟩ :=
    nestedInstrs_decode 0xA2400000#32 none (by decide +kernel)
  refine ⟨t, t', hbuilt, hfinal, nestedInstrs_plain, by decide, by decide, hdecode, ?_⟩
  rintro ⟨j, hj, _⟩
  rw [hdecode] at hj
  cases hj

/-- The condition at a word of the special form `a`. -/
theorem decode_mostSpecific_nestedInstrs :
    ∃ t t', addInstrs 4 {} nestedInstrs = .ok t ∧ t.finalize 4 = .ok t' ∧
      ((∃ j, t'.decode (fetchWord 0xA2312345#32) = some j ∧
          MostSpecific nestedInstrs 0xA2312345#32 j) ↔
        ∀ j, MostSpecific nestedInstrs 0xA2312345#32 j →
          ¬ Shadowed nestedInstrs 0xA2312345#32 j) := by
  obtain ⟨t, t', hbuilt, hfinal, _⟩ :=
    nestedInstrs_decode 0xA2312345#32 nestedInstrs[2]? (by decide +kernel)
  exact ⟨t, t', hbuilt, hfinal, decode_mostSpecific_iff (n := 1) (by decide) nestedInstrs_plain
    (by decide) hbuilt hfinal (by decide)⟩

end Adl.Decode
