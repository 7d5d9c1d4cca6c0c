import Mathlib.Algebra.GroupWithZero.Nat
import Mathlib.Tactic.Common

/-!
# Runs of deterministic machines

A machine reads one input after the other, answers each and changes its state. Invariants and
simulations that hold for one step hold for whole runs.
-/

namespace Adl.Math

variable {σ τ ι ο : Type*} {s : σ} {t : τ} {inputs : List ι} {P : σ → Prop} {R : σ → τ → Prop}

section Runs

variable {step : σ → ι → ο × σ} {ok : σ → ι → Prop}

/-- Feed a list of inputs to a machine. -/
def runs (step : σ → ι → ο × σ) : σ → List ι → List ο × σ
  | s, [] => ([], s)
  | s, i :: rest =>
    let (o, s') := step s i
    let (os, s'') := runs step s' rest
    (o :: os, s'')

theorem runs_invariant {ok : ι → Prop} (hstep : ∀ s i, ok i → P s → P (step s i).2)
    (hok : ∀ i ∈ inputs, ok i) (hs : P s) : P (runs step s inputs).2 := by
  induction inputs generalizing s with
  | nil => exact hs
  | cons i rest ih =>
    exact ih (fun i hi => hok i (List.mem_cons_of_mem _ hi))
      (hstep s i (hok i List.mem_cons_self) hs)

theorem runs_answers {Q : ο → Prop} {ok : ι → Prop}
    (hstep : ∀ s i, ok i → P s → Q (step s i).1 ∧ P (step s i).2) (hok : ∀ i ∈ inputs, ok i)
    (hs : P s) : ∀ o ∈ (runs step s inputs).1, Q o := by
  induction inputs generalizing s with
  | nil => exact fun o ho => absurd ho List.not_mem_nil
  | cons i rest ih =>
    obtain ⟨hfirst, hs'⟩ := hstep s i (hok i List.mem_cons_self) hs
    intro o ho
    rcases List.mem_cons.mp ho with rfl | ho
    · exact hfirst
    · exact ih (fun i hi => hok i (List.mem_cons_of_mem _ hi)) hs' o ho

/-- Every step of a run is allowed in the state in which it is made. -/
def Along (step : σ → ι → ο × σ) (ok : σ → ι → Prop) : σ → List ι → Prop
  | _, [] => True
  | s, i :: rest => ok s i ∧ Along step ok (step s i).2 rest

instance Along.decidable {step : σ → ι → ο × σ} {ok : σ → ι → Prop} [∀ s i, Decidable (ok s i)] :
    ∀ s inputs, Decidable (Along step ok s inputs)
  | _, [] => .isTrue trivial
  | s, i :: rest =>
    @instDecidableAnd _ _ _ (Along.decidable (step s i).2 rest)

theorem runs_along (hstep : ∀ s i, ok s i → P s → P (step s i).2) (hok : Along step ok s inputs)
    (hs : P s) : P (runs step s inputs).2 := by
  induction inputs generalizing s with
  | nil => exact hs
  | cons i rest ih => exact ih hok.2 (hstep s i hok.1 hs)

theorem runs_answers_iff {Q : ο → Prop}
    (hstep : ∀ s i, P s → (Q (step s i).1 ↔ ok s i) ∧ (Q (step s i).1 → P (step s i).2))
    (hs : P s) : (∀ o ∈ (runs step s inputs).1, Q o) ↔ Along step ok s inputs := by
  induction inputs generalizing s with
  | nil => simp [runs, Along]
  | cons i rest ih =>
    obtain ⟨hfirst, hnext⟩ := hstep s i hs
    rw [runs, List.forall_mem_cons, Along, ← hfirst]
    exact and_congr_right fun hgood => ih (hnext hgood)

/-- A relation between states and the answers on the way that can be put together step by step. -/
theorem runs_chain {R : σ → List ο → σ → Prop} (hrefl : ∀ s, R s [] s)
    (htrans : ∀ s o s' os s'', R s [o] s' → R s' os s'' → R s (o :: os) s'')
    (hstep : ∀ s i, ok s i → R s [(step s i).1] (step s i).2) (hok : Along step ok s inputs) :
    R s (runs step s inputs).1 (runs step s inputs).2 := by
  induction inputs generalizing s with
  | nil => exact hrefl s
  | cons i rest ih => exact htrans s _ _ _ _ (hstep s i hok.1) (ih hok.2)

theorem runs_replay {abs : σ → τ} {apply : τ → ο → Option τ}
    (hstep : ∀ s i, ok s i → P s →
      P (step s i).2 ∧ apply (abs s) (step s i).1 = some (abs (step s i).2))
    (hok : Along step ok s inputs) (hs : P s) :
    (runs step s inputs).1.foldlM apply (abs s) = some (abs (runs step s inputs).2) := by
  induction inputs generalizing s with
  | nil => rfl
  | cons i rest ih =>
    obtain ⟨hP, happly⟩ := hstep s i hok.1 hs
    rw [runs, List.foldlM_cons, happly]
    exact ih hok.2 hP

/-- When related states give equal answers and stay related, all answers are equal. -/
theorem runs_simulation {step' : τ → ι → ο × τ} {ok : ι → Prop}
    (hstep : ∀ s t i, ok i → R s t → (step s i).1 = (step' t i).1 ∧ R (step s i).2 (step' t i).2)
    (hok : ∀ i ∈ inputs, ok i) (hR : R s t) :
    (runs step s inputs).1 = (runs step' t inputs).1 ∧
      R (runs step s inputs).2 (runs step' t inputs).2 := by
  induction inputs generalizing s t with
  | nil => exact ⟨rfl, hR⟩
  | cons i rest ih =>
    obtain ⟨hanswer, hR'⟩ := hstep s t i (hok i List.mem_cons_self) hR
    obtain ⟨hanswers, hend⟩ := ih (fun i hi => hok i (List.mem_cons_of_mem _ hi)) hR'
    exact ⟨congrArg₂ List.cons hanswer hanswers, hend⟩

end Runs

/-! ### Machines that can fail -/

section Fail

variable {step : σ → ι → Option σ} {ok : σ → ι → Prop} {next : τ → ι → τ}

/-- Every step of a run is allowed in the state in which it is made, as far as the run goes. -/
def Allowed (step : σ → ι → Option σ) (ok : σ → ι → Prop) : σ → List ι → Prop
  | _, [] => True
  | s, i :: rest => ok s i ∧
    match step s i with
    | none => True
    | some s' => Allowed step ok s' rest

instance Allowed.decidable {step : σ → ι → Option σ} {ok : σ → ι → Prop}
    [∀ s i, Decidable (ok s i)] : ∀ s inputs, Decidable (Allowed step ok s inputs)
  | _, [] => .isTrue trivial
  | s, i :: rest =>
    @instDecidableAnd _ _ _ <|
      match step s i with
      | none => .isTrue trivial
      | some s' => Allowed.decidable s' rest

theorem allowed_true (inputs : List ι) : Allowed step (fun _ _ => True) s inputs := by
  induction inputs generalizing s with
  | nil => exact trivial
  | cons i rest ih =>
    refine ⟨trivial, ?_⟩
    split
    · exact trivial
    · exact ih

theorem Allowed.and {q : ι → Prop} (hok : Allowed step ok s inputs) (hq : ∀ i ∈ inputs, q i) :
    Allowed step (fun s i => ok s i ∧ q i) s inputs := by
  induction inputs generalizing s with
  | nil => exact trivial
  | cons i rest ih =>
    obtain ⟨hi, hrest⟩ := hok
    refine ⟨⟨hi, hq i List.mem_cons_self⟩, ?_⟩
    cases hstep : step s i with
    | none => exact trivial
    | some s' =>
      rw [hstep] at hrest
      exact ih hrest fun j hj => hq j (List.mem_cons_of_mem _ hj)

theorem foldlM_invariant (hstep : ∀ s i, ok s i → P s → ∃ s', step s i = some s' ∧ P s')
    (hok : Allowed step ok s inputs) (hs : P s) : ∃ s', inputs.foldlM step s = some s' ∧ P s' := by
  induction inputs generalizing s with
  | nil => exact ⟨s, rfl, hs⟩
  | cons i rest ih =>
    obtain ⟨s', hs', hP⟩ := hstep s i hok.1 hs
    have hrest := hok.2
    rw [hs'] at hrest
    rw [List.foldlM_cons, hs']
    exact ih hrest hP

/-- An invariant that allowed steps keep when they succeed holds after a run. -/
theorem foldlM_along (hstep : ∀ s i s', ok s i → P s → step s i = some s' → P s') {s s' : σ}
    (hok : Allowed step ok s inputs) (hs : P s) (hrun : inputs.foldlM step s = some s') : P s' := by
  induction inputs generalizing s with
  | nil =>
    obtain rfl := Option.some.inj hrun
    exact hs
  | cons i rest ih =>
    rw [List.foldlM_cons] at hrun
    obtain ⟨s₁, hs₁, hrun⟩ := Option.bind_eq_some_iff.mp hrun
    have hrest := hok.2
    rw [hs₁] at hrest
    exact ih hrest (hstep s i s₁ hok.1 hs hs₁) hrun

/-- Every step of a run of an abstract machine is allowed in the state in which it is made. -/
def Permits (next : τ → ι → τ) (ok : τ → ι → Prop) : τ → List ι → Prop
  | _, [] => True
  | t, i :: rest => ok t i ∧ Permits next ok (next t i) rest

instance Permits.decidable {next : τ → ι → τ} {ok : τ → ι → Prop} [∀ t i, Decidable (ok t i)] :
    ∀ t inputs, Decidable (Permits next ok t inputs)
  | _, [] => .isTrue trivial
  | t, i :: rest => @instDecidableAnd _ _ _ (Permits.decidable (next t i) rest)

theorem foldl_invariant {ok : τ → ι → Prop} {P : τ → Prop}
    (hstep : ∀ t i, ok t i → P t → P (next t i)) (hok : Permits next ok t inputs) (ht : P t) :
    P (inputs.foldl next t) := by
  induction inputs generalizing t with
  | nil => exact ht
  | cons i rest ih => exact ih hok.2 (hstep t i hok.1 ht)

theorem permits_true (inputs : List ι) : Permits next (fun _ _ => True) t inputs := by
  induction inputs generalizing t with
  | nil => exact trivial
  | cons i rest ih => exact ⟨trivial, ih⟩

theorem foldlM_refines {ok : τ → ι → Prop}
    (hstep : ∀ s t i, ok t i → R s t → ∃ s', step s i = some s' ∧ R s' (next t i))
    (hok : Permits next ok t inputs) (hR : R s t) :
    ∃ s', inputs.foldlM step s = some s' ∧ R s' (inputs.foldl next t) := by
  induction inputs generalizing s t with
  | nil => exact ⟨s, rfl, hR⟩
  | cons i rest ih =>
    obtain ⟨s', hs', hR'⟩ := hstep s t i hok.1 hR
    rw [List.foldlM_cons, hs']
    exact ih hok.2 hR'

end Fail

/-! ### Things that have one owner

A step of a system hands one thing over, and leaves all others where they are.
-/

section Ownership

variable {ω α : Type*} {owns owns' : ω → α → Prop} {v w : ω} {a : α}

/-- Everything has exactly one owner. -/
def Owned (owns : ω → α → Prop) : Prop := ∀ a, ∃! w, owns w a

namespace Owned

theorem eq (h : Owned owns) (hv : owns v a) (hw : owns w a) : v = w :=
  (h a).unique hv hw

theorem not_owns (h : Owned owns) (hv : owns v a) (hne : w ≠ v) : ¬ owns w a :=
  fun hw => hne (h.eq hw hv)

/-- One thing is handed over from `w` to `w'`; all others stay. -/
theorem handOver (h : Owned owns) (w w' : ω) (a : α) (hne : w ≠ w') (ha : owns w a)
    (hfrom : ∀ b, owns' w b ↔ owns w b ∧ b ≠ a) (hto : ∀ b, owns' w' b ↔ owns w' b ∨ b = a)
    (hother : ∀ v b, v ≠ w → v ≠ w' → (owns' v b ↔ owns v b)) : Owned owns' := by
  intro b
  by_cases hb : b = a
  · subst hb
    refine ⟨w', (hto b).mpr (.inr rfl), fun v hv => ?_⟩
    by_contra hv'
    by_cases hw : v = w
    · subst hw
      exact ((hfrom b).mp hv).2 rfl
    · exact hw (h.eq ((hother v b hw hv').mp hv) ha)
  · -- the owner of another thing is the one it had
    have hsame (v : ω) : owns' v b ↔ owns v b := by
      by_cases hw : v = w
      · rw [hw, hfrom, and_iff_left hb]
      · by_cases hw' : v = w'
        · rw [hw', hto, or_iff_left hb]
        · exact hother v b hw hw'
    obtain ⟨v, hv, hunique⟩ := h b
    exact ⟨v, (hsame v).mpr hv, fun u hu => hunique u ((hsame u).mp hu)⟩

end Owned

end Ownership

end Adl.Math
