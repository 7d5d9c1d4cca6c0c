import Adl.Gdb.BinaryWrite

/-!
# Actions for threads

A `vCont` packet lists actions, each for one thread, for all threads or without a number. An action
for one thread is taken if the thread has no command yet, but an action for all threads replaces
what was there. The command that fills the gaps has no value at the start.
-/

namespace Adl.Gdb

open Adl.Math

/-! ### Reading a packet -/

/-- Empty tokens are dropped. -/
def tokenize (delimiter : Byte) (text : List Byte) : List (List Byte) :=
  (text.splitOn delimiter).filter (· ≠ [])

/-- The commands by number of thread; `none` where the map has no entry. -/
abbrev CommandList := ℤ → Option Byte

def unset : Byte := code 'x'

structure VContState where
  commands : CommandList
  defaultCmd : Byte

/-- One action. It is `none` if an entry that does not exist is used. -/
def vContToken (s : VContState) (token : List Byte) : Option VContState :=
  match tokenize (code ':') token with
  | [] => none
  | [action] => some { s with defaultCmd := action.headD 0 }
  | action :: number :: _ =>
    let no := ((hexText (number ++ [0])).setWidth 32).toInt
    if no < 0 then some { s with commands := fun k => (s.commands k).map fun _ => action.headD 0 }
    else (s.commands no).map fun c =>
      if c = unset then
        { s with commands := fun k => if k = no then some (action.headD 0) else s.commands k }
      else s

/-- The commands for some threads after a packet. Entry 0 stands for the first thread. What the
default command is at the start is not known. -/
def parseVContPacket (start : Byte) (threads : List ℤ) (data : List Byte) : Option CommandList :=
  let commands : CommandList := fun k => if k = 0 ∨ k ∈ threads then some unset else none
  ((tokenize (code ';') data).foldlM vContToken ⟨commands, start⟩).map fun s k =>
    let c := if k = 1 ∧ s.commands 0 ≠ some unset then s.commands 0 else s.commands k
    if c = some unset then some s.defaultCmd else c

/-! ### Packets -/

/-- The number of an action, in any spelling, or all threads. -/
inductive VContId where
  | all
  | thread (digits : List Byte)
  deriving DecidableEq

structure VContAction where
  action : List Byte
  id : Option VContId

namespace VContAction

def letter (a : VContAction) : Byte := a.action.headD 0

def number (a : VContAction) : Option (List Byte) :=
  a.id.map fun
    | .all => [code '-', code '1']
    | .thread digits => digits

def text (a : VContAction) : List Byte :=
  match a.number with
  | none => a.action
  | some number => a.action ++ code ':' :: number

def names (t : ℤ) (a : VContAction) : Bool :=
  match a.id with
  | none => false
  | some .all => true
  | some (.thread digits) => (hexValue digits : ℤ) = t

def digits (a : VContAction) : Option (List Byte) :=
  match a.id with
  | some (.thread digits) => some digits
  | _ => none

/-- The letters of an action do not end it, and the number of a thread is a positive `int`. -/
def WellFormed (a : VContAction) : Prop :=
  (a.action ≠ [] ∧ code ';' ∉ a.action ∧ code ':' ∉ a.action) ∧
    ∀ digits ∈ a.digits, IsNumber digits ∧ 0 < hexValue digits ∧ hexValue digits < 2 ^ 31

instance (a : VContAction) : Decidable a.WellFormed := inferInstanceAs (Decidable (_ ∧ _))

def Known (threads : List ℤ) (a : VContAction) : Prop :=
  ∀ digits ∈ a.digits, (hexValue digits : ℤ) ∈ threads

instance (threads : List ℤ) (a : VContAction) : Decidable (a.Known threads) :=
  inferInstanceAs (Decidable (∀ digits ∈ a.digits, _))

theorem mem_digits {a : VContAction} {digits : List Byte} (hid : a.id = some (.thread digits)) :
    digits ∈ a.digits := by
  rw [VContAction.digits, hid]
  rfl

end VContAction

def vContText (actions : List VContAction) : List Byte :=
  [code ';'].intercalate (actions.map VContAction.text)

/-- What a packet means for a thread: the leftmost action for it, or else an action without a number
if there is one, or else nothing. -/
def Assigned (actions : List VContAction) (t : ℤ) (c : Byte) : Prop :=
  match actions.find? (·.names t) with
  | some a => c = a.letter
  | none =>
    if ∃ a ∈ actions, a.id = none then ∃ a ∈ actions, a.id = none ∧ c = a.letter else c = unset

/-- Every thread gets what the packet means for it, whatever the default command is at first. -/
def Follows (threads : List ℤ) (actions : List VContAction) : Prop :=
  ∀ start, ∃ commands, parseVContPacket start threads (vContText actions) = some commands ∧
    ∀ t ∈ threads, ∃ c, commands t = some c ∧ Assigned actions t c

def lastAll (actions : List VContAction) : Option VContAction :=
  (actions.filter fun a => a.id = some .all).getLast?

/-- All numbers are known, no thread has an action before the last one for all threads that differs
from it, and threads without an action have a default. -/
structure Plain (threads : List ℤ) (actions : List VContAction) : Prop where
  known : ∀ a ∈ actions, a.Known threads
  last_all : ∀ a, lastAll actions = some a → ∀ t ∈ threads, ∀ b,
    actions.find? (·.names t) = some b → b.letter = a.letter
  covered : ∀ t ∈ threads, (∃ a ∈ actions, a.names t = true) ∨ ∃ a ∈ actions, a.id = none

/-! ### Tokens -/

section Tokens

variable {a : VContAction} {s : VContState}

theorem tokenize_intercalate {d : Byte} {ls : List (List Byte)} (h : ∀ l ∈ ls, l ≠ [] ∧ d ∉ l) :
    tokenize d ([d].intercalate ls) = ls := by
  by_cases hls : ls = []
  · subst hls
    rfl
  · rw [tokenize, List.splitOn_intercalate d (fun l hl => (h l hl).2) hls, List.filter_eq_self]
    exact fun l hl => decide_eq_true (h l hl).1

theorem not_mem_of_isNumber {digits : List Byte} (h : IsNumber digits) {c : Byte}
    (hc : isHexDigit c = false) : c ∉ digits := fun hmem => ne_of_isHexDigit (h.2 c hmem) hc rfl

theorem VContAction.WellFormed.number_plain (h : a.WellFormed) {number : List Byte}
    (hnumber : a.number = some number) :
    number ≠ [] ∧ code ';' ∉ number ∧ code ':' ∉ number := by
  obtain ⟨_ | digits, hid, rfl⟩ := Option.map_eq_some_iff.mp hnumber
  · decide
  · have hdigits := (h.2 _ (VContAction.mem_digits hid)).1
    exact ⟨hdigits.1, not_mem_of_isNumber hdigits (by decide),
      not_mem_of_isNumber hdigits (by decide)⟩

theorem tokenize_text (h : a.WellFormed) :
    tokenize (code ':') a.text = a.action :: a.number.toList := by
  have haction : a.action ≠ [] ∧ code ':' ∉ a.action := ⟨h.1.1, h.1.2.2⟩
  rw [VContAction.text]
  cases hnumber : a.number with
  | none => simpa using tokenize_intercalate (List.forall_mem_singleton.mpr haction)
  | some number =>
    have hplain := h.number_plain hnumber
    have hfields : ∀ l ∈ [a.action, number], l ≠ [] ∧ code ':' ∉ l := by simp [haction, hplain]
    simpa using tokenize_intercalate hfields

theorem VContAction.WellFormed.text_plain (h : a.WellFormed) :
    a.text ≠ [] ∧ code ';' ∉ a.text := by
  rw [VContAction.text]
  cases hnumber : a.number with
  | none => exact ⟨h.1.1, h.1.2.1⟩
  | some number =>
    have hplain := h.number_plain hnumber
    refine ⟨by simp, ?_⟩
    rw [List.mem_append, List.mem_cons]
    rintro (hmem | heq | hmem)
    · exact h.1.2.1 hmem
    · exact absurd heq (by decide)
    · exact hplain.2.1 hmem

theorem tokenize_vContText {actions : List VContAction} (h : ∀ a ∈ actions, a.WellFormed) :
    tokenize (code ';') (vContText actions) = actions.map VContAction.text := by
  refine tokenize_intercalate fun l hl => ?_
  obtain ⟨a, ha, rfl⟩ := List.mem_map.mp hl
  exact (h a ha).text_plain

theorem vContToken_default (h : a.WellFormed) (hid : a.id = none) :
    vContToken s a.text = some { s with defaultCmd := a.letter } := by
  rw [vContToken, tokenize_text h, VContAction.number, hid]
  rfl

theorem vContToken_all (h : a.WellFormed) (hid : a.id = some .all) :
    vContToken s a.text =
      some { s with commands := fun k => (s.commands k).map fun _ => a.letter } := by
  rw [vContToken, tokenize_text h, VContAction.number, hid]
  exact if_pos (by decide +kernel)

theorem vContToken_thread (h : a.WellFormed) {digits : List Byte}
    (hid : a.id = some (.thread digits)) :
    vContToken s a.text = (s.commands (hexValue digits)).map fun c =>
      if c = unset then
        { s with commands := fun k => if k = hexValue digits then some a.letter else s.commands k }
      else s := by
  have hint := (h.2 _ (VContAction.mem_digits hid)).2.2
  have hno : ((hexText (digits ++ [0])).setWidth 32).toInt = hexValue digits := by
    rw [hexText_number (h.2 _ (VContAction.mem_digits hid)).1, if_neg (by omega),
      BitVec.setWidth_ofNat_of_le (by omega), BitVec.toInt_eq_toNat_of_lt, BitVec.toNat_ofNat,
      Nat.mod_eq_of_lt (by omega)]
    rw [BitVec.toNat_ofNat]
    omega
  rw [vContToken, tokenize_text h, VContAction.number, hid, Option.map_some, Option.toList_some]
  dsimp only
  rw [hno, if_neg (by omega)]
  rfl

end Tokens

/-! ### Runs over the actions -/

/-- The command of a thread after some actions, if no action has the letter `x`. -/
def current (done : List VContAction) (t : ℤ) : Byte :=
  match lastAll done with
  | some a => a.letter
  | none => ((done.find? (·.names t)).map (·.letter)).getD unset

def lastDefault (start : Byte) (done : List VContAction) : Byte :=
  ((done.filter fun a => a.id = none).getLast?.map (·.letter)).getD start

section Runs

variable {start : Byte} {threads : List ℤ} {done rest actions : List VContAction} {a : VContAction}
  {s : VContState} {t : ℤ}

structure Agrees (start : Byte) (threads : List ℤ) (done : List VContAction) (s : VContState) :
    Prop where
  commands : ∀ t, s.commands t = if t = 0 ∨ t ∈ threads then some (current done t) else none
  defaultCmd : s.defaultCmd = lastDefault start done

theorem lastAll_append : lastAll (done ++ [a]) =
    if a.id = some .all then some a else lastAll done := by
  rw [lastAll, lastAll, List.filter_append]
  split_ifs with hid <;> simp [hid]

theorem mem_of_lastAll (h : lastAll done = some a) : a ∈ done ∧ a.id = some .all := by
  simpa using List.mem_filter.mp (List.mem_of_getLast? h)

theorem lastDefault_append : lastDefault start (done ++ [a]) =
    if a.id = none then a.letter else lastDefault start done := by
  rw [lastDefault, lastDefault, List.filter_append]
  split_ifs with hid <;> simp [hid]

theorem current_append_of_all (hid : a.id = some .all) : current (done ++ [a]) t = a.letter := by
  rw [current, lastAll_append, if_pos hid]

/-- Once there is a command, another action for the thread is not taken. -/
theorem current_append (hx : ∀ b ∈ done, b.letter ≠ unset) (hid : a.id ≠ some .all) :
    current (done ++ [a]) t =
      if a.names t ∧ current done t = unset then a.letter else current done t := by
  rw [current, current, lastAll_append, if_neg hid, List.find?_append]
  cases hall : lastAll done with
  | some b => exact (if_neg fun h => hx b (mem_of_lastAll hall).1 h.2).symm
  | none =>
    cases hfind : done.find? (·.names t) with
    | some b => exact (if_neg fun h => hx b (List.mem_of_find?_eq_some hfind) h.2).symm
    | none => cases hnames : a.names t <;> simp [hnames]

theorem Agrees.step (h : Agrees start threads done s) (hx : ∀ b ∈ done, b.letter ≠ unset)
    (ha : a.WellFormed) (hknown : a.Known threads) :
    ∃ s', vContToken s a.text = some s' ∧ Agrees start threads (done ++ [a]) s' := by
  have hdefault := @lastDefault_append start done a
  rcases hid : a.id with _ | _ | digits
  · refine ⟨_, vContToken_default ha hid, fun t => ?_, (hdefault.trans (if_pos hid)).symm⟩
    have hcurrent : current (done ++ [a]) t = current done t :=
      (current_append hx (by simp [hid])).trans (if_neg (by simp [VContAction.names, hid]))
    rw [hcurrent]
    exact h.commands t
  · refine ⟨_, vContToken_all ha hid, fun t => ?_, ?_⟩
    · dsimp only
      rw [h.commands, current_append_of_all hid]
      split_ifs <;> rfl
    · rw [hdefault, if_neg (by simp [hid])]
      exact h.defaultCmd
  · -- only the first command for a thread counts
    have hmem := hknown _ (VContAction.mem_digits hid)
    have hentry := h.commands (hexValue digits)
    rw [if_pos (.inr hmem)] at hentry
    refine ⟨_, by rw [vContToken_thread ha hid, hentry]; rfl, fun t => ?_, ?_⟩
    · have hnames : a.names t = true ↔ t = hexValue digits := by
        simp [VContAction.names, hid, eq_comm]
      rw [current_append hx (by simp [hid])]
      by_cases ht : t = hexValue digits
      · subst ht
        rw [if_pos (.inr hmem)]
        by_cases hcurrent : current done (hexValue digits) = unset
        · simp [hcurrent, hnames]
        · simp [hcurrent, hentry]
      · rw [@if_neg (_ ∧ _) _ fun h => ht (hnames.mp h.1), ← h.commands]
        dsimp only
        split_ifs <;> simp [ht]
    · rw [hdefault, if_neg (by simp [hid]), ← h.defaultCmd]
      dsimp only
      split_ifs <;> rfl

/-- An action with an unknown number uses an entry that does not exist. -/
theorem Agrees.step_unknown (h : Agrees start threads done s) (ha : a.WellFormed)
    (hknown : ¬ a.Known threads) : vContToken s a.text = none := by
  rw [VContAction.Known] at hknown
  push Not at hknown
  obtain ⟨digits, hdigits, hmem⟩ := hknown
  have hpos := (ha.2 _ hdigits).2.1
  have hid : a.id = some (.thread digits) := by
    rw [VContAction.digits] at hdigits
    split at hdigits <;> cases hdigits
    assumption
  rw [vContToken_thread ha hid, h.commands, if_neg (not_or.mpr ⟨by omega, hmem⟩)]
  rfl

/-- The reader goes through all actions exactly when their numbers are known. -/
theorem Agrees.run (h : Agrees start threads done s) (hx : ∀ b ∈ done ++ rest, b.letter ≠ unset)
    (hrest : ∀ a ∈ rest, a.WellFormed) :
    (∀ s', (rest.map VContAction.text).foldlM vContToken s = some s' →
      Agrees start threads (done ++ rest) s') ∧
    (((rest.map VContAction.text).foldlM vContToken s).isSome = true ↔
      ∀ a ∈ rest, a.Known threads) := by
  induction rest generalizing done s with
  | nil => simpa using h
  | cons a rest ih =>
    rw [List.forall_mem_cons] at hrest ⊢
    rw [List.map_cons, List.foldlM_cons]
    by_cases hknown : a.Known threads
    · obtain ⟨s', hs', hagrees⟩ := h.step (fun b hb => hx b (by simp [hb])) hrest.1 hknown
      have := ih hagrees (by simpa using hx) hrest.2
      simpa [hs', hknown] using this
    · simp [h.step_unknown hrest.1 hknown, hknown]

end Runs

/-! ### What threads get -/

section Follows

variable {start : Byte} {threads : List ℤ} {actions : List VContAction} {t : ℤ}

/-- What a thread has at the end. -/
def filled (start : Byte) (actions : List VContAction) (t : ℤ) : Byte :=
  if current actions t = unset then lastDefault start actions else current actions t

theorem lastAll_eq_none (h : actions.find? (·.names t) = none) : lastAll actions = none := by
  rw [lastAll, List.getLast?_eq_none_iff, List.filter_eq_nil_iff]
  intro a ha hid
  have := List.find?_eq_none.mp h a ha
  simp [VContAction.names, of_decide_eq_true hid] at this

theorem current_zero (hwf : ∀ a ∈ actions, a.WellFormed) (hall : lastAll actions = none) :
    current actions 0 = unset := by
  have hfind : actions.find? (·.names 0) = none := by
    rw [List.find?_eq_none]
    intro a ha hnames
    rcases hid : a.id with _ | _ | digits <;> simp only [VContAction.names, hid] at hnames
    · cases hnames
    · rw [lastAll, List.getLast?_eq_none_iff, List.filter_eq_nil_iff] at hall
      exact hall a ha (decide_eq_true hid)
    · have := ((hwf a ha).2 _ (VContAction.mem_digits hid)).2.1
      have := of_decide_eq_true hnames
      omega
  rw [current, hall, hfind]
  rfl

/-- What the reader answers. The rule for entry 0 changes nothing for the threads. -/
theorem parseVContPacket_eq (hx : ∀ a ∈ actions, a.letter ≠ unset)
    (hwf : ∀ a ∈ actions, a.WellFormed) :
    (∀ commands, parseVContPacket start threads (vContText actions) = some commands →
      ∀ t ∈ threads, commands t = some (filled start actions t)) ∧
    ((parseVContPacket start threads (vContText actions)).isSome = true ↔
      ∀ a ∈ actions, a.Known threads) := by
  have hstart : Agrees start threads []
      ⟨fun k => if k = 0 ∨ k ∈ threads then some unset else none, start⟩ := ⟨fun _ => rfl, rfl⟩
  obtain ⟨hrun, hknown⟩ := @Agrees.run start threads [] actions _ hstart hx hwf
  rw [parseVContPacket, tokenize_vContText hwf, Option.isSome_map]
  refine ⟨fun commands hcommands t ht => ?_, hknown⟩
  obtain ⟨s, hs, rfl⟩ := Option.map_eq_some_iff.mp hcommands
  have hagrees := hrun s hs
  have ht' : s.commands t = some (current actions t) := by
    rw [hagrees.commands, if_pos (.inr ht)]
    rfl
  have hzero : s.commands 0 = some (current actions 0) := by
    rw [hagrees.commands, if_pos (.inl rfl)]
    rfl
  have hfirst : (if t = 1 ∧ s.commands 0 ≠ some unset then s.commands 0 else s.commands t) =
      some (current actions t) := by
    split_ifs with hone
    · -- Only an action for all threads sets entry 0, and then it has set entry 1 as well.
      cases hall : lastAll actions with
      | none => exact absurd (hzero.trans (congrArg some (current_zero hwf hall))) hone.2
      | some a =>
        rw [hzero, current, current, hall]
    · exact ht'
  dsimp only
  rw [hfirst, filled, hagrees.defaultCmd]
  split_ifs with h h' h'
  · rfl
  · exact absurd (Option.some.inj h) h'
  · exact absurd (congrArg some h') h
  · rfl

theorem lastDefault_of_exists (h : ∃ a ∈ actions, a.id = none) :
    ∃ a ∈ actions, a.id = none ∧ lastDefault start actions = a.letter := by
  rw [lastDefault]
  cases hlast : (actions.filter fun a => a.id = none).getLast? with
  | none =>
    rw [List.getLast?_eq_none_iff, List.filter_eq_nil_iff] at hlast
    obtain ⟨a, ha, hid⟩ := h
    exact absurd (decide_eq_true hid) (hlast a ha)
  | some a =>
    obtain ⟨ha, hid⟩ := List.mem_filter.mp (List.mem_of_getLast? hlast)
    exact ⟨a, ha, of_decide_eq_true hid, rfl⟩

theorem lastDefault_of_not_exists (h : ¬ ∃ a ∈ actions, a.id = none) :
    lastDefault start actions = start := by
  have hnone : actions.filter (fun a => decide (a.id = none)) = [] := by
    rw [List.filter_eq_nil_iff]
    exact fun a ha hid => h ⟨a, ha, of_decide_eq_true hid⟩
  rw [lastDefault, hnone]
  rfl

/-- A thread has the right command exactly when the last action for all threads agrees with the
leftmost action for the thread, and there is a default if there is no action for it. -/
theorem assigned_filled_iff (hx : ∀ a ∈ actions, a.letter ≠ unset) :
    (∀ start, Assigned actions t (filled start actions t)) ↔
      (∀ a, lastAll actions = some a → ∀ b, actions.find? (·.names t) = some b →
        b.letter = a.letter) ∧
      ((∃ a ∈ actions, a.names t = true) ∨ ∃ a ∈ actions, a.id = none) := by
  cases hfind : actions.find? (·.names t) with
  | some b =>
    have hb := List.mem_of_find?_eq_some hfind
    have hnamed : (∃ a ∈ actions, a.names t = true) ∨ ∃ a ∈ actions, a.id = none :=
      .inl ⟨b, hb, List.find?_some hfind⟩
    simp only [Assigned, hfind, filled, current, hnamed, and_true, Option.some.injEq,
      forall_eq']
    cases hall : lastAll actions with
    | none => simp [hx b hb]
    | some a => simp [hx a (mem_of_lastAll hall).1, eq_comm]
  | none =>
    have hunnamed : ¬ ∃ a ∈ actions, a.names t = true := by
      simpa using List.find?_eq_none.mp hfind
    have hcurrent : current actions t = unset := by
      rw [current, lastAll_eq_none hfind, hfind]
      rfl
    simp only [Assigned, hfind, filled, hcurrent, if_true, lastAll_eq_none hfind, hunnamed,
      false_or, reduceCtorEq, false_implies, implies_true, true_and]
    split_ifs with hdefault
    · exact iff_of_true (fun start => lastDefault_of_exists hdefault) hdefault
    · refine iff_of_false (fun h => ?_) hdefault
      have := h 0
      rw [lastDefault_of_not_exists hdefault] at this
      exact absurd this (by decide)

/-- If no action has the letter that marks threads without a command, every thread gets the
leftmost action for it, or else a default or nothing, exactly when all numbers are known, the last
action for all threads agrees with the actions before it, and there is a default for threads without
an action. -/
theorem parseVContPacket_iff (hx : ∀ a ∈ actions, a.letter ≠ unset)
    (hwf : ∀ a ∈ actions, a.WellFormed) :
    Follows threads actions ↔ Plain threads actions := by
  have heq := fun start => @parseVContPacket_eq start threads actions hx hwf
  constructor
  · intro h
    have hassigned : ∀ t ∈ threads, ∀ start, Assigned actions t (filled start actions t) := by
      intro t ht start
      obtain ⟨commands, hcommands, hall⟩ := h start
      obtain ⟨c, hc, hassigned⟩ := hall t ht
      obtain rfl := Option.some.inj (hc.symm.trans ((heq start).1 _ hcommands t ht))
      exact hassigned
    refine ⟨?_, fun a ha t ht => ?_, fun t ht => ?_⟩
    · obtain ⟨commands, hcommands, -⟩ := h 0
      exact (heq 0).2.mp (by rw [hcommands]; rfl)
    · exact ((assigned_filled_iff hx).mp (hassigned t ht)).1 a ha
    · exact ((assigned_filled_iff hx).mp (hassigned t ht)).2
  · intro h start
    obtain ⟨commands, hcommands⟩ := Option.isSome_iff_exists.mp ((heq start).2.mpr h.known)
    refine ⟨commands, hcommands, fun t ht => ⟨_, (heq start).1 _ hcommands t ht, ?_⟩⟩
    exact (assigned_filled_iff hx).mpr ⟨fun a ha => h.last_all a ha t ht, h.covered t ht⟩ start

def stepOne : List VContAction :=
  [⟨[code 's'], some (.thread [code '1'])⟩, ⟨[code 'c'], none⟩]

theorem stepOne_followed : vContText stepOne = [code 's', code ':', code '1', code ';', code 'c'] ∧
    Follows [1, 2] stepOne := by
  have hall : lastAll stepOne = none := rfl
  refine ⟨rfl, (parseVContPacket_iff (by decide) (by decide)).mpr ⟨by decide, ?_, by decide⟩⟩
  intro a ha
  cases hall.symm.trans ha

/-- Thread 1 is to continue, but a step for all threads behind it takes its place. An action for
an unknown thread uses an entry that does not exist. -/
theorem step_all_replaces :
    ¬ Follows [1, 2] [⟨[code 'c'], some (.thread [code '1'])⟩, ⟨[code 's'], some .all⟩] ∧
      ¬ Follows [1, 2] [⟨[code 's'], some (.thread [code '3'])⟩, ⟨[code 'c'], none⟩] := by
  constructor
  · intro h
    obtain ⟨commands, hcommands, hall⟩ := h 0
    obtain ⟨c, hc, hassigned⟩ := hall 1 (by decide)
    have hstep : (parseVContPacket 0 [1, 2] (vContText [⟨[code 'c'], some (.thread [code '1'])⟩,
        ⟨[code 's'], some .all⟩])).bind (· 1) = some (code 's') := by decide +kernel
    rw [hcommands, Option.bind_some, hc] at hstep
    exact absurd (hassigned.symm.trans (Option.some.inj hstep)) (by decide)
  · intro h
    obtain ⟨commands, hcommands, -⟩ := h 0
    have hnone : (parseVContPacket 0 [1, 2] (vContText [⟨[code 's'], some (.thread [code '3'])⟩,
        ⟨[code 'c'], none⟩])).isNone = true := by decide +kernel
    rw [hcommands] at hnone
    cases hnone

end Follows

end Adl.Gdb
