import Adl.Math.Search
import Mathlib.Algebra.GroupWithZero.Nat
import Mathlib.Data.Int.Order.Basic
import Mathlib.Data.List.Lex
import Mathlib.Data.List.Pairwise
import Mathlib.Order.Fin.Basic

/-!
# The comparisons of tokens

A token is a piece of text that is not terminated. Comparisons with another token, a C string or a
`std::string` have code of their own. Equality with a string looks only at as many characters as the
token has, and the difference of two lengths is a number of 32 bits.
-/

namespace Adl.Dat.TokenOrder

open Adl.Math

abbrev Byte := Fin 256

/-- A text without zero bytes, which is followed by one if it is a C string. -/
structure Text where
  chars : List Byte
  plain : 0 ∉ chars

/-- The length of a token is an `unsigned`. -/
structure Token extends Text where
  length_lt : chars.length < 2 ^ 32

/-! ### The comparisons -/

/-- `strncmp`: the difference of the first characters that differ. -/
def strncmp : ℕ → List Byte → List Byte → ℤ
  | 0, _, _ => 0
  | n + 1, p, q =>
    if p.headD 0 ≠ q.headD 0 then (p.headD 0).val - (q.headD 0).val
    else if p.headD 0 = 0 then 0 else strncmp n p.tail q.tail

def eqChars (p q : List Byte) : Bool :=
  if p.length ≠ q.length then false else strncmp p.length p q = 0

def Token.eq (t u : Token) : Bool := eqChars t.chars u.chars

def Token.eqCString (t : Token) (x : Text) : Bool := eqChars t.chars x.chars

/-- `x.compare(0,size(),data(),size()) == 0`. -/
def Token.eqString (t : Token) (x : Text) : Bool := x.chars.take t.chars.length = t.chars

def Token.cmp (t u : Token) : ℤ :=
  let r := strncmp (min t.chars.length u.chars.length) t.chars u.chars
  if r = 0 then (BitVec.ofNat 32 t.chars.length - BitVec.ofNat 32 u.chars.length).toInt else r

def Token.lt (t u : Token) : Bool := t.cmp u < 0

def ltCString : List Byte → List Byte → Bool
  | [], dst => dst.headD 0 ≠ 0
  | c :: src, dst => if c = dst.headD 0 then ltCString src dst.tail else c < dst.headD 0

def cStringLt : List Byte → List Byte → Bool
  | _, [] => false
  | src, c :: dst => if src.headD 0 = c then cStringLt src.tail dst else src.headD 0 < c

/-- Strings are ordered as C strings. -/
def ltString (t n : List Byte) : Bool := ltCString t n

def stringLt (n t : List Byte) : Bool := cStringLt n t

/-- Equality and both orders are those of the texts, and exactly one of them holds. -/
structure Agrees (eq lt gt : Bool) (x y : List Byte) : Prop where
  eq_iff : eq = true ↔ x = y
  lt_iff : lt = true ↔ x < y
  gt_iff : gt = true ↔ y < x
  one : eq.toNat + lt.toNat + gt.toNat = 1

structure Coherent (t u : Token) (s : Text) : Prop where
  token : Agrees (t.eq u) (t.lt u) (u.lt t) t.chars u.chars
  cString : Agrees (t.eqCString s) (ltCString t.chars s.chars) (cStringLt s.chars t.chars)
    t.chars s.chars
  string : Agrees (t.eqString s) (ltString t.chars s.chars) (stringLt s.chars t.chars)
    t.chars s.chars

/-- If one token starts with the other, the difference of their lengths is an `int`. -/
def Near (t u : Token) : Prop :=
  (t.chars <+: u.chars → u.chars.length - t.chars.length < 2 ^ 31) ∧
    (u.chars <+: t.chars → t.chars.length - u.chars.length < 2 ^ 31)

/-! ### Lookup -/

variable {α : Type*}

/-- What `finalize` may leave behind. -/
def Finalized (table order : List (Token × α)) : Prop :=
  Sorts (fun x y => x.1.lt y.1) table order

/-- `find_key` for a C string. -/
def findCString (order : List (Token × α)) (n : Text) : Option (Token × α) :=
  search (fun x => ltCString x.1.chars n.chars) (fun x => cStringLt n.chars x.1.chars) order

/-- `find_key` for a token. -/
def findToken (order : List (Token × α)) (t : Token) : Option (Token × α) :=
  search (fun x => x.1.lt t) (fun x => t.lt x.1) order

/-- Every key is found exactly if it is there. -/
def FindsKeys (table : List (Token × α)) : Prop :=
  ∀ order, Finalized table order →
    (∀ n : Text, (findCString order n).isSome ↔ ∃ x ∈ table, x.1.chars = n.chars) ∧
    ∀ t : Token, (findToken order t).isSome ↔ ∃ x ∈ table, x.1.chars = t.chars

/-! ### Orders -/

section Orders

variable {p q : List Byte} {t u : Token}

theorem head_ne_zero {c : Byte} (h : 0 ∉ c :: p) : c ≠ 0 := fun hc => h (hc ▸ List.mem_cons_self)

theorem tail_plain {c : Byte} (h : 0 ∉ c :: p) : 0 ∉ p := fun hp => h (List.mem_cons_of_mem c hp)

theorem ltCString_iff (hp : 0 ∉ p) (hq : 0 ∉ q) : ltCString p q = true ↔ p < q := by
  induction p generalizing q with
  | nil =>
    rcases q with _ | ⟨d, q⟩
    · simp [ltCString]
    · simp [ltCString, head_ne_zero hq]
  | cons c p ih =>
    rcases q with _ | ⟨d, q⟩
    · simp [ltCString, head_ne_zero hp]
    · rw [ltCString, List.headD_cons, List.cons_lt_cons_iff]
      split_ifs with heq
      · rw [List.tail_cons, ih (tail_plain hp) (tail_plain hq)]
        simp [heq]
      · simp [heq]

theorem cStringLt_iff (hp : 0 ∉ p) (hq : 0 ∉ q) : cStringLt p q = true ↔ p < q := by
  induction q generalizing p with
  | nil => simp [cStringLt]
  | cons d q ih =>
    rcases p with _ | ⟨c, p⟩
    · have hd := head_ne_zero hq
      simp [cStringLt, hd.symm, Fin.pos_iff_ne_zero, hd]
    · rw [cStringLt, List.headD_cons, List.cons_lt_cons_iff]
      split_ifs with heq
      · rw [List.tail_cons, ih (tail_plain hp) (tail_plain hq)]
        simp [heq]
      · simp [heq]

theorem strncmp_min (hp : 0 ∉ p) (hq : 0 ∉ q) :
    (strncmp (min p.length q.length) p q = 0 ↔ p <+: q ∨ q <+: p) ∧
      (strncmp (min p.length q.length) p q < 0 ↔ p < q ∧ ¬ p <+: q) := by
  -- No character is zero, so that the comparison never ends early.
  induction p generalizing q with
  | nil => simp [strncmp]
  | cons c p ih =>
    rcases q with _ | ⟨d, q⟩
    · simp [strncmp]
    · rw [List.length_cons, List.length_cons, Nat.succ_min_succ, strncmp, List.headD_cons,
        List.headD_cons, List.cons_prefix_cons, List.cons_prefix_cons, List.cons_lt_cons_iff]
      by_cases heq : c = d
      · subst heq
        rw [if_neg (not_not.mpr rfl), if_neg (head_ne_zero hp), List.tail_cons, List.tail_cons]
        simpa using ih (tail_plain hp) (tail_plain hq)
      · rw [if_pos heq]
        have hne : c.val ≠ d.val := fun h => heq (Fin.ext h)
        constructor
        · simp [heq, Ne.symm heq]
          omega
        · have hsub : ((c.val : ℤ) - d.val < 0) ↔ c < d := by
            rw [Fin.lt_def]
            omega
          simp [heq, hsub]

theorem eqChars_iff (hp : 0 ∉ p) (hq : 0 ∉ q) : eqChars p q = true ↔ p = q := by
  rw [eqChars]
  split_ifs with hlen
  · exact iff_of_false not_false fun h => hlen (by rw [h])
  · rw [not_not] at hlen
    have h := (strncmp_min hp hq).1
    rw [← hlen, Nat.min_self] at h
    rw [decide_eq_true_iff, h]
    exact ⟨fun h => h.elim (·.eq_of_length hlen) fun h => (h.eq_of_length hlen.symm).symm,
      fun h => .inl (h ▸ List.prefix_rfl)⟩

theorem eqString_iff (t : Token) (s : Text) : t.eqString s = true ↔ t.chars <+: s.chars := by
  rw [Token.eqString, decide_eq_true_iff, eq_comm]
  exact List.prefix_iff_eq_take.symm

theorem lt_iff_of_differs (htu : ¬ t.chars <+: u.chars) (hut : ¬ u.chars <+: t.chars) :
    t.lt u = true ↔ t.chars < u.chars := by
  obtain ⟨hzero, hneg⟩ := strncmp_min t.plain u.plain
  rw [Token.lt, Token.cmp, decide_eq_true_iff, if_neg (mt hzero.mp (not_or.mpr ⟨htu, hut⟩)), hneg,
    and_iff_left htu]

theorem lt_iff_of_starts (h : t.chars <+: u.chars) :
    (t.lt u = true ↔ 0 < u.chars.length - t.chars.length ∧
      u.chars.length - t.chars.length ≤ 2 ^ 31) ∧
    (u.lt t = true ↔ 2 ^ 31 ≤ u.chars.length - t.chars.length) := by
  have hle := h.length_le
  have ht := t.length_lt
  have hu := u.length_lt
  have htu := (strncmp_min t.plain u.plain).1.mpr (.inl h)
  have hut := (strncmp_min u.plain t.plain).1.mpr (.inr h)
  constructor
  · rw [Token.lt, Token.cmp, decide_eq_true_iff, if_pos htu, BitVec.toInt_neg_iff,
      BitVec.toNat_sub, BitVec.toNat_ofNat, BitVec.toNat_ofNat]
    omega
  · rw [Token.lt, Token.cmp, decide_eq_true_iff, if_pos hut, BitVec.toInt_neg_iff,
      BitVec.toNat_sub, BitVec.toNat_ofNat, BitVec.toNat_ofNat]
    omega

theorem lt_of_starts (h : p <+: q) : p < q ↔ 0 < q.length - p.length := by
  obtain ⟨r, rfl⟩ := h
  rcases r with _ | ⟨c, r⟩
  · simp
  · have hlt : p ++ [] < p ++ c :: r := List.append_left_lt (List.nil_lt_cons c r)
    rw [List.append_nil] at hlt
    simp [hlt]

theorem not_lt_of_starts (h : p <+: q) : ¬ q < p := by
  rcases eq_or_ne p q with rfl | hne
  · exact lt_irrefl p
  · refine lt_asymm ((lt_of_starts h).mpr ?_)
    have := h.length_le
    have : p.length ≠ q.length := fun hlen => hne (h.eq_of_length hlen)
    omega

theorem near_iff : Near t u ↔
    (t.lt u = true ↔ t.chars < u.chars) ∧ (u.lt t = true ↔ u.chars < t.chars) := by
  have hstarts : ∀ {t u : Token}, t.chars <+: u.chars →
      ((t.lt u = true ↔ t.chars < u.chars) ∧ (u.lt t = true ↔ u.chars < t.chars) ↔
        u.chars.length - t.chars.length < 2 ^ 31) := by
    intro t u h
    rw [(lt_iff_of_starts h).1, (lt_iff_of_starts h).2, lt_of_starts h,
      iff_false_right (not_lt_of_starts h)]
    omega
  by_cases htu : t.chars <+: u.chars
  · rw [hstarts htu, Near]
    refine ⟨fun h => h.1 htu, fun h => ⟨fun _ => h, fun hut => ?_⟩⟩
    have := hut.length_le
    have := htu.length_le
    omega
  by_cases hut : u.chars <+: t.chars
  · rw [and_comm, hstarts hut, Near]
    exact ⟨fun h => h.2 hut, fun h => ⟨fun h => absurd h htu, fun _ => h⟩⟩
  · exact iff_of_true ⟨fun h => absurd h htu, fun h => absurd h hut⟩
      ⟨lt_iff_of_differs htu hut, lt_iff_of_differs hut htu⟩

theorem Agrees.mk' {eq lt gt : Bool} (heq : eq = true ↔ p = q) (hlt : lt = true ↔ p < q)
    (hgt : gt = true ↔ q < p) : Agrees eq lt gt p q := by
  refine ⟨heq, hlt, hgt, ?_⟩
  rcases lt_trichotomy p q with h | h | h
  · rw [hlt.mpr h, Bool.eq_false_iff.mpr (mt heq.mp h.ne),
      Bool.eq_false_iff.mpr (mt hgt.mp h.asymm)]
    rfl
  · rw [heq.mpr h, Bool.eq_false_iff.mpr (mt hlt.mp (h ▸ lt_irrefl _)),
      Bool.eq_false_iff.mpr (mt hgt.mp (h ▸ lt_irrefl _))]
    rfl
  · rw [hgt.mpr h, Bool.eq_false_iff.mpr (mt heq.mp h.ne'),
      Bool.eq_false_iff.mpr (mt hlt.mp h.asymm)]
    rfl

/-- The comparisons agree exactly if no string goes on behind the token and tokens are near. -/
theorem coherent_iff (t u : Token) (s : Text) :
    Coherent t u s ↔ (t.chars <+: s.chars → t.chars = s.chars) ∧ Near t u := by
  constructor
  · intro h
    exact ⟨fun hstarts => h.string.eq_iff.mp ((eqString_iff t s).mpr hstarts),
      near_iff.mpr ⟨h.token.lt_iff, h.token.gt_iff⟩⟩
  · rintro ⟨hstring, hnear⟩
    obtain ⟨hlt, hgt⟩ := near_iff.mp hnear
    have hs := ltCString_iff t.plain s.plain
    have hs' := cStringLt_iff s.plain t.plain
    refine ⟨.mk' (eqChars_iff t.plain u.plain) hlt hgt, .mk' (eqChars_iff t.plain s.plain) hs hs',
      .mk' ?_ hs hs'⟩
    rw [eqString_iff]
    exact ⟨hstring, fun h => h ▸ List.prefix_rfl⟩

end Orders

/-! ### Lookups -/

section Lookup

variable {table order : List (Token × α)}

theorem strictWeak_of_near (h : ∀ x ∈ table, ∀ y ∈ table, Near x.1 y.1) :
    StrictWeak (fun x y => x.1.lt y.1) table := by
  have hlt : ∀ x ∈ table, ∀ y ∈ table, (x.1.lt y.1 = true ↔ x.1.chars < y.1.chars) :=
    fun x hx y hy => (near_iff.mp (h x hx y hy)).1
  refine ⟨⟨fun a ha b hb hab => ?_, fun a ha b hb c hc hab hbc => ?_⟩,
    fun a ha b hb c hc hab hbc => ?_⟩
  · rw [hlt a ha b hb] at hab
    rw [← Bool.not_eq_true, hlt b hb a ha]
    exact lt_asymm hab
  · rw [hlt a ha b hb] at hab
    rw [hlt b hb c hc] at hbc
    exact (hlt a ha c hc).mpr (hab.trans hbc)
  · rw [← Bool.not_eq_true, hlt a ha b hb, not_lt] at hab
    rw [← Bool.not_eq_true, hlt b hb c hc, not_lt] at hbc
    rw [← Bool.not_eq_true, hlt a ha c hc, not_lt]
    exact hbc.trans hab

theorem search_isSome {below above : Token × α → Bool} {key : List Byte}
    (hsorted : order.Pairwise fun x y => ¬ y.1.chars < x.1.chars)
    (hbelow : ∀ x ∈ order, (below x = true ↔ x.1.chars < key))
    (habove : ∀ x ∈ order, (above x = true ↔ key < x.1.chars)) {x : Token × α} (hx : x ∈ order)
    (hkey : x.1.chars = key) : (search below above order).isSome := by
  have hnot : below x = false := Bool.eq_false_iff.mpr fun h =>
    lt_irrefl key (hkey ▸ (hbelow x hx).mp h)
  obtain ⟨e, he⟩ := Option.isSome_iff_exists.mp (List.find?_isSome (p := fun e => !below e) |>.mpr
    ⟨x, hx, by rw [hnot]; rfl⟩)
  refine Option.isSome_iff_exists.mpr ⟨e, search_eq_some_iff.mpr ⟨?_, ?_, he, ?_⟩⟩
  · refine hsorted.imp_of_mem fun {a b} ha hb hab h => ?_
    exact (hbelow a ha).mpr ((not_lt.mp hab).trans_lt ((hbelow b hb).mp h))
  · refine hsorted.imp_of_mem fun {a b} ha hb hab h => ?_
    exact (habove b hb).mpr (((habove a ha).mp h).trans_le (not_lt.mp hab))
  · -- The key itself stands at the place that is found, or behind it.
    obtain ⟨-, before, after, rfl, hfirst⟩ := List.find?_eq_some_iff_append.mp he
    rw [← Bool.not_eq_true, habove e (List.mem_append_right _ List.mem_cons_self), ← hkey]
    rcases List.mem_append.mp hx with hmem | hmem
    · have := hfirst x hmem
      rw [hnot] at this
      cases this
    · rcases List.mem_cons.mp hmem with rfl | hmem
      · exact lt_irrefl _
      · exact (List.pairwise_cons.mp (List.pairwise_append.mp hsorted).2.1).1 x hmem

theorem mem_of_search {β : Type*} {below above : β → Bool} {l : List β}
    (h : (search below above l).isSome) : ∃ x ∈ l, below x = false ∧ above x = false := by
  obtain ⟨x, hx⟩ := Option.isSome_iff_exists.mp h
  obtain ⟨-, -, hfind, habove⟩ := search_eq_some_iff.mp hx
  exact ⟨x, List.mem_of_find?_eq_some hfind, by simpa using List.find?_some hfind, habove⟩

theorem chars_eq_of_not_lt {t u : Token} (htu : t.lt u = false) (hut : u.lt t = false) :
    t.chars = u.chars := by
  have hstarts : ∀ {t u : Token}, t.lt u = false → u.lt t = false → t.chars <+: u.chars →
      t.chars = u.chars := by
    intro t u htu hut h
    rw [← Bool.not_eq_true, (lt_iff_of_starts h).1] at htu
    rw [← Bool.not_eq_true, (lt_iff_of_starts h).2] at hut
    have := h.length_le
    exact h.eq_of_length (by omega)
  by_cases h : t.chars <+: u.chars
  · exact hstarts htu hut h
  by_cases h' : u.chars <+: t.chars
  · exact (hstarts hut htu h').symm
  · rw [← Bool.not_eq_true, lt_iff_of_differs h h', not_lt] at htu
    rw [← Bool.not_eq_true, lt_iff_of_differs h' h, not_lt] at hut
    exact le_antisymm hut htu

theorem findsKeys_of_near (h : ∀ x ∈ table, ∀ y ∈ table, Near x.1 y.1) : FindsKeys table := by
  intro order horder
  have hmem : ∀ {x}, x ∈ order ↔ x ∈ table := horder.perm.mem_iff
  have hsorted : order.Pairwise fun x y => ¬ y.1.chars < x.1.chars := by
    refine (horder.sorted (strictWeak_of_near h)).imp_of_mem fun {a b} ha hb hba hlt => ?_
    have hnear := near_iff.mp (h b (hmem.mp hb) a (hmem.mp ha))
    exact Bool.false_ne_true (hba.symm.trans (hnear.1.mpr hlt))
  refine ⟨fun n => ⟨fun hfound => ?_, fun ⟨x, hx, hkey⟩ => ?_⟩,
    fun t => ⟨fun hfound => ?_, fun ⟨x, hx, hkey⟩ => ?_⟩⟩
  · obtain ⟨x, hx, hbelow, habove⟩ := mem_of_search hfound
    rw [← Bool.not_eq_true, ltCString_iff x.1.plain n.plain, not_lt] at hbelow
    rw [← Bool.not_eq_true, cStringLt_iff n.plain x.1.plain, not_lt] at habove
    exact ⟨x, hmem.mp hx, le_antisymm habove hbelow⟩
  · exact search_isSome hsorted (fun x _ => ltCString_iff x.1.plain n.plain)
      (fun x _ => cStringLt_iff n.plain x.1.plain) (hmem.mpr hx) hkey
  · obtain ⟨x, hx, hbelow, habove⟩ := mem_of_search hfound
    exact ⟨x, hmem.mp hx, chars_eq_of_not_lt hbelow habove⟩
  · -- A token that is there is near to all keys.
    have hnear : ∀ y ∈ order, Near y.1 t := fun y hy => by
      have := h y (hmem.mp hy) x hx
      rwa [Near, hkey] at this
    exact search_isSome hsorted (fun y hy => (near_iff.mp (hnear y hy)).1)
      (fun y hy => (near_iff.mp (hnear y hy)).2) (hmem.mpr hx) hkey

/-- Two keys of which one is much longer can come in the wrong order; then the shorter one is not
found. -/
theorem near_of_findsKeys (h : FindsKeys table) {x y : Token × α} (hx : x ∈ table) (hy : y ∈ table)
    (hstarts : x.1.chars <+: y.1.chars) : y.1.chars.length - x.1.chars.length < 2 ^ 31 := by
  by_contra hfar
  have hlt : y.1.lt x.1 = true := (lt_iff_of_starts hstarts).2.mpr (not_lt.mp hfar)
  have hne : x ≠ y := fun heq => hfar (by rw [heq, Nat.sub_self]; decide)
  -- An order in which the shorter key stands behind the longer one.
  obtain ⟨before, after, horder, hafter⟩ : ∃ before after,
      Finalized table (before ++ y :: after) ∧ x ∈ after := by
    by_cases hweak : StrictWeak (fun x y : Token × α => x.1.lt y.1) table
    · obtain ⟨before, after, hperm, hsorted, hfirst, -⟩ :=
        hweak.toStrictOrder.exists_sorted_first hy
      refine ⟨before, after, ⟨hperm, fun _ => hsorted⟩, ?_⟩
      rcases List.mem_append.mp (hperm.symm.subset hx) with hmem | hmem
      · exact absurd (hfirst x hmem) (by simp [hweak.asymm y hy x hx hlt])
      · exact (List.mem_cons.mp hmem).resolve_left hne
    · obtain ⟨front, back, rfl⟩ := List.append_of_mem hy
      refine ⟨[], front ++ back, ⟨List.perm_middle.symm, fun h => absurd h hweak⟩, ?_⟩
      exact (List.mem_cons.mp (List.perm_middle.subset hx)).resolve_left hne
  obtain ⟨e, he⟩ := Option.isSome_iff_exists.mp
    (((h _ horder).1 x.1.toText).mpr ⟨x, hx, rfl⟩)
  have habove := (List.pairwise_cons.mp
    (List.pairwise_append.mp (search_eq_some_iff.mp he).2.1).2.1).1 x hafter
  rw [cStringLt_iff x.1.plain y.1.plain, cStringLt_iff x.1.plain x.1.plain,
    lt_of_starts hstarts] at habove
  exact lt_irrefl _ (habove (by omega))

end Lookup

/-- The comparisons agree and keys are found exactly if no string goes on behind the token it is
compared with, and of tokens that start with each other none is longer by more than an `int`. -/
theorem token_coherent_iff (t u : Token) (s : Text) (table : List (Token × α)) :
    (Coherent t u s ∧ FindsKeys table) ↔
      ((t.chars <+: s.chars → t.chars = s.chars) ∧ Near t u) ∧
        ∀ x ∈ table, ∀ y ∈ table, Near x.1 y.1 := by
  rw [coherent_iff]
  refine and_congr_right fun _ => ⟨fun h x hx y hy => ⟨?_, ?_⟩, findsKeys_of_near⟩
  · exact near_of_findsKeys h hx hy
  · exact near_of_findsKeys h hy hx

/-- A token is equal to a longer string, and smaller than it. -/
theorem token_eq_longer_string :
    let t : Token := ⟨⟨[97, 98], by decide⟩, by decide⟩
    let s : Text := ⟨[97, 98, 99], by decide⟩
    t.eqString s = true ∧ ltString t.chars s.chars = true ∧ t.chars ≠ s.chars := by
  decide

end Adl.Dat.TokenOrder
