import Adl.Math.KeyedList
import Adl.Trace.Token

/-!
# When the equality of cards is an equivalence

The comparison of two cards is driven by the fields of the first one: a field without a value is
passed over, and a number is compared with the number at the start of the other value. A conversion
that is out of range marks `errno` for all comparisons that follow.
-/

namespace Adl.Trace

open Adl.Math

/-! ### Comparing cards and tables -/

structure Card where
  type : String
  data : Pairs
  deriving DecidableEq

/-- The key of the results of a cache or a translation table. -/
structure Key where
  name : String
  set : BitVec 64
  way : Int
  deriving DecidableEq

abbrev KeyHash := Table Key Card

/-- The loop over the fields in the comparison of cards. -/
def samePairs : Pairs → Pairs → Errno → Bool × Errno
  | x :: xs, y :: ys, errno =>
    if x.2 = "" then samePairs xs ys errno
    else if x.1 ≠ y.1 then (false, errno)
    else
      match atoi64Exact x.2 errno with
      | (none, errno) => if x.2 ≠ y.2 then (false, errno) else samePairs xs ys errno
      | (some xd, errno) =>
        let (yd, errno) := atoi64 y.2 errno
        if xd ≠ yd then (false, errno) else samePairs xs ys errno
  | _, _, errno => (true, errno)

def Card.same (x y : Card) (errno : Errno) : Bool × Errno :=
  if x.type ≠ y.type ∨ x.data.length ≠ y.data.length then (false, errno)
  else samePairs x.data y.data errno

/-- Look up every expected entry. The comparison of values may change `errno`. -/
def compareHashes2 {κ α : Type} [DecidableEq κ] (same : α → α → Errno → Bool × Errno)
    (exp fnd : Table κ α) (ignoreExtra : Bool) (errno : Errno) : Bool × Errno :=
  exp.entries.foldl (fun (errors, errno) (k, e) =>
    match fnd.find k with
    | none => (errors || !ignoreExtra, errno)
    | some f =>
      let (eq, errno) := same e f errno
      (errors || !eq, errno)) (false, errno)

/-- A field of the first card passes the comparison. -/
def FieldSame (errno : Errno) (x y : TokPair) : Prop :=
  x.2 = "" ∨ x.1 = y.1 ∧ (exact errno x.2).elim (x.2 = y.2) (· = leading y.2)

/-- A field without a value meets only what passes it, and no number meets another text that starts
with it. -/
structure Unmixed (V : Set TokPair) (errno : Errno) : Prop where
  empty : ∀ f ∈ V, f.2 = "" → ∀ g ∈ V, FieldSame errno g f
  number : ∀ f ∈ V, ∀ g ∈ V, f.1 = g.1 → g.2 ≠ "" → exact errno g.2 = none →
    exact errno f.2 ≠ some (leading g.2)

/-- Numbers that are equal are spelled alike. -/
def Spelled (V : Set TokPair) : Prop :=
  ∀ f ∈ V, ∀ g ∈ V, f.1 = g.1 → (exact false f.2).isSome → exact false f.2 = exact false g.2 →
    f.2 = g.2

/-- No comparison changes the outcome of others: no number is out of range, or numbers are equal
only if they are spelled alike. -/
def Unmarked (V : Set TokPair) (errno : Errno) : Prop :=
  errno = true ∨ (∀ f ∈ V, outOfRange f.2 = false) ∨ Spelled V

/-- The card has fields of the set only. -/
def Card.Over (V : Set TokPair) (c : Card) : Prop := ∀ f ∈ c.data, f ∈ V

/-! ### Fields -/

section Fields

variable {V : Set TokPair} {errno : Errno} {f g h : TokPair}

theorem fieldSame_of_number {n : BitVec 64} (hf : exact errno f.2 = some n) :
    FieldSame errno f g ↔ f.1 = g.1 ∧ n = leading g.2 := by
  have hne : f.2 ≠ "" := fun hempty => by simp [hempty, exact, atoi64Exact] at hf
  rw [FieldSame, hf, or_iff_right hne]
  rfl

theorem fieldSame_of_text (hne : f.2 ≠ "") (hf : exact errno f.2 = none) :
    FieldSame errno f g ↔ f.1 = g.1 ∧ f.2 = g.2 := by
  rw [FieldSame, hf, or_iff_right hne]
  rfl

theorem fieldSame_refl (f : TokPair) : FieldSame errno f f := by
  rcases hf : exact errno f.2 with _ | n
  · by_cases hne : f.2 = ""
    · exact .inl hne
    · exact (fieldSame_of_text hne hf).mpr ⟨rfl, rfl⟩
  · exact (fieldSame_of_number hf).mpr ⟨rfl, (exact_eq_some hf).1⟩

namespace Unmixed

variable (hV : Unmixed V errno) (hf : f ∈ V) (hg : g ∈ V)
include hV hf hg

theorem exact_eq {n : BitVec 64} (hn : exact errno f.2 = some n) (h : FieldSame errno f g) :
    g.2 = "" ∨ exact errno g.2 = some n := by
  obtain ⟨hkey, hlead⟩ := (fieldSame_of_number hn).mp h
  refine Classical.or_iff_not_imp_left.mpr fun hne => ?_
  rcases hm : exact errno g.2 with _ | m
  · exact absurd (hn.trans (congrArg some hlead)) (hV.number f hf g hg hkey hne hm)
  · rw [hlead, (exact_eq_some hm).1]

theorem symm (h : FieldSame errno f g) : FieldSame errno g f := by
  by_cases hgne : g.2 = ""
  · exact .inl hgne
  rcases hn : exact errno f.2 with _ | n
  · by_cases hfne : f.2 = ""
    · exact hV.empty f hf hfne g hg
    · obtain ⟨hkey, htext⟩ := (fieldSame_of_text hfne hn).mp h
      exact (fieldSame_of_text hgne (htext ▸ hn)).mpr ⟨hkey.symm, htext.symm⟩
  · have hm := (hV.exact_eq hf hg hn h).resolve_left hgne
    obtain ⟨hkey, -⟩ := (fieldSame_of_number hn).mp h
    exact (fieldSame_of_number hm).mpr ⟨hkey.symm, (exact_eq_some hn).1⟩

theorem trans (hh : h ∈ V) (hfg : FieldSame errno f g) (hgh : FieldSame errno g h) :
    FieldSame errno f h := by
  by_cases hhne : h.2 = ""
  · exact hV.empty h hh hhne f hf
  have hhg := hV.symm hg hh hgh
  rcases hn : exact errno f.2 with _ | n
  · by_cases hfne : f.2 = ""
    · exact .inl hfne
    · obtain ⟨hkey, htext⟩ := (fieldSame_of_text hfne hn).mp hfg
      obtain ⟨hkey', htext'⟩ := (fieldSame_of_text (htext ▸ hfne) (htext ▸ hn)).mp hgh
      exact (fieldSame_of_text hfne hn).mpr ⟨hkey.trans hkey', htext.trans htext'⟩
  · obtain ⟨hkey, hlead⟩ := (fieldSame_of_number hn).mp hfg
    rcases hV.exact_eq hf hg hn hfg with hgne | hm
    · -- What passes an empty value is the number that is read from it.
      rcases hm : exact errno h.2 with _ | m
      · exact absurd ((fieldSame_of_text hhne hm).mp hhg).2 fun heq => hhne (heq.trans hgne)
      · obtain ⟨hkey', hlead'⟩ := (fieldSame_of_number hm).mp hhg
        refine (fieldSame_of_number hn).mpr ⟨hkey.trans hkey'.symm, ?_⟩
        rw [hlead, ← hlead', (exact_eq_some hm).1]
    · obtain ⟨hkey', hlead'⟩ := (fieldSame_of_number hm).mp hgh
      exact (fieldSame_of_number hn).mpr ⟨hkey.trans hkey', hlead'⟩

theorem mark_eq (h : FieldSame errno f g) :
    (errno || outOfRange f.2) = (errno || outOfRange g.2) := by
  -- Neither numbers nor empty values leave one, and other texts pass only themselves.
  have hnumber : ∀ {x : TokPair} {n : BitVec 64}, exact errno x.2 = some n →
      outOfRange x.2 = false := fun hn => (exact_eq_some hn).2.2
  have hempty : ∀ {x : TokPair}, x.2 = "" → outOfRange x.2 = false := fun hx => by rw [hx]; rfl
  rcases hn : exact errno f.2 with _ | n
  · by_cases hfne : f.2 = ""
    · rw [hempty hfne]
      rcases hm : exact errno g.2 with _ | m
      · by_cases hgne : g.2 = ""
        · rw [hempty hgne]
        · have := (fieldSame_of_text hgne hm).mp (hV.empty f hf hfne g hg)
          exact absurd (this.2.trans hfne) hgne
      · rw [hnumber hm]
    · rw [((fieldSame_of_text hfne hn).mp h).2]
  · rw [hnumber hn]
    rcases hV.exact_eq hf hg hn h with hgne | hm
    · rw [hempty hgne]
    · rw [hnumber hm]

end Unmixed

theorem Unmixed.ne_empty (hV : Unmixed V errno) (hf : f ∈ V) (hrange : outOfRange f.2 = true) :
    ∀ g ∈ V, g.2 ≠ "" := by
  intro g hg hgne
  have htext : exact errno f.2 = none := Option.eq_none_iff_forall_ne_some.mpr fun n hn => by
    rw [(exact_eq_some hn).2.2] at hrange
    cases hrange
  have hne : f.2 ≠ "" := fun h => by simp [h, outOfRange] at hrange
  exact hne (((fieldSame_of_text hne htext).mp (hV.empty g hg hgne f hf)).2.trans hgne)

theorem Unmixed.mark (hV : Unmixed V errno) (hf : f ∈ V) : Unmixed V (errno || outOfRange f.2) := by
  cases hrange : outOfRange f.2 with
  | false => rwa [Bool.or_false]
  | true =>
    rw [Bool.or_true]
    exact ⟨fun g hg hgne => absurd hgne (hV.ne_empty hf hrange g hg), fun g _ h _ _ _ _ => by simp⟩

def marked (errno : Errno) (f g : TokPair) : Errno :=
  errno || outOfRange f.2 || ((exact errno f.2).isSome && outOfRange g.2)

theorem samePairs_of_same (h : FieldSame errno f g) (xs ys : Pairs) :
    samePairs (f :: xs) (g :: ys) errno = samePairs xs ys (marked errno f g) := by
  rw [samePairs, marked]
  by_cases hne : f.2 = ""
  · -- An empty text converts to zero without a mark.
    rw [if_pos hne, hne]
    cases errno <;> rfl
  rw [if_neg hne]
  rcases hn : exact errno f.2 with _ | n
  · obtain ⟨hkey, htext⟩ := (fieldSame_of_text hne hn).mp h
    rw [if_neg (not_not.mpr hkey), ← Prod.eta (atoi64Exact f.2 errno), atoi64Exact_fst, hn,
      atoi64Exact_snd]
    dsimp only
    rw [if_neg (not_not.mpr htext)]
    simp
  · obtain ⟨hkey, hlead⟩ := (fieldSame_of_number hn).mp h
    rw [if_neg (not_not.mpr hkey), ← Prod.eta (atoi64Exact f.2 errno), atoi64Exact_fst, hn,
      atoi64Exact_snd]
    dsimp only
    rw [atoi64_fst, if_neg (not_not.mpr hlead), atoi64_snd]
    simp

theorem samePairs_of_not_same (h : ¬ FieldSame errno f g) (xs ys : Pairs) :
    ∃ errno', samePairs (f :: xs) (g :: ys) errno = (false, errno') ∧
      (errno' = errno ∨ errno' = marked errno f g) := by
  have hne : f.2 ≠ "" := fun hne => h (.inl hne)
  rw [samePairs, if_neg hne, marked]
  by_cases hkey : f.1 = g.1
  swap
  · exact ⟨errno, if_pos hkey, .inl rfl⟩
  rw [if_neg (not_not.mpr hkey), ← Prod.eta (atoi64Exact f.2 errno), atoi64Exact_fst,
    atoi64Exact_snd]
  rcases hn : exact errno f.2 with _ | n
  · exact ⟨_, if_pos fun htext => h ((fieldSame_of_text hne hn).mpr ⟨hkey, htext⟩), .inr (by simp)⟩
  · exact ⟨_, if_pos fun hlead => h ((fieldSame_of_number hn).mpr ⟨hkey, hlead⟩), .inr (by
      rw [Option.isSome_some, Bool.true_and]
      rfl)⟩

theorem samePairs_fst_of_not_same (h : ¬ FieldSame errno f g) (xs ys : Pairs) :
    (samePairs (f :: xs) (g :: ys) errno).1 = false := by
  obtain ⟨errno', heq, -⟩ := samePairs_of_not_same h xs ys
  rw [heq]

theorem Unmixed.samePairs_cons (hV : Unmixed V errno) (hf : f ∈ V) (hg : g ∈ V) (xs ys : Pairs) :
    (samePairs (f :: xs) (g :: ys) errno).1 = true ↔
      FieldSame errno f g ∧ (samePairs xs ys (errno || outOfRange f.2)).1 = true := by
  by_cases h : FieldSame errno f g
  · have hmark : marked errno f g = (errno || outOfRange f.2) := by
      have := hV.mark_eq hf hg h
      rw [marked]
      revert this
      cases errno <;> cases outOfRange f.2 <;> cases outOfRange g.2 <;> simp
    rw [samePairs_of_same h, hmark, and_iff_right h]
  · rw [samePairs_fst_of_not_same h]
    exact iff_of_false Bool.false_ne_true fun hboth => h hboth.1

end Fields

/-! ### Cards -/

section Cards

variable {V : Set TokPair} {errno : Errno} {c d : Card} {xs ys zs : Pairs}

theorem Card.same_iff : (c.same d errno).1 = true ↔
    c.type = d.type ∧ c.data.length = d.data.length ∧ (samePairs c.data d.data errno).1 = true := by
  rw [Card.same]
  split_ifs with hne
  · exact iff_of_false not_false fun h => hne.elim (absurd h.1) (absurd h.2.1)
  · rw [not_or, not_not, not_not] at hne
    exact ⟨fun h => ⟨hne.1, hne.2, h⟩, fun h => h.2.2⟩

theorem same_singleton {f g : TokPair} :
    (Card.same ⟨"", [f]⟩ ⟨"", [g]⟩ errno).1 = true ↔ FieldSame errno f g := by
  rw [Card.same_iff]
  by_cases h : FieldSame errno f g
  · exact iff_of_true ⟨rfl, rfl, by rw [samePairs_of_same h]; rfl⟩ h
  · refine iff_of_false (fun hsame => ?_) h
    rw [samePairs_fst_of_not_same h] at hsame
    exact Bool.false_ne_true hsame.2.2

theorem same_of_fieldSame {f g : TokPair} (h : FieldSame errno f g) :
    Card.same ⟨"", [f]⟩ ⟨"", [g]⟩ errno = (true, marked errno f g) := by
  rw [Card.same, if_neg (by simp), samePairs_of_same h]
  rfl

theorem Unmixed.samePairs_refl (hV : Unmixed V errno) (hx : ∀ f ∈ xs, f ∈ V) :
    (samePairs xs xs errno).1 = true := by
  induction xs generalizing errno with
  | nil => rfl
  | cons f xs ih =>
    obtain ⟨hf, hx⟩ := List.forall_mem_cons.mp hx
    exact (hV.samePairs_cons hf hf xs xs).mpr ⟨fieldSame_refl f, ih (hV.mark hf) hx⟩

theorem Unmixed.samePairs_symm (hV : Unmixed V errno) (hx : ∀ f ∈ xs, f ∈ V) (hy : ∀ g ∈ ys, g ∈ V)
    (hlen : xs.length = ys.length) (h : (samePairs xs ys errno).1 = true) :
    (samePairs ys xs errno).1 = true := by
  induction xs generalizing ys errno with
  | nil => rw [List.eq_nil_of_length_eq_zero hlen.symm]; rfl
  | cons f xs ih =>
    obtain ⟨g, ys, rfl⟩ := List.exists_cons_of_length_eq_add_one hlen.symm
    obtain ⟨hf, hx⟩ := List.forall_mem_cons.mp hx
    obtain ⟨hg, hy⟩ := List.forall_mem_cons.mp hy
    obtain ⟨hfg, hrest⟩ := (hV.samePairs_cons hf hg xs ys).mp h
    refine (hV.samePairs_cons hg hf ys xs).mpr ⟨hV.symm hf hg hfg, ?_⟩
    rw [← hV.mark_eq hf hg hfg]
    exact ih (hV.mark hf) hx hy (Nat.succ.inj hlen) hrest

theorem Unmixed.samePairs_trans (hV : Unmixed V errno) (hx : ∀ f ∈ xs, f ∈ V)
    (hy : ∀ g ∈ ys, g ∈ V) (hz : ∀ h ∈ zs, h ∈ V) (hlen : xs.length = ys.length)
    (hlen' : ys.length = zs.length) (h : (samePairs xs ys errno).1 = true)
    (h' : (samePairs ys zs errno).1 = true) : (samePairs xs zs errno).1 = true := by
  induction xs generalizing ys zs errno with
  | nil => rfl
  | cons f xs ih =>
    obtain ⟨g, ys, rfl⟩ := List.exists_cons_of_length_eq_add_one hlen.symm
    obtain ⟨k, zs, rfl⟩ := List.exists_cons_of_length_eq_add_one hlen'.symm
    obtain ⟨hf, hx⟩ := List.forall_mem_cons.mp hx
    obtain ⟨hg, hy⟩ := List.forall_mem_cons.mp hy
    obtain ⟨hk, hz⟩ := List.forall_mem_cons.mp hz
    obtain ⟨hfg, hrest⟩ := (hV.samePairs_cons hf hg xs ys).mp h
    obtain ⟨hgk, hrest'⟩ := (hV.samePairs_cons hg hk ys zs).mp h'
    rw [← hV.mark_eq hf hg hfg] at hrest'
    exact (hV.samePairs_cons hf hk xs zs).mpr ⟨hV.trans hf hg hk hfg hgk,
      ih (hV.mark hf) hx hy hz (Nat.succ.inj hlen) (Nat.succ.inj hlen') hrest hrest'⟩

theorem equivalence_iff_unmixed :
    (Equivalence fun c d : {c : Card // c.Over V} => (c.1.same d.1 errno).1 = true) ↔
      Unmixed V errno := by
  constructor
  · intro h
    have hsymm : ∀ f ∈ V, ∀ g ∈ V, FieldSame errno f g → FieldSame errno g f := by
      intro f hf g hg hfg
      let c : {c : Card // c.Over V} := ⟨⟨"", [f]⟩, List.forall_mem_singleton.mpr hf⟩
      let d : {c : Card // c.Over V} := ⟨⟨"", [g]⟩, List.forall_mem_singleton.mpr hg⟩
      have hcd : (c.1.same d.1 errno).1 = true := same_singleton.mpr hfg
      exact same_singleton.mp (h.symm hcd)
    refine ⟨fun f hf hempty g hg => hsymm f hf g hg (.inl hempty),
      fun f hf g hg hkey hne htext hn => ?_⟩
    have hgf := hsymm f hf g hg ((fieldSame_of_number hn).mpr ⟨hkey, rfl⟩)
    rw [((fieldSame_of_text hne htext).mp hgf).2, hn] at htext
    cases htext
  · intro hV
    refine ⟨fun c => Card.same_iff.mpr ⟨rfl, rfl, hV.samePairs_refl c.2⟩, fun {c d} h => ?_,
      fun {c d e} h h' => ?_⟩
    · obtain ⟨htype, hlen, hpairs⟩ := Card.same_iff.mp h
      exact Card.same_iff.mpr ⟨htype.symm, hlen.symm, hV.samePairs_symm c.2 d.2 hlen hpairs⟩
    · obtain ⟨htype, hlen, hpairs⟩ := Card.same_iff.mp h
      obtain ⟨htype', hlen', hpairs'⟩ := Card.same_iff.mp h'
      exact Card.same_iff.mpr ⟨htype.trans htype', hlen.trans hlen',
        hV.samePairs_trans c.2 d.2 e.2 hlen hlen' hpairs hpairs'⟩

/-- Without values out of range, `errno` stays as it is. -/
theorem samePairs_snd (h : errno = true ∨ ∀ f ∈ V, outOfRange f.2 = false) (hx : ∀ f ∈ xs, f ∈ V)
    (hy : ∀ g ∈ ys, g ∈ V) : (samePairs xs ys errno).2 = errno := by
  induction xs generalizing ys with
  | nil => rfl
  | cons f xs ih =>
    rcases ys with _ | ⟨g, ys⟩
    · rfl
    obtain ⟨hf, hx⟩ := List.forall_mem_cons.mp hx
    obtain ⟨hg, hy⟩ := List.forall_mem_cons.mp hy
    have hmarked : marked errno f g = errno := by
      rcases h with rfl | h
      · rfl
      · rw [marked, h f hf, h g hg, Bool.and_false, Bool.or_false, Bool.or_false]
    by_cases hsame : FieldSame errno f g
    · rw [samePairs_of_same hsame, hmarked, ih hx hy]
    · obtain ⟨errno', heq, rfl | rfl⟩ := samePairs_of_not_same hsame xs ys
      · rw [heq]
      · rw [heq, hmarked]

theorem Unmixed.samePairs_iff_eq (hV : Unmixed V false) (hspelled : Spelled V)
    (hrange : ∃ f ∈ V, outOfRange f.2 = true) (hx : ∀ f ∈ xs, f ∈ V) (hy : ∀ g ∈ ys, g ∈ V)
    (hlen : xs.length = ys.length) : (samePairs xs ys errno).1 = true ↔ xs = ys := by
  obtain ⟨r, hr, hrange⟩ := hrange
  have hsame : ∀ {errno f g}, f ∈ V → g ∈ V → (FieldSame errno f g ↔ f = g) := by
    intro errno f g hf hg
    refine ⟨fun h => ?_, fun h => h ▸ fieldSame_refl f⟩
    have hne := hV.ne_empty hr hrange f hf
    rcases hn : exact errno f.2 with _ | n
    · exact Prod.ext_iff.mpr ((fieldSame_of_text hne hn).mp h)
    · obtain rfl := (exact_eq_some hn).2.1
      have hkey := ((fieldSame_of_number hn).mp h).1
      have hm := (hV.exact_eq hf hg hn h).resolve_left (hV.ne_empty hr hrange g hg)
      exact Prod.ext_iff.mpr ⟨hkey, hspelled f hf g hg hkey (by rw [hn]; rfl) (hn.trans hm.symm)⟩
  induction xs generalizing ys errno with
  | nil => exact iff_of_true rfl (List.eq_nil_of_length_eq_zero hlen.symm).symm
  | cons f xs ih =>
    obtain ⟨g, ys, rfl⟩ := List.exists_cons_of_length_eq_add_one hlen.symm
    obtain ⟨hf, hx⟩ := List.forall_mem_cons.mp hx
    obtain ⟨hg, hy⟩ := List.forall_mem_cons.mp hy
    rw [List.cons.injEq]
    by_cases heq : f = g
    · rw [samePairs_of_same ((hsame hf hg).mpr heq), and_iff_right heq]
      exact ih hx hy (Nat.succ.inj hlen)
    · rw [samePairs_fst_of_not_same (mt (hsame hf hg).mp heq)]
      exact iff_of_false Bool.false_ne_true fun h => heq h.1

end Cards

/-! ### Tables -/

section Tables

variable {V : Set TokPair} {errno : Errno} {exp fnd : KeyHash}

def TableOver (V : Set TokPair) (t : KeyHash) : Prop := ∀ entry ∈ t.entries, entry.2.Over V

/-- The tables have the same keys. -/
def SameKeys (exp fnd : KeyHash) : Prop := ∀ k, (exp.find k).isSome = (fnd.find k).isSome

theorem foldl_verdict {ε : Type*} {step : Bool × Errno → ε → Bool × Errno} {P : Errno → Prop}
    {B : ε → Prop} {l : List ε} (hstep : ∀ x ∈ l, ∀ s, P s.2 →
      P (step s x).2 ∧ ((step s x).1 = true ↔ s.1 = true ∨ B x))
    {s : Bool × Errno} (hs : P s.2) :
    (l.foldl step s).1 = true ↔ s.1 = true ∨ ∃ x ∈ l, B x := by
  induction l generalizing s with
  | nil => simp
  | cons x l ih =>
    obtain ⟨hx, hl⟩ := List.forall_mem_cons.mp hstep
    obtain ⟨hP, hbad⟩ := hx s hs
    rw [List.foldl_cons, ih hl hP, hbad, List.exists_mem_cons_iff, or_assoc]

/-- The verdict on two tables, if the comparison of cards does not depend on what came before. -/
theorem compareHashes2_iff {P : Errno → Prop} {S : Card → Card → Prop}
    (hsame : ∀ c d errno, c.Over V → d.Over V → P errno →
      P (c.same d errno).2 ∧ ((c.same d errno).1 = true ↔ S c d))
    (hexp : TableOver V exp) (hfnd : TableOver V fnd) (hkeys : SameKeys exp fnd) (hP : P errno)
    (ignoreExtra : Bool) :
    (compareHashes2 Card.same exp fnd ignoreExtra errno).1 = true ↔
      ∃ k c d, exp.find k = some c ∧ fnd.find k = some d ∧ ¬ S c d := by
  rw [compareHashes2, foldl_verdict (P := P)
    (B := fun entry => ∃ d, fnd.find entry.1 = some d ∧ ¬ S entry.2 d) ?_ hP]
  · rw [or_iff_right Bool.false_ne_true]
    constructor
    · rintro ⟨⟨k, c⟩, hmem, d, hd, hS⟩
      exact ⟨k, c, d, exp.nodup.find_of_mem hmem, hd, hS⟩
    · rintro ⟨k, c, d, hc, hd, hS⟩
      exact ⟨(k, c), KeyedList.mem_of_find hc, d, hd, hS⟩
  · rintro ⟨k, c⟩ hmem ⟨errors, errno⟩ hP
    have hfound := hkeys k
    rw [Table.find, exp.nodup.find_of_mem hmem] at hfound
    obtain ⟨d, hd⟩ := Option.isSome_iff_exists.mp hfound.symm
    obtain ⟨hP', hS⟩ := hsame c d errno (hexp _ hmem) (hfnd _ (KeyedList.mem_of_find hd)) hP
    dsimp only
    rw [hd]
    refine ⟨hP', ?_⟩
    simp only [Bool.or_eq_true, Bool.not_eq_true', ← Bool.not_eq_true, hS, Option.some.injEq,
      exists_eq_left']

/-- A verdict that rests on a symmetric relation is the same in both directions. -/
theorem compareHashes2_comm {P : Errno → Prop} {S : Card → Card → Prop}
    (hsame : ∀ c d errno, c.Over V → d.Over V → P errno →
      P (c.same d errno).2 ∧ ((c.same d errno).1 = true ↔ S c d))
    (hsymm : ∀ c d, c.Over V → d.Over V → S c d → S d c)
    (hexp : TableOver V exp) (hfnd : TableOver V fnd) (hkeys : SameKeys exp fnd) (hP : P errno)
    (ignoreExtra : Bool) : (compareHashes2 Card.same exp fnd ignoreExtra errno).1 =
      (compareHashes2 Card.same fnd exp ignoreExtra errno).1 := by
  rw [Bool.eq_iff_iff, compareHashes2_iff hsame hexp hfnd hkeys hP,
    compareHashes2_iff hsame hfnd hexp (fun k => (hkeys k).symm) hP]
  constructor
  · rintro ⟨k, c, d, hc, hd, hS⟩
    exact ⟨k, d, c, hd, hc, fun h => hS (hsymm d c (hfnd _ (KeyedList.mem_of_find hd))
      (hexp _ (KeyedList.mem_of_find hc)) h)⟩
  · rintro ⟨k, c, d, hc, hd, hS⟩
    exact ⟨k, d, c, hd, hc, fun h => hS (hsymm d c (hexp _ (KeyedList.mem_of_find hd))
      (hfnd _ (KeyedList.mem_of_find hc)) h)⟩

theorem Unmixed.compareHashes2_of_clear (hV : Unmixed V errno)
    (hclear : errno = true ∨ ∀ f ∈ V, outOfRange f.2 = false) (hexp : TableOver V exp)
    (hfnd : TableOver V fnd) (hkeys : SameKeys exp fnd) (ignoreExtra : Bool) :
    (compareHashes2 Card.same exp fnd ignoreExtra errno).1 =
      (compareHashes2 Card.same fnd exp ignoreExtra errno).1 := by
  have hequiv := equivalence_iff_unmixed.mpr hV
  refine compareHashes2_comm (P := (· = errno)) (S := fun c d => (c.same d errno).1 = true)
    (fun c d errno' hc hd herrno => ⟨?_, by rw [herrno]⟩)
    (fun c d hc hd hcd => hequiv.symm (x := ⟨c, hc⟩) (y := ⟨d, hd⟩) hcd) hexp hfnd hkeys rfl
    ignoreExtra
  rw [herrno, Card.same]
  split_ifs
  · rfl
  · exact samePairs_snd hclear hc hd

theorem Unmixed.compareHashes2_of_spelled (hV : Unmixed V false) (hspelled : Spelled V)
    (hrange : ∃ f ∈ V, outOfRange f.2 = true) (hexp : TableOver V exp) (hfnd : TableOver V fnd)
    (hkeys : SameKeys exp fnd) (ignoreExtra : Bool) :
    (compareHashes2 Card.same exp fnd ignoreExtra errno).1 =
      (compareHashes2 Card.same fnd exp ignoreExtra errno).1 := by
  refine compareHashes2_comm (P := fun _ => True)
    (S := fun c d => c.type = d.type ∧ c.data = d.data)
    (fun c d errno' hc hd _ => ⟨trivial, ?_⟩) (fun c d _ _ hcd => ⟨hcd.1.symm, hcd.2.symm⟩)
    hexp hfnd hkeys trivial ignoreExtra
  rw [Card.same_iff]
  refine and_congr_right fun _ => ⟨fun ⟨hlen, hpairs⟩ => ?_, fun hdata => ?_⟩
  · exact (hV.samePairs_iff_eq hspelled hrange hc hd hlen).mp hpairs
  · rw [hdata]
    exact ⟨rfl, (hV.samePairs_iff_eq hspelled hrange hd hd rfl).mpr rfl⟩

/-- A number out of range in one entry decides how another one is compared, and the tables need not
be in the same order. -/
theorem spelled_of_verdict {f g r : TokPair} (hr : r ∈ V) (hrange : outOfRange r.2 = true)
    (hf : f ∈ V) (hg : g ∈ V) (hkey : f.1 = g.1) {n : BitVec 64} (hn : exact false f.2 = some n)
    (hm : exact false g.2 = some n)
    (h : ∀ exp fnd : KeyHash, TableOver V exp → TableOver V fnd → SameKeys exp fnd →
      ∀ ignoreExtra, (compareHashes2 Card.same exp fnd ignoreExtra false).1 =
        (compareHashes2 Card.same fnd exp ignoreExtra false).1) : f.2 = g.2 := by
  by_contra htext
  have hnodup : ∀ {k k' : Key} {c d : Card}, k ≠ k' → KeyedList.NodupKeys [(k, c), (k', d)] :=
    fun hne => by simp [KeyedList.NodupKeys, hne]
  -- In one direction the number out of range comes first and the others are compared as texts.
  let k : Key := ⟨"", 0, 0⟩
  let k' : Key := ⟨"", 0, 1⟩
  have hk : k ≠ k' := by decide
  let exp : KeyHash := ⟨[(k, ⟨"", [r]⟩), (k', ⟨"", [f]⟩)], hnodup hk⟩
  let fnd : KeyHash := ⟨[(k', ⟨"", [g]⟩), (k, ⟨"", [r]⟩)], hnodup hk.symm⟩
  have hr' : Card.same ⟨"", [r]⟩ ⟨"", [r]⟩ false = (true, true) := by
    rw [same_of_fieldSame (fieldSame_refl r), marked, hrange]
    rfl
  have hgf : Card.same ⟨"", [g]⟩ ⟨"", [f]⟩ false = (true, false) := by
    rw [same_of_fieldSame ((fieldSame_of_number hm).mpr ⟨hkey.symm, (exact_eq_some hn).1⟩), marked,
      (exact_eq_some hm).2.2, (exact_eq_some hn).2.2]
    simp
  have hfg : (Card.same ⟨"", [f]⟩ ⟨"", [g]⟩ true).1 = false := by
    have hne : f.2 ≠ "" := fun hempty => by
      simp [hempty, exact, atoi64Exact] at hn
    rw [← Bool.not_eq_true, same_singleton, fieldSame_of_text hne (exact_true f.2)]
    exact fun h => htext h.2
  have hsingle : ∀ {x : TokPair}, x ∈ V → Card.Over V ⟨"", [x]⟩ := List.forall_mem_singleton.mpr
  have hverdict := h exp fnd
    (List.forall_mem_cons.mpr ⟨hsingle hr, List.forall_mem_singleton.mpr (hsingle hf)⟩)
    (List.forall_mem_cons.mpr ⟨hsingle hg, List.forall_mem_singleton.mpr (hsingle hr)⟩)
    (fun j => by simp only [exp, fnd, Table.find, KeyedList.find_cons]; split_ifs <;> simp_all)
    false
  simp [compareHashes2, exp, fnd, Table.find, KeyedList.find_cons, hk, hk.symm, hr', hgf, hfg]
    at hverdict

end Tables

/-- Equality of cards is an equivalence and tables are compared alike in both directions exactly if
fields without a value meet only what passes them, no number meets another text that starts with
it, and either no number is out of range or equal numbers are spelled alike. -/
theorem card_equivalence_iff (V : Set TokPair) (errno : Errno) :
    ((Equivalence fun c d : {c : Card // c.Over V} => (c.1.same d.1 errno).1 = true) ∧
      ∀ exp fnd : KeyHash, TableOver V exp → TableOver V fnd → SameKeys exp fnd →
        ∀ ignoreExtra, (compareHashes2 Card.same exp fnd ignoreExtra errno).1 =
          (compareHashes2 Card.same fnd exp ignoreExtra errno).1) ↔
      Unmixed V errno ∧ Unmarked V errno := by
  rw [equivalence_iff_unmixed]
  refine and_congr_right fun hV => ⟨fun h => ?_, fun h exp fnd hexp hfnd hkeys ignoreExtra => ?_⟩
  · by_contra hmarked
    rw [Unmarked, not_or, not_or] at hmarked
    obtain ⟨hclear, hrange, hspelled⟩ := hmarked
    obtain rfl := Bool.eq_false_of_not_eq_true hclear
    push Not at hrange
    obtain ⟨r, hr, hrange⟩ := hrange
    refine hspelled fun f hf g hg hkey hsome heq => ?_
    obtain ⟨n, hn⟩ := Option.isSome_iff_exists.mp hsome
    exact spelled_of_verdict hr (Bool.eq_true_of_not_eq_false hrange) hf hg hkey hn (heq ▸ hn) h
  · by_cases hnone : errno = true ∨ ∀ f ∈ V, outOfRange f.2 = false
    · exact hV.compareHashes2_of_clear hnone hexp hfnd hkeys ignoreExtra
    obtain ⟨herrno, hrange⟩ := not_or.mp hnone
    obtain rfl := Bool.eq_false_of_not_eq_true herrno
    push Not at hrange
    obtain ⟨r, hr, hrange⟩ := hrange
    have hspelled : Spelled V := (h.resolve_left herrno).resolve_left fun hall => hrange (hall r hr)
    exact hV.compareHashes2_of_spelled hspelled ⟨r, hr, Bool.eq_true_of_not_eq_false hrange⟩ hexp
      hfnd hkeys ignoreExtra

/-- A number is equal to a text that starts with it, but not the other way round. -/
theorem card_asymmetric :
    (Card.same ⟨"R", [("d", "10")]⟩ ⟨"R", [("d", "10h")]⟩ false).1 = true ∧
      (Card.same ⟨"R", [("d", "10h")]⟩ ⟨"R", [("d", "10")]⟩ false).1 = false := by
  decide +kernel

end Adl.Trace
