import Adl.Math.Bytes
import Adl.Math.Halting
import Adl.Math.Text
import Mathlib.Data.List.Induction

/-!
# Reading Intel-hex files

A record is a colon and the digits of a length, an address, a type, data and a checksum. Data are
written to memory in words of four bytes and single bytes; other records set the offset of addresses
or the start address.
-/

namespace Adl.Loader.IntelHex

open Math

/-! ### The reader -/

/-- The table of the values of digits; other characters count as zero. -/
def hex2int (c : Byte) : Byte := (hexDigit? c).getD 0

def pair (s : List Byte) : Byte :=
  hex2int (s.getD 0 0) <<< 4 ||| hex2int (s.getD 1 0)

/-- The number of the next `n` bytes, which are added to the checksum. -/
def hexnum : ℕ → List Byte → BitVec 32 → Byte → BitVec 32 × Byte
  | 0, _, r, crc => (r, crc)
  | n + 1, s, r, crc => hexnum n (s.drop 2) (r <<< 8 ||| (pair s).setWidth 32) (crc + pair s)

/-- The data of a record is added to the checksum. -/
def crcLoop : ℕ → List Byte → Byte → List Byte × Byte
  | 0, t, crc => (t, crc)
  | n + 1, t, crc => if t = [] then (t, crc) else crcLoop n (t.drop 2) (hexnum 1 t 0 crc).2

/-- A call of `init_mem_internal`: a word or a byte. -/
inductive MemInit where
  | word (addr : BitVec 64) (data : BitVec 32)
  | byte (addr : BitVec 64) (data : BitVec 32)
  deriving DecidableEq

/-- The calls for the data of a record, and what follows it. -/
def readMemory : ℕ → List Byte → BitVec 64 → List MemInit × List Byte
  | n + 4, f, addr =>
    if f = [] then ([], f)
    else
      let (calls, f') := readMemory n (f.drop 8) (addr + 4)
      (.word addr (hexnum 4 f 0 0).1 :: calls, f')
  | n + 1, f, addr =>
    if f = [] then ([], f)
    else
      let (calls, f') := readMemory n (f.drop 2) (addr + 1)
      (.byte addr (hexnum 1 f 0 0).1 :: calls, f')
  | 0, f, _ => ([], f)

structure Parse where
  f : List Byte
  linecount : ℕ
  gotPc : Bool
  pc : BitVec 64
  offset : BitVec 64
  calls : List MemInit

def Parse.start (text : List Byte) : Parse := ⟨text, 1, false, 0, 0, []⟩

/-- Why a file is not read to its end, with the number of the line. -/
inductive HexError where
  | noRecord (line : ℕ)
  | badCrc (line : ℕ) (got : BitVec 32) (expected : BitVec 32)
  | badSegment (line : ℕ) (type : BitVec 32)
  | badLinear (line : ℕ) (type : BitVec 32)
  | badStart (line : ℕ) (type : BitVec 32)
  | unknownType (line : ℕ) (type : BitVec 32)
  deriving DecidableEq

/-- How the reader ends, with the calls up to there. -/
inductive Outcome where
  | done (calls : List MemInit) (programCounter : Option (BitVec 64))
  | error (calls : List MemInit) (e : HexError)
  deriving DecidableEq

def Outcome.calls : Outcome → List MemInit
  | .done calls _ => calls
  | .error calls _ => calls

def Outcome.isError : Outcome → Bool
  | .done _ _ => false
  | .error _ _ => true

def findRecord : List Byte → ℕ → List Byte × ℕ
  | [], line => ([], line)
  | c :: f, line =>
    let line := if c = code '\n' then line + 1 else line
    if c = code ':' then (f, line) else findRecord f line

/-- What is done for a record whose checksum is right. `f` is at the data. -/
def applyRecord (useEntryPoint : Bool) (s : Parse) (f : List Byte) (line : ℕ)
    (len addr type : BitVec 32) : Parse ⊕ Outcome :=
  let s := { s with linecount := line }
  match type.toNat with
  | 0 =>
    let (calls, f) := readMemory len.toNat f (s.offset + addr.setWidth 64)
    .inl { s with f := f.drop 2, calls := s.calls ++ calls }
  | 1 => .inr (.done s.calls (if s.gotPc && useEntryPoint then some s.pc else none))
  | 2 =>
    if addr ≠ 0 ∨ len ≠ 2 then .inr (.error s.calls (.badSegment line type))
    else .inl { s with f := f.drop 2, offset := ((hexnum 2 f 0 0).1 <<< 4).setWidth 64 }
  | 4 =>
    if addr ≠ 0 ∨ len ≠ 2 then .inr (.error s.calls (.badLinear line type))
    else .inl { s with f := f.drop 2, offset := ((hexnum 2 f 0 0).1 <<< 16).setWidth 64 }
  | 3 | 5 =>
    if addr ≠ 0 ∨ len ≠ 4 then .inr (.error s.calls (.badStart line type))
    else .inl { s with f := f.drop 2, gotPc := true, pc := (hexnum 4 f 0 0).1.setWidth 64 }
  | _ => .inr (.error s.calls (.unknownType line type))

/-- One turn of the loop of `parse`. -/
def parseStep (useEntryPoint : Bool) (s : Parse) : Parse ⊕ Outcome :=
  let (f, line) := findRecord s.f s.linecount
  if f.length < 10 then .inr (.error s.calls (.noRecord line))
  else
    let (len, crc) := hexnum 1 f 0 0
    let (addr, crc) := hexnum 2 (f.drop 2) 0 crc
    let (type, crc) := hexnum 1 (f.drop 6) 0 crc
    let f := f.drop 8
    let (t, crc) := crcLoop len.toNat f crc
    let (crcbyte, crc) := hexnum 1 t 0 crc
    if crc ≠ 0 then .inr (.error s.calls (.badCrc line crcbyte (crcbyte - crc.setWidth 32)))
    else applyRecord useEntryPoint s f line len addr type

/-! ### Records -/

structure Record where
  addr : BitVec 16
  type : Byte
  data : List Byte
  crc : Byte
  length_lt : data.length < 256

namespace Record

def header (r : Record) : List Byte :=
  [BitVec.ofNat 8 r.data.length, (r.addr >>> 8).setWidth 8, r.addr.setWidth 8, r.type]

def bytes (r : Record) : List Byte :=
  r.header ++ r.data ++ [r.crc]

def ChecksumOk (r : Record) : Prop :=
  r.bytes.foldl (· + ·) 0 = 0

instance (r : Record) : Decidable r.ChecksumOk :=
  inferInstanceAs (Decidable (_ = _))

def value (r : Record) : ℕ :=
  r.data.foldl (fun n b => n * 256 + b.toNat) 0

end Record

/-- The digits of bytes: two for each byte, none of them a colon. -/
inductive Spells : List Byte → List Byte → Prop
  | nil : Spells [] []
  | cons {c d : Byte} {digits bytes : List Byte} (hc : c ≠ code ':') (hd : d ≠ code ':')
      (h : Spells digits bytes) : Spells (c :: d :: digits) (pair [c, d] :: bytes)

/-- A record in a file, with what stands before it. -/
structure Line where
  gap : List Byte
  digits : List Byte
  record : Record
  gap_plain : code ':' ∉ gap
  spells : Spells digits record.bytes

def Line.text (l : Line) : List Byte := l.gap ++ code ':' :: l.digits

def Record.offset (r : Record) (offset : BitVec 64) : BitVec 64 :=
  if r.type = 2 then BitVec.ofNat 64 (r.value * 2 ^ 4)
  else if r.type = 4 then BitVec.ofNat 64 (r.value * 2 ^ 16)
  else offset

def Record.writes (r : Record) (offset : BitVec 64) : List (BitVec 64 × Byte) :=
  if r.type = 0 then placed (offset + r.addr.setWidth 64) r.data else []

def loaded : BitVec 64 → List Record → List (BitVec 64 × Byte)
  | _, [] => []
  | offset, r :: records => r.writes offset ++ loaded (r.offset offset) records

/-- The bytes that a call writes: `init_mem_internal` stores its value with the high byte first. -/
def MemInit.bytes : MemInit → List (BitVec 64 × Byte)
  | .word addr data =>
    placed addr [(data >>> 24).setWidth 8, (data >>> 16).setWidth 8, (data >>> 8).setWidth 8,
      data.setWidth 8]
  | .byte addr data => placed addr [data.setWidth 8]

/-! ### Digits -/

def addAll (crc : Byte) (bytes : List Byte) : Byte :=
  bytes.foldl (· + ·) crc

def number (r : BitVec 32) (bytes : List Byte) : BitVec 32 :=
  bytes.foldl (fun r b => r <<< 8 ||| b.setWidth 32) r

variable {digits bytes : List Byte}

theorem Spells.length (h : Spells digits bytes) : digits.length = 2 * bytes.length := by
  induction h with
  | nil => rfl
  | cons _ _ _ ih =>
    rw [List.length_cons, List.length_cons, List.length_cons, ih]
    omega

theorem Spells.drop (h : Spells digits bytes) (rest : List Byte) :
    (digits ++ rest).drop (2 * bytes.length) = rest :=
  List.drop_left' h.length

theorem Spells.plain (h : Spells digits bytes) : code ':' ∉ digits := by
  induction h with
  | nil => exact List.not_mem_nil
  | cons hc hd _ ih =>
    simp only [List.mem_cons, not_or]
    exact ⟨hc.symm, hd.symm, ih⟩

theorem Spells.append {digits xs ys : List Byte} (h : Spells digits (xs ++ ys)) :
    ∃ ds es, digits = ds ++ es ∧ Spells ds xs ∧ Spells es ys := by
  induction xs generalizing digits with
  | nil => exact ⟨[], digits, rfl, .nil, h⟩
  | cons x xs ih =>
    cases h with
    | cons hc hd hrest =>
      obtain ⟨ds, es, rfl, hds, hes⟩ := ih hrest
      exact ⟨_, es, rfl, .cons hc hd hds, hes⟩

theorem hexnum_spells (h : Spells digits bytes) (rest : List Byte) (r : BitVec 32) (crc : Byte) :
    hexnum bytes.length (digits ++ rest) r crc = (number r bytes, addAll crc bytes) := by
  induction h generalizing r crc with
  | nil => rfl
  | cons _ _ _ ih => exact ih _ _

theorem crcLoop_spells (h : Spells digits bytes) (rest : List Byte) (crc : Byte) :
    crcLoop bytes.length (digits ++ rest) crc = (rest, addAll crc bytes) := by
  induction h generalizing crc with
  | nil => rfl
  | cons _ _ _ ih =>
    rw [List.length_cons, crcLoop, List.cons_append, if_neg (List.cons_ne_nil _ _)]
    exact ih _

/-! ### Data -/

theorem join_low (r : BitVec 32) (b : Byte) : (r <<< 8 ||| b.setWidth 32).setWidth 8 = b := by
  apply BitVec.eq_of_getLsbD_eq
  intro i hi
  simp [hi]

theorem join_high (r : BitVec 32) (b : Byte) {k : ℕ} (hk : k + 16 ≤ 32) :
    ((r <<< 8 ||| b.setWidth 32) >>> (k + 8)).setWidth 8 = (r >>> k).setWidth 8 := by
  apply BitVec.eq_of_getLsbD_eq
  intro i hi
  have hlt : k + 8 + i < 32 := by omega
  have hge : ¬ k + 8 + i < 8 := by omega
  have hbeyond : b.getLsbD (k + 8 + i) = false := BitVec.getLsbD_of_ge _ _ (by omega)
  simp only [BitVec.getLsbD_setWidth, hi, decide_true, Bool.true_and, BitVec.getLsbD_ushiftRight,
    BitVec.getLsbD_or, BitVec.getLsbD_shiftLeft, hlt, hge, decide_false, Bool.not_false, hbeyond,
    Bool.and_false, Bool.or_false, show k + 8 + i - 8 = k + i by omega]

theorem bytes_word (addr : BitVec 64) (a b c d : Byte) :
    (MemInit.word addr (number 0 [a, b, c, d])).bytes = placed addr [a, b, c, d] := by
  have hlow : ∀ r : BitVec 32, r >>> 0 = r := fun r => BitVec.ushiftRight_zero r
  have hsplit : ∀ r : BitVec 32, ∀ b : Byte, ((r <<< 8 ||| b.setWidth 32) >>> 8).setWidth 8 =
      r.setWidth 8 := fun r b => (join_high r b (k := 0) (by decide)).trans (by rw [hlow])
  simp only [number, List.foldl_cons, List.foldl_nil, MemInit.bytes]
  rw [join_low, hsplit, join_low, join_high _ d (k := 8) (by decide), hsplit, join_low,
    join_high _ d (k := 16) (by decide), join_high _ c (k := 8) (by decide), hsplit, join_low]

theorem bytes_byte (addr : BitVec 64) (b : Byte) :
    (MemInit.byte addr (number 0 [b])).bytes = placed addr [b] := by
  have h : (number 0 [b]).setWidth 8 = b := by
    simp [number]
  rw [MemInit.bytes, h]

theorem readMemory_byte {n : ℕ} (hn : n < 3) (c d : Byte) (f : List Byte) (addr : BitVec 64) :
    readMemory (n + 1) (c :: d :: f) addr =
      (.byte addr (number 0 [pair [c, d]]) :: (readMemory n f (addr + 1)).1,
        (readMemory n f (addr + 1)).2) := by
  match n, hn with
  | 0, _ => rfl
  | 1, _ => rfl
  | 2, _ => rfl

theorem readMemory_word (n : ℕ) (c₁ d₁ c₂ d₂ c₃ d₃ c₄ d₄ : Byte) (f : List Byte)
    (addr : BitVec 64) :
    readMemory (n + 4) (c₁ :: d₁ :: c₂ :: d₂ :: c₃ :: d₃ :: c₄ :: d₄ :: f) addr =
      (.word addr (number 0 [pair [c₁, d₁], pair [c₂, d₂], pair [c₃, d₃], pair [c₄, d₄]]) ::
        (readMemory n f (addr + 4)).1, (readMemory n f (addr + 4)).2) := by
  rw [readMemory, if_neg (List.cons_ne_nil _ _)]
  rfl

theorem readMemory_spells (h : Spells digits bytes) (rest : List Byte) (addr : BitVec 64) :
    (readMemory bytes.length (digits ++ rest) addr).1.flatMap MemInit.bytes = placed addr bytes ∧
      (readMemory bytes.length (digits ++ rest) addr).2 = rest := by
  induction hn : bytes.length using Nat.strongRecOn generalizing digits bytes addr with
  | ind n ih =>
    subst hn
    cases h with
    | nil => exact ⟨rfl, rfl⟩
    | @cons c d digits bytes hc hd h =>
      by_cases hsmall : bytes.length < 3
      · obtain ⟨hcalls, hrest⟩ := ih _ (Nat.lt_succ_self _) h (addr + 1) rfl
        rw [List.length_cons, List.cons_append, List.cons_append, readMemory_byte hsmall]
        refine ⟨?_, hrest⟩
        rw [List.flatMap_cons, bytes_byte, hcalls]
        exact (placed_append addr [pair [c, d]] bytes).symm
      · -- The loop takes four bytes at once.
        match bytes, h with
        | _ :: _ :: _ :: bytes, .cons _ _ (.cons _ _ (.cons _ _ h)) =>
          obtain ⟨hcalls, hrest⟩ := ih bytes.length (by simp only [List.length_cons]; omega) h
            (addr + 4) rfl
          simp only [List.length_cons, List.cons_append]
          rw [readMemory_word]
          refine ⟨?_, hrest⟩
          rw [List.flatMap_cons, bytes_word, hcalls]
          exact (placed_append addr [_, _, _, _] bytes).symm
        | [_, _], _ => exact absurd (Nat.lt_succ_self 2) hsmall
        | [_], _ => exact absurd (Nat.lt_add_of_pos_right Nat.two_pos) hsmall
        | [], _ => exact absurd (Nat.succ_pos 2) hsmall

/-! ### Records are read -/

theorem findRecord_append {gap : List Byte} (h : code ':' ∉ gap) (f : List Byte) (line : ℕ) :
    ∃ line', findRecord (gap ++ code ':' :: f) line = (f, line') := by
  induction gap generalizing line with
  | nil => exact ⟨_, by rw [List.nil_append, findRecord]; exact if_pos rfl⟩
  | cons c gap ih =>
    obtain ⟨hc, hgap⟩ := not_or.mp (mt List.mem_cons.mpr h)
    obtain ⟨line', hline⟩ := ih hgap (if c = code '\n' then line + 1 else line)
    exact ⟨line', by rw [List.cons_append, findRecord]; exact (if_neg (Ne.symm hc)).trans hline⟩

theorem number_byte (b : Byte) : number 0 [b] = b.setWidth 32 := by
  simp [number]

theorem number_addr (addr : BitVec 16) :
    number 0 [(addr >>> 8).setWidth 8, addr.setWidth 8] = addr.setWidth 32 := by
  apply BitVec.eq_of_getLsbD_eq
  intro i hi
  have hindex : ¬ i < 8 → 8 + (i - 8) = i := by omega
  have hbeyond : 16 ≤ i → addr.getLsbD i = false := BitVec.getLsbD_of_ge addr i
  by_cases hlow : i < 8
  · simp [number, hlow, hi]
  · by_cases hmid : i < 16
    · simp [number, hlow, hi, hindex hlow, show i - 8 < 8 by omega]
    · simp [number, hlow, hi, hbeyond (Nat.le_of_not_lt hmid), show ¬ i - 8 < 8 by omega]

theorem Line.fields (l : Line) :
    ∃ len addr type data crc, l.digits = len ++ (addr ++ (type ++ (data ++ crc))) ∧
      Spells len [BitVec.ofNat 8 l.record.data.length] ∧
      Spells addr [(l.record.addr >>> 8).setWidth 8, l.record.addr.setWidth 8] ∧
      Spells type [l.record.type] ∧ Spells data l.record.data ∧ Spells crc [l.record.crc] := by
  have hspells := l.spells
  rw [Record.bytes, List.append_assoc] at hspells
  obtain ⟨header, rest, hdigits, hheader, hrest⟩ := hspells.append
  obtain ⟨data, crc, rfl, hdata, hcrc⟩ := hrest.append
  obtain ⟨len, _, rfl, hlen, hheader⟩ := @Spells.append _ [_] [_, _, _] hheader
  obtain ⟨addr, type, rfl, haddr, htype⟩ := @Spells.append _ [_, _] [_] hheader
  exact ⟨len, addr, type, data, crc, by simp [hdigits], hlen, haddr, htype, hdata, hcrc⟩

/-- What the reader makes of a record: the checksum decides whether it is applied. -/
theorem parseStep_line {s : Parse} {l : Line} {junk rest : List Byte} (useEntryPoint : Bool)
    (hs : s.f = junk ++ (l.text ++ rest)) (hjunk : code ':' ∉ junk) :
    ∃ line data crc, Spells data l.record.data ∧ Spells crc [l.record.crc] ∧
      (l.record.ChecksumOk → parseStep useEntryPoint s =
        applyRecord useEntryPoint s (data ++ (crc ++ rest)) line
          (BitVec.ofNat 32 l.record.data.length) (l.record.addr.setWidth 32)
          (l.record.type.setWidth 32)) ∧
      (¬ l.record.ChecksumOk → ∃ e, parseStep useEntryPoint s = .inr (.error s.calls e)) := by
  obtain ⟨line, hline⟩ := @findRecord_append (junk ++ l.gap) (by simp [hjunk, l.gap_plain])
    (l.digits ++ rest) s.linecount
  have hfind : findRecord s.f s.linecount = (l.digits ++ rest, line) := by
    rw [hs, Line.text]
    simpa using hline
  have hlong : ¬ (l.digits ++ rest).length < 10 := by
    have hlength := l.spells.length
    simp only [Record.bytes, Record.header, List.length_append, List.length_cons,
      List.length_nil] at hlength
    rw [List.length_append]
    omega
  obtain ⟨len, addr, type, data, crc, hdigits, hlen, haddr, htype, hdata, hcrc⟩ := l.fields
  refine ⟨line, data, crc, hdata, hcrc, ?_⟩
  -- the reader steps over the fields one after the other
  have hf : l.digits ++ rest = len ++ (addr ++ (type ++ (data ++ (crc ++ rest)))) := by
    simp [hdigits]
  have hdrop₂ : (l.digits ++ rest).drop 2 = addr ++ (type ++ (data ++ (crc ++ rest))) := by
    rw [hf]
    exact hlen.drop _
  have hdrop₆ : (l.digits ++ rest).drop 6 = type ++ (data ++ (crc ++ rest)) := by
    rw [show 6 = 2 + 4 from rfl, ← List.drop_drop, hdrop₂]
    exact haddr.drop _
  have hdrop₈ : (l.digits ++ rest).drop 8 = data ++ (crc ++ rest) := by
    rw [show 8 = 6 + 2 from rfl, ← List.drop_drop, hdrop₆]
    exact htype.drop _
  have hlenNumber : ∀ c, hexnum 1 (l.digits ++ rest) 0 c =
      (BitVec.ofNat 32 l.record.data.length, addAll c [BitVec.ofNat 8 l.record.data.length]) := by
    intro c
    have hshort := l.record.length_lt
    rw [hf]
    refine (hexnum_spells hlen _ 0 c).trans ?_
    rw [number_byte, BitVec.setWidth_ofNat_of_le_of_lt (by decide) hshort]
  have haddrNumber : ∀ c, hexnum 2 (addr ++ (type ++ (data ++ (crc ++ rest)))) 0 c =
      (l.record.addr.setWidth 32,
        addAll c [(l.record.addr >>> 8).setWidth 8, l.record.addr.setWidth 8]) := by
    intro c
    refine (hexnum_spells haddr _ 0 c).trans ?_
    rw [number_addr]
  have htypeNumber : ∀ c, hexnum 1 (type ++ (data ++ (crc ++ rest))) 0 c =
      (l.record.type.setWidth 32, addAll c [l.record.type]) := by
    intro c
    refine (hexnum_spells htype _ 0 c).trans ?_
    rw [number_byte]
  have hlenNat : (BitVec.ofNat 32 l.record.data.length).toNat = l.record.data.length := by
    rw [BitVec.toNat_ofNat]
    have := l.record.length_lt
    omega
  have hcrcNumber : ∀ c, hexnum 1 (crc ++ rest) 0 c =
      (number 0 [l.record.crc], addAll c [l.record.crc]) :=
    hexnum_spells hcrc rest 0
  rw [parseStep, hfind]
  dsimp only
  rw [if_neg hlong, hlenNumber]
  dsimp only
  rw [hdrop₂, haddrNumber]
  dsimp only
  rw [hdrop₆, htypeNumber]
  dsimp only
  rw [hdrop₈, hlenNat, crcLoop_spells hdata]
  dsimp only
  rw [hcrcNumber]
  dsimp only
  -- the sum that has been computed on the way is that of all bytes
  have hsum : addAll (addAll (addAll (addAll (addAll 0 [BitVec.ofNat 8 l.record.data.length])
      [(l.record.addr >>> 8).setWidth 8, l.record.addr.setWidth 8]) [l.record.type])
      l.record.data) [l.record.crc] = l.record.bytes.foldl (· + ·) 0 := by
    simp [addAll, Record.bytes, Record.header, List.foldl_append]
  rw [hsum]
  exact ⟨fun hok => if_neg (not_not.mpr hok), fun hbad => ⟨_, if_pos hbad⟩⟩

/-! ### What a record does -/

namespace Record

def WellFormed (r : Record) : Prop :=
  r.ChecksumOk ∧ (r.type = 0 ∨
    (r.type = 2 ∨ r.type = 4) ∧ r.addr = 0 ∧ r.data.length = 2 ∨
    (r.type = 3 ∨ r.type = 5) ∧ r.addr = 0 ∧ r.data.length = 4)

def Ends (r : Record) : Prop :=
  r.ChecksumOk ∧ r.type = 1

instance (r : Record) : Decidable r.WellFormed :=
  inferInstanceAs (Decidable (_ ∧ _))

instance (r : Record) : Decidable r.Ends :=
  inferInstanceAs (Decidable (_ ∧ _))

theorem not_ends_of_wellFormed {r : Record} (h : r.WellFormed) : ¬ r.Ends := by
  rintro ⟨-, htype⟩
  obtain ⟨-, hkind⟩ := h
  simp [htype] at hkind

def entry (r : Record) (entry : Option (BitVec 64)) : Option (BitVec 64) :=
  if r.type = 3 ∨ r.type = 5 then some (BitVec.ofNat 64 r.value) else entry

end Record

def Parse.entry (s : Parse) : Option (BitVec 64) :=
  if s.gotPc then some s.pc else none

def Parse.written (s : Parse) : List (BitVec 64 × Byte) :=
  s.calls.flatMap MemInit.bytes

/-- From one state to the next, a record has been read and stands no longer before the rest. -/
structure Reads (r : Record) (rest : List Byte) (s s' : Parse) : Prop where
  f : ∃ junk, code ':' ∉ junk ∧ s'.f = junk ++ rest
  offset : s'.offset = r.offset s.offset
  entry : s'.entry = r.entry s.entry
  written : s'.written = s.written ++ r.writes s.offset

theorem number_value {bytes : List Byte} (h : bytes.length ≤ 4) :
    (number 0 bytes).toNat = bytes.foldl (fun n b => n * 256 + b.toNat) 0 ∧
      (number 0 bytes).toNat < 256 ^ bytes.length := by
  induction bytes using List.reverseRecOn with
  | nil => exact ⟨rfl, Nat.one_pos⟩
  | append_singleton bytes b ih =>
    rw [List.length_append, List.length_singleton] at h ⊢
    obtain ⟨hvalue, hlt⟩ := ih (by omega)
    have hbound : (number 0 bytes).toNat < 256 ^ 3 :=
      Nat.lt_of_lt_of_le hlt (Nat.pow_le_pow_right (by decide) (by omega))
    have hjoin : (number 0 (bytes ++ [b])).toNat = (number 0 bytes).toNat * 256 + b.toNat := by
      have hb : b.toNat < 2 ^ 8 := b.isLt
      have hfold : number 0 (bytes ++ [b]) = number 0 bytes <<< 8 ||| b.setWidth 32 := by
        simp [number]
      rw [hfold, BitVec.toNat_or, BitVec.toNat_shiftLeft, BitVec.toNat_setWidth,
        Nat.mod_eq_of_lt (by omega),
        Nat.shiftLeft_eq, Nat.mod_eq_of_lt (by omega), ← Nat.shiftLeft_eq,
        ← Nat.shiftLeft_add_eq_or_of_lt hb, Nat.shiftLeft_eq]
    have hb : b.toNat < 256 := b.isLt
    rw [hjoin, List.foldl_append, ← hvalue, Nat.pow_succ]
    exact ⟨rfl, by omega⟩

theorem number_shift {r : Record} {k : ℕ} (hlength : r.data.length = 2) (hk : k ≤ 16) :
    ((number 0 r.data) <<< k).setWidth 64 = BitVec.ofNat 64 (r.value * 2 ^ k) := by
  obtain ⟨hvalue, hlt⟩ := @number_value r.data (by omega)
  have hpow : 2 ^ k ≤ 2 ^ 16 := Nat.pow_le_pow_right (by decide) hk
  have hbound : (number 0 r.data).toNat * 2 ^ k < 2 ^ 32 := by
    rw [hlength] at hlt
    calc (number 0 r.data).toNat * 2 ^ k < 256 ^ 2 * 2 ^ k :=
          Nat.mul_lt_mul_of_pos_right hlt (Nat.two_pow_pos k)
      _ ≤ 256 ^ 2 * 2 ^ 16 := Nat.mul_le_mul_left _ hpow
      _ = 2 ^ 32 := by decide
  apply BitVec.eq_of_toNat_eq
  rw [BitVec.toNat_setWidth, BitVec.toNat_shiftLeft, Nat.shiftLeft_eq, Nat.mod_eq_of_lt hbound,
    BitVec.toNat_ofNat, Record.value, ← hvalue]

theorem number_setWidth {r : Record} (hlength : r.data.length = 4) :
    (number 0 r.data).setWidth 64 = BitVec.ofNat 64 r.value := by
  obtain ⟨hvalue, -⟩ := @number_value r.data (by omega)
  apply BitVec.eq_of_toNat_eq
  rw [BitVec.toNat_setWidth, BitVec.toNat_ofNat, Record.value, ← hvalue]

section Apply

variable {s s' : Parse} {r : Record} {data crc rest : List Byte}

/-- A record other than a data record is left after two digits of its data. The rest of its digits
is skipped in the search for the next record. -/
theorem reads_of_skip (hdata : Spells data r.data) (hcrc : Spells crc [r.crc])
    (hf : s'.f = (data ++ (crc ++ rest)).drop 2) (hne : 1 ≤ r.data.length) (htype : r.type ≠ 0)
    (hcalls : s'.calls = s.calls) (hoffset : s'.offset = r.offset s.offset)
    (hentry : s'.entry = r.entry s.entry) : Reads r rest s s' := by
  refine ⟨⟨data.drop 2 ++ crc, ?_, ?_⟩, hoffset, hentry, ?_⟩
  · rw [List.mem_append, not_or]
    exact ⟨fun h => hdata.plain (List.mem_of_mem_drop h), hcrc.plain⟩
  · have hlength := hdata.length
    rw [hf, List.drop_append_of_le_length (by omega), List.append_assoc]
  · rw [Parse.written, Parse.written, hcalls, Record.writes, if_neg htype, List.append_nil]

theorem fields_ne_iff {k : ℕ} (hk : k < 256) :
    r.addr.setWidth 32 ≠ 0 ∨ BitVec.ofNat 32 r.data.length ≠ BitVec.ofNat 32 k ↔
      ¬ (r.addr = 0 ∧ r.data.length = k) := by
  have hshort := r.length_lt
  have haddr : r.addr.setWidth 32 = 0 ↔ r.addr = 0 := by
    refine ⟨fun h => BitVec.eq_of_toNat_eq ?_, fun h => by rw [h]; rfl⟩
    have hnat := congrArg BitVec.toNat h
    rw [BitVec.toNat_setWidth, Nat.mod_eq_of_lt (by omega)] at hnat
    exact hnat
  have hlength : BitVec.ofNat 32 r.data.length = BitVec.ofNat 32 k ↔ r.data.length = k := by
    refine ⟨fun h => ?_, fun h => by rw [h]⟩
    have hnat := congrArg BitVec.toNat h
    rw [BitVec.toNat_ofNat, BitVec.toNat_ofNat] at hnat
    omega
  rw [Ne, Ne, haddr, hlength, not_and_or]

/-- What can come of a record: it is read, it ends the file or it raises an error. -/
def Outcomes (useEntryPoint : Bool) (r : Record) (rest : List Byte) (s : Parse)
    (result : Parse ⊕ Outcome) : Prop :=
  (r.WellFormed ∧ ∃ s', result = .inl s' ∧ Reads r rest s s') ∨
    (r.Ends ∧ result = .inr (.done s.calls (if useEntryPoint then s.entry else none))) ∨
    (¬ r.WellFormed ∧ ¬ r.Ends ∧ ∃ e, result = .inr (.error s.calls e))

/-- Records that set an address have to have a given length and no address of their own. -/
theorem outcomes_of_skip {k : ℕ} {e : HexError} (useEntryPoint : Bool) (hdata : Spells data r.data)
    (hcrc : Spells crc [r.crc]) (hk : 1 ≤ k ∧ k < 256) (htype : r.type ≠ 0 ∧ r.type ≠ 1)
    (hwell : r.WellFormed ↔ r.addr = 0 ∧ r.data.length = k)
    (hf : s'.f = (data ++ (crc ++ rest)).drop 2) (hcalls : s'.calls = s.calls)
    (hoffset : r.data.length = k → s'.offset = r.offset s.offset)
    (hentry : r.data.length = k → s'.entry = r.entry s.entry) :
    Outcomes useEntryPoint r rest s
      (if r.addr.setWidth 32 ≠ 0 ∨ BitVec.ofNat 32 r.data.length ≠ BitVec.ofNat 32 k then
        .inr (.error s.calls e)
      else .inl s') := by
  split_ifs with hbad
  · exact .inr (.inr ⟨fun h => (fields_ne_iff hk.2).mp hbad (hwell.mp h), fun h => htype.2 h.2, e,
      rfl⟩)
  · have hgood := not_not.mp (mt (fields_ne_iff hk.2).mpr hbad)
    exact .inl ⟨hwell.mpr hgood, s', rfl, reads_of_skip hdata hcrc hf (hgood.2 ▸ hk.1) htype.1
      hcalls (hoffset hgood.2) (hentry hgood.2)⟩

theorem outcomes_of_data (useEntryPoint : Bool) (hdata : Spells data r.data)
    (hcrc : Spells crc [r.crc]) (hok : r.ChecksumOk) (ht : r.type = 0)
    (hf : s'.f = (readMemory (BitVec.ofNat 32 r.data.length).toNat (data ++ (crc ++ rest))
      (s.offset + (r.addr.setWidth 32).setWidth 64)).2.drop 2)
    (hcalls : s'.calls = s.calls ++ (readMemory (BitVec.ofNat 32 r.data.length).toNat
      (data ++ (crc ++ rest)) (s.offset + (r.addr.setWidth 32).setWidth 64)).1)
    (hoffset : s'.offset = s.offset) (hentry : s'.entry = s.entry) :
    Outcomes useEntryPoint r rest s (.inl s') := by
  have hlen : (BitVec.ofNat 32 r.data.length).toNat = r.data.length := by
    rw [BitVec.toNat_ofNat]
    have := r.length_lt
    omega
  have haddr : (r.addr.setWidth 32).setWidth 64 = r.addr.setWidth 64 := by
    apply BitVec.eq_of_toNat_eq
    simp only [BitVec.toNat_setWidth]
    omega
  rw [hlen, haddr] at hf hcalls
  obtain ⟨hwrites, hrest⟩ := readMemory_spells hdata (crc ++ rest) (s.offset + r.addr.setWidth 64)
  refine .inl ⟨⟨hok, .inl ht⟩, s', rfl, ⟨[], List.not_mem_nil, ?_⟩, ?_, ?_, ?_⟩
  · rw [hf, hrest]
    exact hcrc.drop rest
  · simp [Record.offset, ht, hoffset]
  · simp [Record.entry, ht, hentry]
  · rw [Parse.written, Parse.written, hcalls, List.flatMap_append, hwrites, Record.writes,
      if_pos ht]

theorem outcomes_applyRecord {line : ℕ} (useEntryPoint : Bool) (hdata : Spells data r.data)
    (hcrc : Spells crc [r.crc]) (hok : r.ChecksumOk) :
    Outcomes useEntryPoint r rest s (applyRecord useEntryPoint s (data ++ (crc ++ rest)) line
      (BitVec.ofNat 32 r.data.length) (r.addr.setWidth 32) (r.type.setWidth 32)) := by
  have htype : (r.type.setWidth 32).toNat = r.type.toNat := by simp; omega
  have hoftype : ∀ t : Byte, r.type.toNat = t.toNat → r.type = t := fun t => BitVec.eq_of_toNat_eq
  have hnumber : ∀ k, r.data.length = k →
      (hexnum k (data ++ (crc ++ rest)) 0 0).1 = number 0 r.data := by
    rintro k rfl
    rw [hexnum_spells hdata]
  rw [applyRecord, htype]
  dsimp only
  split
  · next heq => exact outcomes_of_data useEntryPoint hdata hcrc hok (hoftype 0 heq) rfl rfl rfl rfl
  · next heq =>
    -- the end of the file
    have ht := hoftype 1 heq
    refine .inr (.inl ⟨⟨hok, ht⟩, ?_⟩)
    cases useEntryPoint <;> simp [Parse.entry]
  · next heq =>
    -- an extended segment address
    have ht := hoftype 2 heq
    refine outcomes_of_skip (k := 2) useEntryPoint hdata hcrc (by decide) (by simp [ht])
      (by simp [Record.WellFormed, hok, ht]) rfl rfl (fun hk => ?_) fun _ => ?_
    · rw [hnumber 2 hk, Record.offset, if_pos ht]
      exact number_shift hk (by decide)
    · simp [Record.entry, Parse.entry, ht]
  · next heq =>
    -- an extended linear address
    have ht := hoftype 4 heq
    refine outcomes_of_skip (k := 2) useEntryPoint hdata hcrc (by decide) (by simp [ht])
      (by simp [Record.WellFormed, hok, ht]) rfl rfl (fun hk => ?_) fun _ => ?_
    · rw [hnumber 2 hk, Record.offset, if_neg (by simp [ht]), if_pos ht]
      exact number_shift hk (by decide)
    · simp [Record.entry, Parse.entry, ht]
  · next heq =>
    -- a start segment address
    have ht := hoftype 3 heq
    refine outcomes_of_skip (k := 4) useEntryPoint hdata hcrc (by decide) (by simp [ht])
      (by simp [Record.WellFormed, hok, ht]) rfl rfl (fun _ => ?_) fun hk => ?_
    · simp [Record.offset, ht]
    · rw [hnumber 4 hk, number_setWidth hk]
      simp [Record.entry, Parse.entry, ht]
  · next heq =>
    -- a start linear address
    have ht := hoftype 5 heq
    refine outcomes_of_skip (k := 4) useEntryPoint hdata hcrc (by decide) (by simp [ht])
      (by simp [Record.WellFormed, hok, ht]) rfl rfl (fun _ => ?_) fun hk => ?_
    · simp [Record.offset, ht]
    · rw [hnumber 4 hk, number_setWidth hk]
      simp [Record.entry, Parse.entry, ht]
  · next h0 h1 h2 h4 h3 h5 =>
    refine .inr (.inr ⟨?_, fun h => h1 (by simp [h.2]), _, rfl⟩)
    rintro ⟨-, h | ⟨h | h, -⟩ | ⟨h | h, -⟩⟩
    · exact h0 (by simp [h])
    · exact h2 (by simp [h])
    · exact h4 (by simp [h])
    · exact h3 (by simp [h])
    · exact h5 (by simp [h])

theorem outcomes_parseStep {l : Line} {junk : List Byte} (useEntryPoint : Bool)
    (hs : s.f = junk ++ (l.text ++ rest)) (hjunk : code ':' ∉ junk) :
    Outcomes useEntryPoint l.record rest s (parseStep useEntryPoint s) := by
  obtain ⟨line, data, crc, hdata, hcrc, hok, hbad⟩ := parseStep_line useEntryPoint hs hjunk
  by_cases hsum : l.record.ChecksumOk
  · rw [hok hsum]
    exact outcomes_applyRecord useEntryPoint hdata hcrc hsum
  · exact .inr (.inr ⟨fun h => hsum h.1, fun h => hsum h.1, hbad hsum⟩)

end Apply

/-! ### Files -/

def text (lines : List Line) : List Byte := lines.flatMap Line.text

def records (lines : List Line) : List Record := lines.map Line.record

def entryAfter (entry : Option (BitVec 64)) (records : List Record) : Option (BitVec 64) :=
  records.foldl (fun e r => r.entry e) entry

/-- The bytes that were written before the reader ended. -/
def Outcome.written (out : Outcome) : List (BitVec 64 × Byte) :=
  out.calls.flatMap MemInit.bytes

section Files

variable {useEntryPoint : Bool}

/-- From any state between two records, a well-formed rest of a file is loaded. -/
theorem finishes_wellFormed {lines : List Line} {last : Line} {s : Parse}
    {junk trailing : List Byte} (hlines : ∀ l ∈ lines, l.record.WellFormed)
    (hlast : last.record.Ends)
    (hs : s.f = junk ++ (text lines ++ (last.text ++ trailing))) (hjunk : code ':' ∉ junk) :
    ∃ calls, Finishes (parseStep useEntryPoint) s (.done calls
        (if useEntryPoint then entryAfter s.entry (records lines) else none)) ∧
      calls.flatMap MemInit.bytes = s.written ++ loaded s.offset (records lines) := by
  induction lines generalizing s junk with
  | nil =>
    rcases outcomes_parseStep useEntryPoint hs hjunk with ⟨hwell, -⟩ | ⟨-, hdone⟩ | ⟨-, hnot, -⟩
    · exact absurd hlast (Record.not_ends_of_wellFormed hwell)
    · exact ⟨s.calls, .done hdone, by simp [records, loaded, Parse.written]⟩
    · exact absurd hlast hnot
  | cons l lines ih =>
    obtain ⟨hl, hrest⟩ := List.forall_mem_cons.mp hlines
    have hs' : s.f = junk ++ (l.text ++ (text lines ++ (last.text ++ trailing))) := by
      simpa [text] using hs
    rcases outcomes_parseStep useEntryPoint hs' hjunk with ⟨-, s', hstep, hreads⟩ | ⟨hend, -⟩ |
      ⟨hnot, -⟩
    · obtain ⟨junk', hjunk', hf⟩ := hreads.f
      obtain ⟨calls, hcalls, hwritten⟩ := ih hrest hf hjunk'
      rw [hreads.entry] at hcalls
      refine ⟨calls, .next hstep hcalls, ?_⟩
      rw [hwritten, hreads.written, hreads.offset, List.append_assoc]
      rfl
    · exact absurd hend (Record.not_ends_of_wellFormed hl)
    · exact absurd hl hnot

/-- A record with a wrong checksum is not written, and raises an error unless the file has ended
before it. -/
theorem finishes_badChecksum {before : List Line} {bad : Line} {s : Parse}
    {junk after : List Byte} (hbad : ¬ bad.record.ChecksumOk)
    (hs : s.f = junk ++ (text before ++ (bad.text ++ after))) (hjunk : code ':' ∉ junk) :
    ∃ out, Finishes (parseStep useEntryPoint) s out ∧
      (∃ k, out.written = s.written ++ loaded s.offset ((records before).take k)) ∧
      ((∀ l ∈ before, ¬ l.record.Ends) → out.isError = true) := by
  induction before generalizing s junk with
  | nil =>
    rcases outcomes_parseStep useEntryPoint hs hjunk with ⟨hwell, -⟩ | ⟨hend, -⟩ | ⟨-, -, e, herror⟩
    · exact absurd hwell.1 hbad
    · exact absurd hend.1 hbad
    · exact ⟨_, .done herror, ⟨0, by simp [Outcome.written, Outcome.calls, Parse.written, loaded]⟩,
        fun _ => rfl⟩
  | cons l before ih =>
    have hs' : s.f = junk ++ (l.text ++ (text before ++ (bad.text ++ after))) := by
      simpa [text] using hs
    rcases outcomes_parseStep useEntryPoint hs' hjunk with ⟨-, s', hstep, hreads⟩ | ⟨hend, hdone⟩ |
      ⟨-, -, e, herror⟩
    · obtain ⟨junk', hjunk', hf⟩ := hreads.f
      obtain ⟨out, hout, ⟨k, hwritten⟩, herror⟩ := ih hf hjunk'
      refine ⟨out, .next hstep hout, ⟨k + 1, ?_⟩, fun h => herror fun l hl =>
        h l (List.mem_cons_of_mem _ hl)⟩
      rw [hwritten, hreads.written, hreads.offset, List.append_assoc]
      rfl
    · exact ⟨_, .done hdone, ⟨0, by simp [Outcome.written, Outcome.calls, Parse.written, loaded]⟩,
        fun h => absurd hend (h l List.mem_cons_self)⟩
    · exact ⟨_, .done herror, ⟨0, by simp [Outcome.written, Outcome.calls, Parse.written, loaded]⟩,
        fun _ => rfl⟩

/-- A well-formed file is loaded byte by byte. In a file of complete records, one with a wrong
checksum leaves nothing in memory, and raises an error unless the file has ended before it. -/
theorem parse_loads (useEntryPoint : Bool) :
    (∀ (lines : List Line) (last : Line) (trailing : List Byte),
      (∀ l ∈ lines, l.record.WellFormed) → last.record.Ends →
      ∃ calls, Finishes (parseStep useEntryPoint)
          (Parse.start (text lines ++ (last.text ++ trailing)))
          (.done calls (if useEntryPoint then entryAfter none (records lines) else none)) ∧
        calls.flatMap MemInit.bytes = loaded 0 (records lines)) ∧
    ∀ (before : List Line) (bad : Line) (after : List Byte), ¬ bad.record.ChecksumOk →
      ∃ out, Finishes (parseStep useEntryPoint)
          (Parse.start (text before ++ (bad.text ++ after))) out ∧
        (∃ k, out.written = loaded 0 ((records before).take k)) ∧
        ((∀ l ∈ before, ¬ l.record.Ends) → out.isError = true) :=
  ⟨fun lines last trailing hlines hlast =>
      @finishes_wellFormed useEntryPoint lines last (Parse.start _) [] trailing hlines hlast rfl
        List.not_mem_nil,
    fun before bad after hbad =>
      @finishes_badChecksum useEntryPoint before bad (Parse.start _) [] after hbad rfl
        List.not_mem_nil⟩

end Files

/-! ### A file -/

def spellByte (b : Byte) : List Byte :=
  let digit (d : Byte) : Byte := if d < 10 then code '0' + d else code 'A' + (d - 10)
  [digit (b >>> 4), digit (b &&& 15)]

theorem spells_flatMap (bytes : List Byte) : Spells (bytes.flatMap spellByte) bytes := by
  have hbyte : ∀ b : Byte, pair (spellByte b) = b ∧ code ':' ∉ spellByte b := by decide +kernel
  induction bytes with
  | nil => exact .nil
  | cons b bytes ih =>
    obtain ⟨hpair, hplain⟩ := hbyte b
    have h : Spells (spellByte b ++ bytes.flatMap spellByte) (pair (spellByte b) :: bytes) :=
      .cons (fun h => hplain (h ▸ List.mem_cons_self))
        (fun h => hplain (h ▸ List.mem_cons_of_mem _ List.mem_cons_self)) ih
    rw [hpair] at h
    exact h

def Record.line (r : Record) : Line where
  gap := [code '\n']
  digits := r.bytes.flatMap spellByte
  record := r
  gap_plain := by decide
  spells := spells_flatMap r.bytes

/-- Five bytes of data behind an extended linear address. -/
def sampleLines : List Line :=
  [Record.line ⟨0, 4, [0, 1], 0xF9, by decide⟩,
    Record.line ⟨0x10, 0, [1, 2, 3, 4, 5], 0xDC, by decide⟩]

/-- The bytes of the data record stand behind the offset. -/
theorem sampleLines_loaded :
    ∃ calls, Finishes (parseStep true)
        (Parse.start (text sampleLines ++ ((Record.line ⟨0, 1, [], 0xFF, by decide⟩).text ++ [])))
        (.done calls none) ∧
      calls.flatMap MemInit.bytes = placed 0x10010 [1, 2, 3, 4, 5] := by
  obtain ⟨calls, hcalls, hwritten⟩ := (parse_loads true).1 sampleLines
    (Record.line ⟨0, 1, [], 0xFF, by decide⟩) [] (by decide) (by decide)
  exact ⟨calls, hcalls, hwritten.trans (by decide)⟩

/-- Behind the end record `:00000001FF` a record with a wrong checksum raises no error. -/
theorem bad_after_end :
    let bad : Record := ⟨0x10, 0, [1], 0, by decide⟩
    ¬ bad.ChecksumOk ∧ Finishes (parseStep true)
      (Parse.start ((Record.line ⟨0, 1, [], 0xFF, by decide⟩).text ++ bad.line.text))
      (.done [] none) :=
  ⟨by decide, .done rfl⟩

/-! ### What is read of a file -/

/-- How many characters `crcLoop` reads. -/
def crcExtent : ℕ → List Byte → ℕ
  | 0, _ => 0
  | n + 1, t => if t = [] then 0 else 2 + crcExtent n (t.drop 2)

/-- How many characters `readMemory` reads. -/
def memoryExtent : ℕ → List Byte → ℕ
  | n + 4, f => if f = [] then 0 else 8 + memoryExtent n (f.drop 8)
  | n + 1, f => if f = [] then 0 else 2 + memoryExtent n (f.drop 2)
  | 0, _ => 0

/-- How many characters are read of the data when a record is applied. -/
def applyExtent (f : List Byte) (len addr type : BitVec 32) : ℕ :=
  match type.toNat with
  | 0 => memoryExtent len.toNat f
  | 2 | 4 => if addr ≠ 0 ∨ len ≠ 2 then 0 else 4
  | 3 | 5 => if addr ≠ 0 ∨ len ≠ 4 then 0 else 8
  | _ => 0

/-- How many characters a turn of the loop of `parse` reads behind the start `f` of a record. -/
def parseExtent (f : List Byte) : ℕ :=
  if f.length < 10 then 0
  else
    let (len, crc) := hexnum 1 f 0 0
    let (addr, crc) := hexnum 2 (f.drop 2) 0 crc
    let (type, crc) := hexnum 1 (f.drop 6) 0 crc
    let extent := 8 + crcExtent len.toNat (f.drop 8) + 2
    let (t, crc) := crcLoop len.toNat (f.drop 8) crc
    if (hexnum 1 t 0 crc).2 ≠ 0 then extent
    else max extent (8 + applyExtent (f.drop 8) len addr type)

/-- The data of the record and its checksum are there, or the reader gives up before it looks. -/
def RecordFits (f : List Byte) : Prop :=
  f.length < 10 ∨ 10 + 2 * (hexnum 1 f 0 0).1.toNat ≤ f.length

theorem crcExtent_eq {n : ℕ} {t : List Byte} (h : 2 * n ≤ t.length) : crcExtent n t = 2 * n := by
  induction n generalizing t with
  | zero => rfl
  | succ n ih =>
    rw [crcExtent, if_neg (List.ne_nil_of_length_pos (by omega)),
      ih (by rw [List.length_drop]; omega)]
    omega

/-- In a record that is cut off, the checksum is looked for behind the end. -/
theorem lt_crcExtent {n : ℕ} {t : List Byte} (h : t.length < 2 * n + 2) :
    t.length < crcExtent n t + 2 := by
  induction n generalizing t with
  | zero => exact h
  | succ n ih =>
    rw [crcExtent]
    split_ifs with ht
    · rw [ht]
      exact Nat.two_pos
    · have := ih (t := t.drop 2) (by rw [List.length_drop]; omega)
      rw [List.length_drop] at this
      omega

theorem memoryExtent_le (n : ℕ) (f : List Byte) : memoryExtent n f ≤ 2 * n := by
  fun_induction memoryExtent n f <;> omega

theorem applyExtent_le (f : List Byte) (len addr type : BitVec 32) :
    applyExtent f len addr type ≤ 2 * len.toNat := by
  have hlen : ∀ k : BitVec 32, ¬ (addr ≠ 0 ∨ len ≠ k) → len = k := fun k h =>
    not_not.mp (not_or.mp h).2
  rw [applyExtent]
  split
  · exact memoryExtent_le _ _
  all_goals try (split_ifs with h; exacts [Nat.zero_le _, by rw [hlen _ h]; decide])
  exact Nat.zero_le _

theorem parseExtent_le_iff (f : List Byte) : parseExtent f ≤ f.length ↔ RecordFits f := by
  rw [parseExtent, RecordFits]
  split_ifs with hshort
  · exact iff_of_true (Nat.zero_le _) (.inl hshort)
  dsimp only
  rw [or_iff_right hshort]
  constructor
  · -- the checksum is read in any case
    intro h
    by_contra hcut
    have hlt := lt_crcExtent (n := (hexnum 1 f 0 0).1.toNat) (t := f.drop 8)
      (by rw [List.length_drop]; omega)
    rw [List.length_drop] at hlt
    split_ifs at h <;> omega
  · intro h
    rw [crcExtent_eq (by rw [List.length_drop]; omega)]
    have happly := applyExtent_le (f.drop 8) (hexnum 1 f 0 0).1
    split_ifs
    · omega
    · exact Nat.max_le.mpr ⟨by omega, Nat.le_trans (Nat.add_le_add_left (happly _ _) 8) (by omega)⟩

/-- The reader stays inside the file exactly when every record it comes to is complete. -/
theorem parse_inBounds_iff (useEntryPoint : Bool) (text : List Byte) :
    (∀ s, Reaches (parseStep useEntryPoint) (.start text) s →
      parseExtent (findRecord s.f s.linecount).1 ≤ (findRecord s.f s.linecount).1.length) ↔
    ∀ s, Reaches (parseStep useEntryPoint) (.start text) s →
      RecordFits (findRecord s.f s.linecount).1 :=
  forall₂_congr fun s _ => parseExtent_le_iff (findRecord s.f s.linecount).1

/-- The record `:01000000FF` ends where its checksum should stand. -/
theorem cut_record_overrun :
    ¬ ∀ s, Reaches (parseStep true) (.start (":01000000FF".toList.map code)) s →
      parseExtent (findRecord s.f s.linecount).1 ≤ (findRecord s.f s.linecount).1.length :=
  fun h => absurd (h _ .refl) (by decide)

end Adl.Loader.IntelHex
