import Adl.Gdb.Reader
import Adl.Math.Bytes
import Mathlib.Data.List.TakeWhile

/-!
# Binary writes from the debugger

A packet for a binary write has an address, a length and bytes, some of them escaped. Its fields are
cut apart by `strtok`, which looks at the bytes as well: at commas and colons it skips bytes or
overwrites one.
-/

namespace Adl.Gdb

open Adl.Math

/-! ### The text of a packet -/

/-- How many characters from a place on are separators. -/
def spanLength (p : Byte → Bool) (buf : List Byte) (start : ℕ) : ℕ :=
  ((buf.drop start).takeWhile p).length

/-- The next token, the buffer in which it has an end, and where to go on. -/
def strtok (delims : List Byte) (buf : List Byte) (start : ℕ) : Option ℕ × List Byte × ℕ :=
  let first := start + spanLength (fun b => b ∈ delims) buf start
  if byteAt buf first = 0 then (none, buf, first)
  else
    let last := first + spanLength (fun b => b ≠ 0 ∧ b ∉ delims) buf first
    if byteAt buf last = 0 then (some first, buf, last)
    else (some first, buf.set last 0, last + 1)

/-- The length of a text. -/
def strlen (buf : List Byte) (start : ℕ) : ℕ :=
  spanLength (fun b => b ≠ 0) buf start

def isHexDigit (b : Byte) : Bool := (hexDigit? b).isSome

def hexValue (digits : List Byte) : ℕ :=
  numeral 16 (digits.map fun b => (hexChar b).toNat)

/-- What follows a `0x`, if this is a number. -/
def skipPrefix : List Byte → List Byte
  | z :: x :: d :: rest =>
    if z = code '0' ∧ (x = code 'x' ∨ x = code 'X') ∧ isHexDigit d then d :: rest
    else z :: x :: d :: rest
  | number => number

/-- `strtoull` in base 16. -/
def hexText (text : List Byte) : BitVec 64 :=
  let (negative, number) := signOf (code '-') (code '+') (text.dropWhile fun b => isSpace b.toNat)
  clamp negative (hexValue ((skipPrefix number).takeWhile isHexDigit))

def hexStr (buf : List Byte) (ptr : ℕ) : BitVec 64 :=
  hexText (buf.drop ptr)

/-- A call of `debug_data_write` for one byte. -/
abbrev Write := BitVec 64 × Byte

/-- The next byte of the data, where `escaped` says that an escape character came before. -/
def nextByte (escaped : Bool) : List Byte → Byte × List Byte
  | [] => (if escaped then 0x20 else 0, [])
  | b :: rest =>
    if b ≠ 0x7d then (b + if escaped then 0x20 else 0, rest) else nextByte true rest

/-- The loop of `remoteSetMemoryBinary`. -/
def writeLoop (startAddress : BitVec 64) : ℕ → ℕ → List Byte → List Write
  | 0, _, _ => []
  | n + 1, tempLength, data =>
    let (tmp, data) := nextByte false data
    (startAddress + BitVec.ofNat 64 tempLength, tmp) ::
      writeLoop startAddress n (tempLength + 1) data

def remoteSetMemoryBinary (startAddress : BitVec 64) (lengthInBytes : ℕ) (data : List Byte) :
    List Write :=
  writeLoop startAddress lengthInBytes 0 data

def separators : List Byte := [code ',', code ':']

/-- The writes for the text at `data`, or nothing when there is no length. -/
def setMemoryBinary (buf : List Byte) (data : ℕ) : Option (List Write) :=
  match strtok separators buf data with
  | (none, _) => none
  | (some addrToken, buf, next) =>
    let startAddress := hexStr buf addrToken
    match strtok separators buf next with
    | (none, _) => none
    | (some lStart, buf, next) =>
      let lengthInBytes : BitVec 32 := (hexStr buf lStart).setWidth 32
      if 0 < lengthInBytes.toInt then
        match strtok separators buf next with
        | (some value, buf, _) =>
          some (remoteSetMemoryBinary startAddress lengthInBytes.toNat (buf.drop value))
        | (none, buf, _) =>
          -- The data starts with a zero, behind the end of the length.
          some (remoteSetMemoryBinary startAddress lengthInBytes.toNat
            (buf.drop (lStart + strlen buf lStart + 1)))
      else some []

/-! ### What is sent -/

/-- The bytes as they are sent. -/
def escape (bytes : List Byte) : List Byte :=
  bytes.flatMap fun b =>
    if b = code '#' ∨ b = code '$' ∨ b = code '}' then [code '}', b ^^^ 0x20] else [b]

def binaryPacket (addr len : List Byte) (bytes : List Byte) : List Byte :=
  addr ++ code ',' :: len ++ code ':' :: escape bytes

def IsNumber (text : List Byte) : Prop :=
  text ≠ [] ∧ ∀ b ∈ text, isHexDigit b = true

instance (text : List Byte) : Decidable (IsNumber text) :=
  inferInstanceAs (Decidable (_ ∧ _))

/-- The bytes up to the first zero are all separators, or none of them is. -/
def Clean (bytes : List Byte) : Prop :=
  let text := bytes.takeWhile fun b => b ≠ 0
  (∀ b ∈ text, b ∉ separators) ∨ ∀ b ∈ text, b ∈ separators

instance (bytes : List Byte) : Decidable (Clean bytes) :=
  inferInstanceAs (Decidable (_ ∨ _))

/-! ### Tokens -/

theorem byteAt_append (pre : List Byte) (b : Byte) (rest : List Byte) :
    byteAt (pre ++ b :: rest) pre.length = b := by
  simp [byteAt]

theorem set_append (pre : List Byte) (b c : Byte) (rest : List Byte) :
    (pre ++ b :: rest).set pre.length c = pre ++ c :: rest := by
  simp

theorem spanLength_append {p : Byte → Bool} {mid : List Byte} {b : Byte}
    (hmid : ∀ c ∈ mid, p c = true) (hb : p b = false) (pre rest : List Byte) :
    spanLength p (pre ++ (mid ++ b :: rest)) pre.length = mid.length := by
  rw [spanLength, List.drop_left, List.takeWhile_append_of_pos hmid,
    List.takeWhile_cons_of_neg (by simp [hb]), List.append_nil]

section Strtok

variable {delims : List Byte} {skip tok : List Byte} {d : Byte}

/-- A token ends at a separator, which is overwritten, or at the end of the text. -/
theorem strtok_token (hskip : ∀ b ∈ skip, b ∈ delims) (hne : tok ≠ [])
    (htok : ∀ b ∈ tok, b ≠ 0 ∧ b ∉ delims) (hd : d = 0 ∨ d ∈ delims) (pre rest : List Byte) :
    strtok delims (pre ++ (skip ++ (tok ++ d :: rest))) pre.length =
      (some (pre ++ skip).length, pre ++ (skip ++ (tok ++ 0 :: rest)),
        (pre ++ skip ++ tok).length + if d = 0 then 0 else 1) := by
  obtain ⟨t, tok', rfl⟩ := List.exists_cons_of_ne_nil hne
  have ht := htok t List.mem_cons_self
  have hfirst : pre.length + spanLength (fun b => b ∈ delims)
      (pre ++ (skip ++ (t :: tok' ++ d :: rest))) pre.length = (pre ++ skip).length := by
    rw [List.cons_append, spanLength_append (by simpa using hskip) (by simpa using ht.2),
      List.length_append]
  have hat : byteAt (pre ++ (skip ++ (t :: tok' ++ d :: rest))) (pre ++ skip).length = t := by
    rw [← List.append_assoc, List.cons_append, byteAt_append]
  have hlast : (pre ++ skip).length + spanLength (fun b => b ≠ 0 ∧ b ∉ delims)
      (pre ++ (skip ++ (t :: tok' ++ d :: rest))) (pre ++ skip).length =
        (pre ++ skip ++ t :: tok').length := by
    rw [← List.append_assoc pre, spanLength_append (by simpa using htok)
      (by simpa [or_iff_not_imp_left] using hd)]
    exact List.length_append.symm
  have hend : byteAt (pre ++ (skip ++ (t :: tok' ++ d :: rest))) (pre ++ skip ++ t :: tok').length =
      d := by
    rw [← List.append_assoc pre, ← List.append_assoc (pre ++ skip), byteAt_append]
  rw [strtok]
  dsimp only
  rw [hfirst, hat, if_neg ht.1, hlast, hend]
  split_ifs with hd0
  · rw [hd0]
    rfl
  · rw [← List.append_assoc pre, ← List.append_assoc (pre ++ skip), set_append]
    simp only [List.append_assoc]

theorem strtok_none (hzero : 0 ∉ delims) (hskip : ∀ b ∈ skip, b ∈ delims) (pre rest : List Byte) :
    strtok delims (pre ++ (skip ++ 0 :: rest)) pre.length =
      (none, pre ++ (skip ++ 0 :: rest), (pre ++ skip).length) := by
  have hfirst : pre.length + spanLength (fun b => b ∈ delims)
      (pre ++ (skip ++ 0 :: rest)) pre.length = (pre ++ skip).length := by
    rw [spanLength_append (by simpa using hskip) (by simpa using hzero), List.length_append]
  rw [strtok]
  dsimp only
  rw [hfirst, ← List.append_assoc, byteAt_append, if_pos rfl]

theorem strtok_eq_none {buf buf' : List Byte} {start next : ℕ}
    (h : strtok delims buf start = (none, buf', next)) : buf = buf' := by
  rw [strtok] at h
  dsimp only at h
  split_ifs at h <;> cases h
  rfl

end Strtok

/-! ### Numbers -/

theorem ne_of_isHexDigit {b c : Byte} (hb : isHexDigit b = true) (hc : isHexDigit c = false) :
    b ≠ c := by
  rintro rfl
  simp [hb] at hc

theorem skipPrefix_of_ne {z x : Byte} {rest : List Byte} (hx : x ≠ code 'x') (hX : x ≠ code 'X') :
    skipPrefix (z :: x :: rest) = z :: x :: rest := by
  cases rest with
  | nil => rfl
  | cons d rest => rw [skipPrefix, if_neg (by simp [hx, hX])]

theorem hexText_number {text : List Byte} (h : IsNumber text) (rest : List Byte) :
    hexText (text ++ 0 :: rest) =
      if 2 ^ 64 ≤ hexValue text then BitVec.allOnes 64 else BitVec.ofNat 64 (hexValue text) := by
  obtain ⟨hne, hdigits⟩ := h
  have hspace : ∀ b : Byte, isHexDigit b = true → isSpace b.toNat = false := by decide +kernel
  have hvalue : (text ++ 0 :: rest).takeWhile isHexDigit = text := by
    rw [List.takeWhile_append_of_pos hdigits, List.takeWhile_cons_of_neg (by decide),
      List.append_nil]
  obtain ⟨b, text', rfl⟩ := List.exists_cons_of_ne_nil hne
  have hb := hdigits b List.mem_cons_self
  have hsign : signOf (code '-') (code '+')
      ((b :: text' ++ 0 :: rest).dropWhile fun b => isSpace b.toNat) =
      (false, b :: text' ++ 0 :: rest) := by
    rw [List.cons_append, List.dropWhile_cons_of_neg (by simp [hspace b hb]), signOf,
      if_neg (ne_of_isHexDigit hb (by decide)), if_neg (ne_of_isHexDigit hb (by decide))]
  have hinit : skipPrefix (b :: text' ++ 0 :: rest) = b :: text' ++ 0 :: rest := by
    cases text' with
    | nil => exact skipPrefix_of_ne (by decide) (by decide)
    | cons x text' =>
      have hx := hdigits x (by simp)
      exact skipPrefix_of_ne (ne_of_isHexDigit hx (by decide)) (ne_of_isHexDigit hx (by decide))
  rw [hexText, hsign]
  dsimp only
  rw [hinit, hvalue, clamp, if_neg Bool.false_ne_true]

/-! ### Escaped bytes -/

theorem escape_cons (b : Byte) (bytes : List Byte) :
    escape (b :: bytes) =
      (if b = code '#' ∨ b = code '$' ∨ b = code '}' then [code '}', b ^^^ 0x20] else [b]) ++
        escape bytes := rfl

theorem escape_append (xs ys : List Byte) : escape (xs ++ ys) = escape xs ++ escape ys :=
  List.flatMap_append

theorem escape_of_separators {xs : List Byte} (h : ∀ b ∈ xs, b ∈ separators) : escape xs = xs := by
  have hplain : ∀ b ∈ separators, ¬ (b = code '#' ∨ b = code '$' ∨ b = code '}') := by decide
  induction xs with
  | nil => rfl
  | cons b xs ih =>
    obtain ⟨hb, hxs⟩ := List.forall_mem_cons.mp h
    rw [escape_cons, if_neg (hplain b hb), ih hxs]
    rfl

theorem escape_plain {xs : List Byte} (h : ∀ b ∈ xs, b ≠ 0 ∧ b ∉ separators) :
    ∀ b ∈ escape xs, b ≠ 0 ∧ b ∉ separators := by
  intro c hc
  obtain ⟨b, hb, hmem⟩ := List.mem_flatMap.mp hc
  split_ifs at hmem with hspecial
  · clear hc
    rcases hspecial with rfl | rfl | rfl <;> clear hb <;> revert c <;> decide
  · rw [List.mem_singleton.mp hmem]
    exact h b hb

theorem nextByte_escape (b : Byte) (bytes rest : List Byte) :
    nextByte false (escape (b :: bytes) ++ rest) = (b, escape bytes ++ rest) := by
  rw [escape_cons]
  split_ifs with hspecial
  · rcases hspecial with rfl | rfl | rfl <;> rfl
  · rw [not_or, not_or] at hspecial
    have hne : b ≠ 0x7d := hspecial.2.2
    rw [List.singleton_append, List.cons_append, nextByte, if_pos hne]
    simp

theorem writeLoop_escape (addr : BitVec 64) (k : ℕ) (bytes rest : List Byte) :
    writeLoop addr bytes.length k (escape bytes ++ rest) =
      (bytes.zipIdx k).map fun (b, i) => (addr + BitVec.ofNat 64 i, b) := by
  induction bytes generalizing k with
  | nil => rfl
  | cons b bytes ih =>
    rw [List.length_cons, writeLoop, nextByte_escape]
    dsimp only
    rw [ih, List.zipIdx_cons, List.map_cons]

theorem length_writeLoop (addr : BitVec 64) (n k : ℕ) (data : List Byte) :
    (writeLoop addr n k data).length = n := by
  induction n generalizing k data with
  | zero => rfl
  | succ n ih => rw [writeLoop, List.length_cons, ih]

theorem remoteSetMemoryBinary_escape (addr : BitVec 64) (bytes rest : List Byte) :
    remoteSetMemoryBinary addr bytes.length (escape bytes ++ rest) = placed addr bytes :=
  writeLoop_escape addr 0 bytes rest

/-! ### The write -/

section Write

variable {pre addr len : List Byte}

theorem IsNumber.plain (h : IsNumber addr) : ∀ b ∈ addr, b ≠ 0 ∧ b ∉ separators := by
  have hseparators : ∀ c ∈ separators, isHexDigit c = false := by decide
  exact fun b hb => ⟨ne_of_isHexDigit (h.2 b hb) (by decide),
    fun hmem => ne_of_isHexDigit (h.2 b hb) (hseparators b hmem) rfl⟩

theorem strtok_number {d : Byte} (h : IsNumber addr) (hd : d ∈ separators) (pre rest : List Byte) :
    strtok separators (pre ++ (addr ++ d :: rest)) pre.length =
      (some pre.length, pre ++ addr ++ [0] ++ rest, (pre ++ addr ++ [0]).length) := by
  have hne : d ≠ 0 := by
    rintro rfl
    revert hd
    decide
  have htoken := @strtok_token separators [] addr d (by simp) h.1 h.plain (.inr hd) pre rest
  rw [if_neg hne] at htoken
  simpa [Nat.add_assoc] using htoken

/-- The data of a packet, as it stands behind the length after the third token was looked for. -/
def payload (buf : List Byte) (next : ℕ) : List Byte :=
  match strtok separators buf next with
  | (some value, buf, _) => buf.drop value
  | (none, buf, _) => buf.drop next

theorem setMemoryBinary_eq (haddr : IsNumber addr) (hlen : IsNumber len) (pre rest : List Byte) :
    setMemoryBinary (pre ++ (addr ++ code ',' :: len ++ code ':' :: rest)) pre.length =
      let lengthInBytes : BitVec 32 := (hexText (len ++ 0 :: rest)).setWidth 32
      let before := pre ++ addr ++ 0 :: len ++ [0]
      some (if 0 < lengthInBytes.toInt then
        remoteSetMemoryBinary (hexText (addr ++ 0 :: (len ++ code ':' :: rest)))
          lengthInBytes.toNat (payload (before ++ rest) before.length)
      else []) := by
  -- each call of `strtok` puts a zero over the separator behind its number
  have hfirst := strtok_number haddr (show code ',' ∈ separators by decide) pre
    (len ++ code ':' :: rest)
  have hsecond := strtok_number hlen (show code ':' ∈ separators by decide)
    (pre ++ addr ++ [0]) rest
  have hbuf : pre ++ addr ++ [0] ++ len ++ [0] = pre ++ addr ++ 0 :: len ++ [0] := by simp
  rw [hbuf] at hsecond
  have haddrText : hexStr (pre ++ addr ++ [0] ++ (len ++ code ':' :: rest)) pre.length =
      hexText (addr ++ 0 :: (len ++ code ':' :: rest)) := by
    simp [hexStr]
  have hlenText : hexStr (pre ++ addr ++ 0 :: len ++ [0] ++ rest) (pre ++ addr ++ [0]).length =
      hexText (len ++ 0 :: rest) := by
    simp [hexStr]
  have hstrlen : (pre ++ addr ++ [0]).length +
      strlen (pre ++ addr ++ 0 :: len ++ [0] ++ rest) (pre ++ addr ++ [0]).length + 1 =
        (pre ++ addr ++ 0 :: len ++ [0]).length := by
    have hbuf' : pre ++ addr ++ 0 :: len ++ [0] ++ rest =
        pre ++ addr ++ [0] ++ (len ++ 0 :: rest) := by
      simp
    rw [strlen, hbuf', spanLength_append (fun b hb => by simpa using (hlen.plain b hb).1) (by simp)]
    simp only [List.length_append, List.length_cons, List.length_nil]
    omega
  have hassoc : addr ++ code ',' :: len ++ code ':' :: rest =
      addr ++ code ',' :: (len ++ code ':' :: rest) := by simp
  rw [setMemoryBinary, hassoc, hfirst]
  dsimp only
  rw [haddrText, hsecond]
  dsimp only
  rw [hlenText]
  split_ifs
  · rw [payload]
    rcases hthird : strtok separators (pre ++ addr ++ 0 :: len ++ [0] ++ rest)
      (pre ++ addr ++ 0 :: len ++ [0]).length with ⟨_ | value, buf, next⟩
    · obtain rfl := strtok_eq_none hthird
      simp only [hthird, hstrlen]
    · simp only [hthird]
  · rfl

theorem payload_of_none {skip : List Byte} (hskip : ∀ b ∈ skip, b ∈ separators)
    (pre rest : List Byte) :
    payload (pre ++ (skip ++ 0 :: rest)) pre.length = skip ++ 0 :: rest := by
  rw [payload, strtok_none (by decide) hskip]
  simp

theorem payload_of_token {skip tok : List Byte} {d : Byte} (hskip : ∀ b ∈ skip, b ∈ separators)
    (hne : tok ≠ []) (htok : ∀ b ∈ tok, b ≠ 0 ∧ b ∉ separators) (hd : d = 0 ∨ d ∈ separators)
    (pre rest : List Byte) :
    payload (pre ++ (skip ++ (tok ++ d :: rest))) pre.length = tok ++ 0 :: rest := by
  rw [payload, strtok_token hskip hne htok hd]
  simp

theorem escape_ne_nil {xs : List Byte} (h : xs ≠ []) : escape xs ≠ [] := by
  obtain ⟨b, xs, rfl⟩ := List.exists_cons_of_ne_nil h
  rw [escape_cons]
  split_ifs <;> simp

theorem escape_end {b : Byte} (h : b = 0 ∨ b ∈ separators) (bytes : List Byte) :
    escape (b :: bytes) = b :: escape bytes := by
  have hplain : ∀ b ∈ 0 :: separators, ¬ (b = code '#' ∨ b = code '$' ∨ b = code '}') := by decide
  rw [escape_cons, if_neg (hplain b (List.mem_cons.mpr h))]
  rfl

theorem escape_token (bytes rest : List Byte) :
    ∃ tok d after, escape bytes ++ 0 :: rest = escape tok ++ d :: after ∧
      (∀ b ∈ tok, b ≠ 0 ∧ b ∉ separators) ∧ (d = 0 ∨ d ∈ separators) ∧
      (bytes = tok ∧ d = 0 ∧ after = rest ∨
        ∃ more, bytes = tok ++ d :: more ∧ after = escape more ++ 0 :: rest) := by
  induction bytes with
  | nil => exact ⟨[], 0, rest, rfl, by simp, .inl rfl, .inl ⟨rfl, rfl, rfl⟩⟩
  | cons b bytes ih =>
    by_cases hb : b = 0 ∨ b ∈ separators
    · refine ⟨[], b, escape bytes ++ 0 :: rest, ?_, by simp, hb, .inr ⟨bytes, rfl, rfl⟩⟩
      rw [escape_end hb]
      rfl
    · obtain ⟨tok, d, after, heq, htok, hd, hshape⟩ := ih
      refine ⟨b :: tok, d, after, ?_, ?_, hd, ?_⟩
      · rw [← List.singleton_append, escape_append, List.append_assoc, heq, ← List.append_assoc,
          ← escape_append, List.singleton_append]
      · exact List.forall_mem_cons.mpr ⟨not_or.mp hb, htok⟩
      · rcases hshape with ⟨rfl, hend⟩ | ⟨more, rfl, hafter⟩
        · exact .inl ⟨rfl, hend⟩
        · exact .inr ⟨more, rfl, hafter⟩

theorem text_append {xs : List Byte} (h : ∀ b ∈ xs, b ≠ 0) (ys : List Byte) :
    (xs ++ ys).takeWhile (fun b => b ≠ 0) = xs ++ ys.takeWhile fun b => b ≠ 0 :=
  List.takeWhile_append_of_pos (by simpa using h)

/-- Bytes that start with one separator and go on with something else, or the other way round, are
not clean. -/
theorem not_clean {xs ys : List Byte} {b c : Byte} (hxs : ∀ b ∈ xs, b ≠ 0) (hb : b ∈ xs)
    (hc : c ≠ 0) (hmixed : b ∈ separators ↔ c ∉ separators) : ¬ Clean (xs ++ c :: ys) := by
  have htext : b ∈ (xs ++ c :: ys).takeWhile (fun b => b ≠ 0) ∧
      c ∈ (xs ++ c :: ys).takeWhile (fun b => b ≠ 0) := by
    rw [text_append hxs, List.takeWhile_cons_of_pos (by simpa using hc)]
    exact ⟨List.mem_append_left _ hb, List.mem_append_right _ List.mem_cons_self⟩
  rintro (hnone | hall)
  · exact hnone c htext.2 (not_not.mp fun h => hnone b htext.1 (hmixed.mpr h))
  · exact hmixed.mp (hall b htext.1) (hall c htext.2)

theorem separators_ne_zero : ∀ b ∈ separators, b ≠ 0 := by decide

/-- The data of a packet is written as it should exactly when it is clean. -/
theorem payload_iff (addr : BitVec 64) (pre bytes rest : List Byte) :
    remoteSetMemoryBinary addr bytes.length
        (payload (pre ++ (escape bytes ++ 0 :: rest)) pre.length) = placed addr bytes ↔
      Clean bytes := by
  -- The separators at the front, and the first token behind them.
  obtain ⟨skip, bytes', rfl, hskip, hhead⟩ : ∃ skip bytes', bytes = skip ++ bytes' ∧
      (∀ b ∈ skip, b ∈ separators) ∧ ∀ b ∈ bytes'.head?, b ∉ separators := by
    refine ⟨bytes.takeWhile fun b => b ∈ separators, bytes.dropWhile fun b => b ∈ separators,
      List.takeWhile_append_dropWhile.symm, fun b hb => by simpa using List.mem_takeWhile_imp hb,
      fun b hb => ?_⟩
    have hnot := List.head?_dropWhile_not (fun b => decide (b ∈ separators)) bytes
    rw [Option.mem_def.mp hb] at hnot
    simpa using hnot
  obtain ⟨tok, d, after, heq, htok, hd, hshape⟩ := escape_token bytes' rest
  have hskip0 : ∀ b ∈ skip, b ≠ 0 := fun b hb => separators_ne_zero b (hskip b hb)
  have htok0 : ∀ b ∈ tok, b ≠ 0 := fun b hb => (htok b hb).1
  have hescape : escape (skip ++ bytes') ++ 0 :: rest = skip ++ (escape tok ++ d :: after) := by
    rw [escape_append, escape_of_separators hskip, List.append_assoc, heq]
  rw [hescape]
  by_cases hnil : tok = []
  · -- Nothing but separators: the data is taken as it stands.
    subst hnil
    obtain rfl : d = 0 := by
      refine hd.resolve_right fun hsep => ?_
      rcases hshape with ⟨-, rfl, -⟩ | ⟨more, rfl, -⟩
      · exact separators_ne_zero _ hsep rfl
      · exact hhead d rfl hsep
    have hclean : Clean (skip ++ bytes') := by
      refine .inr fun b hb => hskip b ?_
      rw [text_append hskip0] at hb
      rcases hshape with ⟨rfl, -⟩ | ⟨more, rfl, -⟩ <;> simpa using hb
    rw [show escape [] ++ 0 :: after = 0 :: after from rfl, payload_of_none hskip,
      show skip ++ 0 :: after = escape (skip ++ bytes') ++ 0 :: rest from hescape.symm]
    exact iff_of_true (remoteSetMemoryBinary_escape addr _ _) hclean
  · obtain ⟨t, tok', rfl⟩ := List.exists_cons_of_ne_nil hnil
    have ht := htok t List.mem_cons_self
    rw [payload_of_token hskip (escape_ne_nil hnil) (escape_plain htok) hd]
    have hbytes' : ∃ ys, bytes' = t :: ys := by
      rcases hshape with ⟨rfl, -⟩ | ⟨more, rfl, -⟩
      · exact ⟨tok', rfl⟩
      · exact ⟨_, rfl⟩
    cases skip with
    | cons b skip =>
      -- The separators are skipped, so that another byte comes first.
      obtain ⟨ys, rfl⟩ := hbytes'
      have hb : b ∈ separators := hskip b List.mem_cons_self
      refine iff_of_false (fun hwrites => ?_) (not_clean hskip0 List.mem_cons_self ht.1
        (iff_of_true hb ht.2))
      have hfirst := congrArg (fun w => (w.map Prod.snd).head?) hwrites
      rw [map_snd_placed, remoteSetMemoryBinary, List.cons_append, List.length_cons, writeLoop,
        nextByte_escape] at hfirst
      obtain rfl : t = b := by simpa using hfirst
      exact ht.2 hb
    | nil =>
      rw [List.nil_append] at hescape ⊢
      rcases hd with rfl | hsep
      · have hclean : Clean bytes' := by
          refine .inl fun b hb => (htok b ?_).2
          rcases hshape with ⟨rfl, -⟩ | ⟨more, rfl, -⟩
          · exact List.takeWhile_subset _ hb
          · rw [text_append htok0] at hb
            simpa using hb
        rw [← heq]
        exact iff_of_true (remoteSetMemoryBinary_escape addr _ _) hclean
      · -- The separator behind the token is overwritten by a zero.
        have hd0 := separators_ne_zero d hsep
        rcases hshape with ⟨-, hzero, -⟩ | ⟨more, rfl, rfl⟩
        · exact absurd hzero hd0
        refine iff_of_false (fun hwrites => hd0 ?_) (not_clean htok0 List.mem_cons_self hd0
          (iff_of_false ht.2 (not_not.mpr hsep)))
        have hzeroed : escape (t :: tok') ++ 0 :: (escape more ++ 0 :: rest) =
            escape (t :: tok' ++ 0 :: more) ++ 0 :: rest := by
          rw [escape_append, escape_end (.inl rfl)]
          simp
        have hlength : (t :: tok' ++ d :: more).length = (t :: tok' ++ 0 :: more).length := by simp
        rw [hzeroed, hlength, remoteSetMemoryBinary_escape] at hwrites
        have hbytes := congrArg (List.map Prod.snd) hwrites
        rw [map_snd_placed, map_snd_placed] at hbytes
        have htail := List.append_cancel_left hbytes
        exact (List.cons.inj htail).1.symm

theorem pos_toInt_iff (x : BitVec 32) : 0 < x.toInt ↔ 0 < x.toNat ∧ x.toNat < 2 ^ 31 := by
  rw [BitVec.toInt_eq_toNat_cond]
  have := x.isLt
  split_ifs <;> omega

theorem binaryPacket_append (addr len bytes rest : List Byte) :
    binaryPacket addr len bytes ++ rest =
      addr ++ code ',' :: len ++ code ':' :: (escape bytes ++ rest) := by
  simp [binaryPacket]

/-- A packet has the effect it should have exactly when its length fits an `int` and its data is
clean, for every spelling of the address and the length and whatever follows the packet. -/
theorem setMemoryBinary_iff {addr len bytes : List Byte} (haddr : IsNumber addr)
    (hfit : hexValue addr < 2 ^ 64) (hlen : IsNumber len) (hbytes : hexValue len = bytes.length)
    (pre rest : List Byte) :
    setMemoryBinary (pre ++ (binaryPacket addr len bytes ++ 0 :: rest)) pre.length =
        some (placed (BitVec.ofNat 64 (hexValue addr)) bytes) ↔
      bytes.length < 2 ^ 31 ∧ Clean bytes := by
  rw [binaryPacket_append, setMemoryBinary_eq haddr hlen, hexText_number haddr,
    if_neg (Nat.not_le.mpr hfit), hexText_number hlen, hbytes]
  dsimp only
  have hnat : bytes.length < 2 ^ 31 → ((if 2 ^ 64 ≤ bytes.length then BitVec.allOnes 64
      else BitVec.ofNat 64 bytes.length).setWidth 32).toNat = bytes.length := by
    intro hsmall
    rw [if_neg (by omega), BitVec.toNat_setWidth, BitVec.toNat_ofNat]
    omega
  generalize (if 2 ^ 64 ≤ bytes.length then BitVec.allOnes 64
    else BitVec.ofNat 64 bytes.length).setWidth 32 = lengthInBytes at hnat ⊢
  have hpositive := pos_toInt_iff lengthInBytes
  rw [Option.some.injEq]
  by_cases hsmall : bytes.length < 2 ^ 31
  · rw [and_iff_right hsmall]
    rw [hnat hsmall] at hpositive ⊢
    split_ifs with hpos
    · exact payload_iff _ _ bytes rest
    · obtain rfl : bytes = [] := List.eq_nil_of_length_eq_zero (by omega)
      exact iff_of_true rfl (by decide)
  · -- A length that is cut off gives another number of writes.
    refine iff_of_false (fun hwrites => ?_) fun h => hsmall h.1
    have hcount := congrArg List.length hwrites
    rw [length_placed] at hcount
    split_ifs at hcount with hpos
    · rw [remoteSetMemoryBinary, length_writeLoop] at hcount
      omega
    · rw [List.length_nil] at hcount
      omega

/-- Escaped bytes and a zero arrive as they should. -/
theorem setMemoryBinary_special :
    setMemoryBinary (binaryPacket [code '8'] [code '4']
      [code '}', code '#', code '$', 0] ++ [0]) 0 =
      some (placed 8 [code '}', code '#', code '$', 0]) :=
  (@setMemoryBinary_iff [code '8'] [code '4'] _ (by decide) (by decide) (by decide) (by decide)
    [] []).mpr (by decide)

/-- A colon behind another byte arrives as a zero. -/
theorem colon_overwritten :
    let written := setMemoryBinary (binaryPacket [code '8'] [code '2']
      [code 'a', code ':'] ++ [0]) 0
    written = some (placed 8 [code 'a', 0]) ∧ written ≠ some (placed 8 [code 'a', code ':']) := by
  decide +kernel

end Write

end Adl.Gdb
