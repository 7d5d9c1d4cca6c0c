import Adl.Gdb.Reader
import Mathlib.Algebra.GroupWithZero.Nat
import Mathlib.Algebra.Ring.Nat
import Mathlib.Data.List.Forall2
import Mathlib.Order.Nat

/-!
# Text to and from the console

Commands for the monitor and their results are sent as text, two hexadecimal digits for each byte. A
result that is too long for one packet is cut into several, each with the letter `O` in front.
-/

namespace Adl.Gdb

open Adl.Math

/-! ### Digits -/

def hexDigit (d : Byte) : Byte := d + if 9 < d then code 'A' - 10 else code '0'

/-- The value of a digit; characters are signed. A letter of lower case has other bits above. -/
def digitValue (ch : Byte) : Byte := ch - if ch.slt (code 'A') then code '0' else code 'A' - 10

def hexPair (b : Byte) : List Byte := [hexDigit (b >>> 4), hexDigit (b &&& 0x0F)]

def hexByte (hi lo : Byte) : Byte := digitValue hi <<< 4 ||| (digitValue lo &&& 0x0F)

/-- The length of a text as an `int`, and nothing if it is negative. -/
def intLength (s : List Byte) : ℕ := (BitVec.ofNat 32 s.length).toInt.toNat

/-- The text is counted by an `int` that is decremented to zero; below zero it is taken to wrap. -/
def data2AsciiHex (s : List Byte) : List Byte :=
  (s.take (BitVec.ofNat 32 s.length).toNat).flatMap hexPair

/-- The bytes of pairs of digits. Behind the text there is a zero. -/
def hexBytes : List Byte → List Byte
  | [] => []
  | [hi] => [hexByte hi 0]
  | hi :: lo :: rest => hexByte hi lo :: hexBytes rest

def asciiHex2Data (s : List Byte) : List Byte :=
  hexBytes (s.take (2 * ((intLength s + 1) / 2)))

/-! ### The round trip -/

def IsUpperHexDigit (ch : Byte) : Prop :=
  code '0' ≤ ch ∧ ch ≤ code '9' ∨ code 'A' ≤ ch ∧ ch ≤ code 'F'

instance (ch : Byte) : Decidable (IsUpperHexDigit ch) := inferInstanceAs (Decidable (_ ∨ _))

/-- A character, or the letter of lower case for one of upper case. -/
def SameLetter (ch ch' : Byte) : Prop :=
  ch' = ch ∨ code 'A' ≤ ch ∧ ch ≤ code 'Z' ∧ ch' = ch + 32

instance (ch ch' : Byte) : Decidable (SameLetter ch ch') := inferInstanceAs (Decidable (_ ∨ _))

/-- The encoding of a text has two digits of upper case for each byte, and it is decoded to the
text, with any letters turned to lower case. -/
structure HexLaw (s : List Byte) : Prop where
  length : (data2AsciiHex s).length = 2 * s.length
  upper : ∀ ch ∈ data2AsciiHex s, IsUpperHexDigit ch
  decoded : ∀ t, List.Forall₂ SameLetter (data2AsciiHex s) t → asciiHex2Data t = s

section RoundTrip

variable {s t : List Byte} {b hi lo : Byte}

theorem high_lt : ∀ b : Byte, b >>> 4 < 16 := by decide +kernel

theorem low_lt : ∀ b : Byte, b &&& 0x0F < 16 := by decide +kernel

theorem upper_of_mem_hexPair (b ch : Byte) (hch : ch ∈ hexPair b) : IsUpperHexDigit ch := by
  have hupper : ∀ d : Byte, d < 16 → IsUpperHexDigit (hexDigit d) := by decide +kernel
  rw [hexPair, List.mem_pair] at hch
  rcases hch with rfl | rfl
  · exact hupper _ (high_lt b)
  · exact hupper _ (low_lt b)

theorem digitValue_sameLetter (d : Byte) (hd : d < 16) (h : SameLetter (hexDigit d) hi) :
    digitValue hi &&& 0x0F = d := by
  have hsame : ∀ d : Byte, d < 16 → digitValue (hexDigit d) &&& 0x0F = d := by decide +kernel
  have hlower : ∀ d : Byte, d < 16 → code 'A' ≤ hexDigit d → hexDigit d ≤ code 'Z' →
      digitValue (hexDigit d + 32) &&& 0x0F = d := by decide +kernel
  rcases h with rfl | ⟨hA, hZ, rfl⟩
  · exact hsame d hd
  · exact hlower d hd hA hZ

theorem hexByte_eq (hi lo : Byte) :
    hexByte hi lo = (digitValue hi &&& 0x0F) <<< 4 ||| (digitValue lo &&& 0x0F) := by
  have hmask : ∀ d : Byte, (d &&& 0x0F) <<< 4 = d <<< 4 := by decide +kernel
  rw [hexByte, hmask]

theorem hexByte_sameLetter (hhi : SameLetter (hexDigit (b >>> 4)) hi)
    (hlo : SameLetter (hexDigit (b &&& 0x0F)) lo) : hexByte hi lo = b := by
  have hjoin : ∀ b : Byte, b >>> 4 <<< 4 ||| (b &&& 0x0F) = b := by decide +kernel
  rw [hexByte_eq, digitValue_sameLetter _ (high_lt b) hhi, digitValue_sameLetter _ (low_lt b) hlo,
    hjoin]

theorem length_flatMap_hexPair (s : List Byte) : (s.flatMap hexPair).length = 2 * s.length := by
  induction s with
  | nil => rfl
  | cons b s ih => rw [List.flatMap_cons, List.length_append, ih, List.length_cons, hexPair,
      List.length_cons, List.length_singleton]; omega

theorem hexBytes_sameLetter (h : List.Forall₂ SameLetter (s.flatMap hexPair) t) :
    hexBytes t = s := by
  induction s generalizing t with
  | nil =>
    cases h
    rfl
  | cons b s ih =>
    rw [List.flatMap_cons, hexPair] at h
    obtain - | ⟨hhi, - | ⟨hlo, hrest⟩⟩ := h
    rw [hexBytes, hexByte_sameLetter hhi hlo, ih hrest]

theorem data2AsciiHex_eq (h : s.length < 2 ^ 32) : data2AsciiHex s = s.flatMap hexPair := by
  rw [data2AsciiHex, BitVec.toNat_ofNat, Nat.mod_eq_of_lt h, List.take_length]

theorem intLength_eq (s : List Byte) :
    intLength s = if s.length % 2 ^ 32 < 2 ^ 31 then s.length % 2 ^ 32 else 0 := by
  rw [intLength, BitVec.toInt_eq_toNat_cond, BitVec.toNat_ofNat]
  split_ifs <;> omega

theorem length_hexBytes (s : List Byte) : (hexBytes s).length = (s.length + 1) / 2 := by
  induction s using hexBytes.induct with
  | case1 => rfl
  | case2 hi => simp [hexBytes]
  | case3 hi lo rest ih =>
    rw [hexBytes, List.length_cons, List.length_cons, List.length_cons, ih]
    omega

theorem asciiHex2Data_eq (h : s.length < 2 ^ 31) : asciiHex2Data s = hexBytes s := by
  have hlength := intLength_eq s
  rw [asciiHex2Data, List.take_of_length_le (by rw [hlength, if_pos] <;> omega)]

theorem hexLaw_of_lt (h : s.length < 2 ^ 30) : HexLaw s := by
  have heq := data2AsciiHex_eq (s := s) (by omega)
  refine ⟨?_, fun ch hch => ?_, fun t ht => ?_⟩
  · rw [heq, length_flatMap_hexPair]
  · rw [heq] at hch
    obtain ⟨b, -, hb⟩ := List.mem_flatMap.mp hch
    exact upper_of_mem_hexPair b ch hb
  · rw [heq] at ht
    have hlength := ht.length_eq
    rw [length_flatMap_hexPair] at hlength
    rw [asciiHex2Data_eq (by omega), hexBytes_sameLetter ht]

/-- From `2 ^ 30` bytes on, the number of digits is no `int`: what is decoded is too short. -/
theorem not_hexLaw_of_le (h : 2 ^ 30 ≤ s.length) : ¬ HexLaw s := by
  rintro ⟨hlength, -, hdecoded⟩
  have hself : List.Forall₂ SameLetter (data2AsciiHex s) (data2AsciiHex s) :=
    List.forall₂_same.mpr fun _ _ => .inl rfl
  have hshort := congrArg List.length (hdecoded _ hself)
  rw [asciiHex2Data, length_hexBytes, List.length_take, intLength_eq, hlength] at hshort
  split_ifs at hshort <;> omega

/-- Texts are decoded to what was encoded exactly when they have less than `2 ^ 30` bytes. -/
theorem hexLaw_iff (s : List Byte) : HexLaw s ↔ s.length < 2 ^ 30 :=
  ⟨fun h => not_le.mp fun hle => not_hexLaw_of_le hle h, hexLaw_of_lt⟩

/-- A text of `2 ^ 30` zeros is decoded to nothing. -/
theorem long_text_lost : ¬ HexLaw (List.replicate (2 ^ 30) 0) :=
  not_hexLaw_of_le (Nat.le_of_eq List.length_replicate.symm)

end RoundTrip

/-! ### Console output -/

/-- Sizes up to the smallest one are not accepted. -/
def setMaxPacketSize (maxPacketSize m : BitVec 32) : BitVec 32 :=
  if gdbServerMinPacketSize < m.toNat then m else maxPacketSize

def maxPacketSize (calls : List (BitVec 32)) : BitVec 32 :=
  calls.foldl setMaxPacketSize (BitVec.ofNat 32 gdbServerMinPacketSize)

/-- One round of the loop that cuts the output, with the packets that have been sent. -/
def cutStep (max : BitVec 32) (output : List Byte) :
    BitVec 32 × List (List Byte) → BitVec 32 × List (List Byte) ⊕ List (List Byte)
  | (i, packets) =>
    if i.toNat < output.length then
      let rest := BitVec.ofNat 32 output.length - i
      let n := if rest < max then rest else max
      .inl (i + max, packets ++ [code 'O' :: (output.drop i.toNat).take n.toNat])
    else .inr packets

def withNewline (result : List Byte) : List Byte :=
  if result.getLast? = some (code '\n') then result else result ++ [code '\n']

/-- The packets that `handleRemoteCommand` sends for a result, and which of them are responses. -/
def RepliesWith (max : BitVec 32) (result : List Byte) (replies : List (List Byte × Bool)) : Prop :=
  let output := data2AsciiHex (withNewline result)
  if result = [] then replies = [([code 'O', code 'K'], true)]
  else if max.toNat < output.length then
    ∃ packets, Finishes (cutStep max output) (0, []) packets ∧
      replies = packets.map (·, false) ++ [([code 'O', code 'K'], true)]
  else replies = [(output, true)]

/-- Packets of console output: none has more than `size` characters, each holds whole bytes, and
together they hold the result. -/
structure Whole (size : ℕ) (result : List Byte) (packets : List (List Byte)) : Prop where
  size_le : ∀ p ∈ packets, p.length ≤ size
  even : ∀ p ∈ packets, ∃ digits, p = code 'O' :: digits ∧ 2 ∣ digits.length
  joined : (packets.map fun p => asciiHex2Data p.tail).flatten = withNewline result

/-- A result is sent in whole packets of console output, and then `OK`. -/
def Delivers (max : BitVec 32) (size : ℕ) (result : List Byte) : Prop :=
  ∃ packets, RepliesWith max result (packets.map (·, false) ++ [([code 'O', code 'K'], true)]) ∧
    Whole size result packets

section Console

variable {max : BitVec 32} {output result : List Byte} {size : ℕ} {i : BitVec 32}
  {sent packets : List (List Byte)}

theorem minPacketSize_le (calls : List (BitVec 32)) : 5024 ≤ (maxPacketSize calls).toNat := by
  have hstart : 5024 ≤ (BitVec.ofNat 32 gdbServerMinPacketSize).toNat := le_rfl
  rw [maxPacketSize]
  generalize BitVec.ofNat 32 gdbServerMinPacketSize = start at hstart
  induction calls generalizing start with
  | nil => exact hstart
  | cons m calls ih =>
    refine ih _ ?_
    rw [setMaxPacketSize]
    split_ifs with hm
    · exact hm.le
    · exact hstart

theorem cutStep_of_lt (max : BitVec 32) (sent : List (List Byte)) (hi : i.toNat < output.length)
    (hlong : output.length < 2 ^ 32) :
    cutStep max output (i, sent) =
      .inl (i + max, sent ++ [code 'O' :: (output.drop i.toNat).take max.toNat]) := by
  rw [cutStep, if_pos hi]
  dsimp only
  split_ifs with hrest
  · -- The last packet is shorter; `substr` would cut it off there anyway.
    have htoNat : (BitVec.ofNat 32 output.length - i).toNat = output.length - i.toNat := by
      rw [BitVec.toNat_sub, BitVec.toNat_ofNat]
      omega
    have hle := (BitVec.lt_def.mp hrest).le
    rw [htoNat] at hle ⊢
    rw [List.take_of_length_le (List.length_drop.le), List.take_of_length_le (by simpa using hle)]
  · rfl

theorem finishes_cutStep_sent {st : BitVec 32 × List (List Byte)}
    (h : Finishes (cutStep max output) st packets) : ∃ more, packets = st.2 ++ more := by
  induction h with
  | @done st packets h =>
    obtain ⟨i, sent⟩ := st
    rw [cutStep] at h
    split_ifs at h
    cases h
    exact ⟨[], (List.append_nil _).symm⟩
  | @next st st' packets h _ ih =>
    obtain ⟨i, sent⟩ := st
    obtain ⟨more, rfl⟩ := ih
    rw [cutStep] at h
    split_ifs at h
    cases h
    exact ⟨_, List.append_assoc ..⟩

theorem first_packet (h : Finishes (cutStep max output) (0, []) packets)
    (hlong : max.toNat < output.length) :
    ∃ digits, code 'O' :: digits ∈ packets ∧ digits.length = max.toNat := by
  by_cases hlength : output.length < 2 ^ 32
  · have hstep := cutStep_of_lt (i := 0) max [] (Nat.zero_lt_of_lt hlong) hlength
    cases h with
    | done h => cases hstep.symm.trans h
    | next h hrest =>
      cases hstep.symm.trans h
      obtain ⟨more, rfl⟩ := finishes_cutStep_sent hrest
      exact ⟨output.take max.toNat, by simp, List.length_take_of_le hlong.le⟩
  · -- The index is always less than the length.
    refine absurd ⟨packets, h⟩
      (not_finishes_of_closed (P := fun _ => True) (fun st _ => ?_) trivial)
    obtain ⟨i, sent⟩ := st
    exact ⟨_, if_pos (i.isLt.trans_le (not_lt.mp hlength)), trivial⟩

theorem drop_flatMap_hexPair (s : List Byte) (k : ℕ) :
    (s.flatMap hexPair).drop (2 * k) = (s.drop k).flatMap hexPair := by
  induction k generalizing s with
  | zero => rfl
  | succ k ih =>
    cases s with
    | nil => rfl
    | cons b s => exact ih s

theorem take_flatMap_hexPair (s : List Byte) (k : ℕ) :
    (s.flatMap hexPair).take (2 * k) = (s.take k).flatMap hexPair := by
  induction k generalizing s with
  | zero => rfl
  | succ k ih =>
    cases s with
    | nil => rfl
    | cons b s => exact congrArg (hexPair b ++ ·) (ih s)

theorem asciiHex2Data_flatMap {s : List Byte} (h : s.length < 2 ^ 30) :
    asciiHex2Data (s.flatMap hexPair) = s := by
  rw [asciiHex2Data_eq (by rw [length_flatMap_hexPair]; omega)]
  exact hexBytes_sameLetter (List.forall₂_same.mpr fun _ _ => .inl rfl)

/-- With room for an even number of digits, all packets hold whole bytes. -/
theorem finishes_cutStep {m k : ℕ} {s : List Byte} (hmax : max.toNat = 2 * m) (hm : 0 < m)
    (hs : s.length < 2 ^ 30) (hlong : max.toNat < 2 * s.length) (hi : i.toNat = 2 * k) :
    ∃ more, (∀ sent, Finishes (cutStep max (s.flatMap hexPair)) (i, sent) (sent ++ more)) ∧
      (∀ p ∈ more, ∃ digits, p = code 'O' :: digits ∧ 2 ∣ digits.length ∧
        digits.length ≤ max.toNat) ∧
      (more.map fun p => asciiHex2Data p.tail).flatten = s.drop k := by
  have hlength := length_flatMap_hexPair s
  induction hn : s.length - k using Nat.strongRecOn generalizing i k with
  | ind n ih =>
    by_cases hend : i.toNat < (s.flatMap hexPair).length
    · have hnext : (i + max).toNat = 2 * (k + m) := by
        rw [BitVec.toNat_add]
        omega
      obtain ⟨more, hfinishes, hmore, hjoined⟩ := ih _ (by omega) hnext rfl
      refine ⟨(code 'O' :: ((s.drop k).take m).flatMap hexPair) :: more, fun sent => ?_, ?_, ?_⟩
      · -- The digits of this packet are those of `m` bytes.
        have hstep := cutStep_of_lt max sent hend (by omega)
        rw [hi, hmax, drop_flatMap_hexPair, take_flatMap_hexPair] at hstep
        have hrest := hfinishes (sent ++ [code 'O' :: ((s.drop k).take m).flatMap hexPair])
        rw [List.append_assoc] at hrest
        exact .next hstep hrest
      · rintro p (_ | ⟨_, hp⟩)
        · refine ⟨_, rfl, ?_⟩
          rw [length_flatMap_hexPair, List.length_take]
          omega
        · exact hmore p hp
      · rw [List.map_cons, List.flatten_cons, hjoined, List.tail_cons, asciiHex2Data_flatMap,
          ← List.drop_drop, List.take_append_drop]
        rw [List.length_take, List.length_drop]
        omega
    · refine ⟨[], fun sent => .done ?_, by simp, ?_⟩
      · rw [cutStep, if_neg hend, List.append_nil]
      · exact (List.drop_of_length_le (by omega)).symm

theorem delivers_iff (hmax : 2 ≤ max.toNat)
    (hlong : max.toNat < (data2AsciiHex (withNewline result)).length) :
    Delivers max size result ↔
      ∃ packets, Finishes (cutStep max (data2AsciiHex (withNewline result))) (0, []) packets ∧
        Whole size result packets := by
  have hresult : result ≠ [] := by
    rintro rfl
    exact absurd hlong (not_lt.mpr hmax)
  rw [Delivers]
  refine exists_congr fun packets => and_congr_left fun _ => ?_
  rw [RepliesWith, if_neg hresult, if_pos hlong]
  refine ⟨fun ⟨packets', h, heq⟩ => ?_, fun h => ⟨packets, h, rfl⟩⟩
  have hinj : Function.Injective fun p : List Byte => (p, false) := fun p q hpq =>
    congrArg Prod.fst hpq
  rwa [hinj.list_map (List.append_cancel_right heq)]

theorem not_delivers (hmax : 2 ≤ max.toNat)
    (hlong : max.toNat < (data2AsciiHex (withNewline result)).length) :
    ¬ Delivers max max.toNat result := by
  rw [delivers_iff hmax hlong]
  rintro ⟨packets, hfinishes, hwhole⟩
  obtain ⟨digits, hmem, hdigits⟩ := first_packet hfinishes hlong
  have := hwhole.size_le _ hmem
  rw [List.length_cons] at this
  omega

theorem delivers_succ_iff (hmax : 2 ≤ max.toNat)
    (hlong : max.toNat < (data2AsciiHex (withNewline result)).length)
    (hlength : (withNewline result).length < 2 ^ 30) :
    Delivers max (max.toNat + 1) result ↔ 2 ∣ max.toNat := by
  rw [delivers_iff hmax hlong]
  constructor
  · rintro ⟨packets, hfinishes, hwhole⟩
    obtain ⟨digits, hmem, hdigits⟩ := first_packet hfinishes hlong
    obtain ⟨digits', heq, heven⟩ := hwhole.even _ hmem
    cases heq
    exact hdigits ▸ heven
  · rintro ⟨m, hm⟩
    rw [data2AsciiHex_eq (by omega)] at hlong ⊢
    rw [length_flatMap_hexPair] at hlong
    obtain ⟨packets, hfinishes, hpackets, hjoined⟩ :=
      finishes_cutStep (i := 0) (k := 0) hm (by omega) hlength hlong rfl
    refine ⟨packets, hfinishes [], fun p hp => ?_, fun p hp => ?_, hjoined⟩
    · obtain ⟨digits, rfl, -, hle⟩ := hpackets p hp
      exact Nat.succ_le_succ hle
    · obtain ⟨digits, rfl, heven, -⟩ := hpackets p hp
      exact ⟨digits, rfl, heven⟩

/-- A long result never fits in packets of the size that is set, because every packet has one letter
more. With packets of one character more it is delivered exactly when the size is even. -/
theorem consolePackets_iff (calls : List (BitVec 32)) (result : List Byte) :
    let max := maxPacketSize calls
    let output := data2AsciiHex (withNewline result)
    ((max.toNat < output.length → Delivers max max.toNat result) ↔ output.length ≤ max.toNat) ∧
      (max.toNat < output.length → (withNewline result).length < 2 ^ 30 →
        (Delivers max (max.toNat + 1) result ↔ 2 ∣ max.toNat)) := by
  intro max output
  have hmax : 5024 ≤ max.toNat := minPacketSize_le calls
  refine ⟨⟨fun h => ?_, fun hle hlong => absurd hlong (not_lt.mpr hle)⟩, fun hlong hlength => ?_⟩
  · by_contra hlong
    exact not_delivers (by omega) (not_le.mp hlong) (h (not_le.mp hlong))
  · exact delivers_succ_iff (by omega) hlong hlength

/-- In packets of 5025 characters, a result of 2514 bytes does not fit, and bytes are cut in
half. -/
theorem odd_packets_cut :
    let result := List.replicate 2513 (code 'a')
    (maxPacketSize [5025]).toNat < (data2AsciiHex (withNewline result)).length ∧
      ¬ Delivers (maxPacketSize [5025]) 5025 result ∧
      ¬ Delivers (maxPacketSize [5025]) 5026 result := by
  intro result
  have hmax : (maxPacketSize [5025]).toNat = 5025 := rfl
  have hlast : result.getLast? ≠ some (code '\n') := fun h =>
    absurd (List.eq_of_mem_replicate (List.mem_of_getLast? h)) (by decide)
  have hlength : (withNewline result).length = 2514 := by
    rw [withNewline, if_neg hlast, List.length_append, List.length_replicate]
    rfl
  have hlong : (maxPacketSize [5025]).toNat < (data2AsciiHex (withNewline result)).length := by
    rw [data2AsciiHex_eq (by omega), length_flatMap_hexPair]
    omega
  have hsucc := delivers_succ_iff (by omega) hlong (by omega)
  exact ⟨hlong, not_delivers (by omega) hlong, fun h => absurd (hsucc.mp h) (by decide)⟩

end Console

end Adl.Gdb
