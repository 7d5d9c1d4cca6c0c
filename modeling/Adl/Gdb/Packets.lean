import Adl.Gdb.BinaryWrite

/-!
# Packets in the receive buffer

The reader puts a terminator behind the bytes of its buffer, scans for the end of a packet and looks
at the two digits behind it. The digits are decoded without a check: a character that is no digit
counts as -1.
-/

namespace Adl.Gdb

open Adl.Math

/-! ### The scan of a packet -/

/-- Where the scan stops: at the first dollar or number sign, or behind the terminator. -/
def scanEnd (buf : List Byte) (n : ℕ) : ℕ :=
  1 + (List.range n).findIdx fun i => byteAt buf (1 + i) = code '$' ∨ byteAt buf (1 + i) = code '#'

section Scan

variable {error : Bool} {t₀ t : CommThread} {buf : List Byte} {n ptr count : ℕ} {checksum : Byte}

theorem scanEnd_le : scanEnd buf n ≤ n + 1 := by
  refine (Nat.add_comm n 1).ge.trans' (Nat.add_le_add_left ?_ 1)
  exact List.findIdx_le_length.trans_eq List.length_range

theorem one_add_scanEnd_sub : 1 + (scanEnd buf n - 1) = scanEnd buf n :=
  Nat.add_sub_of_le (Nat.le_add_right _ _)

theorem plain_of_lt_scanEnd (hptr : 1 ≤ ptr) (h : ptr < scanEnd buf n) :
    byteAt buf ptr ≠ code '$' ∧ byteAt buf ptr ≠ code '#' := by
  obtain ⟨i, rfl⟩ := Nat.exists_eq_add_of_le hptr
  have hplain := List.not_of_lt_findIdx (Nat.lt_of_add_lt_add_left h)
  rw [List.getElem_range, decide_eq_false_iff_not] at hplain
  exact not_or.mp hplain

theorem sign_of_scanEnd_le (h : scanEnd buf n ≤ n) :
    byteAt buf (scanEnd buf n) = code '$' ∨ byteAt buf (scanEnd buf n) = code '#' := by
  have hlt : scanEnd buf n - 1 < (List.range n).length := by
    rw [List.length_range, scanEnd] at *
    omega
  rw [scanEnd, Nat.add_sub_cancel_left] at hlt
  have hsign := List.findIdx_getElem (w := hlt)
  rw [List.getElem_range] at hsign
  exact of_decide_eq_true hsign

theorem readStep_entry (h : byteAt (t₀.received n).inBuf 0 = code '$') :
    readStep false t₀ n .entry = .inl (.retry (t₀.received n) 1) := by
  rw [readStep, if_neg Bool.false_ne_true]
  dsimp only
  rw [h, if_neg (by decide), if_pos rfl]

/-- Ordinary characters are passed one after the other, and their sum is taken. -/
theorem reaches_loop (h : byteAt (t₀.received n).inBuf 0 = code '$') {k : ℕ} (hk : k ≤ n)
    (hplain : ∀ ptr, 1 ≤ ptr → ptr < 1 + k → byteAt (t₀.received n).inBuf ptr ≠ code '$' ∧
      byteAt (t₀.received n).inBuf ptr ≠ code '#') :
    Reaches (readStep false t₀ n) .entry (.loop (t₀.received n) (1 + k) k
      (sum ((List.range k).map fun i => byteAt (t₀.received n).inBuf (1 + i)))) := by
  induction k with
  | zero => exact .tail (.single (readStep_entry h)) rfl
  | succ k ih =>
    have hlast := hplain (1 + k) (by omega) (by omega)
    refine .tail (ih (by omega) fun ptr hptr hlt => hplain ptr hptr (by omega)) ?_
    rw [readStep, if_pos (by omega), if_neg hlast.1, if_neg hlast.2, List.range_succ,
      List.map_append, sum, sum, List.foldl_append]
    rfl

end Scan

/-! ### What is read and written -/

/-- The places of the buffer that `endPacket` reads or writes. -/
def endAccesses (t : CommThread) (ptr : ℕ) (checksum : Byte) : List ℕ :=
  ptr :: if byteAt t.inBuf ptr = code '#' then
    let buf := t.inBuf.set ptr 0
    let xmitcsum := hexChar (byteAt buf (ptr + 1)) <<< 4 + hexChar (byteAt buf (ptr + 2))
    (ptr + 1) :: (ptr + 2) :: if checksum ≠ xmitcsum then []
      else 3 :: if byteAt buf 3 = code ':' then [1, 2] else []
  else []

/-- The places of the buffer that a step of `handleRead` reads or writes. -/
def accesses (error : Bool) (t₀ : CommThread) (bytesTransferred : ℕ) : ReadPoint → List ℕ
  | .entry =>
    if error then []
    else
      let ch := byteAt (t₀.received bytesTransferred).inBuf 0
      bytesTransferred :: 0 :: if ch = 0 ∨ ch = 3 then [1] else []
  | .retry _ _ => []
  | .loop t ptr count checksum =>
    if count < bytesTransferred then
      ptr :: if byteAt t.inBuf ptr = code '$' then []
        else if byteAt t.inBuf ptr = code '#' then endAccesses t ptr checksum else []
    else endAccesses t ptr checksum

/-- The buffer has room for all that the reader looks at. -/
def Fits (buf : List Byte) (n : ℕ) : Prop :=
  n < buf.length ∧ (byteAt buf 0 = 0 ∨ byteAt buf 0 = 3 → 1 < buf.length) ∧
    (byteAt buf 0 = code '$' → scanEnd buf n < buf.length ∧
      (byteAt buf (scanEnd buf n) = code '#' → scanEnd buf n + 2 < buf.length))

instance (buf : List Byte) (n : ℕ) : Decidable (Fits buf n) :=
  inferInstanceAs (Decidable (_ ∧ _))

section Bounds

variable {error : Bool} {t₀ t : CommThread} {n ptr count : ℕ} {checksum : Byte}

/-- The states of a reader: it stands where the scan stops or before, and has counted its steps
unless it restarts. -/
inductive Within (t : CommThread) (n : ℕ) : ReadPoint → Prop
  | entry : Within t n .entry
  | retry {ptr : ℕ} (h : byteAt t.inBuf 0 = code '$') (hptr : 1 ≤ ptr)
      (hend : ptr ≤ scanEnd t.inBuf n) (hfrom : ptr = 1 ∨ byteAt t.inBuf ptr = code '$') :
      Within t n (.retry t ptr)
  | loop {ptr count : ℕ} {checksum : Byte} (h : byteAt t.inBuf 0 = code '$') (hptr : 1 ≤ ptr)
      (hend : ptr ≤ scanEnd t.inBuf n)
      (hfrom : ptr = 1 + count ∨ byteAt t.inBuf ptr = code '$') :
      Within t n (.loop t ptr count checksum)

theorem Within.step {p p' : ReadPoint} (hp : Within (t₀.received n) n p)
    (hstep : readStep false t₀ n p = .inl p') : Within (t₀.received n) n p' := by
  cases hp with
  | entry =>
    rw [readStep, if_neg Bool.false_ne_true] at hstep
    dsimp only at hstep
    split_ifs at hstep with hend hstart
    cases hstep
    exact .retry hstart le_rfl (Nat.le_add_right _ _) (.inl rfl)
  | retry h hptr hend hfrom =>
    cases hstep
    exact .loop h hptr hend hfrom
  | loop h hptr hend hfrom =>
    rw [readStep] at hstep
    split_ifs at hstep with hcount hdollar hhash
    · cases hstep
      exact .retry h hptr hend (.inr hdollar)
    · cases hstep
      have hptr' := hfrom.resolve_right hdollar
      -- The scan stops only at one of the two signs while characters are left.
      have hlt := Nat.lt_of_le_of_ne hend fun heq =>
        (heq ▸ sign_of_scanEnd_le (by omega)).elim hdollar hhash
      exact .loop h (by omega) hlt (.inl (by omega))

theorem mem_endAccesses {i : ℕ} (hi : i ∈ endAccesses t ptr checksum) :
    i = ptr ∨ byteAt t.inBuf ptr = code '#' ∧ (i ≤ ptr + 2 ∨ i ≤ 3) := by
  rw [endAccesses, List.mem_cons] at hi
  refine hi.imp_right fun hi => ?_
  dsimp only at hi
  split_ifs at hi with hhash <;> simp only [List.mem_cons, List.not_mem_nil, or_false] at hi <;>
    exact ⟨hhash, by omega⟩

theorem mem_accesses_loop {i : ℕ} (hi : i ∈ accesses error t₀ n (.loop t ptr count checksum)) :
    i = ptr ∨ byteAt t.inBuf ptr = code '#' ∧ (i ≤ ptr + 2 ∨ i ≤ 3) := by
  rw [accesses] at hi
  split_ifs at hi with hcount hdollar hhash
  · exact .inl (List.mem_singleton.mp hi)
  · exact (List.mem_cons.mp hi).elim .inl mem_endAccesses
  · exact .inl (List.mem_singleton.mp hi)
  · exact mem_endAccesses hi

theorem ptr_mem_accesses : ptr ∈ accesses error t₀ n (.loop t ptr count checksum) := by
  rw [accesses]
  split_ifs <;> exact List.mem_cons_self

theorem look_ahead_mem_accesses (h : byteAt t.inBuf ptr = code '#') :
    ptr + 2 ∈ accesses error t₀ n (.loop t ptr count checksum) := by
  have hdollar : byteAt t.inBuf ptr ≠ code '$' := by
    rw [h]
    decide
  have hend : ptr + 2 ∈ endAccesses t ptr checksum := by
    rw [endAccesses, if_pos h]
    exact .tail _ (.tail _ (.head _))
  rw [accesses, if_neg hdollar, if_pos h]
  split_ifs
  · exact .tail _ hend
  · exact hend

theorem Within.accesses_lt {p : ReadPoint} (hp : Within (t₀.received n) n p)
    (hfits : Fits (t₀.received n).inBuf n) :
    ∀ i ∈ accesses false t₀ n p, i < (t₀.received n).inBuf.length := by
  obtain ⟨hn, hinterrupt, hpacket⟩ := hfits
  intro i hi
  cases hp with
  | entry =>
    rw [accesses, if_neg Bool.false_ne_true] at hi
    rcases hi with _ | ⟨_, _ | ⟨_, hi⟩⟩
    · exact hn
    · omega
    · split_ifs at hi with hch
      · rw [List.mem_singleton.mp hi]
        exact hinterrupt hch
      · cases hi
  | retry => cases hi
  | @loop ptr count checksum h hptr hend hfrom =>
    obtain ⟨hscan, hahead⟩ := hpacket h
    rcases mem_accesses_loop hi with rfl | ⟨hhash, hle⟩
    · omega
    · -- A number sign stands nowhere before the place where the scan stops.
      have heq : ptr = scanEnd (t₀.received n).inBuf n :=
        hend.eq_of_not_lt fun hlt => (plain_of_lt_scanEnd hptr hlt).2 hhash
      have := hahead (heq ▸ hhash)
      omega

/-- The reader stays inside its buffer exactly when there is an error or the terminator fits, the
place where the scan stops is inside the buffer and so are the two digits behind a number sign
there. -/
theorem handleRead_inBounds_iff (error : Bool) (t₀ : CommThread) (n : ℕ) :
    (∀ p, Reaches (readStep error t₀ n) .entry p →
      ∀ i ∈ accesses error t₀ n p, i < t₀.inBuf.length) ↔
      error = true ∨ Fits (t₀.received n).inBuf n := by
  have hlen : t₀.inBuf.length = (t₀.received n).inBuf.length := List.length_set.symm
  rw [hlen]
  cases error with
  | true =>
    -- The reader returns before it touches the buffer.
    refine iff_of_true (fun p hp i hi => ?_) (.inl rfl)
    obtain rfl | ⟨q, hstep, -⟩ := hp.cases_head
    · cases hi
    · cases hstep
  | false =>
    rw [or_iff_right Bool.false_ne_true]
    constructor
    · intro h
      have hentry := h .entry .refl
      rw [accesses, if_neg Bool.false_ne_true] at hentry
      dsimp only at hentry
      -- The terminator, the character behind an interrupt, and what the scan comes to.
      refine ⟨hentry n (.head _), fun hch => hentry 1 ?_, fun hstart => ?_⟩
      · rw [if_pos hch]
        exact .tail _ (.tail _ (.head _))
      · have hreach := h _ (reaches_loop hstart (Nat.sub_le_of_le_add scanEnd_le)
          fun ptr hptr hlt => plain_of_lt_scanEnd hptr (one_add_scanEnd_sub ▸ hlt))
        rw [one_add_scanEnd_sub] at hreach
        exact ⟨hreach _ ptr_mem_accesses, fun hhash => hreach _ (look_ahead_mem_accesses hhash)⟩
    · intro hfits p hp
      exact (hp.invariant (fun _ _ => Within.step) Within.entry).accesses_lt hfits

/-- A read that fills the buffer leaves no room for the terminator. -/
theorem full_buffer_overrun :
    let t : CommThread := ⟨List.replicate gdbServerMinPacketSize (code '+'), true⟩
    ¬ ∀ p, Reaches (readStep false t gdbServerMinPacketSize) .entry p →
      ∀ i ∈ accesses false t gdbServerMinPacketSize p, i < t.inBuf.length := by
  intro t h
  have hlast := h .entry .refl gdbServerMinPacketSize (.head _)
  rw [List.length_replicate] at hlast
  exact Nat.lt_irrefl _ hlast

end Bounds

/-! ### Checksums -/

def gHexChars : List Byte := "0123456789abcdef".toList.map code

def constructGdbPacket (data : List Byte) (isAsync : Bool) : List Byte :=
  (if isAsync then code '%' else code '$') :: (data ++ [code '#',
    byteAt gHexChars (sum data >>> 4).toNat, byteAt gHexChars (sum data &&& 0xf).toNat])

/-- The packet is acknowledged, and the payload stands in the buffer for the command handler. -/
def ReadResult.Accepts (r : ReadResult) (payload : List Byte) : Prop :=
  r.actions = [.replyGoodCsum, .handlePacket 1] ∧ (payload ++ [0]) <+: r.thread.inBuf.drop 1

/-- Two hexadecimal digits spell the sum of the bytes modulo 256. -/
def Spells (a b : Byte) (payload : List Byte) : Prop :=
  isHexDigit a = true ∧ isHexDigit b = true ∧
    hexValue [a, b] = (payload.map BitVec.toNat).sum % 256

instance (a b : Byte) (payload : List Byte) : Decidable (Spells a b payload) :=
  inferInstanceAs (Decidable (_ ∧ _))

section Checksum

variable {payload : List Byte} {a b : Byte} {n : ℕ}

theorem toNat_foldl_add (bytes : List Byte) (c : Byte) :
    (bytes.foldl (· + ·) c).toNat = (c.toNat + (bytes.map BitVec.toNat).sum) % 256 := by
  induction bytes generalizing c with
  | nil => exact (Nat.mod_eq_of_lt c.isLt).symm
  | cons b rest ih =>
    rw [List.foldl_cons, ih, List.map_cons, List.sum_cons, BitVec.toNat_add, ← Nat.add_assoc]
    omega

theorem toNat_sum (bytes : List Byte) :
    (sum bytes).toNat = (bytes.map BitVec.toNat).sum % 256 := by
  rw [sum, toNat_foldl_add]
  exact congrArg (· % 256) (Nat.zero_add _)

theorem spells_iff (ha : isHexDigit a = true) (hb : isHexDigit b = true) :
    Spells a b payload ↔ hexChar a <<< 4 + hexChar b = sum payload := by
  have hdigit : ∀ d : Byte, isHexDigit d = true → (hexChar d).toNat < 16 := by decide +kernel
  have hhigh := hdigit a ha
  have hlow := hdigit b hb
  rw [Spells, and_iff_right ha, and_iff_right hb, ← toNat_sum, ← BitVec.toNat_inj,
    BitVec.toNat_add, BitVec.toNat_shiftLeft, Nat.shiftLeft_eq]
  simp only [hexValue, numeral, List.map_cons, List.map_nil, List.foldl_cons, List.foldl_nil]
  omega

theorem isHexDigit_gHexChars (d : ℕ) (hd : d < 16) :
    isHexDigit (byteAt gHexChars d) = true ∧ (hexChar (byteAt gHexChars d)).toNat = d := by
  revert d
  decide

theorem toNat_and_mask (c : Byte) : (c &&& 0xf).toNat = c.toNat % 16 := by
  rw [BitVec.toNat_and]
  exact Nat.and_two_pow_sub_one_eq_mod c.toNat 4

theorem spells_gHexChars (payload : List Byte) :
    Spells (byteAt gHexChars (sum payload >>> 4).toNat)
      (byteAt gHexChars (sum payload &&& 0xf).toNat)
      payload := by
  have hlt := (sum payload).isLt
  have hhigh := isHexDigit_gHexChars (sum payload >>> 4).toNat
    (by rw [BitVec.toNat_ushiftRight, Nat.shiftRight_eq_div_pow]; omega)
  have hlow := isHexDigit_gHexChars (sum payload &&& 0xf).toNat
    (by rw [toNat_and_mask]; omega)
  refine ⟨hhigh.1, hlow.1, ?_⟩
  simp only [hexValue, numeral, List.map_cons, List.map_nil, List.foldl_cons, List.foldl_nil]
  rw [hhigh.2, hlow.2, toNat_and_mask, BitVec.toNat_ushiftRight, Nat.shiftRight_eq_div_pow,
    ← toNat_sum]
  omega

theorem byteAt_append_left {pre : List Byte} {i : ℕ} (h : i < pre.length) (bytes : List Byte) :
    byteAt (pre ++ bytes) i = byteAt pre i := by
  rw [byteAt, byteAt, List.getD_eq_getElem?_getD, List.getD_eq_getElem?_getD,
    List.getElem?_append_left h]

theorem byteAt_append_add (pre bytes : List Byte) (i : ℕ) :
    byteAt (pre ++ bytes) (pre.length + i) = byteAt bytes i := by
  rw [byteAt, byteAt, List.getD_eq_getElem?_getD, List.getD_eq_getElem?_getD,
    List.getElem?_append_right (Nat.le_add_right _ _), Nat.add_sub_cancel_left]

theorem map_byteAt_range (start : Byte) (payload tail : List Byte) :
    (List.range payload.length).map (fun i => byteAt (start :: payload ++ tail) (1 + i)) =
      payload := by
  refine List.ext_getElem (by simp) fun i hi hi' => ?_
  rw [List.getElem_map, List.getElem_range, byteAt_append_left (by simp; omega), Nat.add_comm 1]
  simp [byteAt, hi']

theorem endPacket_accepts {pre payload : List Byte} (hpre : pre = code '$' :: payload)
    (tail : List Byte) (a b checksum : Byte) :
    (endPacket ⟨pre ++ code '#' :: a :: b :: tail, true⟩ pre.length checksum).Accepts payload ↔
      hexChar a <<< 4 + hexChar b = checksum ∧ byteAt (payload ++ [0, a, b]) 2 ≠ code ':' := by
  have hset : (pre ++ code '#' :: a :: b :: tail).set pre.length 0 =
      pre ++ 0 :: a :: b :: tail := by
    rw [List.set_append_right _ _ le_rfl, Nat.sub_self, List.set_cons_zero]
  have hthird : byteAt (pre ++ 0 :: a :: b :: tail) 3 = byteAt (payload ++ [0, a, b]) 2 := by
    have hassoc : pre ++ 0 :: a :: b :: tail = code '$' :: (payload ++ [0, a, b] ++ tail) := by
      simp [hpre]
    rw [hassoc]
    exact byteAt_append_left (i := 2) (by simp) tail
  -- The number sign has become the terminator of the payload.
  have hpayload : (payload ++ [0]) <+: (pre ++ 0 :: a :: b :: tail).drop 1 :=
    ⟨a :: b :: tail, by simp [hpre]⟩
  rw [endPacket, if_pos (byteAt_append pre _ _)]
  dsimp only
  rw [hset, hthird, byteAt_append_add pre _ 1, byteAt_append_add pre _ 2]
  split_ifs with hsum hcolon
  · exact iff_of_false (fun h => nomatch h.1) fun h => hsum h.1.symm
  · exact iff_of_false (fun h => nomatch h.1) fun h => h.2 hcolon
  · exact iff_of_true ⟨rfl, hpayload⟩ ⟨(not_not.mp hsum).symm, hcolon⟩

theorem finishes_packet (hplain : ∀ c ∈ payload, c ≠ code '$' ∧ c ≠ code '#')
    (hn : payload.length + 4 ≤ n) (a b : Byte) (rest : List Byte) (active : Bool) :
    ∃ r, Finishes (readStep false ⟨code '$' :: (payload ++ code '#' :: a :: b :: rest), active⟩ n)
        .entry r ∧
      (r.Accepts payload ↔ hexChar a <<< 4 + hexChar b = sum payload ∧
        byteAt (payload ++ [0, a, b]) 2 ≠ code ':') := by
  obtain ⟨j, rfl⟩ := Nat.exists_eq_add_of_le hn
  let t₀ : CommThread := ⟨code '$' :: (payload ++ code '#' :: a :: b :: rest), active⟩
  let tail := rest.set j 0
  -- The terminator is written behind the digits.
  have hreceived : t₀.received (payload.length + 4 + j) =
      ⟨code '$' :: payload ++ code '#' :: a :: b :: tail, true⟩ := by
    have hset := List.set_append_right (s := code '$' :: payload) (t := code '#' :: a :: b :: rest)
      (payload.length + 4 + j) (0 : Byte) (by rw [List.length_cons]; omega)
    have hj : payload.length + 4 + j - (payload.length + 1) = j + 3 := by omega
    rw [List.length_cons, hj] at hset
    exact congrArg (CommThread.mk · true) hset
  have hdollar : byteAt (t₀.received (payload.length + 4 + j)).inBuf 0 = code '$' := by
    rw [hreceived]
    rfl
  have hreach := reaches_loop hdollar (k := payload.length) (by omega) fun ptr hptr hlt => by
      obtain ⟨i, rfl⟩ := Nat.exists_eq_add_of_le hptr
      have hi : i < payload.length := by omega
      rw [hreceived, byteAt_append_left (by rw [List.length_cons]; omega), Nat.add_comm 1]
      have hc : byteAt (code '$' :: payload) (i + 1) = payload[i] := by simp [byteAt, hi]
      rw [hc]
      exact hplain _ (List.getElem_mem hi)
  rw [hreceived, map_byteAt_range, Nat.add_comm 1] at hreach
  have hend : byteAt (code '$' :: payload ++ code '#' :: a :: b :: tail) (payload.length + 1) =
      code '#' := byteAt_append (code '$' :: payload) _ _
  refine ⟨_, .of_reaches hreach (.done ?_), endPacket_accepts rfl tail a b (sum payload)⟩
  rw [readStep, if_pos (by omega), if_neg (by rw [hend]; decide), if_pos hend]
  rfl

/-- A packet is accepted exactly with the digits of its checksum if both characters are digits or
do not happen to be decoded as the sum, or if one of them is taken for the end of a sequence
number. What `constructGdbPacket` frames is accepted. -/
theorem handleRead_accepts_iff (hplain : ∀ c ∈ payload, c ≠ code '$' ∧ c ≠ code '#')
    (hthird : payload[2]? ≠ some (code ':')) (hn : payload.length + 4 ≤ n) (a b : Byte)
    (rest : List Byte) (active : Bool) :
    (∃ r, Finishes (readStep false ⟨code '$' :: (payload ++ code '#' :: a :: b :: rest), active⟩ n)
        .entry r ∧
      ((r.Accepts payload ↔ Spells a b payload) ↔ (isHexDigit a = true ∧ isHexDigit b = true) ∨
        hexChar a <<< 4 + hexChar b ≠ sum payload ∨
        byteAt (payload ++ [0, a, b]) 2 = code ':')) ∧
    ∃ r, Finishes (readStep false ⟨constructGdbPacket payload false ++ rest, active⟩ n) .entry r ∧
      r.Accepts payload := by
  -- Digits are never taken for a colon.
  have hcolon : ∀ a b, isHexDigit a = true → isHexDigit b = true →
      byteAt (payload ++ [0, a, b]) 2 ≠ code ':' := by
    intro a b ha hb
    rcases payload with _ | ⟨x, _ | ⟨y, _ | ⟨z, tail⟩⟩⟩
    · exact ne_of_isHexDigit hb (by decide)
    · exact ne_of_isHexDigit ha (by decide)
    · exact show (0 : Byte) ≠ code ':' by decide
    · exact fun h => hthird (congrArg some h)
  constructor
  · obtain ⟨r, hr, haccepts⟩ := finishes_packet hplain hn a b rest active
    refine ⟨r, hr, ?_⟩
    rw [haccepts]
    by_cases hdigits : isHexDigit a = true ∧ isHexDigit b = true
    · rw [spells_iff hdigits.1 hdigits.2, and_iff_left (hcolon a b hdigits.1 hdigits.2)]
      exact iff_of_true Iff.rfl (.inl hdigits)
    · have hspells : ¬ Spells a b payload := fun h => hdigits ⟨h.1, h.2.1⟩
      rw [iff_false_right hspells, or_iff_right hdigits, not_and_or, not_not]
  · have hspells := spells_gHexChars payload
    obtain ⟨r, hr, haccepts⟩ := finishes_packet hplain hn _ _ rest active
    refine ⟨r, ?_, haccepts.mpr ⟨(spells_iff hspells.1 hspells.2.1).mp hspells,
      hcolon _ _ hspells.1 hspells.2.1⟩⟩
    rw [constructGdbPacket, if_neg Bool.false_ne_true, List.cons_append, List.append_assoc]
    exact hr

/-- The digits of the checksum of two letters. -/
theorem accepts_letters :
    (∃ r, Finishes (readStep false ⟨[code '$', code 'z', code 'z', code '#', code 'f', code '4', 0],
        true⟩ 6) .entry r ∧
      ((r.Accepts [code 'z', code 'z'] ↔ Spells (code 'f') (code '4') [code 'z', code 'z']) ↔
        (isHexDigit (code 'f') = true ∧ isHexDigit (code '4') = true) ∨
        hexChar (code 'f') <<< 4 + hexChar (code '4') ≠ sum [code 'z', code 'z'] ∨
        byteAt [code 'z', code 'z', 0, code 'f', code '4'] 2 = code ':')) ∧
    ∃ r, Finishes (readStep false ⟨constructGdbPacket [code 'z', code 'z'] false ++ [0], true⟩ 6)
      .entry r ∧ r.Accepts [code 'z', code 'z'] :=
  @handleRead_accepts_iff [code 'z', code 'z'] 6 (by decide) (by decide) (by decide) (code 'f')
    (code '4') [0] true

/-- A letter that is no digit counts as -1, which is as good as the digit f here. -/
theorem accepts_wrong_digit :
    (∃ r, Finishes (readStep false ⟨[code '$', code 'z', code 'z', code '#', code 'G', code '4', 0],
        true⟩ 6) .entry r ∧ r.Accepts [code 'z', code 'z']) ∧
      ¬ Spells (code 'G') (code '4') [code 'z', code 'z'] := by
  obtain ⟨r, hr, haccepts⟩ := @finishes_packet [code 'z', code 'z'] 6 (by decide) (by decide)
    (code 'G') (code '4') [0] true
  exact ⟨⟨r, hr, haccepts.mpr (by decide)⟩, by decide⟩

end Checksum

end Adl.Gdb
