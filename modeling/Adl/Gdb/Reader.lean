import Adl.Math.Halting
import Adl.Math.Text

/-!
# The reader of packets from the debugger

The debugger sends single characters, and packets between a dollar sign and a number sign with a
checksum behind it. Another dollar sign inside a packet is meant to start the packet anew; the
reader returns to the start of its loop without stepping over it.
-/

namespace Adl.Gdb

open Adl.Math

def byteAt (buf : List Byte) (i : ℕ) : Byte := buf.getD i 0

/-- The value of a hexadecimal digit, and -1 for any other character. -/
def hexChar (ch : Byte) : Byte := (hexDigit? ch).getD (-1)

inductive Action where
  | commThreadActive
  | replyBadCsum
  | replyGoodCsum
  | replySequenceNum (x y : Byte)
  | handlePacket (data : ℕ)
  | getCommand
  deriving DecidableEq

/-- The size of the buffer, unless a larger one is asked for. -/
def gdbServerMinPacketSize : ℕ := 5024

structure CommThread where
  inBuf : List Byte
  active : Bool
  deriving DecidableEq

inductive ReadPoint where
  | entry
  | retry (t : CommThread) (ptr : ℕ)
  | loop (t : CommThread) (ptr count : ℕ) (checksum : Byte)
  deriving DecidableEq

structure ReadResult where
  thread : CommThread
  actions : List Action
  deriving DecidableEq

/-- The thread after the first lines: it is active and the input has an end. -/
def CommThread.received (t : CommThread) (bytesTransferred : ℕ) : CommThread :=
  ⟨t.inBuf.set bytesTransferred 0, true⟩

def endPacket (t : CommThread) (ptr : ℕ) (checksum : Byte) : ReadResult :=
  if byteAt t.inBuf ptr = code '#' then
    let buf := t.inBuf.set ptr 0
    let xmitcsum := hexChar (byteAt buf (ptr + 1)) <<< 4 + hexChar (byteAt buf (ptr + 2))
    let t := { t with inBuf := buf }
    if checksum ≠ xmitcsum then ⟨t, [.replyBadCsum, .getCommand]⟩
    else if byteAt buf 3 = code ':' then
      ⟨t, [.replyGoodCsum, .replySequenceNum (byteAt buf 1) (byteAt buf 2), .handlePacket 4]⟩
    else ⟨t, [.replyGoodCsum, .handlePacket 1]⟩
  else ⟨t, [.getCommand]⟩

/-- One step of `handleRead`. -/
def readStep (error : Bool) (t₀ : CommThread) (bytesTransferred : ℕ) :
    ReadPoint → ReadPoint ⊕ ReadResult
  | .entry =>
    if error then .inr ⟨t₀, []⟩
    else
      let t := t₀.received bytesTransferred
      let ch := byteAt t.inBuf 0
      if ch = 0 ∨ ch = 3 then .inr ⟨{ t with inBuf := t.inBuf.set 1 0 }, [.handlePacket 0]⟩
      else if ch = code '$' then .inl (.retry t 1)
      else .inr ⟨t, [.getCommand]⟩
  | .retry t ptr => .inl (.loop t ptr 0 0)
  | .loop t ptr count checksum =>
    if count < bytesTransferred then
      if byteAt t.inBuf ptr = code '$' then .inl (.retry t ptr)
      else if byteAt t.inBuf ptr = code '#' then .inr (endPacket t ptr checksum)
      else .inl (.loop t (ptr + 1) (count + 1) (checksum + byteAt t.inBuf ptr))
    else .inr (endPacket t ptr checksum)

/-! ### Packets that restart -/

/-- Behind the dollar sign at the start of a packet there is another one, before any number sign. -/
def Restarts (buf : List Byte) (bytesTransferred : ℕ) : Prop :=
  byteAt buf 0 = code '$' ∧ ∃ i, 1 ≤ i ∧ i ≤ bytesTransferred ∧ byteAt buf i = code '$' ∧
    ∀ j, 1 ≤ j → j < i → byteAt buf j ≠ code '#'

section Reader

variable {error : Bool} {t₀ t : CommThread} {n : ℕ}

def sum (bytes : List Byte) : Byte :=
  bytes.foldl (· + ·) 0

/-- The states of a reader that restarts at a dollar sign, where the end of the packet is behind
position `i`. -/
inductive Restarting (t : CommThread) (i : ℕ) : ReadPoint → Prop
  | entry : Restarting t i .entry
  | start : Restarting t i (.retry t 1)
  | loop {count : ℕ} {checksum : Byte} (h : 1 + count ≤ i) :
      Restarting t i (.loop t (1 + count) count checksum)
  | retry {j : ℕ} (h : byteAt t.inBuf j = code '$') : Restarting t i (.retry t j)
  | again {j : ℕ} (h : byteAt t.inBuf j = code '$') : Restarting t i (.loop t j 0 0)

theorem not_finishes_of_restarts (h : Restarts (t₀.received n).inBuf n) :
    ¬ ∃ r, Finishes (readStep false t₀ n) .entry r := by
  obtain ⟨hstart, i, hone, hn, hdollar, hhash⟩ := h
  refine not_finishes_of_closed (P := Restarting (t₀.received n) i) (fun s hs => ?_) .entry
  cases hs with
  | entry =>
    refine ⟨_, ?_, .start⟩
    rw [readStep, if_neg Bool.false_ne_true]
    dsimp only
    rw [hstart, if_neg (by decide), if_pos rfl]
  | start => exact ⟨_, rfl, @Restarting.loop _ i 0 0 hone⟩
  | @loop count checksum hi =>
    rw [readStep, if_pos (by omega)]
    by_cases hrestart : byteAt (t₀.received n).inBuf (1 + count) = code '$'
    · exact ⟨_, if_pos hrestart, .retry hrestart⟩
    · have hlt : 1 + count < i := Nat.lt_of_le_of_ne hi fun heq => hrestart (heq ▸ hdollar)
      rw [if_neg hrestart, if_neg (hhash _ (by omega) hlt)]
      exact ⟨_, rfl, @Restarting.loop _ i (count + 1) _ hlt⟩
  | retry hj => exact ⟨_, rfl, .again hj⟩
  | again hj => exact ⟨_, by rw [readStep, if_pos (by omega), if_pos hj], .retry hj⟩

/-- The states of a reader that has met ordinary characters only. -/
inductive Scanning (t : CommThread) : ReadPoint → Prop
  | entry : Scanning t .entry
  | start (h : byteAt t.inBuf 0 = code '$') : Scanning t (.retry t 1)
  | loop {count : ℕ} {checksum : Byte} (h : byteAt t.inBuf 0 = code '$')
      (hhash : ∀ j, 1 ≤ j → j < 1 + count → byteAt t.inBuf j ≠ code '#') :
      Scanning t (.loop t (1 + count) count checksum)

/-- How far the reader is from the end of the input. -/
def remaining (n : ℕ) : ReadPoint → ℕ
  | .entry => n + 3
  | .retry _ _ => n + 2
  | .loop _ _ count _ => n + 1 - count

theorem finishes_of_not_restarts (h : ¬ Restarts (t₀.received n).inBuf n) :
    ∃ r, Finishes (readStep false t₀ n) .entry r := by
  refine finishes_of_measure (P := Scanning (t₀.received n)) (remaining n) (fun s s' hs hstep => ?_)
    .entry
  cases hs with
  | entry =>
    rw [readStep, if_neg Bool.false_ne_true] at hstep
    dsimp only at hstep
    split_ifs at hstep with hend hstart
    cases hstep
    exact ⟨.start hstart, Nat.lt_succ_self _⟩
  | start hstart =>
    cases hstep
    refine ⟨@Scanning.loop _ 0 0 hstart fun j hj hlt => absurd hj (by omega), ?_⟩
    simp [remaining]
  | @loop count checksum hstart hhash =>
    rw [readStep] at hstep
    split_ifs at hstep with hcount hdollar hend
    · exact absurd ⟨hstart, 1 + count, by omega, by omega, hdollar, hhash⟩ h
    · cases hstep
      refine ⟨@Scanning.loop _ (count + 1) _ hstart fun j hj hlt => ?_, by simp [remaining]; omega⟩
      rcases Nat.lt_or_ge j (1 + count) with hbefore | hge
      · exact hhash j hj hbefore
      · obtain rfl : j = 1 + count := by omega
        exact hend

/-- The reader finishes exactly when there is an error or no dollar sign stands inside a packet. -/
theorem handleRead_finishes_iff (error : Bool) (t₀ : CommThread) (n : ℕ) :
    (∃ r, Finishes (readStep error t₀ n) .entry r) ↔
      error = true ∨ ¬ Restarts (t₀.received n).inBuf n := by
  cases error with
  | true => exact iff_of_true ⟨_, .done rfl⟩ (.inl rfl)
  | false =>
    rw [or_iff_right Bool.false_ne_true]
    exact ⟨fun h hrestarts => not_finishes_of_restarts hrestarts h, finishes_of_not_restarts⟩

/-- Three characters are enough to keep the reader busy for ever. -/
theorem double_dollar_restarts :
    ¬ ∃ r, Finishes (readStep false ⟨[code '$', code '$', code '#', 0], true⟩ 3) .entry r :=
  not_finishes_of_restarts
    ⟨rfl, 1, Nat.le_refl 1, by decide, rfl, fun j hj hlt => absurd hj (by omega)⟩

end Reader

end Adl.Gdb
