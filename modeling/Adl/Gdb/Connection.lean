import Adl.Gdb.Reader

/-!
# Outstanding reads of a connection

The thread of a connection posts a read, handles what the read brings, and posts the next one. A
command that is not known is answered at once; the read is posted with the response and then once
more.
-/

namespace Adl.Gdb

open Adl.Math

/-- The first letters of the packets that are posted to the server; 3 is an interrupt. -/
def serverCommands : List Byte :=
  [3, code '!', code '?', code 'b', code 'c', code 'D', code 'g', code 'G', code 'H', code 'k',
    code 'm', code 'M', code 'p', code 'P', code 'q', code 'Q', code 'R', code 's', code 'T',
    code 'v', code 'X', code 'z', code 'Z']

structure Connection where
  thread : CommThread
  /-- Asynchronous reads that have not brought a buffer yet. -/
  reads : ℕ
  /-- Commands that the server has not answered yet. -/
  posted : ℕ
  isOpen : Bool

namespace Connection

variable (c : Connection)

def getCommand : Connection := { c with reads := c.reads + 1 }

def commFinish : Connection := { c with isOpen := false }

def writeResponse (isResponse : Bool) : Connection := if isResponse then c.getCommand else c

def handlePacket (letter : Byte) : Connection :=
  if letter = code '@' ∨ letter = 0 then c.commFinish
  else if serverCommands.contains letter then { c with posted := c.posted + 1 }
  else (c.writeResponse true).getCommand

/-- An action of the reader. Replies to a checksum change nothing here. -/
def act (buf : List Byte) : Action → Connection
  | .getCommand => c.getCommand
  | .handlePacket data => c.handlePacket (byteAt buf data)
  | _ => c

def received (data : List Byte) : CommThread :=
  { c.thread with inBuf := data ++ c.thread.inBuf.drop data.length }

def Reads (data : List Byte) (r : ReadResult) : Prop :=
  Finishes (readStep false (c.received data) data.length) .entry r

/-- After the reader is done. -/
def handled (r : ReadResult) : Connection :=
  r.actions.foldl (·.act r.thread.inBuf) { c with thread := r.thread, reads := c.reads - 1 }

end Connection

inductive ConnectionEvent where
  /-- A read brings some bytes, and the reader is done with them. -/
  | receive (data : List Byte) (r : ReadResult)
  /-- The server writes the response to a command. -/
  | answer

inductive Connection.Step (c : Connection) : ConnectionEvent → Connection → Prop
  | receive {data : List Byte} {r : ReadResult} (hopen : c.isOpen = true) (hread : 0 < c.reads)
      (hsize : data.length ≤ c.thread.inBuf.length) (h : c.Reads data r) :
      Step c (.receive data r) (c.handled r)
  | answer (hopen : c.isOpen = true) (hposted : 0 < c.posted) :
      Step c .answer ({ c with posted := c.posted - 1 }.writeResponse true)

def Connection.Run : Connection → List (ConnectionEvent × Connection) → Prop
  | _, [] => True
  | c, (e, c') :: rest => c.Step e c' ∧ Run c' rest

def Connection.Quiet (c : Connection) : Prop := c.isOpen = true ∧ c.posted = 0

/-- Some bytes are read as a packet with a command that is not known. -/
def ConnectionEvent.Unknown : ConnectionEvent → Prop
  | .receive _ r => ∃ i, .handlePacket i ∈ r.actions ∧
      byteAt r.thread.inBuf i ∉ code '@' :: 0 :: serverCommands
  | .answer => False

def Connection.accepted (thread : CommThread) : Connection := ⟨thread, 1, 0, true⟩

namespace Connection

variable {c c' : Connection} {r : ReadResult} {e : ConnectionEvent}
  {trace : List (ConnectionEvent × Connection)}

/-- What the reader does: after some replies it asks for the next command or hands a packet over. -/
inductive Concludes : List Action → Prop
  | ignored : Concludes [.getCommand]
  | refused : Concludes [.replyBadCsum, .getCommand]
  | single (i : ℕ) : Concludes [.handlePacket i]
  | packet (i : ℕ) : Concludes [.replyGoodCsum, .handlePacket i]
  | numbered (x y : Byte) (i : ℕ) :
      Concludes [.replyGoodCsum, .replySequenceNum x y, .handlePacket i]

theorem concludes_endPacket (t : CommThread) (ptr : ℕ) (checksum : Byte) :
    Concludes (endPacket t ptr checksum).actions := by
  rw [endPacket]
  dsimp only
  split_ifs <;> constructor

theorem concludes_of_finishes {t : CommThread} {n : ℕ} {p : ReadPoint}
    (h : Finishes (readStep false t n) p r) : Concludes r.actions := by
  induction h with
  | next _ _ ih => exact ih
  | @done p r h =>
    rcases p with _ | _ | ⟨t, ptr, count, checksum⟩
    · rw [readStep, if_neg Bool.false_ne_true] at h
      dsimp only at h
      split_ifs at h <;> cases h <;> constructor
    · cases h
    · rw [readStep] at h
      split_ifs at h <;> cases h <;> exact concludes_endPacket ..

theorem Concludes.foldl_act {actions : List Action} (h : Concludes actions) (buf : List Byte)
    (c : Connection) :
    (∀ i, .handlePacket i ∉ actions) ∧ actions.foldl (·.act buf) c = c.getCommand ∨
      ∃ i, (∀ j, .handlePacket j ∈ actions ↔ j = i) ∧
        actions.foldl (·.act buf) c = c.handlePacket (byteAt buf i) := by
  cases h with
  | ignored => exact .inl ⟨by simp, rfl⟩
  | refused => exact .inl ⟨by simp, rfl⟩
  | single i => exact .inr ⟨i, by simp, rfl⟩
  | packet i => exact .inr ⟨i, by simp, rfl⟩
  | numbered x y i => exact .inr ⟨i, by simp, rfl⟩

/-- An open connection waits for a buffer or for the server, and for one of them only. -/
def Balanced (c : Connection) : Prop := c.isOpen = true → c.reads + c.posted = 1

theorem balanced_handlePacket {letter : Byte} (h : c.reads + c.posted = 0)
    (hletter : letter ∈ code '@' :: 0 :: serverCommands) : (c.handlePacket letter).Balanced := by
  rw [List.mem_cons, List.mem_cons, ← or_assoc] at hletter
  rw [handlePacket]
  split_ifs with hfinish hcommand
  · rintro ⟨⟩
  · intro _
    dsimp only
    omega
  · exact absurd hletter (not_or.mpr ⟨hfinish, mt List.contains_iff_mem.mpr hcommand⟩)

theorem handlePacket_of_unknown {letter : Byte} (h : letter ∉ code '@' :: 0 :: serverCommands) :
    c.handlePacket letter = c.getCommand.getCommand := by
  rw [List.mem_cons, List.mem_cons, ← or_assoc, not_or] at h
  rw [handlePacket, if_neg h.1, if_neg (mt List.contains_iff_mem.mp h.2)]
  rfl

theorem Step.balanced (h : c.Step e c') (hc : c.Balanced) (he : ¬ e.Unknown) : c'.Balanced := by
  cases h with
  | @receive data r hopen hread hsize h =>
    have hone := hc hopen
    rcases (concludes_of_finishes h).foldl_act r.thread.inBuf
        { c with thread := r.thread, reads := c.reads - 1 } with ⟨-, heq⟩ | ⟨i, hi, heq⟩
    · rw [handled, heq]
      intro _
      dsimp only [getCommand]
      omega
    · rw [handled, heq]
      refine balanced_handlePacket (by dsimp only; omega) ?_
      by_contra hunknown
      exact he ⟨i, (hi i).mpr rfl, hunknown⟩
  | answer hopen hposted =>
    have hone := hc hopen
    rw [writeResponse, if_pos rfl]
    intro _
    dsimp only [getCommand]
    omega

theorem Step.two_reads (h : c.Step e c') (hc : c.Balanced) (he : e.Unknown) :
    c'.Quiet ∧ c'.reads = 2 := by
  cases h with
  | @receive data r hopen hread hsize h =>
    have hone := hc hopen
    obtain ⟨j, hj, hletter⟩ := he
    rcases (concludes_of_finishes h).foldl_act r.thread.inBuf
        { c with thread := r.thread, reads := c.reads - 1 } with ⟨hnone, -⟩ | ⟨i, hi, heq⟩
    · exact absurd hj (hnone j)
    · obtain rfl := (hi j).mp hj
      rw [handled, heq, handlePacket_of_unknown hletter]
      refine ⟨⟨hopen, ?_⟩, ?_⟩ <;> dsimp only [getCommand] <;> omega
  | answer => exact he.elim

/-- Along a run, one read is outstanding whenever all is answered exactly when no command is
unknown. -/
theorem Balanced.run (hc : c.Balanced) (h : c.Run trace) :
    (∀ p ∈ trace, p.2.Quiet → p.2.reads = 1) ↔ ∀ p ∈ trace, ¬ p.1.Unknown := by
  induction trace generalizing c with
  | nil => simp
  | cons p rest ih =>
    obtain ⟨e, c'⟩ := p
    obtain ⟨hstep, hrest⟩ := h
    rw [List.forall_mem_cons, List.forall_mem_cons]
    by_cases he : e.Unknown
    · obtain ⟨hquiet, htwo⟩ := hstep.two_reads hc he
      refine iff_of_false (fun h => ?_) fun h => h.1 he
      exact absurd (htwo.symm.trans (h.1 hquiet)) (by decide)
    · have hc' := hstep.balanced hc he
      refine and_congr (iff_of_true (fun hquiet => ?_) he) (ih hc' hrest)
      have hone := hc' hquiet.1
      rwa [hquiet.2] at hone

end Connection

/-- From the start of a connection, exactly one read is outstanding whenever every buffer has been
handled and answered, exactly when no packet has a command that is not known. -/
theorem one_read_iff {thread : CommThread} {trace : List (ConnectionEvent × Connection)}
    (h : (Connection.accepted thread).Run trace) :
    (∀ p ∈ trace, p.2.Quiet → p.2.reads = 1) ↔ ∀ p ∈ trace, ¬ p.1.Unknown :=
  Connection.Balanced.run (fun _ => rfl) h

def fresh : Connection := .accepted ⟨List.replicate 8 0, true⟩

/-- An interrupt and its answer. -/
def interruptTrace : List (ConnectionEvent × Connection) :=
  let t : CommThread := ⟨3 :: List.replicate 7 0, true⟩
  [(.receive [3] ⟨t, [.handlePacket 0]⟩, ⟨t, 0, 1, true⟩), (.answer, ⟨t, 1, 0, true⟩)]

theorem one_read_interrupt : fresh.Run interruptTrace ∧
    ∀ p ∈ interruptTrace, p.2.Quiet → p.2.reads = 1 := by
  have hrun : fresh.Run interruptTrace :=
    ⟨.receive rfl (by decide) (by decide) (.done rfl), .answer rfl (by decide), trivial⟩
  refine ⟨hrun, (one_read_iff hrun).mpr (List.forall_mem_cons.mpr ⟨?_, ?_⟩)⟩
  · rintro ⟨i, hi, hletter⟩
    obtain rfl := Action.handlePacket.inj (List.mem_singleton.mp hi)
    exact hletter (by decide)
  · exact List.forall_mem_singleton.mpr id

/-- A packet with the command `a`, which is not known, and what the reader leaves of it. -/
def unknownPacket : List Byte × CommThread :=
  ([code '$', code 'a', code '#', code '6', code '1'],
    ⟨[code '$', code 'a', 0, code '6', code '1', 0, 0, 0], true⟩)

/-- After an unknown command two reads are outstanding. -/
theorem unknown_two_reads :
    ∃ r c, fresh.Run [(.receive unknownPacket.1 r, c)] ∧ c.Quiet ∧ c.reads = 2 := by
  refine ⟨⟨unknownPacket.2, [.replyGoodCsum, .handlePacket 1]⟩, ⟨unknownPacket.2, 2, 0, true⟩,
    ⟨.receive rfl (by decide) (by decide) ?_, trivial⟩, ⟨rfl, rfl⟩, rfl⟩
  exact .next rfl (.next rfl (.next rfl (.done rfl)))

end Adl.Gdb
