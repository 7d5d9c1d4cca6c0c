import Adl.Uadl.FetchTrack

/-!
# Redirecting the fetch unit

A flush looks for the new address in the buffer, then among the requests, and cancels everything if
it finds it nowhere. For the requests it compares the address at which the fetch starts, not that of
the first byte that is wanted. When the requests are cancelled, the next fetch starts where the
first of them starts, again without its padding.
-/

namespace Adl.Uadl

namespace FetchUnit

variable {μ : Type*} {cfg : FetchConfig} {env : FetchEnv μ} {u u' : FetchUnit μ} {a : Addr}

/-! ### The next address -/

/-- The address comes from the buffer, else from the first request, else it is the next one to be
fetched. -/
theorem nextInstrAddr_eq :
    u.nextInstrAddr = ((u.instrBuf[u.nextDecodeEntry]?.map (·.ea)).or
      (u.pendingRequests.head?.map (·.start))).getD u.nextFetchAddr := by
  rw [nextInstrAddr]
  split
  case h_1 e rest he => rw [he]; rfl
  case h_2 r rest he hpending => rw [he, hpending]; rfl
  case h_3 he hpending => rw [he, hpending]; rfl

theorem nextInstrAddr_of_length_le (h : u.instrBuf.length ≤ u.nextDecodeEntry) :
    u.nextInstrAddr = (u.pendingRequests.head?.map (·.start)).getD u.nextFetchAddr := by
  rw [nextInstrAddr_eq, List.getElem?_eq_none h]
  rfl

theorem nextInstrAddr_of_getElem? {e : InstrBufEntry}
    (h : u.instrBuf[u.nextDecodeEntry]? = some e) : u.nextInstrAddr = e.ea := by
  rw [nextInstrAddr_eq, h]
  rfl

/-! ### Quiet calls -/

theorem receive_nextInstrAddr (hes : 0 < cfg.entrySize) (hu : u.Tracked cfg) {r : FetchRequest}
    {rest : List FetchRequest} (hpending : u.pendingRequests = r :: rest)
    (hroom : (u.receive cfg env r rest).overrun = false) :
    u.overrun = false ∧ (u.receive cfg env r rest).nextInstrAddr = u.nextInstrAddr := by
  obtain ⟨buf, preds, overrun, heq, hstored⟩ := @receive_eq _ cfg env u r rest
  rw [heq] at hroom ⊢
  obtain ⟨hu', entries, rfl, hlength, heas⟩ := hstored.entries hroom
  refine ⟨hu', ?_⟩
  cases hget : u.instrBuf[u.nextDecodeEntry]? with
  | some e =>
    have happend : (u.instrBuf ++ entries)[u.nextDecodeEntry]? = some e := by
      rw [List.getElem?_append_left (List.getElem?_eq_some_iff.mp hget).1, hget]
    rw [nextInstrAddr_of_getElem? hget, nextInstrAddr_of_getElem? happend]
  | none =>
    have hle := List.getElem?_eq_none_iff.mp hget
    -- the request brings at least one entry
    have hpos : 0 < entries.length := by
      have hsize := hu.nonempty r (hpending ▸ List.mem_cons_self)
      rw [hlength, entriesOf]
      exact Nat.div_pos (by omega) hes
    have hfirst : (u.instrBuf ++ entries)[u.nextDecodeEntry]? = some entries[0] := by
      rw [List.getElem?_append_right hle, (hu.decoded hu').antisymm hle, Nat.sub_self,
        List.getElem?_eq_getElem hpos]
    rw [nextInstrAddr_of_length_le hle, nextInstrAddr_of_getElem? hfirst,
      heas 0 _ (List.getElem?_eq_getElem hpos), hpending]
    simp

theorem receiveLoop_nextInstrAddr (hes : 0 < cfg.entrySize) {fuel : ℕ} (hu : u.Tracked cfg)
    (hroom : (receiveLoop cfg env fuel u).overrun = false) :
    (receiveLoop cfg env fuel u).nextInstrAddr = u.nextInstrAddr := by
  refine (receiveLoop_invariant
    (P := fun x => x.Tracked cfg ∧ (x.overrun = false → x.nextInstrAddr = u.nextInstrAddr))
    (fun x r rest hx hpending _ => ?_) ⟨hu, fun _ => rfl⟩).2 hroom
  refine ⟨receive_tracked hx.1 hpending, fun hroom => ?_⟩
  obtain ⟨hx', hnext⟩ := receive_nextInstrAddr hes hx.1 hpending hroom
  exact hnext.trans (hx.2 hx')

theorem sendRequest_nextInstrAddr (h : cfg.Valid) (henv : env.Lawful) (hu : u.Tracked cfg)
    (ha : Effective cfg env u.nextInstrAddr) {sent : Bool}
    (hsend : u.sendRequest cfg env = (sent, u')) (hroom : u'.overrun = false) :
    u'.nextInstrAddr = u.nextInstrAddr := by
  -- nothing is there, so that the next fetch counts
  have hstart (hbuf : u.instrBuf[u.nextDecodeEntry]? = none) (hpending : u.pendingRequests = []) :
      (u.plan cfg env).start = u.nextFetchAddr := by
    have hnext : u.nextInstrAddr = u.nextFetchAddr := by
      rw [nextInstrAddr_eq, hbuf, hpending]
      rfl
    exact plan_start h (hnext ▸ ha)
  rcases sendRequest_cases h henv hu.ahead hsend with
    ⟨-, m, aligned, rfl⟩ |
    ⟨-, r, m, preds, last, incomplete, next, aligned, rfl, -, hea, -, hfront, -⟩
  · rw [nextInstrAddr_eq, nextInstrAddr_eq]
    cases hbuf : u.instrBuf[u.nextDecodeEntry]? with
    | some e => rfl
    | none =>
      cases hpending : u.pendingRequests with
      | nil => simpa using hstart hbuf hpending
      | cons x rest => rfl
  · have hplace := (Bool.or_eq_false_iff.mp hroom).2
    rw [decide_eq_false_iff_not, Nat.not_le] at hplace
    rw [nextInstrAddr_eq, nextInstrAddr_eq, Math.ringPush_of_lt hplace]
    cases hbuf : u.instrBuf[u.nextDecodeEntry]? with
    | some e => rfl
    | none =>
      cases hpending : u.pendingRequests with
      | nil =>
        have hr : r.start = (u.plan cfg env).start := by
          rw [FetchRequest.start, hea, hfront, Plan.start]
        simpa [hr] using hstart hbuf hpending
      | cons x rest => rfl

theorem setLast_nextInstrAddr {r r' : FetchRequest} {m : μ} {space : BitVec 32}
    (hr : u.pendingRequests.getLast? = some r) (hstart : r'.start = r.start) :
    nextInstrAddr { u with
      env := m, pendingRequests := u.pendingRequests.dropLast ++ [r'],
      currInstrBufSpace := space } = u.nextInstrAddr := by
  obtain ⟨front, hpending⟩ := List.getLast?_eq_some_iff.mp hr
  rw [nextInstrAddr_eq, nextInstrAddr_eq, hpending, List.dropLast_concat]
  cases front with
  | nil => simp [hstart]
  | cons x rest => rfl

theorem resend_nextInstrAddr : (u.resend env).2.nextInstrAddr = u.nextInstrAddr := by
  rw [resend]
  split
  case h_2 => rfl
  case h_1 r hr =>
    split
    · exact setLast_nextInstrAddr hr rfl
    · rfl

theorem sendFetchRequests_nextInstrAddr (h : cfg.Valid) (henv : env.Lawful) (hu : u.Tracked cfg)
    (ha : Effective cfg env u.nextInstrAddr) (hsend : u.sendFetchRequests cfg env = some u')
    (hroom : u'.overrun = false) : u'.nextInstrAddr = u.nextInstrAddr := by
  rcases sendFetchRequests_cases hsend with rfl | ⟨fuel, -, first, hloop⟩
  · rfl
  · have hstep (_ : ℕ) (x : FetchUnit μ) (sent : Bool) (x' : FetchUnit μ)
        (hx : x.Tracked cfg ∧ (x.overrun = false → x.nextInstrAddr = u.nextInstrAddr))
        (hsend : x.sendRequest cfg env = (sent, x')) :
        x'.Tracked cfg ∧ (x'.overrun = false → x'.nextInstrAddr = u.nextInstrAddr) := by
      refine ⟨sendRequest_tracked h henv hx.1 hsend, fun hroom => ?_⟩
      have hx' := hx.2 (sendRequest_overrun (by rw [hsend]; exact hroom))
      exact (sendRequest_nextInstrAddr h henv hx.1 (hx' ▸ ha) hsend hroom).trans hx'
    obtain ⟨-, -, hnext⟩ := sendLoop_invariant (P := fun _ x => x.Tracked cfg ∧
      (x.overrun = false → x.nextInstrAddr = u.nextInstrAddr)) hstep
      ⟨resend_tracked hu, fun _ => resend_nextInstrAddr⟩ hloop
    exact hnext hroom

theorem preemptFetch_nextInstrAddr : u.preemptFetch.nextInstrAddr = u.nextInstrAddr := by
  rw [preemptFetch]
  split
  case h_1 r hr => exact setLast_nextInstrAddr hr rfl
  case h_2 => rfl

theorem removeInstr_nextInstrAddr {size : ℕ}
    (hentries : removedEntries cfg size ≤ u.nextDecodeEntry) :
    (u.removeInstr cfg size).nextInstrAddr = u.nextInstrAddr := by
  rw [removeInstr]
  split
  · rfl
  · rw [nextInstrAddr_eq, nextInstrAddr_eq]
    dsimp only
    rw [List.getElem?_drop, Nat.add_sub_cancel' hentries]

end FetchUnit

/-- Calls that neither decode nor redirect. -/
def FetchOp.Quiet {μ : Type*} : FetchOp μ → Prop
  | .decodeUpdate _ _ | .flush _ | .cancel | .fullReset => False
  | .receiveInstrData | .sendFetchRequests | .instrData | .removeInstr _ | .preemptFetch
  | .setCancel _ | .pauseFetch | .forceFetch | .environment _ => True

namespace FetchUnit

variable {μ : Type*} {cfg : FetchConfig} {env : FetchEnv μ} {u u' : FetchUnit μ} {a : Addr}

theorem exec_nextInstrAddr (h : cfg.Valid) (hes : 0 < cfg.entrySize) (henv : env.Lawful)
    {op : FetchOp μ} (hquiet : op.Quiet) (hop : u.Decodes cfg env op) (hu : u.Tracked cfg)
    (ha : Effective cfg env u.nextInstrAddr) (hexec : u.exec cfg env op = some u')
    (hroom : u'.overrun = false) : u'.nextInstrAddr = u.nextInstrAddr := by
  cases op with
  | receiveInstrData =>
    obtain ⟨tryNewFetch, rfl⟩ := receiveInstrData_eq hexec
    exact receiveLoop_nextInstrAddr hes ⟨hu.decoded, hu.nonempty, hu.ahead⟩ hroom
  | sendFetchRequests => exact sendFetchRequests_nextInstrAddr h henv hu ha hexec hroom
  | instrData =>
    obtain ⟨taken, target, n, heq⟩ := @instrData_frame _ cfg u
    rw [exec, heq] at hexec
    rw [← Option.some.inj hexec]
    rfl
  | removeInstr size =>
    rw [← Option.some.inj hexec]
    exact removeInstr_nextInstrAddr hop
  | preemptFetch =>
    rw [← Option.some.inj hexec]
    exact preemptFetch_nextInstrAddr
  | setCancel _ | pauseFetch | forceFetch | environment _ =>
    rw [← Option.some.inj hexec]
    rfl
  | decodeUpdate _ _ | flush _ | cancel | fullReset => exact hquiet.elim

/-! ### Flushing -/

theorem reuseEntry_nextInstrAddr (hdecoded : u.nextDecodeEntry ≤ u.instrBuf.length) {i : ℕ}
    {e : InstrBufEntry} (he : u.instrBuf[u.nextDecodeEntry + i]? = some e) :
    (u.reuseEntry cfg i).nextInstrAddr = e.ea := by
  have hlength : (u.instrBuf.take u.nextDecodeEntry).length = u.nextDecodeEntry := by
    rw [List.length_take, min_eq_left hdecoded]
  apply nextInstrAddr_of_getElem?
  rw [reuseEntry]
  dsimp only
  rw [List.getElem?_append_right hlength.le, hlength, Nat.sub_self, List.getElem?_drop,
    Nat.add_zero,
    he]

theorem reuseRequest_nextInstrAddr {i : ℕ} {r : FetchRequest}
    (hr : u.pendingRequests[i]? = some r) :
    (u.reuseRequest cfg env i).nextInstrAddr = r.start := by
  have hle : (u.reuseRequest cfg env i).instrBuf.length ≤
      (u.reuseRequest cfg env i).nextDecodeEntry := List.length_take_le _ _
  have hhead : (u.reuseRequest cfg env i).pendingRequests.head? = some r := by
    rw [← hr]
    exact List.head?_drop
  rw [nextInstrAddr_of_length_le hle, hhead]
  rfl

theorem flushInstrBuf_nextInstrAddr {deep : Bool} :
    (u.flushInstrBuf cfg env 0 a deep).nextInstrAddr = a := by
  obtain ⟨m, space, hcancel⟩ :=
    @cancelPending_frame _ cfg env (u.truncate cfg (u.nextDecodeEntry + 0)) deep
  have hle : (u.flushInstrBuf cfg env 0 a deep).instrBuf.length ≤
      (u.flushInstrBuf cfg env 0 a deep).nextDecodeEntry := by
    rw [flushInstrBuf, hcancel]
    exact List.length_take_le _ _
  rw [nextInstrAddr_of_length_le hle, flushInstrBuf, hcancel]
  simp

theorem flush_nextInstrAddr (hdecoded : u.nextDecodeEntry ≤ u.instrBuf.length) (a : Addr) :
    (u.adopted cfg env a = none ∧ (u.flush cfg env a).2.nextInstrAddr = a) ∨
      ∃ r, u.adopted cfg env a = some r ∧ r.ea = a ∧
        (u.flush cfg env a).2.nextInstrAddr = r.start := by
  rcases flush_cases cfg env u a with
    ⟨i, m, e, heq, he, hea, hadopted⟩ | ⟨i, m, r, heq, hr, hea, hadopted⟩ | ⟨m, heq, hadopted⟩
  · rw [heq]
    exact .inl ⟨hadopted,
      (@reuseEntry_nextInstrAddr _ cfg { u with env := m } hdecoded i e he).trans hea⟩
  · rw [heq]
    exact .inr ⟨r, hadopted, hea, @reuseRequest_nextInstrAddr _ cfg env { u with env := m } i r hr⟩
  · rw [heq]
    exact .inl ⟨hadopted, @flushInstrBuf_nextInstrAddr _ cfg env { u with env := m } a u.canCancel⟩

theorem start_eq_ea_iff {r : FetchRequest} : r.start = r.ea ↔ r.frontPadSize = 0 := by
  have hpad := r.frontPadSize.isLt
  rw [FetchRequest.start, add_eq_left, ← BitVec.toNat_inj, ← BitVec.toNat_inj,
    BitVec.toNat_setWidth, Nat.mod_eq_of_lt (by omega)]
  rfl

/-! ### Cancelling -/

/-- No entry is lost. -/
theorem cancel_nextInstrAddr_of_getElem? {e : InstrBufEntry}
    (he : u.instrBuf[u.nextDecodeEntry]? = some e) :
    (u.cancel cfg env).nextInstrAddr = u.nextInstrAddr := by
  rw [FetchUnit.cancel]
  split
  · rfl
  · obtain ⟨m, space, hcancel⟩ := @cancelPending_frame _ cfg env
      (u.truncate cfg (u.nextDecodeEntry + u.instrBuf.length)) u.canCancel
    rw [nextInstrAddr_of_getElem? he]
    apply nextInstrAddr_of_getElem?
    simp only [flushInstrBuf, hcancel]
    rw [← he]
    exact congrArg (·[u.nextDecodeEntry]?) (List.take_of_length_le (Nat.le_add_left _ _))

theorem cancel_nextInstrAddr_of_length_le (h : u.instrBuf.length ≤ u.nextDecodeEntry)
    {r : FetchRequest} {rest : List FetchRequest} (hpending : u.pendingRequests = r :: rest) :
    (u.cancel cfg env).nextInstrAddr = r.ea := by
  obtain ⟨m, space, hcancel⟩ := @cancelPending_frame _ cfg env
    (u.truncate cfg (u.nextDecodeEntry + u.instrBuf.length)) u.canCancel
  rw [FetchUnit.cancel, hpending, nextInstrAddr_eq]
  simp only [flushInstrBuf, hcancel]
  simp [truncate, h]

/-- Cancelling keeps the next address exactly if there is an entry to be decoded, or nothing is
asked for, or the first request has no front padding. -/
theorem cancel_keeps_iff :
    (u.cancel cfg env).nextInstrAddr = u.nextInstrAddr ↔
      ∀ r, u.instrBuf.length ≤ u.nextDecodeEntry → u.pendingRequests.head? = some r →
        r.frontPadSize = 0 := by
  rcases Nat.lt_or_ge u.nextDecodeEntry u.instrBuf.length with hlt | hle
  · have hkeep : (u.cancel cfg env).nextInstrAddr = u.nextInstrAddr :=
      cancel_nextInstrAddr_of_getElem? (List.getElem?_eq_getElem hlt)
    exact ⟨fun _ r hle _ => absurd hlt (Nat.not_lt.mpr hle), fun _ => hkeep⟩
  · cases hpending : u.pendingRequests with
    | nil =>
      have hsame : u.cancel cfg env = u := by
        rw [FetchUnit.cancel, hpending]
      simp [hsame]
    | cons r rest =>
      rw [cancel_nextInstrAddr_of_length_le hle hpending, nextInstrAddr_of_length_le hle, hpending,
        List.head?_cons, Option.map_some, Option.getD_some, eq_comm, start_eq_ea_iff]
      exact ⟨fun hpad r' _ hr' => Option.some.inj hr' ▸ hpad, fun hall => hall r hle rfl⟩

/-! ### Runs -/

theorem quiet_nextInstrAddr (h : cfg.Valid) (hes : 0 < cfg.entrySize) (henv : env.Lawful)
    (hu : u.Tracked cfg) (ha : Effective cfg env u.nextInstrAddr) {ops : List (FetchOp μ)}
    (hops : Math.Allowed (exec cfg env) (fun u op => op.Quiet ∧ u.Decodes cfg env op) u ops)
    (hrun : ops.foldlM (exec cfg env) u = some u') (hroom : u'.overrun = false) :
    u'.nextInstrAddr = u.nextInstrAddr := by
  refine (Math.foldlM_along
    (P := fun x => x.Tracked cfg ∧ (x.overrun = false → x.nextInstrAddr = u.nextInstrAddr))
    (fun s op s' hop hs hexec => ?_) hops ⟨hu, fun _ => rfl⟩ hrun).2 hroom
  obtain ⟨hs, haddr⟩ := hs
  refine ⟨exec_tracked h henv hop.2 hs hexec, fun hroom => ?_⟩
  have haddr := haddr (exec_overrun hexec hroom)
  exact (exec_nextInstrAddr h hes henv hop.1 hop.2 hs (haddr ▸ ha) hexec hroom).trans haddr

end FetchUnit

/-- After a flush in a reachable state the next instruction is the one at the new address, and stays
it until it is decoded, whatever is received and sent — exactly if the flush does not take over a
request with a front padding. No ring buffer is overrun before and after the flush. -/
theorem flush_redirects_iff {μ : Type*} {cfg : FetchConfig} {env : FetchEnv μ} (h : cfg.Valid)
    (hes : 0 < cfg.entrySize) (henv : env.Lawful) {m : μ} {ops : List (FetchOp μ)}
    {u : FetchUnit μ}
    (hops : Math.Allowed (FetchUnit.exec cfg env) (FetchUnit.Decodes cfg env)
      (FetchUnit.initial cfg m) ops)
    (hrun : ops.foldlM (FetchUnit.exec cfg env) (FetchUnit.initial cfg m) = some u)
    (hroom : u.overrun = false) {a : Addr} (ha : FetchUnit.Effective cfg env a) :
    (∀ later u', Math.Allowed (FetchUnit.exec cfg env)
        (fun u op => op.Quiet ∧ u.Decodes cfg env op) (u.flush cfg env a).2 later →
        later.foldlM (FetchUnit.exec cfg env) (u.flush cfg env a).2 = some u' →
        u'.overrun = false →
        u'.nextInstrAddr = a ∧
          ∀ e, u'.instrBuf[u'.nextDecodeEntry]? = some e → e.ea = a) ↔
      ∀ r, u.adopted cfg env a = some r → r.frontPadSize = 0 := by
  have hu : u.Tracked cfg := Math.foldlM_along (fun _ _ _ hop hs hexec =>
    FetchUnit.exec_tracked h henv hop hs hexec) hops (FetchUnit.initial_tracked m) hrun
  have hflush := @FetchUnit.flush_nextInstrAddr _ cfg env u (hu.decoded hroom) a
  constructor
  · intro hall r hr
    have hnext := (hall [] _ trivial rfl (FetchUnit.flush_overrun.trans hroom)).1
    rcases hflush with ⟨hnone, -⟩ | ⟨r', hr', hea, hstart⟩
    · rw [hnone] at hr
      cases hr
    · rw [hr'] at hr
      obtain rfl := Option.some.inj hr
      exact FetchUnit.start_eq_ea_iff.mp (hstart.symm.trans (hnext.trans hea.symm))
  · intro hpad later u' hlater hrun' hroom'
    have hnext : (u.flush cfg env a).2.nextInstrAddr = a := by
      rcases hflush with ⟨-, hnext⟩ | ⟨r, hr, hea, hstart⟩
      · exact hnext
      · rw [hstart, FetchUnit.start_eq_ea_iff.mpr (hpad r hr), hea]
    -- quiet calls do not move the address of the next instruction
    have hlast : u'.nextInstrAddr = a :=
      (FetchUnit.quiet_nextInstrAddr h hes henv (FetchUnit.flush_tracked hu) (hnext.symm ▸ ha)
        hlater hrun' hroom').trans hnext
    exact ⟨hlast, fun e he => (FetchUnit.nextInstrAddr_of_getElem? he).symm.trans hlast⟩

/-- A fetch unit that has asked for the second half of a block. -/
def halfFetched : Option (FetchUnit Bool) :=
  [FetchOp.flush 4, .sendFetchRequests].foldlM (FetchUnit.exec (plainFetch 4 4 8 true) zeroMemory)
    (FetchUnit.initial (plainFetch 4 4 8 true) false)

/-- Cancelling the request for the second half of the block moves back to its start. -/
theorem cancel_moves_back :
    let u := halfFetched.get (by decide)
    u.nextInstrAddr = 4 ∧ (u.cancel (plainFetch 4 4 8 true) zeroMemory).nextInstrAddr = 0 := by
  decide +kernel

/-- A flush to another block. -/
theorem flush_redirects_block :
    let u := halfFetched.get (by decide)
    ∀ later u', Math.Allowed (FetchUnit.exec (plainFetch 4 4 8 true) zeroMemory)
        (fun u op => op.Quiet ∧ u.Decodes (plainFetch 4 4 8 true) zeroMemory op)
        (u.flush (plainFetch 4 4 8 true) zeroMemory 12).2 later →
        later.foldlM (FetchUnit.exec (plainFetch 4 4 8 true) zeroMemory)
          (u.flush (plainFetch 4 4 8 true) zeroMemory 12).2 = some u' →
        u'.overrun = false →
        u'.nextInstrAddr = 12 ∧
          ∀ e, u'.instrBuf[u'.nextDecodeEntry]? = some e → e.ea = 12 := by
  have hops : Math.Allowed (FetchUnit.exec (plainFetch 4 4 8 true) zeroMemory)
      (FetchUnit.Decodes (plainFetch 4 4 8 true) zeroMemory)
      (FetchUnit.initial (plainFetch 4 4 8 true) false) [.flush 4, .sendFetchRequests] := by decide
  have hrun : halfFetched = some (halfFetched.get (by decide)) := (Option.some_get _).symm
  exact (flush_redirects_iff plainFetch_valid (by decide) zeroMemory_lawful hops hrun
    (by decide +kernel) fun _ _ _ => rfl).mpr fun r hr => by cases hr

/-- A flush to the start of the block takes over the request for its second half: the next
instruction is at address 4, also when the data has come. -/
theorem flush_to_padding :
    let u := halfFetched.get (by decide)
    let v := (u.flush (plainFetch 4 4 8 true) zeroMemory 0).2
    v.nextInstrAddr = 4 ∧
      ([FetchOp.environment true, .receiveInstrData].foldlM
        (FetchUnit.exec (plainFetch 4 4 8 true) zeroMemory) v).map
          (fun v => (v.instrBuf[v.nextDecodeEntry]?).map (·.ea)) = some (some 4) := by
  decide +kernel

end Adl.Uadl
