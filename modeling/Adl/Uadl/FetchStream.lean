import Mathlib.Data.Nat.Prime.Basic
import Adl.Uadl.FetchTrack

/-!
# The stream of entries

Without a branch predictor a fetch starts at the next address and leads to the address behind its
last byte, however it is aligned and padded. So the entries after a complete flush have consecutive
addresses.

The sizes of fetches are powers of two and multiples of the entry size, and not larger than the data
of a request. Addresses do not wrap around, and no ring buffer is overrun: this would lose the
entries or the requests in it.
-/

namespace Adl.Uadl

variable {μ : Type*}

/-! ### Consecutive addresses -/

/-- The addresses of `n` entries. -/
def addresses (entrySize : ℕ) (a : Addr) (n : ℕ) : List Addr :=
  (List.range n).map fun i => a + BitVec.ofNat 64 (i * entrySize)

theorem addresses_add (entrySize : ℕ) (a : Addr) (n n' : ℕ) :
    addresses entrySize a (n + n') =
      addresses entrySize a n ++ addresses entrySize (a + BitVec.ofNat 64 (n * entrySize)) n' := by
  simp only [addresses, List.range_add, List.map_append, List.map_map]
  congr 1
  apply List.map_congr_left
  intro i _
  rw [Function.comp_apply, Nat.add_mul, BitVec.ofNat_add, BitVec.add_assoc]

/-- Requests for whole entries, from one address to another. -/
def Spans (entrySize : ℕ) : Addr → List FetchRequest → Addr → Prop
  | a, [], b => a = b
  | a, r :: rest, b =>
    r.start = a ∧ entrySize ∣ r.size.toNat ∧ Spans entrySize (a + r.size.setWidth 64) rest b

theorem spans_append {entrySize : ℕ} {a b : Addr} {requests requests' : List FetchRequest} :
    Spans entrySize a (requests ++ requests') b ↔
      ∃ c, Spans entrySize a requests c ∧ Spans entrySize c requests' b := by
  induction requests generalizing a with
  | nil => simp [Spans]
  | cons r rest ih => simp [Spans, ih, and_assoc]

/-! ### Parameters -/

/-- Sizes that decrease, powers of two and multiples of the entry size. A request has eight bytes
for its data. -/
structure FetchConfig.Aligned (cfg : FetchConfig) : Prop where
  nonempty : cfg.fetchSizes ≠ []
  decreasing : cfg.fetchSizes.Pairwise (· > ·)
  two_pow : ∀ s ∈ cfg.fetchSizes, ∃ j, s = 2 ^ j
  multiple : ∀ s ∈ cfg.fetchSizes, cfg.entrySize ∣ s
  le_data : ∀ s ∈ cfg.fetchSizes, s ≤ 8
  bpStep_pos : 0 < cfg.bpStep
  nEntries_lt : cfg.nEntries < numInstrBufEntries

namespace FetchConfig.Aligned

variable {cfg : FetchConfig} (h : cfg.Aligned)

include h

theorem valid : cfg.Valid := by
  have hle : ∀ s ∈ cfg.fetchSizes, s ≤ cfg.fetchSize₀ := by
    have hdecreasing := h.decreasing
    rw [fetchSize₀]
    cases hsizes : cfg.fetchSizes with
    | nil => exact absurd hsizes h.nonempty
    | cons s₀ rest =>
      rw [hsizes] at hdecreasing
      refine List.forall_mem_cons.mpr ⟨le_rfl, fun s hs => ?_⟩
      exact Nat.le_of_lt (List.rel_of_pairwise_cons hdecreasing hs)
  have hpos : ∀ s ∈ cfg.fetchSizes, 0 < s := by
    intro s hs
    obtain ⟨j, rfl⟩ := h.two_pow s hs
    exact Nat.two_pow_pos j
  have hlt : cfg.fetchSize₀ < 2 ^ 32 := by
    rw [fetchSize₀]
    cases hsizes : cfg.fetchSizes with
    | nil => exact absurd hsizes h.nonempty
    | cons s₀ rest =>
      exact (h.le_data s₀ (hsizes ▸ List.mem_cons_self)).trans_lt (by decide)
  exact ⟨h.nonempty, hpos, hle, hlt, h.bpStep_pos, h.nEntries_lt⟩

theorem entrySize_eq : ∃ k, cfg.entrySize = 2 ^ k := by
  have hmem := fetchSize₀_mem h.valid
  obtain ⟨j, hj⟩ := h.two_pow _ hmem
  obtain ⟨k, -, hk⟩ := (Nat.dvd_prime_pow Nat.prime_two).mp (hj ▸ h.multiple _ hmem)
  exact ⟨k, hk⟩

theorem entrySize_pos : 0 < cfg.entrySize := by
  obtain ⟨k, hk⟩ := h.entrySize_eq
  exact hk ▸ Nat.two_pow_pos k

end FetchConfig.Aligned

/-- Addresses below a limit are effective addresses. -/
structure FetchEnv.Identity (env : FetchEnv μ) (limit : ℕ) : Prop where
  limit_le : limit ≤ 2 ^ 64
  ea : ∀ m a, a.toNat < limit → env.ea m a = a

namespace FetchUnit

variable {cfg : FetchConfig} {env : FetchEnv μ} {limit : ℕ} {u u' : FetchUnit μ} {a : Addr}

/-! ### Sending -/

def Plain (u : FetchUnit μ) : Prop := ∀ e ∈ u.instrBuf, e.predTaken = false

/-- The requests ask for whole entries from an address on, and the next fetch goes on behind
them. -/
structure Streaming (cfg : FetchConfig) (a : Addr) (u : FetchUnit μ) : Prop where
  spans : Spans cfg.entrySize a u.pendingRequests u.nextFetchAddr
  next : cfg.entrySize ∣ u.nextFetchAddr.toNat
  plain : u.Plain

theorem plan_span (h : cfg.Aligned) (henv : env.Identity limit)
    (hnext : cfg.entrySize ∣ u.nextFetchAddr.toNat)
    (hlimit : u.nextFetchAddr.toNat + cfg.fetchSize₀ < limit) :
    ∃ n ≤ cfg.fetchSize₀, cfg.entrySize ∣ n ∧ (u.plan cfg env).start = u.nextFetchAddr ∧
      BitVec.ofNat 32 (u.plan cfg env).fetchSize - (u.plan cfg env).frontPadSize =
        BitVec.ofNat 32 n ∧
      (u.plan cfg env).end = u.nextFetchAddr + BitVec.ofNat 64 n := by
  have hvalid := h.valid
  obtain ⟨k, hentry⟩ := h.entrySize_eq
  obtain ⟨pad, hpad, hsize, hlt, hle, hend, -⟩ := @plan_eq _ cfg env u hvalid
  have hle₀ := hvalid.le _ hsize
  have hlt₀ := hvalid.lt
  -- every address from the padding on is below the limit, so the translation leaves it
  have heff : Effective cfg env u.nextFetchAddr := by
    intro m pad hpad
    apply henv.ea
    rw [sub_pad_toNat hpad]
    omega
  have hstart := plan_start hvalid heff
  have hdvd := dvd_pad hvalid hentry h.multiple hnext hsize hend
  refine ⟨(u.plan cfg env).fetchSize - pad, by omega, Nat.dvd_sub (h.multiple _ hsize) hdvd, hstart,
    ?_, ?_⟩
  · rw [hpad]
    apply BitVec.eq_of_toNat_eq
    simp only [BitVec.toNat_sub, BitVec.toNat_ofNat]
    omega
  · rw [← hstart, Plan.start, Plan.end, hpad, BitVec.add_assoc]
    congr 1
    apply BitVec.eq_of_toNat_eq
    simp only [BitVec.toNat_add, BitVec.toNat_ofNat, BitVec.toNat_setWidth]
    omega

theorem sendRequest_eq (hpredictor : cfg.hasPredictor = false) {sent : Bool}
    (hsend : u.sendRequest cfg env = (sent, u')) :
    (∃ m aligned, u' = { u with
      env := m, alignedFetch := aligned, nextFetchAddr := (u.plan cfg env).start }) ∨
    ∃ m m' aligned r space, u' = { u with
        env := m, alignedFetch := aligned, nextFetchAddr := env.ea m' (u.plan cfg env).end,
        pendingRequests := Math.ringPush numPendingRequests u.pendingRequests r,
        overrun := u.overrun || numPendingRequests ≤ u.pendingRequests.length + 1,
        currInstrBufSpace := space } ∧
      r.start = (u.plan cfg env).start ∧
      r.size = BitVec.ofNat 32 (u.plan cfg env).fetchSize - (u.plan cfg env).frontPadSize := by
  rw [sendRequest] at hsend
  generalize u.plan cfg env = p at hsend
  dsimp only at hsend
  split at hsend
  case h_1 m htranslate =>
    cases hsend
    exact .inl ⟨_, _, rfl⟩
  case h_2 ra data m htranslate =>
    rw [nextAddr, if_neg (by simp [hpredictor])] at hsend
    cases hsend
    exact .inr ⟨_, _, _, _, _, rfl, rfl, BitVec.sub_zero _⟩

theorem sendRequest_streaming (h : cfg.Aligned) (hpredictor : cfg.hasPredictor = false)
    (henv : env.Identity limit) (hu : u.Streaming cfg a)
    (hlimit : u.nextFetchAddr.toNat + cfg.fetchSize₀ < limit) {sent : Bool}
    (hsend : u.sendRequest cfg env = (sent, u')) (hroom : u'.overrun = false) :
    u'.Streaming cfg a ∧ u'.nextFetchAddr.toNat ≤ u.nextFetchAddr.toNat + cfg.fetchSize₀ := by
  obtain ⟨n, hn, hdvd, hstart, hbytes, hend⟩ := plan_span h henv hu.next hlimit
  have hlt₀ := h.valid.lt
  have hlimit_le := henv.limit_le
  rcases sendRequest_eq hpredictor hsend with
    ⟨m, aligned, rfl⟩ | ⟨m, m', aligned, r, space, rfl, hrstart, hrsize⟩
  · -- the padding is given back
    rw [hstart]
    exact ⟨⟨hu.spans, hu.next, hu.plain⟩, Nat.le_add_right _ _⟩
  · have hplace := (Bool.or_eq_false_iff.mp hroom).2
    rw [decide_eq_false_iff_not, Nat.not_le] at hplace
    have hend_toNat : (u.plan cfg env).end.toNat = u.nextFetchAddr.toNat + n := by
      rw [hend, BitVec.toNat_add, BitVec.toNat_ofNat]
      omega
    have hsize : r.size.toNat = n := by
      rw [hrsize, hbytes, BitVec.toNat_ofNat]
      omega
    have hspan : u.nextFetchAddr + r.size.setWidth 64 = (u.plan cfg env).end := by
      rw [hend, ← hsize]
      congr 1
      apply BitVec.eq_of_toNat_eq
      simp
    rw [henv.ea m' _ (by omega), Math.ringPush_of_lt hplace]
    have hspans :
        Spans cfg.entrySize a (u.pendingRequests ++ [r]) (u.plan cfg env).end :=
      spans_append.mpr ⟨_, hu.spans, hrstart.trans hstart, hsize ▸ hdvd, hspan⟩
    refine ⟨⟨hspans, ?_, hu.plain⟩, ?_⟩
    · rw [hend_toNat]
      exact Nat.dvd_add hu.next hdvd
    · dsimp only
      omega

theorem Streaming.setLast {r r' : FetchRequest} {m : μ} {space : BitVec 32}
    (hu : u.Streaming cfg a) (hr : u.pendingRequests.getLast? = some r)
    (hstart : r'.start = r.start) (hsize : r'.size = r.size) :
    Streaming cfg a { u with
      env := m, pendingRequests := u.pendingRequests.dropLast ++ [r'],
      currInstrBufSpace := space } := by
  obtain ⟨front, hpending⟩ := List.getLast?_eq_some_iff.mp hr
  have hspans := hu.spans
  rw [hpending] at hspans ⊢
  obtain ⟨c, hfront, hlast⟩ := spans_append.mp hspans
  refine ⟨?_, hu.next, hu.plain⟩
  rw [List.dropLast_concat]
  refine spans_append.mpr ⟨c, hfront, ?_⟩
  rw [Spans, hstart, hsize]
  exact hlast

theorem resend_streaming (hu : u.Streaming cfg a) :
    (u.resend env).2.Streaming cfg a ∧
      (u.resend env).2.nextFetchAddr = u.nextFetchAddr := by
  rw [resend]
  split
  case h_2 => exact ⟨hu, rfl⟩
  case h_1 r hr =>
    split
    · exact ⟨hu.setLast hr rfl rfl, rfl⟩
    · exact ⟨hu, rfl⟩

theorem preemptFetch_streaming (hu : u.Streaming cfg a) : u.preemptFetch.Streaming cfg a := by
  rw [preemptFetch]
  split
  case h_1 r hr => exact hu.setLast hr rfl rfl
  case h_2 => exact hu

theorem sendFetchRequests_streaming (h : cfg.Aligned) (hpredictor : cfg.hasPredictor = false)
    (henv : env.Identity limit) (hu : u.Streaming cfg a)
    (hlimit : u.nextFetchAddr.toNat + cfg.maxFetchCount * cfg.fetchSize₀ < limit)
    (hsend : u.sendFetchRequests cfg env = some u') (hroom : u'.overrun = false) :
    u'.Streaming cfg a := by
  obtain ⟨hresend, hnext⟩ := @resend_streaming _ cfg env u a hu
  rcases sendFetchRequests_cases hsend with rfl | ⟨fuel, hfuel, first, hloop⟩
  · exact hu
  · -- the fetches that are left end below the limit
    have hleft : (u.resend env).2.nextFetchAddr.toNat + fuel * cfg.fetchSize₀ < limit := by
      have hle := Nat.mul_le_mul_right cfg.fetchSize₀ hfuel
      rw [hnext]
      omega
    have hstep (n : ℕ) (x : FetchUnit μ) (sent : Bool) (x' : FetchUnit μ)
        (hx : x.overrun = false →
          x.Streaming cfg a ∧ x.nextFetchAddr.toNat + (n + 1) * cfg.fetchSize₀ < limit)
        (hsend : x.sendRequest cfg env = (sent, x')) (hroom : x'.overrun = false) :
        x'.Streaming cfg a ∧ x'.nextFetchAddr.toNat + n * cfg.fetchSize₀ < limit := by
      obtain ⟨hx, hbelow⟩ := hx (sendRequest_overrun (by rw [hsend]; exact hroom))
      rw [Nat.succ_mul] at hbelow
      obtain ⟨hx', hle⟩ := sendRequest_streaming h hpredictor henv hx (by omega) hsend hroom
      exact ⟨hx', by omega⟩
    obtain ⟨left, hu'⟩ := sendLoop_invariant (P := fun n x => x.overrun = false →
      x.Streaming cfg a ∧ x.nextFetchAddr.toNat + n * cfg.fetchSize₀ < limit) hstep
      (fun _ => ⟨hresend, hleft⟩) hloop
    exact (hu' hroom).1

/-! ### Receiving -/

/-- The entries that come in a call are the next ones. -/
def Delivers (cfg : FetchConfig) (a : Addr) (u u' : FetchUnit μ) : Prop :=
  ∃ n, u'.instrBuf.map (·.ea) = u.instrBuf.map (·.ea) ++ addresses cfg.entrySize a n ∧
    u'.Streaming cfg (a + BitVec.ofNat 64 (n * cfg.entrySize))

theorem receive_plain (hpredictor : cfg.hasPredictor = false) (hu : u.Plain) {r : FetchRequest}
    {rest : List FetchRequest} : (u.receive cfg env r rest).Plain := by
  obtain ⟨buf, preds, overrun, heq, hstored⟩ := @receive_eq _ cfg env u r rest
  rw [heq]
  exact fun e he => (hstored.plain hpredictor e he).elim (hu e) id

theorem receive_delivers (h : cfg.Aligned) (hpredictor : cfg.hasPredictor = false)
    (hu : u.Streaming cfg a) {r : FetchRequest} {rest : List FetchRequest}
    (hpending : u.pendingRequests = r :: rest)
    (hroom : (u.receive cfg env r rest).overrun = false) :
    Delivers cfg a u (u.receive cfg env r rest) := by
  obtain ⟨buf, preds, overrun, heq, hstored⟩ := @receive_eq _ cfg env u r rest
  rw [heq] at hroom
  obtain ⟨-, entries, rfl, hlength, hentries⟩ := hstored.entries hroom
  have hplain := @receive_plain _ cfg env u hpredictor hu.plain r rest
  have hspans := hu.spans
  rw [hpending] at hspans
  obtain ⟨hstart, ⟨n, hn⟩, hrest⟩ := hspans
  have hcount : entries.length = n := hlength.trans (entriesOf_eq h.entrySize_pos hn)
  have hbytes : r.size.setWidth 64 = BitVec.ofNat 64 (n * cfg.entrySize) := by
    apply BitVec.eq_of_toNat_eq
    rw [BitVec.toNat_setWidth, hn, BitVec.toNat_ofNat, Nat.mul_comm]
  have haddresses : entries.map (·.ea) = addresses cfg.entrySize a n := by
    apply List.ext_getElem?
    intro i
    rcases Nat.lt_or_ge i n with hi | hi
    · have hget : entries[i]? = some entries[i] := List.getElem?_eq_getElem (hcount ▸ hi)
      rw [List.getElem?_map, hget, Option.map_some, hentries i _ hget, hstart]
      simp [addresses, hi]
    · rw [List.getElem?_eq_none (by simpa [hcount] using hi),
        List.getElem?_eq_none (by simpa [addresses] using hi)]
  rw [heq] at hplain ⊢
  exact ⟨n, by simp only [List.map_append, haddresses], hbytes ▸ hrest, hu.next, hplain⟩

theorem receiveLoop_delivers (h : cfg.Aligned) (hpredictor : cfg.hasPredictor = false) {fuel : ℕ}
    (hu : u.Streaming cfg a) (hroom : (receiveLoop cfg env fuel u).overrun = false) :
    Delivers cfg a u (receiveLoop cfg env fuel u) := by
  -- what came before this round and what comes in it are consecutive
  refine receiveLoop_invariant (P := fun x => x.overrun = false → Delivers cfg a u x)
    (fun x r rest hx hpending _ hroom => ?_)
    (fun _ => ⟨0, by simp [addresses], by simpa using hu⟩) hroom
  obtain ⟨n, hbuf, hx⟩ := hx (receive_overrun hroom)
  obtain ⟨n', hbuf', hx'⟩ := @receive_delivers _ cfg env x _ h hpredictor hx r rest hpending hroom
  refine ⟨n + n', ?_, ?_⟩
  · rw [hbuf', hbuf, List.append_assoc, addresses_add]
  · rw [Nat.add_mul, BitVec.ofNat_add, ← BitVec.add_assoc]
    exact hx'

/-! ### Other calls -/

theorem flushInstrBuf_fields {remain : ℕ} {newFetchAddr : Addr} {deep : Bool} :
    (u.flushInstrBuf cfg env remain newFetchAddr deep).pendingRequests = [] ∧
      (u.flushInstrBuf cfg env remain newFetchAddr deep).instrBuf =
        u.instrBuf.take (u.nextDecodeEntry + remain) := by
  obtain ⟨m, space, hcancel⟩ :=
    @cancelPending_frame _ cfg env (u.truncate cfg (u.nextDecodeEntry + remain)) deep
  rw [flushInstrBuf, hcancel]
  exact ⟨rfl, rfl⟩

theorem flushInstrBuf_plain (hu : u.Plain) {remain : ℕ} {newFetchAddr : Addr} {deep : Bool} :
    (u.flushInstrBuf cfg env remain newFetchAddr deep).Plain := by
  rw [Plain, flushInstrBuf_fields.2]
  exact fun e he => hu e (List.mem_of_mem_take he)

theorem decodeUpdate_eq (hpredictor : cfg.hasPredictor = false) (hu : u.Plain) {success : Bool}
    {size : ℕ} :
    ∃ next last, u.decodeUpdate cfg env success size =
      { u with nextDecodeEntry := next, lastDecodeEntries := last } := by
  have hany : (u.instrBuf[u.nextDecodeEntry]?).any (·.predTaken) = false := by
    cases hget : u.instrBuf[u.nextDecodeEntry]? with
    | none => rfl
    | some e => exact hu e (List.mem_of_getElem? hget)
  rw [decodeUpdate, hpredictor, hany]
  split
  · exact ⟨_, _, rfl⟩
  · split
    · dsimp only [Bool.false_and]
      split <;> exact ⟨_, _, rfl⟩
    · rw [Bool.and_false]
      exact ⟨_, _, rfl⟩

theorem flush_plain (hu : u.Plain) : (u.flush cfg env a).2.Plain := by
  rcases flush_cases cfg env u a with ⟨i, m, e, heq, -⟩ | ⟨i, m, r, heq, -⟩ | ⟨m, heq, -⟩
  · rw [heq]
    refine List.forall_mem_append.mpr ⟨fun e he => ?_, fun e he => ?_⟩
    · exact hu e (List.mem_of_mem_take he)
    · exact hu e (List.mem_of_mem_drop he)
  · rw [heq]
    exact fun e he => hu e (List.mem_of_mem_take he)
  · rw [heq]
    exact @flushInstrBuf_plain _ cfg env { u with env := m } hu 0 a u.canCancel

theorem sendFetchRequests_instrBuf (hpredictor : cfg.hasPredictor = false)
    (hsend : u.sendFetchRequests cfg env = some u') : u'.instrBuf = u.instrBuf := by
  have hresend : (u.resend env).2.instrBuf = u.instrBuf := by
    rw [resend]
    split
    · split <;> rfl
    · rfl
  have hstep (_ : ℕ) (x : FetchUnit μ) (sent : Bool) (x' : FetchUnit μ)
      (hx : x.instrBuf = u.instrBuf) (hsend : x.sendRequest cfg env = (sent, x')) :
      x'.instrBuf = u.instrBuf := by
    rcases sendRequest_eq hpredictor hsend with ⟨_, _, rfl⟩ | ⟨_, _, _, _, _, rfl, -⟩ <;> exact hx
  rcases sendFetchRequests_cases hsend with rfl | ⟨fuel, -, first, hloop⟩
  · rfl
  · obtain ⟨-, hbuf⟩ := sendLoop_invariant (P := fun _ x => x.instrBuf = u.instrBuf) hstep hresend
      hloop
    exact hbuf

theorem exec_plain (hpredictor : cfg.hasPredictor = false) {op : FetchOp μ} (hu : u.Plain)
    (hexec : u.exec cfg env op = some u') : u'.Plain := by
  cases op with
  | receiveInstrData =>
    obtain ⟨tryNewFetch, rfl⟩ := receiveInstrData_eq hexec
    exact receiveLoop_invariant (P := Plain) (fun _ _ _ hx _ _ => receive_plain hpredictor hx) hu
  | sendFetchRequests =>
    rw [Plain, sendFetchRequests_instrBuf hpredictor hexec]
    exact hu
  | instrData =>
    obtain ⟨taken, target, n, heq⟩ := @instrData_frame _ cfg u
    rw [exec, heq] at hexec
    exact Option.some.inj hexec ▸ hu
  | decodeUpdate success size =>
    obtain ⟨next, last, heq⟩ := @decodeUpdate_eq _ cfg env u hpredictor hu success size
    rw [exec, heq] at hexec
    exact Option.some.inj hexec ▸ hu
  | removeInstr size =>
    refine Option.some.inj hexec ▸ ?_
    rw [removeInstr]
    split
    · exact hu
    · exact fun e he => hu e (List.mem_of_mem_drop he)
  | flush newFetchAddr => exact Option.some.inj hexec ▸ flush_plain hu
  | cancel =>
    refine Option.some.inj hexec ▸ ?_
    rw [FetchUnit.cancel]
    split
    · exact hu
    case h_2 r rest hpending =>
      exact @flushInstrBuf_plain _ cfg env u hu u.instrBuf.length r.ea u.canCancel
  | preemptFetch =>
    refine Option.some.inj hexec ▸ ?_
    rw [preemptFetch]
    split <;> exact hu
  | fullReset => exact Option.some.inj hexec ▸ fun _ he => absurd he List.not_mem_nil
  | setCancel _ | pauseFetch | forceFetch | environment _ => exact Option.some.inj hexec ▸ hu

theorem flush_streaming (hu : u.Plain) (ha : cfg.entrySize ∣ a.toNat)
    (hflush : (u.flush cfg env a).1 = true) : (u.flush cfg env a).2.Streaming cfg a := by
  have hplain := @flush_plain _ cfg env u a hu
  -- in the first two cases the address is in the buffer or pending, and the flush is partial
  rcases flush_cases cfg env u a with ⟨i, m, e, heq, -⟩ | ⟨i, m, r, heq, -⟩ | ⟨m, heq, -⟩
  · rw [heq] at hflush
    cases hflush
  · rw [heq] at hflush
    cases hflush
  · rw [heq] at hplain ⊢
    have hnext : (flushInstrBuf cfg env { u with env := m } 0 a u.canCancel).nextFetchAddr = a := by
      rw [flushInstrBuf, Nat.zero_min]
      rfl
    have hpending := (@flushInstrBuf_fields _ cfg env { u with env := m } 0 a u.canCancel).1
    refine ⟨?_, hnext.symm ▸ ha, hplain⟩
    rw [hpending, hnext]
    rfl

/-! ### Runs -/

/-- Calls between two flushes. The fetches of one call end below the limit, and only a request that
is there can be preempted. -/
def Continued (cfg : FetchConfig) (limit : ℕ) (u : FetchUnit μ) : FetchOp μ → Prop
  | .sendFetchRequests => u.nextFetchAddr.toNat + cfg.maxFetchCount * cfg.fetchSize₀ < limit
  | .preemptFetch => u.pendingRequests ≠ []
  | .flush _ | .cancel | .fullReset => False
  | .receiveInstrData | .instrData | .decodeUpdate _ _ | .removeInstr _ | .setCancel _
  | .pauseFetch | .forceFetch | .environment _ => True

instance (op : FetchOp μ) : Decidable (u.Continued cfg limit op) :=
  match op with
  | .sendFetchRequests => inferInstanceAs (Decidable (_ < _))
  | .preemptFetch => decidable_of_iff (u.pendingRequests.isEmpty = false) (by simp [Continued])
  | .flush _ | .cancel | .fullReset => .isFalse id
  | .receiveInstrData | .instrData | .decodeUpdate _ _ | .removeInstr _ | .setCancel _
  | .pauseFetch | .forceFetch | .environment _ => .isTrue trivial

/-- The addresses of the entries that a call adds to the buffer. -/
def added (u u' : FetchUnit μ) : FetchOp μ → List Addr
  | .receiveInstrData => (u'.instrBuf.drop u.instrBuf.length).map (·.ea)
  | _ => []

/-- The addresses of the entries that come in a run, as far as it goes. -/
def delivered (cfg : FetchConfig) (env : FetchEnv μ) : FetchUnit μ → List (FetchOp μ) → List Addr
  | _, [] => []
  | u, op :: ops =>
    match u.exec cfg env op with
    | some u' => added u u' op ++ delivered cfg env u' ops
    | none => []

/-- Every call delivers the next entries. -/
theorem exec_streaming (h : cfg.Aligned) (hpredictor : cfg.hasPredictor = false)
    (henv : env.Identity limit) {op : FetchOp μ} (hop : u.Continued cfg limit op)
    (hu : u.Streaming cfg a) (hexec : u.exec cfg env op = some u') (hroom : u'.overrun = false) :
    ∃ n, added u u' op = addresses cfg.entrySize a n ∧
      u'.Streaming cfg (a + BitVec.ofNat 64 (n * cfg.entrySize)) := by
  -- only answers add entries
  have hquiet (hadded : added u u' op = []) (hu' : u'.Streaming cfg a) :
      ∃ n, added u u' op = addresses cfg.entrySize a n ∧
        u'.Streaming cfg (a + BitVec.ofNat 64 (n * cfg.entrySize)) :=
    ⟨0, hadded, by simpa using hu'⟩
  cases op with
  | receiveInstrData =>
    obtain ⟨tryNewFetch, rfl⟩ := receiveInstrData_eq hexec
    obtain ⟨n, hbuf, hu'⟩ := @receiveLoop_delivers _ cfg env { u with tryNewFetch := tryNewFetch } a
      h hpredictor u.pendingRequests.length ⟨hu.spans, hu.next, hu.plain⟩ hroom
    refine ⟨n, ?_, hu'⟩
    rw [added, List.map_drop, hbuf, List.drop_left' (List.length_map _)]
  | sendFetchRequests =>
    exact hquiet rfl (sendFetchRequests_streaming h hpredictor henv hu hop hexec hroom)
  | instrData =>
    obtain ⟨taken, target, n, heq⟩ := @instrData_frame _ cfg u
    rw [exec, heq] at hexec
    exact hquiet rfl (Option.some.inj hexec ▸ ⟨hu.spans, hu.next, hu.plain⟩)
  | decodeUpdate success size =>
    obtain ⟨next, last, heq⟩ := @decodeUpdate_eq _ cfg env u hpredictor hu.plain success size
    rw [exec, heq] at hexec
    exact hquiet rfl (Option.some.inj hexec ▸ ⟨hu.spans, hu.next, hu.plain⟩)
  | removeInstr size =>
    refine hquiet rfl ?_
    have hplain := exec_plain hpredictor hu.plain hexec
    obtain rfl := Option.some.inj hexec
    rw [removeInstr] at hplain ⊢
    split
    · exact hu
    case isFalse hne =>
      rw [if_neg hne] at hplain
      exact ⟨hu.spans, hu.next, hplain⟩
  | preemptFetch => exact hquiet rfl (Option.some.inj hexec ▸ preemptFetch_streaming hu)
  | setCancel _ | pauseFetch | forceFetch | environment _ =>
    exact hquiet rfl (Option.some.inj hexec ▸ ⟨hu.spans, hu.next, hu.plain⟩)
  | flush _ | cancel | fullReset => exact hop.elim

theorem delivered_eq (h : cfg.Aligned) (hpredictor : cfg.hasPredictor = false)
    (henv : env.Identity limit) {ops : List (FetchOp μ)}
    (hops : Math.Allowed (exec cfg env) (Continued cfg limit) u ops) (hu : u.Streaming cfg a)
    (hrun : ops.foldlM (exec cfg env) u = some u') (hroom : u'.overrun = false) :
    ∃ n, delivered cfg env u ops = addresses cfg.entrySize a n := by
  induction ops generalizing u a with
  | nil => exact ⟨0, rfl⟩
  | cons op rest ih =>
    obtain ⟨hop, hrest⟩ := hops
    rw [List.foldlM_cons] at hrun
    obtain ⟨u₁, hexec, hrun⟩ := Option.bind_eq_some_iff.mp hrun
    rw [hexec] at hrest
    -- the rest of the run starts where the entries of this call end
    obtain ⟨n, hadded, hu₁⟩ :=
      exec_streaming h hpredictor henv hop hu hexec (run_overrun hrun hroom)
    obtain ⟨n', hdelivered⟩ := ih hrest hu₁ hrun
    exact ⟨n + n', by rw [delivered, hexec]; dsimp only; rw [hadded, hdelivered, addresses_add]⟩

end FetchUnit

/-- Fetches of eight and four bytes. -/
def twoSizes : FetchConfig :=
  { plainFetch 6 2 8 true with fetchSizes := [8, 4], maxFetchCount := 2 }

theorem twoSizes_aligned : twoSizes.Aligned where
  nonempty := by decide
  decreasing := by decide
  two_pow := List.forall_mem_cons.mpr ⟨⟨3, rfl⟩, List.forall_mem_singleton.mpr ⟨2, rfl⟩⟩
  multiple := by decide
  le_data := by decide
  bpStep_pos := by decide
  nEntries_lt := by decide

/-- From the middle of a block: a padded fetch and a whole block, of which the second is preempted
and sent again. -/
def stitched : List (FetchOp Bool) :=
  [.sendFetchRequests, .sendFetchRequests, .preemptFetch, .sendFetchRequests, .environment true,
    .receiveInstrData]

example : FetchUnit.delivered twoSizes zeroMemory
    ((FetchUnit.initial twoSizes false).flush twoSizes zeroMemory 6).2 stitched =
      [6, 8, 10, 12, 14] := by
  decide +kernel

end Adl.Uadl
