import Adl.Math.Aligned
import Adl.Uadl.Linefill

/-!
# From one line to the next

A request for the next line can be sent while a line is still being filled. When the next line is
set up, the entry with the address of that request is marked as requested. Entries that are larger
than the double word it is made for, or lines that are smaller, can have none.
-/

namespace Adl.Uadl

variable {ν : Type*}

def LinefillCall.isInit : LinefillCall ν → Bool
  | .init .. => true
  | _ => false

namespace LinefillBuf

/-- The extra request becomes that of one entry: the one with the bytes that were asked for. -/
def HandsOver (l l' : LinefillBuf) : Prop :=
  l'.entrySize = l.entrySize ∧ ∃ (i : ℕ) (e : LinefillBufEntry), l'.entries[i]? = some e ∧
    e.addr = l.extraEntry.addr ∧ e.requestSent = true ∧ e.requestId = l.extraEntry.requestId ∧
    ∀ j e', l'.entries[j]? = some e' → e'.requestSent = true → j = i

/-! ### The loop over the entries -/

section Entries

variable {l : LinefillBuf} {ea ra : Addr} {es : List LinefillBufEntry} {i : ℕ}
  {e : LinefillBufEntry}

/-- The entries lie behind each other, and only that of the extra request is marked. -/
theorem getElem?_initEntries (h : (initEntries ea ra es l).1[i]? = some e) :
    e.ea = ea + BitVec.ofNat 64 (i * l.entrySize) ∧
      e.addr = ra + BitVec.ofNat 64 (i * l.entrySize) ∧ e.hasData = false ∧
      (e.requestSent = true → l.hasExtra = true ∧ l.extraEntry.requestSent = true ∧
        e.addr = l.extraEntry.addr ∧ e.requestId = l.extraEntry.requestId) := by
  induction es generalizing ea ra i l with
  | nil => simp [initEntries] at h
  | cons x rest ih =>
    by_cases htaken : (l.hasExtra && ra = l.extraEntry.addr && l.extraEntry.requestSent) = true
    · simp only [initEntries, if_pos htaken] at h
      simp only [Bool.and_eq_true, decide_eq_true_eq] at htaken
      cases i with
      | zero =>
        obtain rfl : _ = e := by simpa using h
        simp [LinefillBufEntry.init, htaken]
      | succ i =>
        rw [List.getElem?_cons_succ] at h
        obtain ⟨hea, hra, hdata, hmark⟩ := ih h
        refine ⟨?_, ?_, hdata, fun hs => absurd (hmark hs).1 (by simp)⟩
        · simpa only [Math.add_ofNat_succ_mul] using hea
        · simpa only [Math.add_ofNat_succ_mul] using hra
    · simp only [initEntries, if_neg htaken] at h
      cases i with
      | zero =>
        obtain rfl : _ = e := by simpa using h
        simp [LinefillBufEntry.init]
      | succ i =>
        rw [List.getElem?_cons_succ] at h
        obtain ⟨hea, hra, hdata, hmark⟩ := ih h
        refine ⟨?_, ?_, hdata, hmark⟩
        · simpa only [Math.add_ofNat_succ_mul] using hea
        · simpa only [Math.add_ofNat_succ_mul] using hra

theorem exists_initEntries (ea : Addr) (hextra : l.hasExtra = true)
    (hsent : l.extraEntry.requestSent = true) (hi : i < es.length)
    (haddr : ra + BitVec.ofNat 64 (i * l.entrySize) = l.extraEntry.addr) :
    ∃ (j : ℕ) (e : LinefillBufEntry),
      (initEntries ea ra es l).1[j]? = some e ∧ e.requestSent = true := by
  induction es generalizing ea ra i with
  | nil => simp at hi
  | cons x rest ih =>
    by_cases hra : ra = l.extraEntry.addr
    · exact ⟨0, { x.init ea ra with requestSent := true, requestId := l.extraEntry.requestId },
        by simp [initEntries, hextra, hsent, hra], rfl⟩
    · cases i with
      | zero => exact absurd (by simpa using haddr) hra
      | succ i =>
        rw [← Math.add_ofNat_succ_mul] at haddr
        obtain ⟨j, e, he, hmark⟩ := ih (ea + BitVec.ofNat 64 l.entrySize)
          (Nat.lt_of_succ_lt_succ hi) haddr
        exact ⟨j + 1, e, by simpa [initEntries, hra] using he, hmark⟩

end Entries

/-! ### Until the next line -/

/-- A buffer that has its extra request set up. -/
structure Awaiting (l₀ : LinefillBuf) (addr : Addr) (l : LinefillBuf) : Prop where
  first : l.criticalWordFirst = l₀.criticalWordFirst
  dyn : l.dynEntrySize = l₀.dynEntrySize
  width : l.lineWidth = l₀.lineWidth
  size : l.entrySize = l₀.entrySize
  length : l.entries.length = l₀.entries.length
  hasExtra : l.hasExtra = true
  extraAddr : l.extraEntry.addr = addr

section Awaiting

variable {next : NextLevel ν} {l l₀ l' : LinefillBuf} {addr : Addr} {m : ν}

theorem awaiting_setupExtra (h : l.hasExtra = false) (ea ra : Addr) :
    Awaiting l (ra &&& if l.criticalWordFirst then ~~~dwMask else l.lineAddrMask)
      (l.setupExtra ea ra) := by
  simp only [setupExtra, h, Bool.false_eq_true, if_false]
  exact ⟨rfl, rfl, rfl, rfl, rfl, rfl, rfl⟩

theorem Awaiting.of_frame (h : Awaiting l₀ addr l) (hframe : l'.frame = l.frame) :
    Awaiting l₀ addr l' := by
  have hkept := keeps_of_frame hframe
  exact ⟨hkept.first.trans h.first, hkept.dyn.trans h.dyn, hkept.width.trans h.width,
    hkept.size.trans h.size, hkept.length.trans h.length, hkept.hasExtra.trans h.hasExtra,
    hkept.extraEntry ▸ h.extraAddr⟩

theorem Awaiting.exec (h : Awaiting l₀ addr l) {call : LinefillCall ν}
    (hcall : call.isInit = false) : Awaiting l₀ addr (exec next (l, m) call).1 := by
  cases call with
  | init width id ea ra lineSet lineWay readData => cases hcall
  | setupExtra ea ra =>
    rw [LinefillBuf.exec, setupExtra, if_pos h.hasExtra]
    exact h
  | sendRequest => exact h.of_frame frame_sendRequest
  | sendExtraRequest =>
    simp only [LinefillBuf.exec, sendExtraRequest]
    split
    · rcases l.sendEntryRequest_cases next l.extraEntry m with
        ⟨-, heq⟩ | ⟨-, -, heq⟩ | ⟨-, -, heq⟩ <;> rw [heq]
      · exact h
      · exact ⟨h.first, h.dyn, h.width, h.size, h.length, h.hasExtra, h.extraAddr⟩
      · exact h
    · exact h
  | loadData => exact h.of_frame frame_loadData
  | next m => exact h

theorem Awaiting.run (calls : List (LinefillCall ν)) (hcalls : ∀ c ∈ calls, c.isInit = false) :
    ∀ {s : LinefillBuf × ν}, Awaiting l₀ addr s.1 →
      Awaiting l₀ addr (calls.foldl (LinefillBuf.exec next) s).1 := by
  induction calls with
  | nil => exact id
  | cons call calls ih =>
    rw [List.forall_mem_cons] at hcalls
    exact fun h => ih hcalls.2 (h.exec hcalls.1)

end Awaiting

/-! ### The two alignments -/

section Init

variable {l : LinefillBuf} {width : ℕ} {id : ReqId} {ea ra : Addr} {lineSet lineWay : BitVec 32}
  {readData : Bool}

theorem init_entries : (l.init width id ea ra lineSet lineWay readData).entries =
    (initEntries (ea &&& l.lineAddrMask) (ra &&& l.lineAddrMask)
      (l.prepared width id lineSet lineWay readData).entries
      (l.prepared width id lineSet lineWay readData)).1 := by
  rw [init_eq]
  simp only
  split <;> rfl

theorem init_entrySize : (l.init width id ea ra lineSet lineWay readData).entrySize =
    if l.dynEntrySize then width else l.entrySize := by
  obtain ⟨r, h⟩ := l.initialized_eq width id ea ra lineSet lineWay readData
  rw [init_eq, ← entrySize_prepared]
  simp only [h]
  split <;> rfl

theorem handsOver_init_iff (hsized : l.Sized) (hwidth : l.lineWidth < 2 ^ 32)
    (hextra : l.hasExtra = true) (hsent : l.extraEntry.requestSent = true) :
    HandsOver l (l.init width id ea ra lineSet lineWay readData) ↔
      (l.dynEntrySize = true → width = l.entrySize) ∧ ∃ i < l.lineWidth / l.entrySize,
        (ra &&& l.lineAddrMask) + BitVec.ofNat 64 (i * l.entrySize) = l.extraEntry.addr := by
  have hprepared := l.prepared_kept width id lineSet lineWay readData
  have hsized₀ := hsized.prepared width id lineSet lineWay readData
  have hsize₀ := l.entrySize_prepared width id lineSet lineWay readData
  rw [HandsOver, init_entrySize, init_entries]
  have hiff : (if l.dynEntrySize then width else l.entrySize) = l.entrySize ↔
      (l.dynEntrySize = true → width = l.entrySize) := by
    cases l.dynEntrySize <;> simp
  rw [hiff]
  refine and_congr_right fun hdyn => ?_
  rw [hiff.mpr hdyn] at hsize₀
  rw [Sized, nEntries, hsize₀, hprepared.1] at hsized₀
  have hlt : ∀ {i : ℕ} {e : LinefillBufEntry},
      (initEntries (ea &&& l.lineAddrMask) (ra &&& l.lineAddrMask)
        (l.prepared width id lineSet lineWay readData).entries
        (l.prepared width id lineSet lineWay readData)).1[i]? = some e →
      i < l.lineWidth / l.entrySize := fun h => by
    rw [← hsized₀, ← length_initEntries]
    exact (List.getElem?_eq_some_iff.mp h).1
  constructor
  · rintro ⟨i, e, he, haddr, -⟩
    have hra := (getElem?_initEntries he).2.1
    rw [hsize₀, haddr] at hra
    exact ⟨i, hlt he, hra.symm⟩
  · rintro ⟨i, hi, haddr⟩
    obtain ⟨-, -, -, -, hextra₀, hentry₀⟩ := hprepared
    obtain ⟨j, e, he, hmark⟩ := exists_initEntries (ea &&& l.lineAddrMask)
      (hextra₀.trans hextra) (by rw [hentry₀, hsent]) (hsized₀ ▸ hi)
      (by rw [hsize₀, hentry₀, haddr])
    obtain ⟨-, hra, -, hmark'⟩ := getElem?_initEntries he
    obtain ⟨-, -, haddr', hid⟩ := hmark' hmark
    rw [hentry₀] at haddr' hid
    refine ⟨j, e, he, haddr', hmark, hid, fun j' e' he' hm' => ?_⟩
    -- the addresses of the entries differ
    obtain ⟨-, hra', -, hmark''⟩ := getElem?_initEntries he'
    have hsame := (hmark'' hm').2.2.1
    rw [hra', hentry₀, ← haddr', hra, hsize₀, BitVec.add_right_inj] at hsame
    have hpos : 0 < l.entrySize := Nat.pos_of_ne_zero fun h0 => by simp [h0] at hi
    exact Math.ofNat_mul_inj hpos (by have := Nat.div_mul_le_self l.lineWidth l.entrySize; omega)
      (hlt he') (hlt he) hsame

end Init

section Aligned

variable {width k : ℕ} {ra : Addr}

/-- A double word starts an entry if the address is in the first double word of its entry. -/
theorem two_pow_dvd_dw_iff (r k : ℕ) : 2 ^ k ∣ r / 8 * 8 ↔ r % 2 ^ k < 8 := by
  rcases Nat.le_total k 3 with hk | hk
  · have hdvd : 2 ^ k ∣ 8 := Nat.pow_dvd_pow 2 hk
    exact iff_of_true (hdvd.mul_left _)
      ((Nat.mod_lt _ (Nat.two_pow_pos k)).trans_le (Nat.le_of_dvd (by decide) hdvd))
  · obtain ⟨n, rfl⟩ := Nat.exists_eq_add_of_le hk
    rw [Nat.pow_add, show 2 ^ 3 = 8 from rfl, Nat.mod_mul, Nat.mul_comm 8,
      Nat.mul_dvd_mul_iff_right (by decide), Nat.dvd_iff_mod_eq_zero]
    omega

/-- An entry with the address of a double word: it lies in the line, and the address that is asked
for is in the first double word of its entry. -/
theorem exists_dw_iff (hpos : 0 < width) (hlt : width < 2 ^ 32) (hdvd : 2 ^ k ∣ width) :
    (∃ i < width / 2 ^ k, (ra &&& ~~~(BitVec.ofNat 64 width - 1)) + BitVec.ofNat 64 (i * 2 ^ k) =
      ra &&& ~~~dwMask) ↔
    ra &&& ~~~(BitVec.ofNat 64 width - 1) ≤ ra &&& ~~~dwMask ∧ ra.toNat % 2 ^ k < 8 := by
  have hmask : (BitVec.ofNat 64 width - 1 : Addr).toNat = width - 1 := by
    rw [BitVec.toNat_sub_of_le (by bv_omega)]
    simp; omega
  have hsum := Math.toNat_and_not_add_and ra (BitVec.ofNat 64 width - 1)
  have hroom := Math.toNat_and_not_add_lt ra (BitVec.ofNat 64 width - 1)
  have hoffset : (ra &&& (BitVec.ofNat 64 width - 1)).toNat ≤ width - 1 :=
    hmask ▸ Nat.and_le_right
  have hbase := Math.and_not_mod_two_pow ra (BitVec.ofNat 64 width - 1) (k := k)
    (by rw [hmask, Nat.sub_add_cancel hpos]; exact hdvd)
  have hdw : (ra &&& ~~~dwMask).toNat = ra.toNat / 8 * 8 :=
    Math.toNat_and_not_two_pow_sub_one ra 3
  rw [hmask] at hroom
  rw [← two_pow_dvd_dw_iff, BitVec.le_def, hdw]
  have htoNat : ∀ i < width / 2 ^ k, ((ra &&& ~~~(BitVec.ofNat 64 width - 1)) +
      BitVec.ofNat 64 (i * 2 ^ k)).toNat =
        (ra &&& ~~~(BitVec.ofNat 64 width - 1)).toNat + i * 2 ^ k := by
    intro i hi
    have hi' : i * 2 ^ k < width := Nat.mul_comm i _ ▸ (Nat.lt_div_iff_mul_lt' hdvd i).mp hi
    rw [BitVec.toNat_add, BitVec.toNat_ofNat, Nat.mod_eq_of_lt (by omega : i * 2 ^ k < 2 ^ 64),
      Nat.mod_eq_of_lt (by omega)]
  -- the entries of the line do not wrap around, so that addresses are compared as numbers
  constructor
  · rintro ⟨i, hi, heq⟩
    have hnat := congrArg BitVec.toNat heq
    rw [htoNat i hi, hdw] at hnat
    exact ⟨by omega, hnat ▸ Nat.dvd_add (Nat.dvd_of_mod_eq_zero hbase) (Nat.dvd_mul_left _ _)⟩
  · rintro ⟨hle, hdvd'⟩
    obtain ⟨i, hi⟩ := Nat.dvd_sub hdvd' (Nat.dvd_of_mod_eq_zero hbase)
    have hlt' : i < width / 2 ^ k := (Nat.lt_div_iff_mul_lt' hdvd i).mpr (by omega)
    refine ⟨i, hlt', BitVec.eq_of_toNat_eq ?_⟩
    rw [htoNat i hlt', hdw, Nat.mul_comm i]
    omega

end Aligned

/-- An extra request that was sent is taken over by the line that it was made for exactly if the
size of the entries has not changed and, when the critical word comes first, the line has its double
word and the address lies in the first double word of its entry. -/
theorem handsOver_iff (next : NextLevel ν) (l : LinefillBuf) (k : ℕ) (ea ra : Addr)
    (calls : List (LinefillCall ν)) (m : ν) (width : ℕ) (id : ReqId) (lineSet lineWay : BitVec 32)
    (readData : Bool) (hpos : 0 < l.lineWidth) (hlt : l.lineWidth < 2 ^ 32)
    (hsize : l.entrySize = 2 ^ k) (hdvd : l.entrySize ∣ l.lineWidth) (hsized : l.Sized)
    (hextra : l.hasExtra = false) (hcalls : ∀ c ∈ calls, c.isInit = false) :
    let l' := (calls.foldl (exec next) (l.setupExtra ea ra, m)).1
    l'.extraEntry.requestSent = true →
    (HandsOver l' (l'.init width id ea ra lineSet lineWay readData) ↔
      (l.dynEntrySize = true → width = l.entrySize) ∧
      (l.criticalWordFirst = true → ra &&& l.lineAddrMask ≤ ra &&& ~~~dwMask ∧
        ra.toNat % l.entrySize < 8)) := by
  intro l' hsent
  have h : Awaiting l _ l' := Awaiting.run calls hcalls (awaiting_setupExtra hextra ea ra)
  have hsized' : l'.Sized := by rw [Sized, h.length, nEntries, h.width, h.size]; exact hsized
  rw [handsOver_init_iff hsized' (h.width ▸ hlt) h.hasExtra hsent, h.dyn, h.size, h.width,
    h.extraAddr, lineAddrMask, h.width]
  refine and_congr_right fun _ => ?_
  cases hfirst : l.criticalWordFirst with
  | false =>
    simp only [Bool.false_eq_true, if_false, false_imp_iff, iff_true]
    exact ⟨0, Nat.div_pos (Nat.le_of_dvd hpos hdvd) (hsize ▸ Nat.two_pow_pos k), by
      rw [Nat.zero_mul, lineAddrMask]
      exact BitVec.add_zero _⟩
  | true =>
    simp only [if_true, true_imp_iff]
    rw [hsize] at hdvd ⊢
    exact exists_dw_iff hpos hlt hdvd

/-- Entries of one double word. -/
theorem dw_taken_over :
    let l := ([.sendExtraRequest].foldl (exec openPort)
      ((create true false false 32 8).setupExtra 0x1018 0x1018, 0)).1
    HandsOver l (l.init 0 0 0x1018 0x1018 0 0 true) :=
  (handsOver_iff openPort (create true false false 32 8) 3 0x1018 0x1018 [.sendExtraRequest] 0 0 0
    0 0 true (by decide) (by decide) rfl (by decide) rfl rfl (by decide) (by decide)).mpr
    ⟨by decide, by decide⟩

/-- Entries of two double words: a request for the second one is not taken over. -/
theorem second_dw_not_taken_over :
    let l := ([.sendExtraRequest].foldl (exec openPort)
      ((create true false false 32 16).setupExtra 0x1018 0x1018, 0)).1
    l.extraEntry.requestSent = true ∧
      (l.init 0 0 0x1018 0x1018 0 0 true).entries.countP (·.requestSent) = 0 := by
  decide

end LinefillBuf

end Adl.Uadl
