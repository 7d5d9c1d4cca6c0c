import Adl.Memory.Sparse

/-!
# Mutexes for pages

An access to memory is protected by a mutex of its page. Each core has a table of the mutexes it has
used (`PrivateMutexHash`); what is not there is fetched from a table that all cores share
(`LockedMutexHash`), which is locked meanwhile.

The cores take turns in any order. A call of `get` is one step if the core's own table has the
mutex; otherwise it waits for the lock, looks into the shared table, allocates a mutex if there is
none, and returns.
-/

namespace Adl.Memory.Locks

/-- `LockedMutexHash::get_page`. -/
def getPage (a : Addr) : Addr := a &&& 4095

/-- A table of pointers to mutexes: an index may be missing, and a pointer may be NULL. -/
abbrev Table := Addr → Option (Option ℕ)

/-- Where a core is in a call of `get`. -/
inductive Place where
  | idle
  /-- Waits for the lock of the shared table. -/
  | waiting (addr : Addr)
  /-- Has the lock and looks into the shared table. -/
  | inserting (addr : Addr)
  /-- Has inserted an index, for which a mutex is to be allocated. -/
  | allocating (addr : Addr)
  /-- Has the mutex and gives the lock back. -/
  | leaving (addr : Addr) (mutex : Option ℕ)

structure Returned (κ : Type) where
  core : κ
  addr : Addr
  mutex : Option ℕ
  deriving DecidableEq

structure State (κ : Type) where
  globalHash : Table
  privateHash : κ → Table
  /-- The core that has the lock of the shared table. -/
  holder : Option κ
  place : κ → Place
  /-- The number of mutexes allocated so far. -/
  allocated : ℕ
  returned : List (Returned κ)

/-- What a core does at its turn: begin a call, or go on with the one it is in. -/
inductive Turn (κ : Type) where
  | call (c : κ) (addr : Addr)
  | go (c : κ)

variable {κ : Type} [DecidableEq κ]

namespace State

def init : State κ := ⟨fun _ => none, fun _ _ => none, none, fun _ => .idle, 0, []⟩

variable (s : State κ) (c : κ)

def goTo (p : Place) : State κ := { s with place := Function.update s.place c p }

/-- `PrivateMutexHash::get` up to the call of the shared table. A core that is in a call does not
begin another one. -/
def call (addr : Addr) : State κ :=
  match s.place c with
  | .idle =>
    match s.privateHash c (getPage addr) with
    | some mutex => { s with returned := ⟨c, addr, mutex⟩ :: s.returned }
    | none =>
      { s with
        privateHash := Function.update s.privateHash c
          (Function.update (s.privateHash c) (getPage addr) (some none))
        place := Function.update s.place c (.waiting addr) }
  | _ => s

/-- `LockedMutexHash::get`, and the end of `PrivateMutexHash::get`. -/
def go : State κ :=
  match s.place c with
  | .idle => s
  | .waiting addr =>
    match s.holder with
    | some _ => s
    | none => { s.goTo c (.inserting addr) with holder := some c }
  | .inserting addr =>
    match s.globalHash (getPage addr) with
    | some mutex => s.goTo c (.leaving addr mutex)
    | none =>
      { s.goTo c (.allocating addr) with
        globalHash := Function.update s.globalHash (getPage addr) (some none) }
  | .allocating addr =>
    { s.goTo c (.leaving addr (some s.allocated)) with
      globalHash := Function.update s.globalHash (getPage addr) (some (some s.allocated))
      allocated := s.allocated + 1 }
  | .leaving addr mutex =>
    { s.goTo c .idle with
      holder := none
      privateHash := Function.update s.privateHash c
        (Function.update (s.privateHash c) (getPage addr) (some mutex))
      returned := ⟨c, addr, mutex⟩ :: s.returned }

def step : Turn κ → State κ
  | .call c addr => s.call c addr
  | .go c => s.go c

end State

/-- The cores take turns. -/
def run (turns : List (Turn κ)) : State κ := turns.foldl State.step .init

/-! ### The tables agree -/

/-- What the place of a core says about the tables. -/
def Place.Ok (s : State κ) (c : κ) : Place → Prop
  | .idle => ∀ k, s.privateHash c k ≠ some none
  | .waiting addr => ∀ k, s.privateHash c k = some none → k = getPage addr
  | .inserting addr => s.holder = some c ∧ ∀ k, s.privateHash c k = some none → k = getPage addr
  | .allocating addr => s.holder = some c ∧ s.globalHash (getPage addr) = some none ∧
    ∀ k, s.privateHash c k = some none → k = getPage addr
  | .leaving addr mutex => s.holder = some c ∧ (∃ m, mutex = some m) ∧
    s.globalHash (getPage addr) = some mutex ∧
    ∀ k, s.privateHash c k = some none → k = getPage addr

/-- The shared table has a mutex of its own for each index, except while one is being allocated, and
everything that has been handed out is in it. -/
structure Agrees (s : State κ) : Prop where
  place : ∀ c, (s.place c).Ok s c
  allocated : ∀ k m, s.globalHash k = some (some m) → m < s.allocated
  injective : ∀ k k' m, s.globalHash k = some (some m) → s.globalHash k' = some (some m) → k = k'
  null : ∀ k, s.globalHash k = some none →
    ∃ c addr, s.holder = some c ∧ s.place c = .allocating addr ∧ getPage addr = k
  privateHash : ∀ c k m, s.privateHash c k = some (some m) → s.globalHash k = some (some m)
  returned : ∀ r ∈ s.returned, ∃ m, r.mutex = some m ∧ s.globalHash (getPage r.addr) = some (some m)

omit [DecidableEq κ] in
theorem agrees_init : Agrees (State.init : State κ) where
  place := fun _ _ => nofun
  allocated := fun _ _ h => nomatch h
  injective := fun _ _ _ h => nomatch h
  null := fun _ h => nomatch h
  privateHash := fun _ _ _ h => nomatch h
  returned := fun _ h => absurd h List.not_mem_nil

variable {s s' : State κ} {c : κ}

omit [DecidableEq κ] in
/-- A core that does not move notices nothing, unless it has the lock and something changes. -/
theorem Place.Ok.frame {p : Place} (h : p.Ok s c) (hprivate : s'.privateHash c = s.privateHash c)
    (hlock : s.holder = some c → s'.holder = some c ∧ s'.globalHash = s.globalHash) :
    p.Ok s' c := by
  cases p with
  | idle =>
    rw [Place.Ok, hprivate]
    exact h
  | waiting addr =>
    rw [Place.Ok, hprivate]
    exact h
  | inserting addr =>
    rw [Place.Ok, hprivate]
    exact ⟨(hlock h.1).1, h.2⟩
  | allocating addr =>
    rw [Place.Ok, hprivate, (hlock h.1).2]
    exact ⟨(hlock h.1).1, h.2⟩
  | leaving addr mutex =>
    rw [Place.Ok, hprivate, (hlock h.1).2]
    exact ⟨(hlock h.1).1, h.2⟩

theorem Agrees.place_of_moved (h : Agrees s) {p : Place}
    (hplace : s'.place = Function.update s.place c p) (hp : p.Ok s' c)
    (hprivate : ∀ c' ≠ c, s'.privateHash c' = s.privateHash c')
    (hlock : ∀ c' ≠ c, s.holder = some c' → s'.holder = some c' ∧ s'.globalHash = s.globalHash) :
    ∀ c', (s'.place c').Ok s' c' := by
  intro c'
  rw [hplace]
  by_cases hc : c' = c
  · rw [hc, Function.update_self]
    exact hp
  · rw [Function.update_of_ne hc]
    exact (h.place c').frame (hprivate c' hc) (hlock c' hc)

theorem Agrees.call (h : Agrees s) (addr : Addr) : Agrees (s.call c addr) := by
  have hplace := h.place c
  unfold State.call
  split
  · next hc =>
    rw [hc] at hplace
    split
    · next mutex hmutex =>
      obtain ⟨m, rfl⟩ : ∃ m, mutex = some m :=
        Option.ne_none_iff_exists'.mp fun hnull => hplace _ (hnull ▸ hmutex)
      refine ⟨fun c' => (h.place c').frame rfl fun hc' => ⟨hc', rfl⟩, h.allocated, h.injective,
        h.null, h.privateHash, fun r hr => ?_⟩
      rcases List.mem_cons.mp hr with rfl | hr
      · exact ⟨m, rfl, h.privateHash c _ m hmutex⟩
      · exact h.returned r hr
    · next hmissing =>
      -- the page has a null entry while the core waits for the lock
      refine ⟨h.place_of_moved (c := c) rfl (fun k hk => ?_) (fun c' hc' => ?_)
        (fun _ _ hc' => ⟨hc', rfl⟩), h.allocated, h.injective, fun k hk => ?_,
        fun c' k m hm => ?_, h.returned⟩
      · simp only [Function.update_self] at hk
        by_contra hne
        rw [Function.update_of_ne hne] at hk
        exact hplace k hk
      · exact Function.update_of_ne hc' _ _
      · obtain ⟨c', addr', hholder, hc', hk'⟩ := h.null k hk
        have hne : c' ≠ c := fun heq => by simp [heq, hc] at hc'
        exact ⟨c', addr', hholder, (Function.update_of_ne hne _ _).trans hc', hk'⟩
      · by_cases hc' : c' = c
        · subst hc'
          simp only [Function.update_self] at hm
          by_cases hk : k = getPage addr
          · simp [hk] at hm
          · rw [Function.update_of_ne hk] at hm
            exact h.privateHash c' k m hm
        · simp only [Function.update_of_ne hc'] at hm
          exact h.privateHash c' k m hm
  · exact h

omit [DecidableEq κ] in
theorem Agrees.ne_null (h : Agrees s) (hholder : s.holder = some c)
    (hc : ∀ addr, s.place c ≠ .allocating addr) (k : Addr) : s.globalHash k ≠ some none := by
  intro hk
  obtain ⟨c', addr, hc', hplace, -⟩ := h.null k hk
  obtain rfl := Option.some_inj.mp (hholder.symm.trans hc')
  exact hc addr hplace

omit [DecidableEq κ] in
theorem update_of_mutex {page k : Addr} {entry : Option ℕ} {m : ℕ}
    (hnot : ∀ m, s.globalHash page ≠ some (some m)) (hk : s.globalHash k = some (some m)) :
    Function.update s.globalHash page (some entry) k = some (some m) := by
  have hne : k ≠ page := by
    rintro rfl
    exact hnot m hk
  rw [Function.update_of_ne hne, hk]

theorem Agrees.inserted (h : Agrees s) {addr : Addr} (hc : s.place c = .inserting addr)
    (hmissing : s.globalHash (getPage addr) = none) :
    Agrees { s.goTo c (.allocating addr) with
      globalHash := Function.update s.globalHash (getPage addr) (some none) } := by
  have hplace := h.place c
  rw [hc] at hplace
  have hnot (m : ℕ) : s.globalHash (getPage addr) ≠ some (some m) := by
    rw [hmissing]
    exact (Option.some_ne_none _).symm
  have hold (k : Addr) (m : ℕ)
      (hk : Function.update s.globalHash (getPage addr) (some none) k = some (some m)) :
      s.globalHash k = some (some m) := by
    by_cases heq : k = getPage addr
    · simp [heq] at hk
    · rwa [Function.update_of_ne heq] at hk
  refine ⟨h.place_of_moved (c := c) rfl ⟨hplace.1, Function.update_self .., hplace.2⟩
    (fun _ _ => rfl) fun c' hc' hholder => ?_, fun k m hk => h.allocated k m (hold k m hk),
    fun k k' m hk hk' => h.injective k k' m (hold k m hk) (hold k' m hk'), fun k hk => ?_,
    fun c' k m hm => update_of_mutex hnot (h.privateHash c' k m hm),
    fun r hr => (h.returned r hr).imp fun m hm => ⟨hm.1, update_of_mutex hnot hm.2⟩⟩
  · exact absurd (Option.some_inj.mp (hholder.symm.trans hplace.1)) hc'
  · have heq : k = getPage addr := by
      by_contra heq
      simp only [Function.update_of_ne heq] at hk
      exact h.ne_null hplace.1 (fun _ => by simp [hc]) k hk
    exact ⟨c, addr, hplace.1, Function.update_self .., heq.symm⟩

theorem Agrees.stored (h : Agrees s) {addr : Addr} (hc : s.place c = .allocating addr) :
    Agrees { s.goTo c (.leaving addr (some s.allocated)) with
      globalHash := Function.update s.globalHash (getPage addr) (some (some s.allocated))
      allocated := s.allocated + 1 } := by
  have hplace := h.place c
  rw [hc] at hplace
  have hnot (m : ℕ) : s.globalHash (getPage addr) ≠ some (some m) := by
    rw [hplace.2.1]
    exact fun hsome => Option.some_ne_none m (Option.some_inj.mp hsome).symm
  -- The new mutex differs from all others.
  have hold (k : Addr) (m : ℕ)
      (hk : Function.update s.globalHash (getPage addr) (some (some s.allocated)) k =
        some (some m)) :
      k = getPage addr ∧ m = s.allocated ∨ s.globalHash k = some (some m) ∧ m < s.allocated := by
    by_cases heq : k = getPage addr
    · rw [heq, Function.update_self, Option.some_inj, Option.some_inj] at hk
      exact .inl ⟨heq, hk.symm⟩
    · rw [Function.update_of_ne heq] at hk
      exact .inr ⟨hk, h.allocated k m hk⟩
  refine ⟨h.place_of_moved (c := c) rfl ⟨hplace.1, ⟨_, rfl⟩, Function.update_self .., hplace.2.2⟩
    (fun _ _ => rfl) fun c' hc' hholder => ?_, fun k m hk => ?_, fun k k' m hk hk' => ?_,
    fun k hk => ?_, fun c' k m hm => update_of_mutex hnot (h.privateHash c' k m hm),
    fun r hr => (h.returned r hr).imp fun m hm => ⟨hm.1, update_of_mutex hnot hm.2⟩⟩
  · exact absurd (Option.some_inj.mp (hholder.symm.trans hplace.1)) hc'
  · rcases hold k m hk with ⟨-, rfl⟩ | ⟨-, hlt⟩
    · exact Nat.lt_succ_self _
    · exact Nat.lt_succ_of_lt hlt
  · rcases hold k m hk with ⟨rfl, hm⟩ | ⟨hglobal, hlt⟩ <;>
      rcases hold k' m hk' with ⟨rfl, hm'⟩ | ⟨hglobal', hlt'⟩
    · rfl
    · omega
    · omega
    · exact h.injective k k' m hglobal hglobal'
  · have heq : k ≠ getPage addr := fun heq => by simp [heq] at hk
    dsimp only at hk
    rw [Function.update_of_ne heq] at hk
    obtain ⟨c', addr', hc', hplace', rfl⟩ := h.null k hk
    obtain rfl := Option.some_inj.mp (hplace.1.symm.trans hc')
    rw [hc, Place.allocating.injEq] at hplace'
    exact absurd (hplace' ▸ rfl) heq

theorem Agrees.left (h : Agrees s) {addr : Addr} {mutex : Option ℕ}
    (hc : s.place c = .leaving addr mutex) :
    Agrees { s.goTo c .idle with
      holder := none
      privateHash := Function.update s.privateHash c
        (Function.update (s.privateHash c) (getPage addr) (some mutex))
      returned := ⟨c, addr, mutex⟩ :: s.returned } := by
  have hplace := h.place c
  rw [hc] at hplace
  obtain ⟨hholder, ⟨m, rfl⟩, hglobal, hnull⟩ := hplace
  refine ⟨h.place_of_moved (c := c) rfl (fun k hk => ?_) (fun c' hc' => ?_)
    fun c' hc' hholder' => ?_, h.allocated, h.injective, fun k hk => ?_, fun c' k m' hm => ?_,
    fun r hr => ?_⟩
  · simp only [Function.update_self] at hk
    by_cases heq : k = getPage addr
    · simp [heq] at hk
    · rw [Function.update_of_ne heq] at hk
      exact heq (hnull k hk)
  · exact Function.update_of_ne hc' _ _
  · exact absurd (Option.some_inj.mp (hholder'.symm.trans hholder)) hc'
  · exact absurd hk (h.ne_null hholder (fun _ => by simp [hc]) k)
  · by_cases hc' : c' = c
    · subst hc'
      simp only [Function.update_self] at hm
      by_cases heq : k = getPage addr
      · rw [heq, Function.update_self, Option.some_inj] at hm
        rw [heq, ← hm]
        exact hglobal
      · rw [Function.update_of_ne heq] at hm
        exact h.privateHash c' k m' hm
    · simp only [Function.update_of_ne hc'] at hm
      exact h.privateHash c' k m' hm
  · rcases List.mem_cons.mp hr with rfl | hr
    · exact ⟨m, rfl, hglobal⟩
    · exact h.returned r hr

theorem Agrees.go (h : Agrees s) : Agrees (s.go c) := by
  have hplace := h.place c
  unfold State.go
  split
  · exact h
  · next addr hc =>
    rw [hc] at hplace
    split
    · exact h
    · next hfree =>
      refine ⟨h.place_of_moved (c := c) rfl ⟨rfl, hplace⟩ (fun _ _ => rfl) fun c' _ hc' => ?_,
        h.allocated, h.injective, fun k hk => ?_, h.privateHash, h.returned⟩
      · simp [hfree] at hc'
      · obtain ⟨c', addr', hc', -⟩ := h.null k hk
        simp [hfree] at hc'
  · next addr hc =>
    rw [hc] at hplace
    split
    · next mutex hmutex =>
      have hne := h.ne_null hplace.1 fun _ => by simp [hc]
      have hsome : ∃ m, mutex = some m :=
        Option.ne_none_iff_exists'.mp fun hnull => hne _ (hnull ▸ hmutex)
      refine ⟨h.place_of_moved (c := c) rfl ⟨hplace.1, hsome, hmutex, hplace.2⟩ (fun _ _ => rfl)
        (fun _ _ hc' => ⟨hc', rfl⟩), h.allocated, h.injective, fun k hk => absurd hk (hne k),
        h.privateHash, h.returned⟩
    · next hmissing => exact h.inserted hc hmissing
  · next addr hc => exact h.stored hc
  · next addr mutex hc => exact h.left hc

theorem agrees_run (turns : List (Turn κ)) : Agrees (run turns) := by
  have hfold : ∀ s : State κ, Agrees s → Agrees (turns.foldl State.step s) := by
    induction turns with
    | nil => exact fun _ h => h
    | cons t rest ih =>
      intro s h
      refine ih _ ?_
      cases t with
      | call c addr => exact h.call addr
      | go c => exact h.go
  exact hfold _ agrees_init

/-! ### Pages -/

/-- Calls return mutexes, and the same one exactly if the addresses have the same index. -/
theorem returned_mutex_eq_iff (turns : List (Turn κ)) {r r' : Returned κ}
    (hr : r ∈ (run turns).returned) (hr' : r' ∈ (run turns).returned) :
    r.mutex.isSome ∧ (r.mutex = r'.mutex ↔ getPage r.addr = getPage r'.addr) := by
  have h := agrees_run turns
  obtain ⟨m, hm, hglobal⟩ := h.returned r hr
  obtain ⟨m', hm', hglobal'⟩ := h.returned r' hr'
  refine ⟨by rw [hm]; rfl, ?_⟩
  rw [hm, hm', Option.some_inj]
  constructor
  · rintro rfl
    exact h.injective _ _ _ hglobal hglobal'
  · intro heq
    rw [heq, hglobal', Option.some_inj, Option.some_inj] at hglobal
    exact hglobal.symm

def SamePage (a b : Addr) : Prop := a.toNat / 4096 = b.toNat / 4096

def SameOffset (a b : Addr) : Prop := a.toNat % 4096 = b.toNat % 4096

theorem getPage_eq_iff {a b : Addr} : getPage a = getPage b ↔ SameOffset a b := by
  have hmod (a : Addr) : (getPage a).toNat = a.toNat % 4096 := by
    rw [getPage, BitVec.toNat_and]
    exact Nat.and_two_pow_sub_one_eq_mod a.toNat 12
  rw [← BitVec.toNat_inj, hmod, hmod, SameOffset]

/-- Mutexes belong to pages exactly in the runs in which addresses are in the same page if and only
if they are at the same place of their pages. -/
theorem partition_iff (turns : List (Turn κ)) :
    (∀ r ∈ (run turns).returned, ∀ r' ∈ (run turns).returned,
        (r.mutex = r'.mutex ↔ SamePage r.addr r'.addr)) ↔
      ∀ r ∈ (run turns).returned, ∀ r' ∈ (run turns).returned,
        (SameOffset r.addr r'.addr ↔ SamePage r.addr r'.addr) := by
  refine forall₂_congr fun r hr => forall₂_congr fun r' hr' => ?_
  rw [(returned_mutex_eq_iff turns hr hr').2, getPage_eq_iff]

/-- One core asks for two addresses of one page and gets two mutexes. -/
theorem one_page_two_mutexes :
    (run [.call () 0, .go (), .go (), .go (), .go (), .call () 4, .go (), .go (), .go (), .go ()] :
      State Unit).returned = [⟨(), 4, some 1⟩, ⟨(), 0, some 0⟩] ∧ SamePage 4 0 :=
  ⟨by decide +kernel, rfl⟩

end Adl.Memory.Locks
