import Adl.Math.Machine
import Mathlib.Data.Nat.Notation
import Mathlib.Logic.Function.Basic

/-!
# Direct memory interface

A model with an external memory keeps host pointers of pages it has accessed (`DmiMemHandler`,
`iss/DmiMemHandler.h`), in three direct-mapped tables. An item holds the address of its page and the
distance from simulated to host addresses; without a page, an address that is meant not to match.

An access is modelled by the route it takes; latencies are left out.
-/

namespace Adl.Memory

open Adl.Math

/-- Sizes are powers of two; pages have at least eight bytes, tables at least two items. -/
structure DmiShape where
  entrySizeBits : ℕ
  sizeBits : ℕ
  three_le_entrySizeBits : 3 ≤ entrySizeBits
  entrySizeBits_lt : entrySizeBits < 64
  one_le_sizeBits : 1 ≤ sizeBits
  sizeBits_lt : sizeBits < 64

/-- The kinds of memory accesses (`helpers/BasicTypes.h`). -/
inductive CacheAccess where
  | noAccess | iFetch | iFetchTrans | iLogRead | logRead | read | write | flush | store | touch
  | alloc | invalidate | lock | lockAddr | unlock
deriving DecidableEq

inductive DmiTable where
  | instrRead | dataRead | dataWrite
deriving DecidableEq

structure DmiItem where
  addr : BitVec 64
  mem : BitVec 64

abbrev DmiCache := ℕ → DmiItem

abbrev DmiHandler := DmiTable → DmiCache

namespace DmiShape

variable (c : DmiShape)

def pageSize : ℕ := 2 ^ c.entrySizeBits

def indexMask : BitVec 64 := BitVec.ofNat 64 (2 ^ c.sizeBits - 1)

def compMask : BitVec 64 := BitVec.allOnes 64 <<< c.entrySizeBits

def tableIndex (a : BitVec 64) : ℕ := ((a >>> c.entrySizeBits) &&& c.indexMask).toNat

def badAddr (i : ℕ) : BitVec 64 :=
  0xffffffffffffffff - BitVec.ofNat 64 i * BitVec.ofNat 64 c.pageSize

end DmiShape

variable (c : DmiShape)

def DmiCache.reset : DmiCache := fun i => ⟨c.badAddr i, 0⟩

/-! ### Calls -/

def getCache : CacheAccess → DmiTable
  | .iFetch | .iLogRead => .instrRead
  | .read | .logRead => .dataRead
  | .write | .flush | .store | .touch => .dataWrite
  | _ => .dataRead

inductive Call where
  | updateCacheEntry (ca : CacheAccess) (addr mem : BitVec 64)
  | invalidateCacheEntry (ca : CacheAccess) (addr : BitVec 64)
  | reset
deriving DecidableEq

namespace DmiHandler

def init : DmiHandler := fun _ => DmiCache.reset c

def setItem (s : DmiHandler) (t : DmiTable) (i : ℕ) (item : DmiItem) : DmiHandler :=
  Function.update s t (Function.update (s t) i item)

/-- `mem` points to the byte at `addr`; it is moved back to the start of the page. -/
def updateCacheEntry (s : DmiHandler) (ca : CacheAccess) (addr mem : BitVec 64) : DmiHandler :=
  let mem := mem - (addr &&& ~~~c.compMask)
  let page := addr &&& c.compMask
  s.setItem (getCache ca) (c.tableIndex addr) ⟨page, mem - page⟩

/-- The distance in the item stays. -/
def invalidateCacheEntry (s : DmiHandler) (ca : CacheAccess) (addr : BitVec 64) : DmiHandler :=
  let i := c.tableIndex addr
  s.setItem (getCache ca) i ⟨c.badAddr i, (s (getCache ca) i).mem⟩

def step (s : DmiHandler) : Call → Unit × DmiHandler
  | .updateCacheEntry ca addr mem => ((), s.updateCacheEntry c ca addr mem)
  | .invalidateCacheEntry ca addr => ((), s.invalidateCacheEntry c ca addr)
  | .reset => ((), init c)

end DmiHandler

/-! ### Accesses -/

/-- Where an access goes: to `n` bytes of the host, or to the memory behind the handler. -/
inductive Route where
  | direct (host : BitVec 64) (n : ℕ)
  | memory
deriving DecidableEq

namespace DmiCache

variable (cache : DmiCache)

/-- The comparison of an address with an item, in the page and in the bits of `low`. -/
def hits (i : ℕ) (a low : BitVec 64) : Bool :=
  (a ^^^ (cache i).addr) &&& (c.compMask ||| low) = 0

/-- A read of `nb` bytes. -/
def read (nb : ℕ) (ra : BitVec 64) : Route :=
  let dwRa := ra &&& ~~~7
  let off := ra &&& 7
  let i := c.tableIndex (dwRa + BitVec.ofNat 64 (nb - 1))
  let p := dwRa + (cache i).mem
  if cache.hits c i ra (BitVec.ofNat 64 (nb - 1)) then .direct (p + off) nb else .memory

/-- A write of `n` out of `nb` bytes. Other than a read, it compares the address of the double
word. -/
def write (nb : ℕ) (addr : BitVec 64) (n : ℕ) : Route :=
  let dwAddr := addr &&& ~~~7
  let off := addr &&& 7
  let i := c.tableIndex (dwAddr + BitVec.ofNat 64 (nb - 1))
  let p := dwAddr + (cache i).mem
  if cache.hits c i dwAddr (BitVec.ofNat 64 (nb - 1)) then .direct (p + off) n else .memory

/-- An access to `n` bytes in a block. -/
def page (n : ℕ) (addr : BitVec 64) : Route :=
  if n < c.pageSize then
    let i := c.tableIndex (addr + BitVec.ofNat 64 n - 1)
    let p := addr + (cache i).mem
    if cache.hits c i addr (BitVec.ofNat 64 n - 1) then .direct p n else .memory
  else .memory

end DmiCache

/-- Accesses to a handler; the values that are written play no part. -/
inductive DmiAccess where
  | read64 (ca : CacheAccess) (ra : BitVec 64)
  | read32 (ca : CacheAccess) (ra : BitVec 64)
  | read16 (ca : CacheAccess) (ra : BitVec 64)
  | read8 (ca : CacheAccess) (ra : BitVec 64)
  | write64 (ra : BitVec 64) (nb : ℕ)
  | write32 (ra : BitVec 64) (nb : ℕ)
  | write16 (ra : BitVec 64) (nb : ℕ)
  | write8 (ra : BitVec 64)
  | readpage (ca : CacheAccess) (n : ℕ) (addr : BitVec 64)
  | writepage (n : ℕ) (addr : BitVec 64)
  | fillpage (n : ℕ) (addr : BitVec 64)
deriving DecidableEq

namespace DmiAccess

/-- Word reads and block reads may be instruction fetches. -/
def readTable (ca : CacheAccess) : DmiTable :=
  if ca = .iFetch ∨ ca = .iLogRead then .instrRead else .dataRead

def table : DmiAccess → DmiTable
  | read64 _ _ | read16 _ _ | read8 _ _ => .dataRead
  | read32 ca _ | readpage ca _ _ => readTable ca
  | write64 _ _ | write32 _ _ | write16 _ _ | write8 _ | writepage _ _ | fillpage _ _ => .dataWrite

def addr : DmiAccess → BitVec 64
  | read64 _ a | read32 _ a | read16 _ a | read8 _ a | write64 a _ | write32 a _ | write16 a _
  | write8 a | readpage _ _ a | writepage _ a | fillpage _ a => a

def bytes : DmiAccess → ℕ
  | read64 _ _ => 8
  | read32 _ _ => 4
  | read16 _ _ => 2
  | read8 _ _ => 1
  | write64 _ nb | write32 _ nb | write16 _ nb => nb
  | write8 _ => 1
  | readpage _ n _ | writepage n _ | fillpage n _ => n

end DmiAccess

def DmiHandler.route (s : DmiHandler) (a : DmiAccess) : Route :=
  let cache := s a.table
  match a with
  | .read64 _ ra => cache.read c 8 ra
  | .read32 _ ra => cache.read c 4 ra
  | .read16 _ ra => cache.read c 2 ra
  | .read8 _ ra => cache.read c 1 ra
  | .write64 ra nb => cache.write c 8 ra nb
  | .write32 ra nb => cache.write c 4 ra nb
  | .write16 ra nb => cache.write c 2 ra nb
  | .write8 ra => cache.write c 1 ra 1
  | .readpage _ n addr => cache.page c n addr
  | .writepage n addr => cache.page c n addr
  | .fillpage n addr => cache.page c n addr

/-! ### Registered pages -/

/-- For each table, the host address of the simulated page with a given number. -/
abbrev Registry := DmiTable → ℕ → Option (BitVec 64)

def Registry.step (r : Registry) : Call → Unit × Registry
  | .updateCacheEntry ca addr mem =>
    ((), Function.update r (getCache ca) (Function.update (r (getCache ca))
      (addr.toNat / c.pageSize) (some (mem - BitVec.ofNat 64 (addr.toNat % c.pageSize)))))
  | .invalidateCacheEntry ca addr =>
    ((), Function.update r (getCache ca) (Function.update (r (getCache ca))
      (addr.toNat / c.pageSize) none))
  | .reset => ((), fun _ _ => none)

end Adl.Memory
