import Adl.Math.Bytes
import Adl.Math.Machine
import Adl.Math.Radix

/-!
# Sparse memory

The memory of a model is an m-ary tree whose leaves are pages (`SparseMemory`, `iss/Memory.h`),
allocated when they are first accessed. Without `THREAD_SAFE_MEMORY`, pages found are kept in a
cache of 4096 items.

Addresses are only shifted and masked, so they are natural numbers here. Pages are named by the
order in which they were allocated. Values are accessed in the address-invariant byte order.
-/

namespace Adl.Memory

open Adl.Math Adl.Math.Radix

/-! ### Accesses

Instructions access memory in units of two, four and eight bytes.
-/

abbrev Addr := BitVec 64

abbrev Mem := Addr → BitVec 8

/-- A value of `n` bytes. -/
abbrev Value (n : ℕ) := BitVec (8 * n)

def dwMask : Addr := 7

def wordMask : Addr := 3

def hwMask : Addr := 1

/-! ### The tree -/

/-- The bit width of addresses, and the number of levels beyond the two that every tree has. -/
structure Layout where
  bitWidth : ℕ
  extraLevels : ℕ

namespace Layout

def levels (c : Layout) : ℕ := c.extraLevels + 2

def bits (c : Layout) : ℕ := c.bitWidth / c.levels

def pageBits (c : Layout) : ℕ := c.bits + c.bitWidth % c.levels

def pageSize (c : Layout) : ℕ := 2 ^ c.pageBits

def shift (c : Layout) (level : ℕ) : ℕ := c.bits * (level - 1) + c.pageBits

/-- The index of an address in a node. -/
def index (c : Layout) (level addr : ℕ) : ℕ := (addr >>> c.shift level) &&& (2 ^ c.bits - 1)

def pageOffset (c : Layout) (addr : ℕ) : ℕ := addr &&& (c.pageSize - 1)

/-- The address without the offset, `addr & ~PageMask`. -/
def pageAddr (c : Layout) (addr : ℕ) : ℕ := addr >>> c.pageBits <<< c.pageBits

/-- The indices of an address, from the lowest level of inner nodes. -/
def key (c : Layout) (addr : ℕ) (l : ℕ) : ℕ := c.index (l + 1) addr

def cacheIndex (c : Layout) (addr : ℕ) : ℕ := (addr >>> c.shift (c.levels - 1)) &&& 4095

end Layout

/-- The pages allocated so far. -/
structure Heap where
  pages : ℕ → ℕ → BitVec 8
  next : ℕ

/-- A new page is filled with zeros. -/
def Heap.newPage (h : Heap) : ℕ × Heap :=
  (h.next, ⟨Function.update h.pages h.next fun _ => 0, h.next + 1⟩)

structure CacheItem where
  addr : ℕ
  page : Option ℕ

namespace CacheItem

/-- No page, and an address that is no page address. -/
def reset : CacheItem := ⟨1, none⟩

def match? (c : Layout) (item : CacheItem) (addr : ℕ) : Option ℕ :=
  if c.pageAddr addr = item.addr then item.page else none

def update (c : Layout) (addr page : ℕ) : CacheItem := ⟨c.pageAddr addr, some page⟩

end CacheItem

structure SparseMemory (c : Layout) where
  root : Node ℕ (c.extraLevels + 1)
  heap : Heap
  cache : ℕ → CacheItem

namespace SparseMemory

variable {c : Layout}

/-- Walk the tree to the page of an address, and allocate what is missing. -/
def walk (s : SparseMemory c) (addr : ℕ) : ℕ × SparseMemory c :=
  let (page, root, heap) := s.root.fetch Heap.newPage (c.key addr) s.heap
  (page, { s with root, heap })

def getPage (threadSafe : Bool) (s : SparseMemory c) (addr : ℕ) : ℕ × SparseMemory c :=
  if threadSafe then s.walk addr
  else
    let cix := c.cacheIndex addr
    match (s.cache cix).match? c addr with
    | some page => (page, s)
    | none =>
      let (page, s) := s.walk addr
      (page, { s with cache := Function.update s.cache cix (.update c addr page) })

def resetCache (threadSafe : Bool) (s : SparseMemory c) : SparseMemory c :=
  if threadSafe then s
  else
    -- the page of address 0 is set up again
    (getPage false { s with cache := fun _ => .reset } 0).2

def init (threadSafe : Bool) : SparseMemory c :=
  resetCache threadSafe ⟨.empty, ⟨fun _ _ => 0, 0⟩, fun _ => .reset⟩

def reset (threadSafe : Bool) (s : SparseMemory c) : SparseMemory c :=
  resetCache threadSafe { s with root := .empty }

/-! ### Accesses -/

/-- The bytes of a page from an offset on. -/
def pageByte (s : SparseMemory c) (page offset i : ℕ) : BitVec 8 :=
  s.heap.pages page (offset + i)

/-- Write `n` bytes to a page. -/
def writeBytes (s : SparseMemory c) (page offset : ℕ) (v : ℕ → BitVec 8) (n : ℕ) :
    SparseMemory c :=
  let data := store (s.heap.pages page) (fun i => offset + i) v n
  { s with heap := ⟨Function.update s.heap.pages page data, s.heap.next⟩ }

end SparseMemory

inductive Op where
  | read64 (addr : ℕ)
  | read32 (addr : ℕ)
  | read16 (addr : ℕ)
  | read8 (addr : ℕ)
  | readpage (n addr : ℕ)
  | write64 (addr : ℕ) (v : BitVec (8 * 8)) (nb : ℕ)
  | write32 (addr : ℕ) (v : BitVec (8 * 4)) (nb : ℕ)
  | write16 (addr : ℕ) (v : BitVec (8 * 2)) (nb : ℕ)
  | write8 (addr : ℕ) (v : BitVec (8 * 1))
  | writepage (data : List (BitVec 8)) (addr : ℕ)
  | fillpage (b : BitVec 8) (n addr : ℕ)
  | reset

inductive Result where
  | done
  | value (n : ℕ) (v : BitVec (8 * n))
  | bytes (data : List (BitVec 8))

/-- What an access does, apart from how its bytes are found: it reads some bytes and makes a
result of them, or writes some, or resets the memory. -/
inductive Access where
  | read (addr n : ℕ) (result : (ℕ → BitVec 8) → Result)
  | write (addr n : ℕ) (v : ℕ → BitVec 8)
  | reset

namespace Op

def access : Op → Access
  | read64 addr => .read addr 8 fun b => .value 8 (concat 8 b)
  | read32 addr => .read addr 4 fun b => .value 4 (concat 4 b)
  | read16 addr => .read addr 2 fun b => .value 2 (concat 2 b)
  | read8 addr => .read addr 1 fun b => .value 1 (concat 1 b)
  | readpage n addr => .read addr n fun b => .bytes ((List.range n).map b)
  | write64 addr v nb => .write addr nb (byte 8 v)
  | write32 addr v nb => .write addr nb (byte 4 v)
  | write16 addr v nb => .write addr nb (byte 2 v)
  | write8 addr v => .write addr 1 (byte 1 v)
  | writepage data addr => .write addr data.length fun i => data.getD i 0
  | fillpage b n addr => .write addr n fun _ => b
  | reset => .reset

end Op

namespace SparseMemory

variable {c : Layout}

def step (threadSafe : Bool) (s : SparseMemory c) (op : Op) : Result × SparseMemory c :=
  match op.access with
  | .read addr _ result =>
    let (page, s) := s.getPage threadSafe addr
    (result (s.pageByte page (c.pageOffset addr)), s)
  | .write addr n v =>
    let (page, s) := s.getPage threadSafe addr
    (.done, s.writeBytes page (c.pageOffset addr) v n)
  | .reset => (.done, s.reset threadSafe)

end SparseMemory

/-! ### The abstract memory -/

/-- A map of all bytes, by the address modulo `2 ^ bitWidth`. -/
abbrev Flat := ℕ → BitVec 8

def Flat.step (bitWidth : ℕ) (f : Flat) (op : Op) : Result × Flat :=
  match op.access with
  | .read addr _ result => (result fun i => f ((addr + i) % 2 ^ bitWidth), f)
  | .write addr n v => (.done, store f (fun i => (addr + i) % 2 ^ bitWidth) v n)
  | .reset => (.done, fun _ => 0)

end Adl.Memory
