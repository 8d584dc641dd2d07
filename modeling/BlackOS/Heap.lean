import BlackOS.LibcString

/-! The kernel heap of `kernel/mm/heap.c`. Block headers are five little-endian
words in the same byte memory as the payloads, and every field access of the
source is a load or store there. A result of `none` is a call that never
returns: each list walk carries as fuel the number of 32-bit addresses, after
which a walk over unchanged memory can only repeat itself. -/
namespace BlackOS.Heap
open BlackOS.Library.Ram BlackOS.LibcString

def blackHeapMagic : Word := 0xB1AC4E4D
def blackHeapDead : Word := 0xDEADB10C
def blackHeapMinBlock : Word := 32
def blackPageSize : Word := 4096

/-- `BLACK_ALIGN` of `kernel/kernel.h`. -/
def blackAlign (x a : Word) : Word := (x + (a - 1)) &&& ~~~(a - 1)

/-- `black_heap_block_t`, with `black_free` as the word the C `int` holds. -/
@[ext]
structure Header where
  magic : Word
  size : Word
  free : Word
  next : Word
  prev : Word
  deriving DecidableEq,Repr

def headerSize : Word := 20

def header (m : Memory) (b : Word) : Header :=
  ⟨read32 m b,read32 m (b+4),read32 m (b+8),read32 m (b+12),read32 m (b+16)⟩

def setMagic (m : Memory) (b v : Word) : Memory := write32 m b v
def setSize (m : Memory) (b v : Word) : Memory := write32 m (b+4) v
def setFree (m : Memory) (b v : Word) : Memory := write32 m (b+8) v
def setNext (m : Memory) (b v : Word) : Memory := write32 m (b+12) v
def setPrev (m : Memory) (b v : Word) : Memory := write32 m (b+16) v

structure State where
  mem : Memory
  head : Word
  heapStart : Word
  heapEnd : Word
  heapMax : Word

def addressCount : Nat := 2^32

/-- The mapping loop of `black_heap_init`. `mapPage` is its body, a frame
allocation and a page mapping, seen as its effect on what memory reads. The
loop variable returns to its start after `2^20` pages. -/
def mapPages (mapPage : Memory → Word → Memory) (heapEnd : Word) : Nat → Memory → Word → Option Memory
  | 0,_,_ => none
  | fuel+1,m,addr =>
    if addr < heapEnd then mapPages mapPage heapEnd fuel (mapPage m addr) (addr + blackPageSize)
    else some m

def blackHeapInit (mapPage : Memory → Word → Memory) (m : Memory) (start size : Word) : Option State := do
  let heapEnd := start + size
  let m ← mapPages mapPage heapEnd (2^20 + 1) m start
  let m := setMagic m start blackHeapMagic
  let m := setSize m start (size - headerSize)
  let m := setFree m start 1
  let m := setNext m start 0
  let m := setPrev m start 0
  return ⟨m,start,start,heapEnd,heapEnd⟩

def blackHeapSplit (m : Memory) (block size : Word) : Memory :=
  if (header m block).size ≤ size + headerSize + blackHeapMinBlock then m else
  let new := block + headerSize + size
  let m := setMagic m new blackHeapMagic
  let m := setSize m new ((header m block).size - size - headerSize)
  let m := setFree m new 1
  let m := setNext m new (header m block).next
  let m := setPrev m new block
  let m := if (header m block).next ≠ 0 then setPrev m (header m block).next new else m
  let m := setNext m block new
  setSize m block size

def blackHeapMerge (m : Memory) (block : Word) : Memory :=
  let next := (header m block).next
  if next ≠ 0 ∧ (header m next).free ≠ 0 ∧ (header m next).magic = blackHeapMagic then
    let m := setSize m block ((header m block).size + (headerSize + (header m next).size))
    let m := setMagic m (header m block).next blackHeapDead
    let m := setNext m block (header m (header m block).next).next
    if (header m block).next ≠ 0 then setPrev m (header m block).next block else m
  else m

/-- The search loop of `black_heap_alloc`: the smallest free block that is large
enough, the first of equals, stopping at an exact fit. -/
def findBest (m : Memory) (size : Word) : Nat → Word → Word → Option Word
  | 0,_,_ => none
  | fuel+1,best,cur =>
    if cur = 0 then some best else
    if (header m cur).magic ≠ blackHeapMagic then some best else
    if (header m cur).free ≠ 0 ∧ size ≤ (header m cur).size then
      let best := if best = 0 ∨ (header m cur).size < (header m best).size then cur else best
      if (header m cur).size = size then some best
      else findBest m size fuel best (header m cur).next
    else findBest m size fuel best (header m cur).next

def blackHeapAlloc (h : State) (size : Word) : Option (State × Word) :=
  if size = 0 then some (h,0) else do
  let size := blackAlign size 16
  let best ← findBest h.mem size addressCount 0 h.head
  if best = 0 then return (h,0)
  let m := blackHeapSplit h.mem best size
  let m := setFree m best 0
  return ({h with mem := m},best + headerSize)

def blackHeapFree (h : State) (ptr : Word) : State :=
  if ptr = 0 then h else
  let block := ptr - headerSize
  if (header h.mem block).magic ≠ blackHeapMagic then h else
  let m := setFree h.mem block 1
  let m := memset m ptr 0xCC (header m block).size
  let block :=
    if (header m block).prev ≠ 0 ∧ (header m (header m block).prev).free ≠ 0 then (header m block).prev
    else block
  let m := blackHeapMerge m block
  let m := if (header m block).next ≠ 0 then blackHeapMerge m block else m
  {h with mem := m}

def blackHeapCalloc (h : State) (count size : Word) : Option (State × Word) := do
  let total := count * size
  let (h,ptr) ← blackHeapAlloc h total
  if ptr ≠ 0 then return ({h with mem := memset h.mem ptr 0 total},ptr)
  return (h,ptr)

def blackHeapRealloc (h : State) (ptr size : Word) : Option (State × Word) :=
  if ptr = 0 then blackHeapAlloc h size else
  if size = 0 then some (blackHeapFree h ptr,0) else
  let block := ptr - headerSize
  if size ≤ (header h.mem block).size then some (h,ptr) else do
  let (h,new) ← blackHeapAlloc h size
  if new = 0 then return (h,0)
  let m := memcpy h.mem new ptr (header h.mem block).size
  return (blackHeapFree {h with mem := m} ptr,new)

/-- The walk shared by the two statistics: add a weight for each block until the
list ends or a header is not a live one. -/
def sumBlocks (weight : Header → Word) (m : Memory) : Nat → Word → Word → Option Word
  | 0,_,_ => none
  | fuel+1,cur,total =>
    if cur ≠ 0 ∧ (header m cur).magic = blackHeapMagic then
      sumBlocks weight m fuel (header m cur).next (total + weight (header m cur))
    else some total

def blackHeapGetUsed (h : State) : Option Word :=
  sumBlocks (fun b => if b.free = 0 then b.size + headerSize else 0) h.mem addressCount h.head 0

def blackHeapGetFree (h : State) : Option Word :=
  sumBlocks (fun b => if b.free ≠ 0 then b.size else 0) h.mem addressCount h.head 0

/-- The blocks visited from `black_heap_head` by following `black_next`. -/
def blockChain (m : Memory) : Nat → Word → Option (List Word)
  | 0,_ => none
  | fuel+1,cur =>
    if cur = 0 then some [] else (blockChain m fuel (header m cur).next).map (cur :: ·)

def blockList (h : State) : Option (List Word) := blockChain h.mem addressCount h.head

end BlackOS.Heap
