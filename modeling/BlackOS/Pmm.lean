import BlackOS.Heap
import BlackOS.Library.Bitmap

/-! The physical frame allocator of `kernel/mm/pmm.c`: one bit a frame, set while
the frame is taken. The memory map is read from byte memory as the boot loader
left it. A result of `none` is a loop that never ends; the fuel is the number of
values its variable can take, and nothing else decides whether it goes on. -/
namespace BlackOS.Pmm
open BlackOS.Library.Ram BlackOS.Library.Bitmap
open BlackOS.Heap (blackAlign)

def maxFrames : Nat := 256 * 1024
def bitmapSize : Nat := maxFrames / 32
def kernelVma : Word := 0xC0000000
def blackPageSize : Word := 4096
def mmapAvailable : Word := 1
def notFound : Word := 0xFFFFFFFF

/-- The globals; `bitmap` is indexed by word. -/
structure State where
  bitmap : Bits 32
  totalFrames : Word
  usedFrames : Word
  totalMemory : Word

def unset : State := ⟨fun _ => 0,0,0,0⟩

def blackPmmSetFrame (b : Bits 32) (frame : Word) : Bits 32 := set b frame.toNat

def blackPmmClearFrame (b : Bits 32) (frame : Word) : Bits 32 := clear b frame.toNat

def blackPmmTestFrame (b : Bits 32) (frame : Word) : Bool :=
  b (frame.toNat / 32) &&& 1#32 <<< (frame.toNat % 32) ≠ 0

/-- The inner loop of `black_pmm_find_free`: the first clear bit of a word, from
bit `j` on. -/
def findBit (x : Word) : Nat → Nat → Option Nat
  | 0,_ => none
  | left+1,j => if x &&& 1#32 <<< j = 0 then some j else findBit x left (j+1)

def findWord (b : Bits 32) : Nat → Nat → Word
  | 0,_ => notFound
  | left+1,i =>
    if b i ≠ 0xFFFFFFFF then
      match findBit (b i) 32 0 with
      | some j => word (i * 32 + j)
      | none => findWord b left (i+1)
    else findWord b left (i+1)

def blackPmmFindFree (s : State) : Word := findWord s.bitmap bitmapSize 0

def findRun (b : Bits 32) (count : Word) : Nat → Word → Word → Word → Word
  | 0,_,_,_ => notFound
  | left+1,i,start,found =>
    if !blackPmmTestFrame b i then
      let start := if found = 0 then i else start
      let found := found + 1
      if count ≤ found then start else findRun b count left (i+1) start found
    else findRun b count left (i+1) start 0

def blackPmmFindFreeContiguous (s : State) (count : Word) : Word :=
  findRun s.bitmap count s.totalFrames.toNat 0 0 0

/-- The fields of `black_multiboot_info_t` that the allocator reads. -/
structure MultibootInfo where
  flags : Word
  memUpper : Word
  mmapLength : Word
  mmapAddr : Word

/-- `black_mmap_entry_t`, packed. -/
structure MmapEntry where
  size : Word
  addr : BitVec 64
  len : BitVec 64
  type : Word
  deriving DecidableEq,Repr

def read64 (m : Memory) (a : Word) : BitVec 64 := read32 m (a+4) ++ read32 m a

def mmapEntry (m : Memory) (a : Word) : MmapEntry :=
  ⟨read32 m a,read64 m (a+4),read64 m (a+12),read32 m (a+20)⟩

def frameOf (addr : BitVec 64) : Word := (addr / 4096).truncate 32

/-- The loop over the pages of an available region. -/
def clearPages (limit : BitVec 64) : Nat → BitVec 64 → Bits 32 → Option (Bits 32)
  | 0,_,_ => none
  | fuel+1,addr,b =>
    if addr < limit then
      let frame := frameOf addr
      clearPages limit fuel (addr + 4096)
        (if 0 < frame.toNat ∧ frame.toNat < maxFrames then blackPmmClearFrame b frame else b)
    else some b

def addEntry (e : MmapEntry) (s : State) : Option State :=
  if e.type = mmapAvailable then do
    let bitmap ← clearPages (e.addr + e.len) (2^52 + 1) e.addr s.bitmap
    return {s with bitmap := bitmap,totalMemory := s.totalMemory + e.len.truncate 32}
  else some s

def readMap (m : Memory) (mmapEnd : Word) : Nat → Word → State → Option State
  | 0,_,_ => none
  | fuel+1,addr,s =>
    if addr < mmapEnd then do
      let s ← addEntry (mmapEntry m addr) s
      readMap m mmapEnd fuel (addr + ((mmapEntry m addr).size + 4)) s
    else some s

/-- The loop that takes the frames below the aligned end of the kernel image. -/
def setKernel (kernelEnd : Word) (b : Bits 32) : Bits 32 :=
  (List.range ((kernelEnd.toNat + 4095) / 4096)).foldl
    (fun b i => blackPmmSetFrame b (word (4096 * i) / blackPageSize)) b

/-- The count of set bits over the whole words below `total`. -/
def countUsed (b : Bits 32) (total : Word) : Word :=
  (List.range (total.toNat / 32)).foldl (fun used i =>
    (List.range 32).foldl (fun used j => if b i &&& 1#32 <<< j ≠ 0 then used + 1 else used) used) 0

def clearUpper (limit : Word) : Nat → Word → Bits 32 → Option (Bits 32)
  | 0,_,_ => none
  | fuel+1,addr,b =>
    if addr < limit then
      let frame := addr / blackPageSize
      clearUpper limit fuel (addr + blackPageSize)
        (if frame.toNat < maxFrames then blackPmmClearFrame b frame else b)
    else some b

/-- `black_pmm_init`; `kernelEndPhys` is the address of the linker's symbol. -/
def blackPmmInit (m : Memory) (mboot : MultibootInfo) (kernelEndPhys : Word) (s : State) : Option State :=
  let kernelEnd := blackAlign kernelEndPhys blackPageSize
  let s := {s with bitmap := fun _ => 0xFFFFFFFF}
  if mboot.flags &&& 0x40 = 0 then do
    let totalMemory := (mboot.memUpper + 1024) * 1024
    let bitmap ← clearUpper totalMemory (2^20 + 1) kernelEnd s.bitmap
    return ⟨bitmap,totalMemory / blackPageSize,kernelEnd / blackPageSize,totalMemory⟩
  else do
    let mmapAddr := mboot.mmapAddr + kernelVma
    let s ← readMap m (mmapAddr + mboot.mmapLength) (2^32 + 1) mmapAddr s
    let bitmap := setKernel kernelEnd s.bitmap
    let total := s.totalMemory / blackPageSize
    let total := if maxFrames < total.toNat then word maxFrames else total
    return ⟨bitmap,total,countUsed bitmap total,s.totalMemory⟩

def blackPmmAllocFrame (s : State) : State × Word :=
  let frame := blackPmmFindFree s
  if frame = notFound then (s,0) else
  ({s with bitmap := blackPmmSetFrame s.bitmap frame,usedFrames := s.usedFrames + 1},frame * blackPageSize)

def blackPmmFreeFrame (s : State) (addr : Word) : State :=
  let frame := addr / blackPageSize
  if maxFrames ≤ frame.toNat then s else
  if blackPmmTestFrame s.bitmap frame then
    {s with bitmap := blackPmmClearFrame s.bitmap frame,usedFrames := s.usedFrames - 1}
  else s

def blackPmmAllocFrames (s : State) (count : Word) : State × Word :=
  let start := blackPmmFindFreeContiguous s count
  if start = notFound then (s,0) else
  ((List.range count.toNat).foldl (fun s i =>
    {s with bitmap := blackPmmSetFrame s.bitmap (start + word i),usedFrames := s.usedFrames + 1}) s,
    start * blackPageSize)

def blackPmmFreeFrames (s : State) (addr count : Word) : State :=
  let frame := addr / blackPageSize
  (List.range count.toNat).foldl (fun s i =>
    if (frame + word i).toNat < maxFrames then
      {s with bitmap := blackPmmClearFrame s.bitmap (frame + word i),usedFrames := s.usedFrames - 1}
    else s) s

def blackPmmGetFreeMemory (s : State) : Word := (s.totalFrames - s.usedFrames) * blackPageSize

end BlackOS.Pmm
