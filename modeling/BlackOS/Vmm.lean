import BlackOS.Pmm
import BlackOS.Library.Paging

/-! The page tables of `kernel/mm/vmm.c`. The kernel reaches its page tables, as all
memory, through virtual addresses; a page fault is `none`. Supervisor writes do not
look at the write bit, since `CR0.WP` is never set, and every change of a mapping is
followed by `invlpg`, so that translation is by the tables alone. -/
namespace BlackOS.Vmm
open BlackOS.Library.Ram BlackOS.Library.Paging

def pageSize : Word := 4096
def pagePresent : Word := 0x001
def pageWrite : Word := 0x002
def pageUser : Word := 0x004
def pageCow : Word := 0x200

/-- Physical memory, the page directory's address and the frame allocator. -/
structure Machine where
  mem : Memory
  cr3 : Word
  pmm : Pmm.State

def Machine.dir (s : Machine) : Nat := frame s.cr3

def Machine.load8 (s : Machine) (a : Word) : Option Byte := (translate s.mem s.dir a).map s.mem

def Machine.store8 (s : Machine) (a : Word) (x : Byte) : Option Machine :=
  (translate s.mem s.dir a).map fun p => {s with mem := write8 s.mem p x}

/-- An aligned word. -/
def Machine.load32 (s : Machine) (a : Word) : Option Word :=
  (translate s.mem s.dir a).map (read32 s.mem)

def Machine.store32 (s : Machine) (a x : Word) : Option Machine :=
  (translate s.mem s.dir a).map fun p => {s with mem := write32 s.mem p x}

/-- The loop of `memset` on virtual memory. -/
def memsetLoop (value : Byte) : Nat → Machine → Word → Option Machine
  | 0,s,_ => some s
  | n+1,s,d => do
    let s ← s.store8 d value
    memsetLoop value n s (d+1)

def memset (s : Machine) (dst val n : Word) : Option Machine :=
  memsetLoop (val.setWidth 8) n.toNat s dst

def memcpyLoop : Nat → Machine → Word → Word → Option Machine
  | 0,s,_,_ => some s
  | n+1,s,d,src => do
    let x ← s.load8 src
    let s ← s.store8 d x
    memcpyLoop n s (d+1) (src+1)

def memcpy (s : Machine) (dst src n : Word) : Option Machine := memcpyLoop n.toNat s dst src

def blackGetPd : Word := 0xFFFFF000

def blackGetPt (idx : Word) : Word := 0xFFC00000 + idx * pageSize

/-- The first half of `black_vmm_map_page`: a page table for the directory entry. The
flag is false when there is no frame for it. -/
def ensureTable (s : Machine) (pdIdx flags : Word) : Option (Machine × Bool) := do
  let pde ← s.load32 (blackGetPd + pdIdx * 4)
  if pde &&& pagePresent = 0 then
    let (pmm,ptPhys) := Pmm.blackPmmAllocFrame s.pmm
    let s := {s with pmm := pmm}
    if ptPhys = 0 then return (s,false)
    let s ← s.store32 (blackGetPd + pdIdx * 4)
      (ptPhys ||| pagePresent ||| pageWrite ||| (flags &&& pageUser))
    let s ← memset s (blackGetPt pdIdx) 0 pageSize
    return (s,true)
  else if flags &&& pageUser ≠ 0 then
    let s ← s.store32 (blackGetPd + pdIdx * 4) (pde ||| pageUser)
    return (s,true)
  else return (s,true)

def blackVmmMapPage (s : Machine) (virt phys flags : Word) : Option Machine := do
  let pdIdx := (virt >>> 22) &&& 0x3FF
  let ptIdx := (virt >>> 12) &&& 0x3FF
  let (s,ready) ← ensureTable s pdIdx flags
  if ready then
    s.store32 (blackGetPt pdIdx + ptIdx * 4)
      ((phys &&& 0xFFFFF000) ||| (flags &&& 0xFFF) ||| pagePresent)
  else return s

def blackVmmUnmapPage (s : Machine) (virt : Word) : Option Machine := do
  let pdIdx := (virt >>> 22) &&& 0x3FF
  let ptIdx := (virt >>> 12) &&& 0x3FF
  let pde ← s.load32 (blackGetPd + pdIdx * 4)
  if pde &&& pagePresent = 0 then return s
  s.store32 (blackGetPt pdIdx + ptIdx * 4) 0

def blackVmmGetPhysical (s : Machine) (virt : Word) : Option Word := do
  let pdIdx := (virt >>> 22) &&& 0x3FF
  let ptIdx := (virt >>> 12) &&& 0x3FF
  let pde ← s.load32 (blackGetPd + pdIdx * 4)
  if pde &&& pagePresent = 0 then return 0
  let pte ← s.load32 (blackGetPt pdIdx + ptIdx * 4)
  if pte &&& pagePresent = 0 then return 0
  return (pte &&& 0xFFFFF000) ||| (virt &&& 0xFFF)

def blackVmmIsMapped (s : Machine) (virt : Word) : Option Int := do
  let pdIdx := (virt >>> 22) &&& 0x3FF
  let ptIdx := (virt >>> 12) &&& 0x3FF
  let pde ← s.load32 (blackGetPd + pdIdx * 4)
  if pde &&& pagePresent = 0 then return 0
  let pte ← s.load32 (blackGetPt pdIdx + ptIdx * 4)
  return if pte &&& pagePresent ≠ 0 then 1 else 0

/-- The machine with `black_cow_refcount`, by frame number. -/
structure Vm where
  machine : Machine
  refcount : Nat → Word

/-- An element of `black_cow_refcount`. Past the 256 * 1024 elements of the array lies other memory, so that an
access there has no result. -/
def Vm.count (s : Vm) (i : Nat) : Option Word := if i < 256 * 1024 then some (s.refcount i) else none

/-- `black_vmm_init`, given the address of `black_boot_page_directory`. -/
def blackVmmInit (s : Vm) (bootPageDirectory : Word) : Option Vm := do
  let pd := bootPageDirectory + Pmm.kernelVma
  let machine ← s.machine.store32 (pd + 1023 * 4) (bootPageDirectory ||| pagePresent ||| pageWrite)
  return ⟨machine,fun i => if i < 256 * 1024 then 0 else s.refcount i⟩

def blackVmmHandlePageFault (s : Vm) (addr err : Word) : Option (Vm × Int) := do
  let pdIdx := (addr >>> 22) &&& 0x3FF
  let ptIdx := (addr >>> 12) &&& 0x3FF
  let pde ← s.machine.load32 (blackGetPd + pdIdx * 4)
  if pde &&& pagePresent = 0 then return (s,-1)
  let entry ← s.machine.load32 (blackGetPt pdIdx + ptIdx * 4)
  if entry &&& pageCow ≠ 0 ∧ err &&& 0x02 ≠ 0 then
    let oldPhys := entry &&& 0xFFFFF000
    let frameIdx := (oldPhys / pageSize).toNat
    let count ← s.count frameIdx
    if count ≤ 1 then
      let machine ← s.machine.store32 (blackGetPt pdIdx + ptIdx * 4)
        ((oldPhys ||| pagePresent ||| pageWrite ||| pageUser) &&& ~~~pageCow)
      return ({s with machine := machine},0)
    let (pmm,newPhys) := Pmm.blackPmmAllocFrame s.machine.pmm
    let machine := {s.machine with pmm := pmm}
    if newPhys = 0 then return ({s with machine := machine},-1)
    let tmpVirt := 0xFFFFF000 - pageSize
    let machine ← blackVmmMapPage machine tmpVirt newPhys (pagePresent ||| pageWrite)
    let machine ← memcpy machine tmpVirt (addr &&& 0xFFFFF000) pageSize
    let machine ← blackVmmUnmapPage machine tmpVirt
    let refcount := Function.update s.refcount frameIdx (count - 1)
    let refcount := Function.update refcount (newPhys / pageSize).toNat 1
    let machine ← machine.store32 (blackGetPt pdIdx + ptIdx * 4)
      (newPhys ||| pagePresent ||| pageWrite ||| pageUser)
    return (⟨machine,refcount⟩,0)
  else return (s,-1)

end BlackOS.Vmm
