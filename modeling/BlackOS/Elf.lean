import BlackOS.Vmm

/-! The loader of `kernel/elf/elf_loader.c`. The image is read where it lies in virtual
memory, field by field as the source does. -/
namespace BlackOS.Elf
open BlackOS.Library.Ram BlackOS.Vmm

abbrev Half := BitVec 16

def blackElfMagic : Word := 0x464C457F
def blackEtExec : Half := 2
def blackEm386 : Half := 3
def blackPtLoad : Word := 1

/-- A packed 16-bit field. -/
def loadHalf (s : Machine) (a : Word) : Option Half := do
  let low ← s.load8 a
  let high ← s.load8 (a + 1)
  return high ++ low

def loadWord (s : Machine) (a : Word) : Option Word := do
  let low ← loadHalf s a
  let high ← loadHalf s (a + 2)
  return high ++ low

def blackElfValidate (s : Machine) (data : Word) : Option Int := do
  if (← loadWord s data) ≠ blackElfMagic then return -1
  if (← s.load8 (data + 4)) ≠ 1 then return -2
  if (← loadHalf s (data + 18)) ≠ blackEm386 then return -3
  if (← loadHalf s (data + 16)) ≠ blackEtExec then return -4
  return 0

/-- The loop that maps a segment's pages. The flag is false when the frames run out; the
fuel is the number of pages, and frames run out before it does. -/
def mapSegment (vaddr memsz flags : Word) : Nat → Word → Machine → Option (Machine × Bool)
  | 0,_,_ => none
  | fuel+1,off,s =>
    if off < memsz then
      let (pmm,phys) := Pmm.blackPmmAllocFrame s.pmm
      let s := {s with pmm := pmm}
      if phys = 0 then some (s,false) else do
      let s ← blackVmmMapPage s (vaddr + off) phys flags
      mapSegment vaddr memsz flags fuel (off + pageSize) s
    else some (s,true)

def copyFile (s : Machine) (vaddr src filesz : Word) : Option Machine :=
  if 0 < filesz then memcpy s vaddr src filesz else some s

def zeroRest (s : Machine) (vaddr filesz memsz : Word) : Option Machine :=
  if filesz < memsz then memset s (vaddr + filesz) 0 (memsz - filesz) else some s

/-- One round of the loader's loop, for the program header at an address. -/
def loadSegment (s : Machine) (data phdr : Word) : Option (Machine × Bool) := do
  if (← loadWord s phdr) ≠ blackPtLoad then return (s,true)
  let vaddr ← loadWord s (phdr + 8)
  let memsz ← loadWord s (phdr + 20)
  let filesz ← loadWord s (phdr + 16)
  let offset ← loadWord s (phdr + 4)
  let flags := pagePresent ||| pageUser
  let flags := if (← loadWord s (phdr + 24)) &&& 0x02 ≠ 0 then flags ||| pageWrite else flags
  let (s,mapped) ← mapSegment vaddr memsz flags (2^20 + 1) 0 s
  if !mapped then return (s,false)
  let s ← copyFile s vaddr (data + offset) filesz
  let s ← zeroRest s vaddr filesz memsz
  return (s,true)

/-- The loop over the program headers; `black_phnum` is read anew in each round. -/
def loadSegments (data phdrs : Word) : Nat → Nat → Machine → Option (Machine × Bool)
  | 0,_,_ => none
  | fuel+1,i,s => do
    let phnum ← loadHalf s (data + 44)
    if i < phnum.toNat then
      let (s,loaded) ← loadSegment s data (phdrs + word (32 * i))
      if loaded then loadSegments data phdrs fuel (i+1) s else return (s,false)
    else return (s,true)

def blackElfLoad (s : Machine) (data _size : Word) : Option (Machine × Word) := do
  if (← blackElfValidate s data) ≠ 0 then return (s,0)
  let phoff ← loadWord s (data + 28)
  let (s,loaded) ← loadSegments data (data + phoff) (2^16) 0 s
  if loaded then
    let entry ← loadWord s (data + 24)
    return (s,entry)
  else return (s,0)

end BlackOS.Elf
