import BlackOS.Vfs
import BlackOS.LibcString

/-! The calls of `kernel/fs/vfs.c` that go to the functions of a node, and the devices of
`kernel/fs/devfs.c` as nodes with such functions. -/
namespace BlackOS.Vfs
open BlackOS.Library.Ram BlackOS.LibcText BlackOS.LibcString

/-- What the function of a node leaves, and the `int` that it returns. -/
structure Outcome (FS : Type) where
  fs : FS
  mem : Memory
  value : Word

/-- The functions that the nodes carry; a node may lack any of them. They reach the files and
the memory of the caller, and none of them the process table. -/
structure Drivers (FS Node : Type) where
  readFn : FS → Node → Option (Memory → Word → Word → Word → Outcome FS)
  writeFn : FS → Node → Option (Memory → Word → Word → Word → Outcome FS)
  openFn : FS → Node → Option (Memory → Word → Outcome FS)
  closeFn : FS → Node → Option (Memory → Outcome FS)
  finddirFn : FS → Node → List Byte → Option Node

section Calls
variable {FS Node : Type} (d : Drivers FS Node) (fs : FS) (mem : Memory) (n : Option Node)

def blackVfsRead (off sz buf : Word) : Outcome FS :=
  match n.bind (d.readFn fs) with
  | some read => read mem off sz buf
  | none => ⟨fs,mem,-1⟩

def blackVfsWrite (off sz buf : Word) : Outcome FS :=
  match n.bind (d.writeFn fs) with
  | some write => write mem off sz buf
  | none => ⟨fs,mem,-1⟩

def blackVfsOpen (flags : Word) : Outcome FS :=
  match n.bind (d.openFn fs) with
  | some opens => opens mem flags
  | none => ⟨fs,mem,0⟩

def blackVfsClose : Outcome FS :=
  match n.bind (d.closeFn fs) with
  | some close => close mem
  | none => ⟨fs,mem,0⟩

end Calls

section Devices

inductive Device
  | root
  | null
  | zero
  | random
  | urandom
  deriving DecidableEq

/-- The low word of what `black_rdtsc` reads next: the only state of a device. -/
abbrev Clock := Word

def blackDevfsNullRead (clock : Clock) (mem : Memory) (_off sz buf : Word) : Outcome Clock :=
  ⟨clock,memset mem buf 0 sz,0⟩

def blackDevfsNullWrite (clock : Clock) (mem : Memory) (_off sz _buf : Word) : Outcome Clock :=
  ⟨clock,mem,sz⟩

def blackDevfsZeroRead (clock : Clock) (mem : Memory) (_off sz buf : Word) : Outcome Clock :=
  ⟨clock,memset mem buf 0 sz,sz⟩

def randomLoop : Nat → Word → Memory → Word → Memory
  | 0,_,mem,_ => mem
  | n+1,seed,mem,buf =>
    let seed := seed * 1103515245 + 12345
    randomLoop n seed (write8 mem buf ((seed >>> 16).setWidth 8)) (buf + 1)

def blackDevfsRandomRead (clock : Clock) (mem : Memory) (_off sz buf : Word) : Outcome Clock :=
  ⟨clock,randomLoop sz.toNat clock mem buf,sz⟩

/-- The calls of `black_devfs_add`, in order. -/
def blackDevfsEntries : List (List Byte × Device) := [
  ([0x6E,0x75,0x6C,0x6C],.null),
  ([0x7A,0x65,0x72,0x6F],.zero),
  ([0x72,0x61,0x6E,0x64,0x6F,0x6D],.random),
  ([0x75,0x72,0x61,0x6E,0x64,0x6F,0x6D],.urandom)]

def blackDevfsFinddir (name : List Byte) : Option Device :=
  (blackDevfsEntries.find? fun e => strcmp e.1 name == 0).map Prod.snd

/-- The nodes of `black_devfs_init`: no device has a function for opening or closing it. -/
def devfs : Drivers Clock Device where
  readFn clock
    | .root => none
    | .null => some (blackDevfsNullRead clock)
    | .zero => some (blackDevfsZeroRead clock)
    | .random => some (blackDevfsRandomRead clock)
    | .urandom => some (blackDevfsRandomRead clock)
  writeFn clock
    | .null => some (blackDevfsNullWrite clock)
    | .zero => some (blackDevfsNullWrite clock)
    | _ => none
  openFn _ _ := none
  closeFn _ _ := none
  finddirFn _ n name := if n = .root then blackDevfsFinddir name else none

end Devices

end BlackOS.Vfs
