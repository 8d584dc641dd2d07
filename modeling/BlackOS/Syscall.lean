import BlackOS.Process
import BlackOS.VfsNodes
import BlackOS.Library.Trace
import BlackOS.Library.Run

/-! The system calls of `kernel/syscall/syscall.c`. A call logs the slot of each process whose
descriptor table it reads or writes. -/
namespace BlackOS.Syscall
open BlackOS.Library.Ram BlackOS.Library.Trace BlackOS.Library.Run BlackOS.LibcText BlackOS.Process BlackOS.Vfs

/-- What a system call can reach. The buffers and the strings of the callers are in `mem`, which is
apart from the variables of the kernel. -/
structure Kernel (FS Node : Type) where
  table : Table Node
  vfs : Vfs.State Node
  fs : FS
  mem : Memory

section Descriptors
variable {FS Node : Type}

def Kernel.setEntry (k : Kernel FS Node) (p : Slot) (fd : Fd) (e : FdEntry Node) : Kernel FS Node :=
  let proc := k.table.procs p
  {k with table := {k.table with
    procs := Function.update k.table.procs p {proc with fdTable := Function.update proc.fdTable fd e}}}

def Kernel.after (k : Kernel FS Node) (done : Outcome FS) : Kernel FS Node := {k with fs := done.fs,mem := done.mem}

def fdTable (k : Kernel FS Node) (p : Slot) : Traced Slot (Fd → FdEntry Node) :=
  logged p (some (k.table.procs p).fdTable)

def setFd (k : Kernel FS Node) (p : Slot) (fd : Fd) (e : FdEntry Node) : Traced Slot (Kernel FS Node) :=
  logged p (some (k.setEntry p fd e))

end Descriptors

/-- The bytes of a string in memory, before its terminating zero. -/
def stringLoop (m : Memory) : Nat → Word → List Byte
  | 0,_ => []
  | n+1,a => if m a = 0 then [] else m a :: stringLoop m n (a + 1)

def stringAt (m : Memory) (a : Word) : List Byte := stringLoop m (2^32) a

section Calls
variable {FS Node : Type} (d : Drivers FS Node) (k : Kernel FS Node)

/-- The body that `black_sys_read` and `black_sys_write` share: they differ in the call they make. -/
def transfer (call : Option Node → Word → Word → Word → Outcome FS) (fd buf sz : Word) :
    Traced Slot (Kernel FS Node × Int) :=
  if inside : fd.toNat < 32 then do
    let p := blackProcessCurrent
    let entries ← fdTable k p
    let entry := entries ⟨fd.toNat,inside⟩
    if entry.inUse = false then pure (k,-1) else
    let done := call entry.node entry.offset sz buf
    if 0 < done.value.toInt then
      let k ← setFd (k.after done) p ⟨fd.toNat,inside⟩ {entry with offset := entry.offset + done.value}
      pure (k,done.value.toInt)
    else pure (k.after done,done.value.toInt)
  else pure (k,-1)

def blackSysRead (fd buf sz : Word) : Traced Slot (Kernel FS Node × Int) :=
  transfer k (blackVfsRead d k.fs k.mem) fd buf sz

def blackSysWrite (fd buf sz : Word) : Traced Slot (Kernel FS Node × Int) :=
  transfer k (blackVfsWrite d k.fs k.mem) fd buf sz

/-- `black_vfs_lookup` of the string at an address; the null address fails where `black_vfs_traverse`
gets it. -/
def lookup (path : Word) : Option Node :=
  let text := stringAt k.mem path
  if path = 0 ∧ (mountOf k.vfs.mounts text).isNone then none else blackVfsLookup (d.finddirFn k.fs) k.vfs text

def blackSysOpen (path flags : Word) : Traced Slot (Kernel FS Node × Int) :=
  match lookup d k path with
  | none => pure (k,-1)
  | some n => do
    let p := blackProcessCurrent
    let entries ← fdTable k p
    match (List.finRange 32).find? (fun i => !(entries i).inUse) with
    | none => pure (k,-1)
    | some i =>
      let k ← setFd k p i ⟨some n,0,flags,true⟩
      pure (k.after (blackVfsOpen d k.fs k.mem (some n) flags),i.val)

def blackSysClose (fd : Word) : Traced Slot (Kernel FS Node × Int) :=
  if inside : fd.toNat < 32 then do
    let p := blackProcessCurrent
    let entries ← fdTable k p
    let entry := entries ⟨fd.toNat,inside⟩
    if entry.inUse = false then pure (k,-1) else
    let k ← setFd (k.after (blackVfsClose d k.fs k.mem entry.node)) p ⟨fd.toNat,inside⟩ {entry with inUse := false}
    pure (k,0)
  else pure (k,-1)

def blackSysExit (code : Word) : Kernel FS Node × Int := ({k with table := blackProcessExit k.table code},0)

def blackSysGetpid : Int := (k.table.procs blackProcessCurrent).pid.toInt

def blackSysFork : Int := blackProcessFork

def blackSysExec (path argv : Word) : Int := blackProcessExec path argv

def blackSysWaitpid (pid status opts : Word) : Int := blackProcessWaitpid pid status opts

def blackSysKill (pid sig : Word) : Kernel FS Node × Int :=
  let (table,result) := blackProcessSignal k.table pid sig.toInt
  ({k with table := table},result)

inductive Sys
  | exit
  | read
  | write
  | openPath
  | close
  | getpid
  | fork
  | exec
  | waitpid
  | kill
  deriving DecidableEq

/-- A function of the table at its five arguments; none of them uses the last two. -/
def invoke (a b c _d _e : Word) : Sys → Traced Slot (Kernel FS Node × Int)
  | .exit => pure (blackSysExit k a)
  | .read => blackSysRead d k a b c
  | .write => blackSysWrite d k a b c
  | .openPath => blackSysOpen d k a b
  | .close => blackSysClose d k a
  | .getpid => pure (k,blackSysGetpid k)
  | .fork => pure (k,blackSysFork)
  | .exec => pure (k,blackSysExec a b)
  | .waitpid => pure (k,blackSysWaitpid a b c)
  | .kill => pure (blackSysKill k a b)

def blackMaxSyscalls : Nat := 256

def blackSyscallInit : Nat → Option Sys
  | 1 => some .exit
  | 3 => some .read
  | 4 => some .write
  | 5 => some .openPath
  | 6 => some .close
  | 2 => some .fork
  | 7 => some .waitpid
  | 11 => some .exec
  | 20 => some .getpid
  | 37 => some .kill
  | _ => none

def blackSyscallDispatch (table : Nat → Option Sys) (num a b c e f : Word) : Traced Slot (Kernel FS Node × Int) :=
  if blackMaxSyscalls ≤ num.toNat then pure (k,-1)
  else match table num.toNat with
    | none => pure (k,-1)
    | some sys => invoke d k a b c e f sys

end Calls

/-! What each descriptor call does, with its log, once the checks before it are known. -/
section Equations
variable {FS Node : Type} (d : Drivers FS Node) (k : Kernel FS Node)
  (call : Option Node → Word → Word → Word → Outcome FS) (fd buf sz path flags : Word)

theorem transfer_outside (outside : ¬fd.toNat < 32) : transfer k call fd buf sz = ⟨[],some (k,-1)⟩ := dif_neg outside

theorem transfer_inside (inside : fd.toNat < 32) (entry : FdEntry Node)
    (here : (k.table.procs 0).fdTable ⟨fd.toNat,inside⟩ = entry) (done : Outcome FS)
    (made : call entry.node entry.offset sz buf = done) :
    transfer k call fd buf sz =
      if entry.inUse = false then ⟨[0],some (k,-1)⟩
      else if 0 < done.value.toInt then
        ⟨[0,0],some ((k.after done).setEntry 0 ⟨fd.toNat,inside⟩ {entry with offset := entry.offset + done.value},
          done.value.toInt)⟩
      else ⟨[0],some (k.after done,done.value.toInt)⟩ := by
  rw [← made,← here,transfer,dif_pos inside]
  change Traced.bind (fdTable k 0) _ = _
  rw [Traced.bind,fdTable,logged]
  dsimp only
  split
  · rfl
  · split
    · rfl
    · rfl

theorem open_missing (missing : lookup d k path = none) : blackSysOpen d k path flags = ⟨[],some (k,-1)⟩ := by
  rw [blackSysOpen,missing]
  rfl

theorem open_found (n : Node) (found : lookup d k path = some n) :
    blackSysOpen d k path flags =
      match (List.finRange 32).find? (fun i => !((k.table.procs 0).fdTable i).inUse) with
      | none => ⟨[0],some (k,-1)⟩
      | some i => ⟨[0,0],some ((k.setEntry 0 i ⟨some n,0,flags,true⟩).after
          (blackVfsOpen d k.fs k.mem (some n) flags),i.val)⟩ := by
  rw [blackSysOpen,found]
  change Traced.bind (fdTable k 0) _ = _
  rw [Traced.bind,fdTable,logged]
  dsimp only
  split
  · rfl
  · rfl

theorem close_outside (outside : ¬fd.toNat < 32) : blackSysClose d k fd = ⟨[],some (k,-1)⟩ := dif_neg outside

theorem close_inside (inside : fd.toNat < 32) (entry : FdEntry Node)
    (here : (k.table.procs 0).fdTable ⟨fd.toNat,inside⟩ = entry) :
    blackSysClose d k fd =
      if entry.inUse = false then ⟨[0],some (k,-1)⟩
      else ⟨[0,0],some ((k.after (blackVfsClose d k.fs k.mem entry.node)).setEntry 0 ⟨fd.toNat,inside⟩
        {entry with inUse := false},0)⟩ := by
  rw [← here,blackSysClose,dif_pos inside]
  change Traced.bind (fdTable k 0) _ = _
  rw [Traced.bind,fdTable,logged]
  dsimp only
  split
  · rfl
  · rfl

end Equations

end BlackOS.Syscall
