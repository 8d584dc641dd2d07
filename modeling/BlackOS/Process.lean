import BlackOS.LibcText
import Mathlib.Logic.Function.Basic
import Mathlib.Data.Fin.Basic

/-! The process table of `kernel/proc/process.c`. Signal handlers, process groups and the fields
for waiting are left out: nothing here reads them. -/
namespace BlackOS.Process
open BlackOS.Library.Ram BlackOS.LibcText

abbrev Slot := Fin 128

-- The numerals of `Slot` take this instance, whatever else is imported.
scoped instance slot_zero : NeZero 128 := ⟨by decide⟩

abbrev Fd := Fin 32

def procNameLen : Nat := 32
def nsig : Nat := 32
def sigkill : Int := 9

inductive ProcState
  | unused
  | running
  | ready
  | blocked
  | zombie
  | stopped
  deriving DecidableEq

/-- `black_fd_entry_t`. -/
structure FdEntry (Node : Type) where
  node : Option Node
  offset : Word
  flags : Word
  inUse : Bool

/-- `black_process_t`. -/
structure Proc (Node : Type) where
  pid : Word
  ppid : Word
  state : ProcState
  name : Text
  startTime : Word
  priority : Byte
  fdTable : Fd → FdEntry Node
  pendingSignals : Word

/-- The variables of `process.c`. -/
structure Table (Node : Type) where
  procs : Slot → Proc Node
  currentPid : Word
  nextPid : Word

section Calls
variable {Node : Type}

def blank : Proc Node := ⟨0,0,.unused,⟨[],nil_terminated⟩,0,0,fun _ => ⟨none,0,0,false⟩,0⟩

/-- The variables as the image of the kernel has them. -/
def image : Table Node := ⟨fun _ => blank,0,1⟩

def blackInit : Text := ⟨[0x62,0x6C,0x61,0x63,0x6B,0x5F,0x69,0x6E,0x69,0x74],by decide⟩

variable (t : Table Node)

def blackProcessInit (uptime : Word) : Table Node :=
  {t with
    procs := Function.update (fun _ => blank) 0
      {blank with pid := 0,ppid := 0,state := .running,name := blackInit,startTime := uptime}
    currentPid := 0}

def blackProcessCreate (name : Text) (ppid uptime : Word) : Table Node × Word :=
  match (List.finRange 128).find? (fun i => (t.procs i).state == .unused) with
  | none => (t,0)
  | some i =>
    ({t with
      procs := Function.update t.procs i {blank with
        pid := t.nextPid
        ppid := ppid
        state := .ready
        name := strncpy name (procNameLen - 1)
        startTime := uptime
        priority := 10}
      nextPid := t.nextPid + 1},t.nextPid)

def blackProcessGet (pid : Word) : Option Slot :=
  (List.finRange 128).find? fun i => (t.procs i).pid == pid && (t.procs i).state != .unused

/-- `black_process_current`, which reads no variable. -/
def blackProcessCurrent : Slot := 0

def blackProcessSetCurrent (pid : Word) : Table Node := {t with currentPid := pid}

def blackProcessReparentChildren (ppid : Word) : Table Node :=
  {t with procs := fun i =>
    if (t.procs i).ppid = ppid ∧ (t.procs i).state ≠ .unused then {t.procs i with ppid := 0} else t.procs i}

/-- `black_process_kill`; its loop is that of `black_process_get`. -/
def blackProcessKill (pid : Word) : Table Node × Int :=
  match blackProcessGet t pid with
  | none => (t,-1)
  | some i =>
    let t := {t with procs := Function.update t.procs i {t.procs i with state := .zombie}}
    (blackProcessReparentChildren t pid,0)

def blackProcessSignal (pid : Word) (sig : Int) : Table Node × Int :=
  match blackProcessGet t pid with
  | none => (t,-1)
  | some i =>
    if sig < 0 ∨ nsig ≤ sig then (t,-1)
    else if sig = sigkill then ((blackProcessKill t pid).1,0)
    else
      let p := t.procs i
      ({t with procs := Function.update t.procs i {p with pendingSignals := p.pendingSignals ||| (1 : Word) <<< sig.toNat}},0)

def blackProcessFork : Int := -1

def blackProcessExec (_path _argv : Word) : Int := -1

def blackProcessWaitpid (_pid _status _opts : Word) : Int := -1

def blackProcessExit (_status : Word) : Table Node := t

end Calls

section Lookup
variable {Node : Type} (t : Table Node)

def Live (pid : Word) : Prop := ∃ i, (t.procs i).pid = pid ∧ (t.procs i).state ≠ .unused

theorem matches_iff (pid : Word) (i : Slot) :
    ((t.procs i).pid == pid && (t.procs i).state != .unused) = true ↔
      (t.procs i).pid = pid ∧ (t.procs i).state ≠ .unused := by
  rw [Bool.and_eq_true,beq_iff_eq,bne_iff_ne]

theorem get_spec (pid : Word) (i : Slot) (found : blackProcessGet t pid = some i) :
    (t.procs i).pid = pid ∧ (t.procs i).state ≠ .unused := by
  rw [blackProcessGet] at found
  have hit := List.find?_some found
  exact (matches_iff t pid i).mp hit

theorem get_live (pid : Word) : (∃ i, blackProcessGet t pid = some i) ↔ Live t pid := by
  constructor
  · intro hit
    obtain ⟨i,found⟩ := hit
    exact ⟨i,get_spec t pid i found⟩
  · intro live
    obtain ⟨i,same⟩ := live
    refine Option.isSome_iff_exists.mp (List.find?_isSome.mpr ⟨i,List.mem_finRange i,?_⟩)
    exact (matches_iff t pid i).mpr same

/-- The first slot is process 0, as `black_process_init` makes it. -/
def Booted : Prop := (t.procs 0).pid = 0 ∧ (t.procs 0).state ≠ .unused

theorem get_zero (booted : Booted t) : blackProcessGet t 0 = some 0 := by
  rw [blackProcessGet,← Fin.find?_eq_find?_finRange,Fin.find?_eq_some_iff]
  exact ⟨(matches_iff t 0 0).mpr booted,fun j below => absurd below (Fin.not_lt_zero j)⟩

theorem get_later (booted : Booted t) (pid : Word) (other : pid ≠ 0) (i : Slot)
    (found : blackProcessGet t pid = some i) : i ≠ 0 := by
  intro first
  have same := (get_spec t pid i found).1
  rw [first,booted.1] at same
  exact other same.symm

/-- The processes of one table are in the slots of the other, under the same numbers. -/
def Keeps (t t' : Table Node) : Prop := ∀ i, (t.procs i).state ≠ .unused →
  (t'.procs i).pid = (t.procs i).pid ∧ (t'.procs i).state ≠ .unused

theorem Keeps.live {t t' : Table Node} (keeps : Keeps t t') (pid : Word) (live : Live t pid) : Live t' pid := by
  obtain ⟨i,same,used⟩ := live
  exact ⟨i,(keeps i used).1.trans same,(keeps i used).2⟩

theorem Keeps.booted {t t' : Table Node} (keeps : Keeps t t') (booted : Booted t) : Booted t' :=
  ⟨(keeps 0 booted.2).1.trans booted.1,(keeps 0 booted.2).2⟩

theorem init_booted (uptime : Word) : Booted (blackProcessInit t uptime) := by
  rw [Booted,blackProcessInit]
  simp

theorem create_keeps (name : Text) (ppid uptime : Word) : Keeps t (blackProcessCreate t name ppid uptime).1 := by
  intro i used
  rw [blackProcessCreate]
  split
  · exact ⟨rfl,used⟩
  · rename_i free found
    have unused := List.find?_some found
    rw [beq_iff_eq] at unused
    have other : i ≠ free := fun same => used (by rw [same,unused])
    dsimp only
    rw [Function.update_of_ne other]
    exact ⟨rfl,used⟩

theorem create_current (name : Text) (ppid uptime : Word) :
    (blackProcessCreate t name ppid uptime).1.currentPid = t.currentPid := by
  rw [blackProcessCreate]
  split
  · rfl
  · rfl

end Lookup

end BlackOS.Process
