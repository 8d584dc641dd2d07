import BlackOS.Library.Ram
import Mathlib.Logic.Function.Basic

/-! The multi-level feedback queue scheduler of `kernel/sched/scheduler.c`. Tasks
are the slots of one table, a task pointer is a slot or NULL, and the four run
queues share the tasks' `black_next` field. A call is one step: the spin locks
make its updates atomic, and a context switch ends it. Register contents and the
words pushed on a new stack are not part of the state. -/
namespace BlackOS.Scheduler
open BlackOS.Library.Ram

abbrev Slot := Fin 128

-- The numerals of `Slot` take this instance, whatever else is imported.
scoped instance slot_zero : NeZero 128 := ⟨by decide⟩

abbrev Level := Fin 4

inductive TaskState
  | unused
  | running
  | ready
  | blocked
  | sleeping
  | zombie
  deriving DecidableEq,Repr

/-- `black_task_t`, less the fields that the scheduler does not use. -/
structure Task where
  tid : Word
  pid : Word
  name : List Byte
  state : TaskState
  priority : Byte
  basePriority : Byte
  mlfqLevel : Nat
  timeSlice : Word
  timeUsed : Word
  kernelStack : Word
  kernelStackSize : Word
  cpuTime : BitVec 64
  wakeTime : BitVec 64
  cpuAffinity : Word
  lastCpu : Word
  stackCanary : Word
  blockReason : Byte
  next : Option Slot
  deriving DecidableEq

structure State where
  tasks : Slot → Task
  nextTid : Word
  current : Option Slot
  idle : Option Slot
  heads : Level → Option Slot
  tails : Level → Option Slot
  enabled : Bool
  /-- The stack top last passed to `black_gdt_set_kernel_stack`. -/
  kernelStackTop : Word

def blackDefaultStack : Word := 8192
def mlfqTimesliceBase : Word := 5
def cpuAffinityNone : Word := 0xFFFFFFFF
def blockReasonNone : Byte := 0

/-- `black_sched_lock`, which nothing ever sets. -/
def blackSchedLock : Bool := false

def State.setTask (s : State) (t : Slot) (f : Task → Task) : State :=
  {s with tasks := Function.update s.tasks t (f (s.tasks t))}

def queueLevel (level : Nat) : Level := if inside : level < 4 then ⟨level,inside⟩ else 3

def blackEnqueue (s : State) (t : Slot) : State :=
  let level := queueLevel (s.tasks t).mlfqLevel
  let s := s.setTask t (fun x => {x with next := none,state := .ready})
  let s := match s.tails level with
    | some last => s.setTask last (fun x => {x with next := some t})
    | none => {s with heads := Function.update s.heads level (some t)}
  {s with tails := Function.update s.tails level (some t)}

def dequeueFrom (s : State) : List Level → State × Option Slot
  | [] => (s,none)
  | i::rest =>
    match s.heads i with
    | some t =>
      let s := {s with heads := Function.update s.heads i (s.tasks t).next}
      let s := if s.heads i = none then {s with tails := Function.update s.tails i none} else s
      (s.setTask t (fun x => {x with next := none}),some t)
    | none => dequeueFrom s rest

def blackDequeue (s : State) : State × Option Slot := dequeueFrom s [0,1,2,3]

def fillTask (tid pid : Word) (name : List Byte) (stackSize guard stack : Word) (x : Task) : Task :=
  {x with
    tid := tid,pid := pid,name := name.take 31,priority := 10,basePriority := 10,mlfqLevel := 0,
    timeSlice := mlfqTimesliceBase,timeUsed := 0,kernelStack := stack,kernelStackSize := stackSize,
    cpuAffinity := cpuAffinityNone,lastCpu := 0,stackCanary := guard ^^^ tid}

/-- `black_task_create`; `guard` is `__stack_chk_guard` and `stack` what `kmalloc`
returns for the stack. -/
def blackTaskCreate (s : State) (name : List Byte) (stackSize guard stack : Word) : State × Option Slot :=
  match (List.finRange 128).find? (fun i => (s.tasks i).state = .unused) with
  | none => (s,none)
  | some t =>
    let s := s.setTask t (fun x => {x with state := .ready})
    let stackSize := if stackSize = 0 then blackDefaultStack else stackSize
    if stack = 0 then (s.setTask t (fun x => {x with state := .unused}),none) else
    let tid := s.nextTid
    let s := {s with nextTid := s.nextTid + 1}
    let pid := match s.current with
      | some c => (s.tasks c).pid
      | none => 0
    (blackEnqueue (s.setTask t (fillTask tid pid name stackSize guard stack)) t,some t)

def zeroTask : Task := ⟨0,0,[],.unused,0,0,0,0,0,0,0,0,0,0,0,0,0,none⟩

def unset : State := ⟨fun _ => zeroTask,1,none,none,fun _ => none,fun _ => none,false,0⟩

def ascii (text : String) : List Byte := text.toList.map (fun c => BitVec.ofNat 8 c.toNat)

/-- The part of `black_scheduler_init` before idle is created; `kernelStack` is what
`kmalloc` returns. -/
def bootKernel (s : State) (guard kernelStack : Word) : State :=
  let s := {s with tasks := fun _ => zeroTask,heads := fun _ => none,tails := fun _ => none}
  let s := s.setTask 0 (fun x => {x with
    tid := 0,pid := 0,name := ascii "black_kernel",state := .running,priority := 0,mlfqLevel := 0,
    timeSlice := 100,kernelStack := kernelStack,kernelStackSize := blackDefaultStack,
    cpuAffinity := cpuAffinityNone,stackCanary := guard})
  {s with current := some 0}

/-- `black_scheduler_init`; `idleStack` is what `kmalloc` returns for idle's stack. -/
def blackSchedulerInit (s : State) (guard kernelStack idleStack : Word) : State :=
  let s := bootKernel s guard kernelStack
  let (s,idle) := blackTaskCreate s (ascii "black_idle") blackDefaultStack guard idleStack
  let s := {s with idle := idle}
  match idle with
  | some t => s.setTask t (fun x => {x with priority := 255,mlfqLevel := 3})
  | none => s

/-- What `black_schedule_force` does to a task whose time slice has run out. -/
def expire (x : Task) : Task :=
  if x.timeSlice ≤ x.timeUsed then
    let level := if x.mlfqLevel < 3 then x.mlfqLevel + 1 else x.mlfqLevel
    {x with mlfqLevel := level,timeSlice := mlfqTimesliceBase * (1 <<< level),timeUsed := 0}
  else x

def requeue (s : State) (prev : Slot) : State :=
  if (s.tasks prev).state = .running ∧ s.idle ≠ some prev then blackEnqueue (s.setTask prev expire) prev
  else s

def switchTo (s : State) (next : Slot) : State :=
  let s := match s.current with
    | some prev => requeue s prev
    | none => s
  let s := {s with current := some next}
  let s := s.setTask next (fun x => {x with state := .running})
  if (s.tasks next).kernelStack ≠ 0 then
    {s with kernelStackTop := (s.tasks next).kernelStack + (s.tasks next).kernelStackSize}
  else s

def blackScheduleForce (s : State) : State :=
  if blackSchedLock then s else
  let (s,found) := blackDequeue s
  let next := match found with
    | some t => some t
    | none => if s.idle ≠ none ∧ s.current ≠ s.idle then s.idle else none
  match next with
  | none => s
  | some t => if s.current = some t then s else switchTo s t

def blackSchedule (s : State) : State :=
  if !s.enabled || blackSchedLock then s else blackScheduleForce s

def account (s : State) (c : Slot) : State :=
  s.setTask c (fun x => {x with cpuTime := x.cpuTime + 1,timeUsed := x.timeUsed + 1})

def blackSchedulerTick (s : State) : State :=
  match s.current with
  | none => s
  | some c =>
    if !s.enabled then s else
    let s := account s c
    if (s.tasks c).tid ≠ 0 ∧ (s.tasks c).timeSlice ≤ (s.tasks c).timeUsed then blackSchedule s else s

/-- The calling task gives up the processor in the given state. -/
def retire (s : State) (f : Task → Task) (after : State → State) : State :=
  match s.current with
  | none => s
  | some c => after (s.setTask c f)

def blackTaskBlock (s : State) (reason : Byte) : State :=
  retire s (fun x => {x with state := .blocked,blockReason := reason}) blackScheduleForce

def blackTaskUnblock (s : State) (t : Option Slot) : State :=
  match t with
  | none => s
  | some t =>
    if (s.tasks t).state ≠ .blocked then s else
    blackEnqueue (s.setTask t (fun x => {x with
      blockReason := blockReasonNone,mlfqLevel := 0,timeSlice := mlfqTimesliceBase,timeUsed := 0})) t

def blackTaskSleep (s : State) (uptime : BitVec 64) (ms : Word) : State :=
  retire s (fun x => {x with wakeTime := uptime + ms.setWidth 64,state := .sleeping}) blackSchedule

/-- `black_task_exit`; the stack goes back to the heap and the call never returns. -/
def blackTaskExit (s : State) : State :=
  retire s (fun x => {x with state := .zombie}) blackScheduleForce

def blackSchedulerEnable (s : State) : State := {s with enabled := true}
def blackSchedulerDisable (s : State) : State := {s with enabled := false}

end BlackOS.Scheduler
