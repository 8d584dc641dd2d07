import BlackOS.SchedulerSwitch
import BlackOS.Library.Run

/-! The scheduler as a state machine: its calls, the state in which a call reaches
`black_schedule_force`, and the invariant of every run from `black_scheduler_init`. -/
namespace BlackOS.Scheduler
open BlackOS.Library.Ram BlackOS.Library.Linked BlackOS.Library.Run

/-- The calls, with what `kmalloc`, the stack guard and the clock give them. -/
inductive Op
  | create (name : List Byte) (stackSize guard stack : Word)
  | schedule
  | scheduleForce
  | tick
  | block (reason : Byte)
  | unblock (task : Option Slot)
  | sleep (uptime : BitVec 64) (ms : Word)
  | exit
  | enable
  | disable

def step (s : State) : Op → State
  | .create name stackSize guard stack => (blackTaskCreate s name stackSize guard stack).1
  | .schedule => blackSchedule s
  | .scheduleForce => blackScheduleForce s
  | .tick => blackSchedulerTick s
  | .block reason => blackTaskBlock s reason
  | .unblock task => blackTaskUnblock s task
  | .sleep uptime ms => blackTaskSleep s uptime ms
  | .exit => blackTaskExit s
  | .enable => blackSchedulerEnable s
  | .disable => blackSchedulerDisable s

/-- Idle only halts: it does not block, sleep or exit. -/
def Allowed (s : State) : Op → Prop
  | .block _ => s.current ≠ s.idle
  | .sleep _ _ => s.current ≠ s.idle
  | .exit => s.current ≠ s.idle
  | _ => True

def Next (s : State) (op : Op) (s' : State) : Prop := Allowed s op ∧ step s op = s'

/-- The levels of the tasks agree with their queues. Idle alone may wait in a
queue that is not that of its level. -/
structure Ranked (s : State) (q : Queues) (i : Slot) : Prop where
  bounded : ∀ t, (s.tasks t).mlfqLevel ≤ 3
  lowest : (s.tasks i).mlfqLevel = 3
  placed : ∀ l, ∀ t ∈ q l, t ≠ i → (s.tasks t).mlfqLevel = l

structure Inv (s : State) (q : Queues) (c i : Slot) : Prop where
  core : Core s q c i
  unblocked : (s.tasks c).state ≠ .blocked
  ranked : Ranked s q i

theorem expire_bounded (x : Task) (bounded : x.mlfqLevel ≤ 3) : (expire x).mlfqLevel ≤ 3 := by
  unfold expire
  split
  · dsimp only
    split <;> omega
  · exact bounded

theorem queueLevel_val (n : Nat) (bounded : n ≤ 3) : (queueLevel n).val = n := by
  have inside : n < 4 := by omega
  simp [queueLevel,inside]

theorem switched_ranked (s s' : State) (q q' : Queues) (c i t : Slot) (core : Core s q c i)
    (ranked : Ranked s q i) (switched : Switched s s' q q' c t) (other : c ≠ t) : Ranked s' q' i := by
  have level := switched_level s s' q q' c t switched other
  refine ⟨?_,?_,?_⟩
  · intro x
    rw [level]
    split
    · exact expire_bounded _ (ranked.bounded x)
    · exact ranked.bounded x
  · rw [level,if_neg (fun both => both.2.2 (by rw [core.idle,both.1]))]
    exact ranked.lowest
  · intro l x member notIdle
    rw [level]
    rcases switched.member l x member with old | ⟨isPrev,yields,place⟩
    · have notPrev : ¬(x = c ∧ Yields s c) := by
        intro both
        have ready := core_ready s q c i core l x old
        rw [both.1] at ready
        exact core.awake.1 ready
      rw [if_neg notPrev]
      exact ranked.placed l x old notIdle
    · rw [if_pos ⟨isPrev,yields⟩,place,isPrev,queueLevel_val _ (expire_bounded _ (ranked.bounded c))]

theorem force_inv (s : State) (q : Queues) (c i : Slot) (core : Core s q c i) (ranked : Ranked s q i) :
    ∃ q' c', Inv (blackScheduleForce s) q' c' i := by
  rcases force_spec s q c i core with ⟨_,alone,stays⟩ | ⟨t,q',_,other,switched,core'⟩
  · rw [stays]
    refine ⟨q,c,core,?_,ranked⟩
    rw [alone]
    rcases core.idleState with waits | runs
    · simp [waits]
    · simp [runs]
  · refine ⟨q',t,core',?_,switched_ranked s _ q q' c i t core ranked switched other⟩
    rw [switched_state s _ q q' c t switched,if_pos rfl]
    simp

theorem core_setTask (s : State) (q : Queues) (c i : Slot) (core : Core s q c i) (t : Slot) (f : Task → Task)
    (link : ∀ x, (f x).next = x.next)
    (ready : (f (s.tasks t)).state = .ready ↔ (s.tasks t).state = .ready)
    (used : t = c → (f (s.tasks t)).state ≠ .unused)
    (idle : t = i → (f (s.tasks t)).state = .ready ∨ (f (s.tasks t)).state = .running) :
    Core (s.setTask t f) q c i := by
  refine ⟨queued_setTask s q core.queued t f link,?_,core.current,?_,core.idle,?_⟩
  · intro x
    rw [core.ready,setTask_tasks]
    by_cases same : x = t
    · subst same
      simp only [if_true,ready]
    · simp only [same,if_false]
  · rw [setTask_tasks]
    by_cases same : c = t
    · subst same
      rw [if_pos rfl]
      exact ⟨fun becomes => core.awake.1 (ready.mp becomes),used rfl⟩
    · rw [if_neg same]
      exact core.awake
  · rw [setTask_tasks]
    by_cases same : i = t
    · subst same
      rw [if_pos rfl]
      exact idle rfl
    · rw [if_neg same]
      exact core.idleState

theorem ranked_setTask (s : State) (q : Queues) (i : Slot) (ranked : Ranked s q i) (t : Slot)
    (f : Task → Task) (level : ∀ x, (f x).mlfqLevel = x.mlfqLevel) : Ranked (s.setTask t f) q i := by
  have same (x : Slot) : ((s.setTask t f).tasks x).mlfqLevel = (s.tasks x).mlfqLevel := by
    rw [setTask_tasks]
    split
    · exact level _
    · rfl
  refine ⟨?_,?_,?_⟩
  · intro x
    rw [same]
    exact ranked.bounded x
  · rw [same]
    exact ranked.lowest
  · intro l x member notIdle
    rw [same]
    exact ranked.placed l x member notIdle

def Used (s : State) (t : Slot) : Prop := (s.tasks t).state ≠ .unused

/-- The state in which `black_task_create` enqueues the new task. -/
def occupied (s : State) (t : Slot) (name : List Byte) (stackSize guard stack : Word) : State :=
  let s := s.setTask t (fun x => {x with state := .ready})
  let pid := match s.current with
    | some c => (s.tasks c).pid
    | none => 0
  State.setTask {s with nextTid := s.nextTid + 1} t
    (fillTask s.nextTid pid name (if stackSize = 0 then blackDefaultStack else stackSize) guard stack)

theorem occupied_tasks (s : State) (t : Slot) (name : List Byte) (stackSize guard stack : Word) (x : Slot)
    (other : x ≠ t) : (occupied s t name stackSize guard stack).tasks x = s.tasks x := by
  rw [occupied,setTask_tasks,if_neg other]
  dsimp only
  rw [setTask_tasks,if_neg other]

section Create
variable (s : State) (name : List Byte) (stackSize guard stack : Word)

/-- Without a stack the slot becomes unused again. -/
theorem slot_restored (t : Slot) (unused : (s.tasks t).state = .unused) :
    (s.setTask t (fun x => {x with state := .ready})).setTask t (fun x => {x with state := .unused}) = s := by
  have task : ({s.tasks t with state := .unused} : Task) = s.tasks t := by rw [← unused]
  simp only [State.setTask,Function.update_self,Function.update_idem]
  rw [task,Function.update_eq_self]

/-- `black_task_create` fails without a trace when it gets no stack or finds no unused slot, and
otherwise takes the first unused slot. -/
theorem create_cases :
    (blackTaskCreate s name stackSize guard stack = (s,none) ∧ (stack = 0 ∨ ∀ t, Used s t)) ∨
    ∃ t, ¬Used s t ∧ (∀ j, j < t → Used s j) ∧ stack ≠ 0 ∧ blackTaskCreate s name stackSize guard stack =
      (blackEnqueue (occupied s t name stackSize guard stack) t,some t) := by
  unfold blackTaskCreate
  split
  · rename_i found
    refine Or.inl ⟨rfl,Or.inr ?_⟩
    intro t unused
    have all := List.find?_eq_none.mp found t (List.mem_finRange t)
    exact all (decide_eq_true unused)
  · rename_i t found
    rw [← Fin.find?_eq_find?_finRange,Fin.find?_eq_some_iff] at found
    have unused : (s.tasks t).state = .unused := of_decide_eq_true found.1
    dsimp only
    split
    · rename_i starved
      rw [slot_restored s t unused]
      exact Or.inl ⟨rfl,Or.inl starved⟩
    · rename_i room
      exact Or.inr ⟨t,fun used => used unused,fun j before => of_decide_eq_false (found.2 j before),room,rfl⟩

end Create

/-- A task of the top level at the end of the top queue leaves the queues ranked. -/
theorem appended_ranked (s s₂ s' : State) (q : Queues) (i t : Slot) (ranked : Ranked s q i) (absent : occurrences q t = 0)
    (top : (s₂.tasks t).mlfqLevel = 0) (notIdle : t ≠ i)
    (levels : ∀ x, (s'.tasks x).mlfqLevel = if x = t then 0 else (s.tasks x).mlfqLevel) :
    Ranked s' (appended s₂ q t) i := by
  refine ⟨fun x => ?_,?_,fun l x member other => ?_⟩
  · rw [levels]
    split
    · omega
    · exact ranked.bounded x
  · rw [levels,if_neg notIdle.symm]
    exact ranked.lowest
  · unfold appended at member
    rw [top] at member
    rw [levels]
    have before (old : x ∈ q l) : (if x = t then 0 else (s.tasks x).mlfqLevel) = l.val := by
      have different : x ≠ t := by
        intro same
        rw [same] at old
        exact (occurrences_zero q t).mp absent l old
      rw [if_neg different]
      exact ranked.placed l x old other
    by_cases here : l = queueLevel 0
    · rw [here,Function.update_self,List.mem_append,List.mem_singleton] at member
      rcases member with old | new
      · exact before (by rwa [here])
      · rw [if_pos new,here]
        rfl
    · rw [Function.update_of_ne here] at member
      exact before member

section
variable (s : State) (q : Queues) (c i : Slot) (inv : Inv s q c i)
include inv

theorem enqueue_inv (s₂ : State) (t : Slot) (others : ∀ x, x ≠ t → s₂.tasks x = s.tasks x)
    (link : (s₂.tasks t).next = (s.tasks t).next) (heads : s₂.heads = s.heads) (tails : s₂.tails = s.tails)
    (current : s₂.current = s.current) (idle : s₂.idle = s.idle) (level : (s₂.tasks t).mlfqLevel = 0)
    (notReady : (s.tasks t).state ≠ .ready) (notCurrent : t ≠ c) (notIdle : t ≠ i) :
    ∃ q', Inv (blackEnqueue s₂ t) q' c i := by
  obtain ⟨core,unblocked,ranked⟩ := inv
  have absent := core_absent s q c i core t notReady
  have links (x : Slot) : (s₂.tasks x).next = (s.tasks x).next := by
    by_cases same : x = t
    · rw [same,link]
    · rw [others x same]
  have queued := queued_congr s s₂ q core.queued links heads tails
  have task (x : Slot) (other : x ≠ t) :
      ((blackEnqueue s₂ t).tasks x).unlinked = (s.tasks x).unlinked := by
    rw [enqueue_task,if_neg other,others x other]
  have state (x : Slot) (other : x ≠ t) := unlinked_state (task x other)
  have own : ((blackEnqueue s₂ t).tasks t).state = .ready := by
    rw [unlinked_state (enqueue_task s₂ t t),if_pos rfl]
  have levels (x : Slot) : ((blackEnqueue s₂ t).tasks x).mlfqLevel = if x = t then 0 else (s.tasks x).mlfqLevel := by
    by_cases same : x = t
    · rw [if_pos same,same,unlinked_level (enqueue_task s₂ t t),if_pos rfl]
      exact level
    · rw [if_neg same,unlinked_level (task x same)]
  refine ⟨appended s₂ q t,⟨enqueue_queued s₂ t q queued absent,?_,?_,?_,?_,?_⟩,?_,
    appended_ranked s s₂ _ q i t ranked absent level notIdle levels⟩
  · intro x
    rw [occurrences_appended]
    by_cases same : x = t
    · rw [same,absent,own]
      simp
    · rw [if_neg same,state x same,core.ready]
      rfl
  · rw [enqueue_current,current,core.current]
  · rw [state c notCurrent.symm]
    exact core.awake
  · rw [enqueue_idle,idle,core.idle]
  · rw [state i notIdle.symm]
    exact core.idleState
  · rw [state c notCurrent.symm]
    exact unblocked

theorem create_inv (name : List Byte) (stackSize guard stack : Word) :
    ∃ q', Inv (blackTaskCreate s name stackSize guard stack).1 q' c i := by
  rcases create_cases s name stackSize guard stack with ⟨fails,_⟩ | ⟨t,free,_,_,succeeds⟩
  · rw [fails]
    exact ⟨q,inv⟩
  · have unused : (s.tasks t).state = .unused := not_not.mp free
    rw [succeeds]
    apply enqueue_inv s q c i inv _ t
    · exact occupied_tasks s t name stackSize guard stack
    · simp only [occupied,State.setTask,Function.update_self,fillTask]
    · rfl
    · rfl
    · rfl
    · rfl
    · simp only [occupied,State.setTask,Function.update_self,fillTask]
    · rw [unused]
      simp
    · intro same
      rw [same] at unused
      exact inv.core.awake.2 unused
    · exact core_not_idle s q c i inv.core t (by simp [unused]) (by simp [unused])

theorem unblock_inv (task : Option Slot) : ∃ q', Inv (blackTaskUnblock s task) q' c i := by
  unfold blackTaskUnblock
  split
  · exact ⟨q,inv⟩
  · rename_i t
    split
    · exact ⟨q,inv⟩
    · rename_i blocked
      have isBlocked : (s.tasks t).state = .blocked := not_not.mp blocked
      apply enqueue_inv s q c i inv _ t
      · intro x other
        simp only [State.setTask,Function.update_of_ne other]
      · simp only [State.setTask,Function.update_self]
      · rfl
      · rfl
      · rfl
      · rfl
      · simp only [State.setTask,Function.update_self]
      · rw [isBlocked]
        simp
      · intro same
        rw [same] at isBlocked
        exact inv.unblocked isBlocked
      · exact core_not_idle s q c i inv.core t (by simp [isBlocked]) (by simp [isBlocked])

end

/-- The state in which the call reaches `black_schedule_force`, if it does. -/
def forceCall (s : State) : Op → Option State
  | .schedule => if s.enabled then some s else none
  | .scheduleForce => some s
  | .tick =>
    match s.current with
    | none => none
    | some c =>
      if s.enabled ∧ ((account s c).tasks c).tid ≠ 0 ∧
          ((account s c).tasks c).timeSlice ≤ ((account s c).tasks c).timeUsed then some (account s c)
      else none
  | .block reason => s.current.map (fun c => s.setTask c (fun x => {x with state := .blocked,blockReason := reason}))
  | .sleep uptime ms =>
    if s.enabled then
      s.current.map (fun c => s.setTask c (fun x => {x with wakeTime := uptime + ms.setWidth 64,state := .sleeping}))
    else none
  | .exit => s.current.map (fun c => s.setTask c (fun x => {x with state := .zombie}))
  | _ => none

theorem step_of_call (s : State) (op : Op) (s₁ : State) (call : forceCall s op = some s₁) :
    step s op = blackScheduleForce s₁ := by
  cases op with
  | schedule =>
    simp only [forceCall] at call
    split at call
    · rename_i enabled
      cases call
      simp [step,blackSchedule,blackSchedLock,enabled]
    · cases call
  | scheduleForce =>
    cases call
    rfl
  | tick =>
    simp only [forceCall] at call
    split at call
    · cases call
    · rename_i c current
      split at call
      · rename_i due
        cases call
        have enabled : (account s c).enabled = true := due.1
        simp only [step,blackSchedulerTick,current]
        rw [if_neg (by simp [due.1]),if_pos due.2,blackSchedule,if_neg (by simp [enabled,blackSchedLock])]
      · cases call
  | block reason =>
    obtain ⟨c,current,same⟩ := Option.map_eq_some_iff.mp call
    cases same
    simp only [step,blackTaskBlock,retire,current]
  | sleep uptime ms =>
    simp only [forceCall] at call
    split at call
    · rename_i enabled
      obtain ⟨c,current,same⟩ := Option.map_eq_some_iff.mp call
      cases same
      simp [step,blackTaskSleep,retire,current,blackSchedule,blackSchedLock,State.setTask,enabled]
    · cases call
  | exit =>
    obtain ⟨c,current,same⟩ := Option.map_eq_some_iff.mp call
    cases same
    simp only [step,blackTaskExit,retire,current]
  | create name stackSize guard stack => cases call
  | unblock task => cases call
  | enable => cases call
  | disable => cases call

theorem schedule_quiet (s : State) (quiet : forceCall s .schedule = none) : step s .schedule = s := by
  simp only [forceCall,ite_eq_right_iff,reduceCtorEq,imp_false] at quiet
  simp only [step,blackSchedule]
  rw [if_pos (by simp [quiet])]

theorem tick_quiet (s : State) (c : Slot) (current : s.current = some c) (quiet : forceCall s .tick = none) :
    step s .tick = s ∨ step s .tick = account s c := by
  simp only [forceCall,current,ite_eq_right_iff,reduceCtorEq,imp_false] at quiet
  simp only [step,blackSchedulerTick,current]
  split
  · exact Or.inl rfl
  · rename_i off
    right
    rw [if_neg (fun due => quiet ⟨by simpa using off,due⟩)]

theorem sleep_quiet (s : State) (c : Slot) (current : s.current = some c) (uptime : BitVec 64) (ms : Word)
    (quiet : forceCall s (.sleep uptime ms) = none) : step s (.sleep uptime ms) =
      s.setTask c (fun x => {x with wakeTime := uptime + ms.setWidth 64,state := .sleeping}) := by
  simp only [forceCall,current,Option.map_some,ite_eq_right_iff,reduceCtorEq,imp_false] at quiet
  simp only [step,blackTaskSleep,retire,current,blackSchedule]
  rw [if_pos (by simp [State.setTask,quiet])]

section
variable (s : State) (q : Queues) (c i : Slot) (inv : Inv s q c i)
include inv

theorem not_idle (elsewhere : s.current ≠ s.idle) : c ≠ i := by
  rw [inv.core.current,inv.core.idle] at elsewhere
  exact fun same => elsewhere (congrArg some same)

theorem caller_core (f : Task → Task) (link : ∀ x, (f x).next = x.next)
    (level : ∀ x, (f x).mlfqLevel = x.mlfqLevel)
    (leaves : ∀ x, (f x).state ≠ .ready ∧ (f x).state ≠ .unused) (elsewhere : s.current ≠ s.idle) :
    Core (s.setTask c f) q c i ∧ Ranked (s.setTask c f) q i := by
  refine ⟨core_setTask s q c i inv.core c f link ?_ ?_ ?_,ranked_setTask s q i inv.ranked c f level⟩
  · exact iff_of_false (leaves _).1 inv.core.awake.1
  · exact fun _ => (leaves _).2
  · exact fun same => absurd same (not_idle s q c i inv elsewhere)

theorem account_inv : Inv (account s c) q c i := by
  refine ⟨core_setTask s q c i inv.core c _ (fun _ => rfl) Iff.rfl (fun _ => inv.core.awake.2) ?_,?_,
    ranked_setTask s q i inv.ranked c _ (fun _ => rfl)⟩
  · intro same
    subst same
    exact inv.core.idleState
  · rw [account,setTask_tasks,if_pos rfl]
    exact inv.unblocked

theorem call_core (op : Op) (allowed : Allowed s op) (s₁ : State) (call : forceCall s op = some s₁) :
    Core s₁ q c i ∧ Ranked s₁ q i := by
  have current := inv.core.current
  cases op with
  | schedule =>
    simp only [forceCall] at call
    split at call <;> cases call
    exact ⟨inv.core,inv.ranked⟩
  | scheduleForce =>
    cases call
    exact ⟨inv.core,inv.ranked⟩
  | tick =>
    simp only [forceCall,current] at call
    split at call <;> cases call
    have counted := account_inv s q c i inv
    exact ⟨counted.core,counted.ranked⟩
  | block reason =>
    simp only [forceCall,current,Option.map_some] at call
    cases call
    exact caller_core s q c i inv _ (fun _ => rfl) (fun _ => rfl) (by simp) allowed
  | sleep uptime ms =>
    simp only [forceCall,current,Option.map_some] at call
    split at call <;> cases call
    exact caller_core s q c i inv _ (fun _ => rfl) (fun _ => rfl) (by simp) allowed
  | exit =>
    simp only [forceCall,current,Option.map_some] at call
    cases call
    exact caller_core s q c i inv _ (fun _ => rfl) (fun _ => rfl) (by simp) allowed
  | create name stackSize guard stack => cases call
  | unblock task => cases call
  | enable => cases call
  | disable => cases call

theorem enabled_inv (enabled : Bool) : Inv {s with enabled := enabled} q c i := by
  obtain ⟨core,unblocked,ranked⟩ := inv
  refine ⟨⟨?_,core.ready,core.current,core.awake,core.idle,core.idleState⟩,unblocked,
    ⟨ranked.bounded,ranked.lowest,ranked.placed⟩⟩
  exact queued_congr s _ q core.queued (fun _ => rfl) rfl rfl

theorem quiet_inv (op : Op) (allowed : Allowed s op) (quiet : forceCall s op = none) :
    ∃ q', Inv (step s op) q' c i := by
  have current := inv.core.current
  cases op with
  | schedule =>
    rw [schedule_quiet s quiet]
    exact ⟨q,inv⟩
  | scheduleForce => cases quiet
  | tick =>
    rcases tick_quiet s c current quiet with same | counted
    · rw [same]
      exact ⟨q,inv⟩
    · rw [counted]
      exact ⟨q,account_inv s q c i inv⟩
  | block reason => simp [forceCall,current] at quiet
  | sleep uptime ms =>
    obtain ⟨core,ranked⟩ := caller_core s q c i inv
      (fun x => {x with wakeTime := uptime + ms.setWidth 64,state := .sleeping}) (fun _ => rfl) (fun _ => rfl)
      (by simp) allowed
    rw [sleep_quiet s c current uptime ms quiet]
    refine ⟨q,core,?_,ranked⟩
    rw [setTask_tasks,if_pos rfl]
    simp
  | exit => simp [forceCall,current] at quiet
  | create name stackSize guard stack => exact create_inv s q c i inv name stackSize guard stack
  | unblock task => exact unblock_inv s q c i inv task
  | enable => exact ⟨q,enabled_inv s q c i inv true⟩
  | disable => exact ⟨q,enabled_inv s q c i inv false⟩

theorem step_inv (op : Op) (allowed : Allowed s op) : ∃ q' c', Inv (step s op) q' c' i := by
  cases call : forceCall s op with
  | none =>
    obtain ⟨q',kept⟩ := quiet_inv s q c i inv op allowed call
    exact ⟨q',c,kept⟩
  | some s₁ =>
    obtain ⟨core,ranked⟩ := call_core s q c i inv op allowed s₁ call
    rw [step_of_call s op s₁ call]
    exact force_inv s₁ q c i core ranked

end

/-- A state that `black_scheduler_init` leaves after creating idle. -/
structure Booted (s : State) : Prop where
  init : ∃ guard kernelStack idleStack, blackSchedulerInit unset guard kernelStack idleStack = s
  created : s.idle ≠ none

def idleFilled (guard kernelStack idleStack : Word) : State :=
  let s := (bootKernel unset guard kernelStack).setTask 1 (fun x => {x with state := .ready})
  State.setTask {s with nextTid := 2} 1
    (fillTask 1 0 (ascii "black_idle") blackDefaultStack guard idleStack)

/-- The end of `black_scheduler_init`: idle is lowered while it is queued. -/
def lowered (s : State) : State :=
  State.setTask {s with idle := some 1} 1 (fun x => {x with priority := 255,mlfqLevel := 3})

theorem init_eq (guard kernelStack idleStack : Word) (room : idleStack ≠ 0) :
    blackSchedulerInit unset guard kernelStack idleStack =
      lowered (blackEnqueue (idleFilled guard kernelStack idleStack) 1) := by
  have found : (List.finRange 128).find?
      (fun i => ((bootKernel unset guard kernelStack).tasks i).state = .unused) = some 1 := rfl
  simp only [blackSchedulerInit,blackTaskCreate,found,if_neg room]
  rfl

theorem init_without_idle (guard kernelStack : Word) :
    (blackSchedulerInit unset guard kernelStack 0).idle = none := rfl

section
variable (guard kernelStack idleStack : Word)

theorem idleFilled_state (x : Slot) (other : x ≠ 1) :
    ((idleFilled guard kernelStack idleStack).tasks x).state = (if x = 0 then .running else .unused) ∧
      ((idleFilled guard kernelStack idleStack).tasks x).mlfqLevel = 0 := by
  have kernel : (idleFilled guard kernelStack idleStack).tasks x =
      (bootKernel unset guard kernelStack).tasks x := by
    rw [idleFilled,setTask_tasks,if_neg other]
    dsimp only
    rw [setTask_tasks,if_neg other]
  rw [kernel,bootKernel]
  dsimp only
  rw [setTask_tasks]
  by_cases first : x = 0
  · rw [if_pos first,if_pos first]
    exact ⟨rfl,rfl⟩
  · rw [if_neg first,if_neg first]
    exact ⟨rfl,rfl⟩

theorem idleFilled_queued : Queued (idleFilled guard kernelStack idleStack) (fun _ => []) :=
  ⟨fun _ => rfl,fun _ => rfl,fun t => by simp [occurrences]⟩

theorem lowered_state (x : Slot) :
    ((lowered (blackEnqueue (idleFilled guard kernelStack idleStack) 1)).tasks x).state =
      if x = 1 then .ready else if x = 0 then .running else .unused := by
  have enqueued := unlinked_state (enqueue_task (idleFilled guard kernelStack idleStack) 1 x)
  rw [lowered,setTask_tasks]
  by_cases own : x = 1
  · rw [if_pos own] at enqueued
    rw [if_pos own,if_pos own]
    exact enqueued
  · rw [if_neg own,(idleFilled_state guard kernelStack idleStack x own).1] at enqueued
    rw [if_neg own,if_neg own]
    exact enqueued

theorem lowered_level (x : Slot) :
    ((lowered (blackEnqueue (idleFilled guard kernelStack idleStack) 1)).tasks x).mlfqLevel =
      if x = 1 then 3 else 0 := by
  have enqueued := unlinked_level (enqueue_task (idleFilled guard kernelStack idleStack) 1 x)
  rw [lowered,setTask_tasks]
  by_cases own : x = 1
  · rw [if_pos own,if_pos own]
  · rw [if_neg own,(idleFilled_state guard kernelStack idleStack x own).2] at enqueued
    rw [if_neg own,if_neg own]
    exact enqueued

/-- The first state: the kernel task runs, and idle alone is queued, at level 0. -/
theorem init_inv (room : idleStack ≠ 0) : Inv (blackSchedulerInit unset guard kernelStack idleStack)
    (appended (idleFilled guard kernelStack idleStack) (fun _ => []) 1) 0 1 := by
  have absent : occurrences (fun _ => [] : Queues) 1 = 0 := by simp [occurrences]
  have queued := enqueue_queued _ 1 _ (idleFilled_queued guard kernelStack idleStack) absent
  have idle : ((idleFilled guard kernelStack idleStack).tasks 1).mlfqLevel = 0 := rfl
  rw [init_eq guard kernelStack idleStack room]
  have state := lowered_state guard kernelStack idleStack
  have level := lowered_level guard kernelStack idleStack
  have alone (l : Level) (t : Slot)
      (member : t ∈ appended (idleFilled guard kernelStack idleStack) (fun _ => []) 1 l) : t = 1 := by
    unfold appended at member
    by_cases here : l = queueLevel ((idleFilled guard kernelStack idleStack).tasks 1).mlfqLevel
    · rw [here,Function.update_self] at member
      simpa using member
    · rw [Function.update_of_ne here] at member
      cases member
  refine ⟨⟨?_,?_,?_,?_,rfl,?_⟩,?_,?_,?_,?_⟩
  · have named : Queued {blackEnqueue (idleFilled guard kernelStack idleStack) 1 with idle := some 1} _ :=
      queued_congr _ _ _ queued (fun _ => rfl) rfl rfl
    exact queued_setTask _ _ named 1 (fun x => {x with priority := 255,mlfqLevel := 3}) (fun _ => rfl)
  · intro t
    rw [occurrences_appended,state]
    by_cases own : t = 1
    · simp [own,absent]
    · have none_ : occurrences (fun _ => [] : Queues) t = 0 := by simp [occurrences]
      rw [none_,if_neg own,if_neg own]
      split <;> rfl
  · exact enqueue_current (idleFilled guard kernelStack idleStack) 1
  · rw [state]
    decide
  · rw [state]
    exact Or.inl rfl
  · rw [state]
    decide
  · intro t
    rw [level]
    split <;> omega
  · rw [level]
    rfl
  · intro l t member notIdle
    exact absurd (alone l t member) notIdle

end

theorem init_booted : Booted (blackSchedulerInit unset 7 4096 8192) := ⟨⟨7,4096,8192,rfl⟩,by decide⟩

theorem booted_eq (s : State) (booted : Booted s) : ∃ guard kernelStack idleStack, idleStack ≠ 0 ∧
    blackSchedulerInit unset guard kernelStack idleStack = s := by
  obtain ⟨⟨guard,kernelStack,idleStack,init⟩,created⟩ := booted
  refine ⟨guard,kernelStack,idleStack,?_,init⟩
  intro none_
  rw [← init,none_] at created
  exact created (init_without_idle guard kernelStack)

theorem booted_inv (s : State) (booted : Booted s) : ∃ q, Inv s q 0 1 := by
  obtain ⟨guard,kernelStack,idleStack,room,init⟩ := booted_eq s booted
  rw [← init]
  exact ⟨_,init_inv guard kernelStack idleStack room⟩

theorem booted_state (s : State) (booted : Booted s) (x : Slot) :
    (s.tasks x).state = if x = 1 then .ready else if x = 0 then .running else .unused := by
  obtain ⟨guard,kernelStack,idleStack,room,init⟩ := booted_eq s booted
  rw [← init,init_eq guard kernelStack idleStack room]
  exact lowered_state guard kernelStack idleStack x

theorem run_inv (first : State) (booted : Booted first) (ops : List Op) (s : State)
    (run : Steps Next first ops s) : ∃ q c, Inv s q c 1 := by
  obtain ⟨q,inv⟩ := booted_inv first booted
  refine Steps.invariant (fun s => ∃ q c, Inv s q c 1) ⟨q,0,inv⟩ ?_ run
  intro s op s' held next
  obtain ⟨q,c,inv⟩ := held
  obtain ⟨allowed,done⟩ := next
  rw [← done]
  exact step_inv s q c 1 inv op allowed

end BlackOS.Scheduler
