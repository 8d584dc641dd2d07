import BlackOS.SchedulerRun

/-! How the calls of the scheduler change the states of the tasks, before and
without a call of `black_schedule_force`. -/
namespace BlackOS.Scheduler
open BlackOS.Library.Ram

/-- The state `new` of task `t` after a call that does not reach `black_schedule_force`. -/
def QuietState (s : State) (op : Op) (t : Slot) (new : TaskState) : Prop :=
  new = (s.tasks t).state ∨
  (s.tasks t).state = .unused ∧ new = .ready ∨
  op = .unblock (some t) ∧ (s.tasks t).state = .blocked ∧ new = .ready ∨
  s.current = some t ∧ (∃ uptime ms, op = .sleep uptime ms) ∧ new = .sleeping

/-- The state `new` of task `t` where a call reaches `black_schedule_force`. -/
def CallState (s : State) (op : Op) (t : Slot) (new : TaskState) : Prop :=
  new = (s.tasks t).state ∨
  s.current = some t ∧
    ((∃ reason, op = .block reason) ∧ new = .blocked ∨
    (∃ uptime ms, op = .sleep uptime ms) ∧ new = .sleeping ∨ op = .exit ∧ new = .zombie)

theorem setTask_state (s : State) (t : Slot) (f : Task → Task) (kept : ∀ x, (f x).state = x.state) (x : Slot) :
    ((s.setTask t f).tasks x).state = (s.tasks x).state := by
  rw [setTask_tasks]
  split
  · exact kept _
  · rfl

theorem enqueue_state (s : State) (t x : Slot) :
    ((blackEnqueue s t).tasks x).state = if x = t then .ready else (s.tasks x).state := by
  rw [unlinked_state (enqueue_task s t x)]
  split <;> rfl

theorem create_current (s : State) (name : List Byte) (stackSize guard stack : Word) :
    (blackTaskCreate s name stackSize guard stack).1.current = s.current := by
  rcases create_cases s name stackSize guard stack with ⟨fails,_⟩ | ⟨t,_,_,_,succeeds⟩
  · rw [fails]
  · rw [succeeds]
    exact enqueue_current _ _

theorem create_state (s : State) (name : List Byte) (stackSize guard stack : Word) (x : Slot) :
    ((blackTaskCreate s name stackSize guard stack).1.tasks x).state = (s.tasks x).state ∨
      (s.tasks x).state = .unused ∧ ((blackTaskCreate s name stackSize guard stack).1.tasks x).state = .ready := by
  rcases create_cases s name stackSize guard stack with ⟨fails,_⟩ | ⟨t,unused,_,_,succeeds⟩
  · rw [fails]
    exact Or.inl rfl
  · rw [succeeds]
    dsimp only
    rw [enqueue_state]
    by_cases same : x = t
    · rw [if_pos same,same]
      exact Or.inr ⟨not_not.mp unused,rfl⟩
    · left
      rw [if_neg same,occupied_tasks s t name stackSize guard stack x same]

theorem unblock_current (s : State) (task : Option Slot) : (blackTaskUnblock s task).current = s.current := by
  unfold blackTaskUnblock
  split
  · rfl
  · split
    · rfl
    · exact enqueue_current _ _

theorem unblock_state (s : State) (task : Option Slot) (x : Slot) :
    ((blackTaskUnblock s task).tasks x).state = (s.tasks x).state ∨
      task = some x ∧ (s.tasks x).state = .blocked ∧ ((blackTaskUnblock s task).tasks x).state = .ready := by
  unfold blackTaskUnblock
  split
  · exact Or.inl rfl
  · rename_i t
    split
    · exact Or.inl rfl
    · rename_i blocked
      rw [enqueue_state]
      by_cases same : x = t
      · rw [if_pos same,same]
        exact Or.inr ⟨rfl,not_not.mp blocked,rfl⟩
      · left
        rw [if_neg same,setTask_tasks,if_neg same]

theorem account_state (s : State) (c x : Slot) : ((account s c).tasks x).state = (s.tasks x).state :=
  setTask_state s c (fun x => {x with cpuTime := x.cpuTime + 1,timeUsed := x.timeUsed + 1}) (fun _ => rfl) x

section
variable (s : State) (c : Slot) (current : s.current = some c)
include current

theorem caller_state (f : Task → Task) (new : TaskState) (becomes : ∀ x, (f x).state = new) (x : Slot) :
    ((s.setTask c f).tasks x).state = (s.tasks x).state ∨
      s.current = some x ∧ ((s.setTask c f).tasks x).state = new := by
  rw [setTask_tasks]
  by_cases same : x = c
  · rw [if_pos same]
    exact Or.inr ⟨by rw [current,same],becomes _⟩
  · rw [if_neg same]
    exact Or.inl rfl

theorem quiet_current (op : Op) (quiet : forceCall s op = none) : (step s op).current = s.current := by
  cases op with
  | create name stackSize guard stack => exact create_current s name stackSize guard stack
  | schedule => rw [schedule_quiet s quiet]
  | scheduleForce => cases quiet
  | tick =>
    rcases tick_quiet s c current quiet with same | counted
    · rw [same]
    · rw [counted]
      rfl
  | block reason => simp [forceCall,current] at quiet
  | unblock task => exact unblock_current s task
  | sleep uptime ms =>
    rw [sleep_quiet s c current uptime ms quiet]
    rfl
  | exit => simp [forceCall,current] at quiet
  | enable => rfl
  | disable => rfl

theorem quiet_state (op : Op) (quiet : forceCall s op = none) (x : Slot) :
    QuietState s op x ((step s op).tasks x).state := by
  cases op with
  | create name stackSize guard stack =>
    rcases create_state s name stackSize guard stack x with same | fresh
    · exact Or.inl same
    · exact Or.inr (Or.inl fresh)
  | schedule =>
    rw [schedule_quiet s quiet]
    exact Or.inl rfl
  | scheduleForce => cases quiet
  | tick =>
    left
    rcases tick_quiet s c current quiet with same | counted
    · rw [same]
    · rw [counted]
      exact account_state s c x
  | block reason => simp [forceCall,current] at quiet
  | unblock task =>
    rcases unblock_state s task x with same | ⟨isTask,blocked,ready⟩
    · exact Or.inl same
    · exact Or.inr (Or.inr (Or.inl ⟨by rw [isTask],blocked,ready⟩))
  | sleep uptime ms =>
    rw [sleep_quiet s c current uptime ms quiet]
    rcases caller_state s c current (fun x => {x with wakeTime := uptime + ms.setWidth 64,state := .sleeping})
      .sleeping (fun _ => rfl) x with same | ⟨isCaller,sleeps⟩
    · exact Or.inl same
    · exact Or.inr (Or.inr (Or.inr ⟨isCaller,⟨uptime,ms,rfl⟩,sleeps⟩))
  | exit => simp [forceCall,current] at quiet
  | enable => exact Or.inl rfl
  | disable => exact Or.inl rfl

theorem call_state (op : Op) (s₁ : State) (call : forceCall s op = some s₁) (x : Slot) :
    CallState s op x (s₁.tasks x).state := by
  cases op with
  | schedule =>
    simp only [forceCall] at call
    split at call <;> cases call
    exact Or.inl rfl
  | scheduleForce =>
    cases call
    exact Or.inl rfl
  | tick =>
    simp only [forceCall,current] at call
    split at call <;> cases call
    exact Or.inl (account_state s c x)
  | block reason =>
    simp only [forceCall,current,Option.map_some] at call
    cases call
    rcases caller_state s c current (fun x => {x with state := .blocked,blockReason := reason}) .blocked
      (fun _ => rfl) x with same | ⟨isCaller,becomes⟩
    · exact Or.inl same
    · exact Or.inr ⟨isCaller,Or.inl ⟨⟨reason,rfl⟩,becomes⟩⟩
  | sleep uptime ms =>
    simp only [forceCall,current,Option.map_some] at call
    split at call <;> cases call
    rcases caller_state s c current (fun x => {x with wakeTime := uptime + ms.setWidth 64,state := .sleeping})
      .sleeping (fun _ => rfl) x with same | ⟨isCaller,becomes⟩
    · exact Or.inl same
    · exact Or.inr ⟨isCaller,Or.inr (Or.inl ⟨⟨uptime,ms,rfl⟩,becomes⟩)⟩
  | exit =>
    simp only [forceCall,current,Option.map_some] at call
    cases call
    rcases caller_state s c current (fun x => {x with state := .zombie}) .zombie (fun _ => rfl) x
      with same | ⟨isCaller,becomes⟩
    · exact Or.inl same
    · exact Or.inr ⟨isCaller,Or.inr (Or.inr ⟨rfl,becomes⟩)⟩
  | create name stackSize guard stack => cases call
  | unblock task => cases call
  | enable => cases call
  | disable => cases call

end

end BlackOS.Scheduler
