import BlackOS.SchedulerContract

/-! Sleeping tasks. `black_task_sleep` stores a wake time that no other function reads, so
`black_scheduler_tick` ends a sleep only by switching to the sleeper itself. -/
namespace BlackOS.Scheduler
open BlackOS.Library.Ram BlackOS.Library.Linked BlackOS.Library.Run

/-- The task is not SLEEPING; it is READY in one run queue, or it is the current task. -/
def Woken (s : State) (t : Slot) : Prop :=
  (s.tasks t).state ≠ .sleeping ∧
    ((s.tasks t).state = .ready ∧ (∃ q, Queued s q ∧ occurrences q t = 1) ∨ s.current = some t)

/-- The first task of the best queue, or idle when every queue is empty. -/
def Chosen (s : State) (t : Slot) : Prop :=
  (∃ k, FirstQueued s k t) ∨ (∀ l, s.heads l = none) ∧ s.idle = some t

/-- The next tick ends the slice of the current task, and the task is chosen in its place. -/
def Resumed (s : State) (t : Slot) : Prop :=
  ∃ c, s.current = some c ∧ c ≠ t ∧ (s.tasks c).tid ≠ 0 ∧
    (s.tasks c).timeSlice ≤ (s.tasks c).timeUsed + 1 ∧ Chosen s t

theorem requeue_sleeping (s : State) (c t : Slot) (sleeping : (s.tasks t).state = .sleeping) :
    ((requeue s c).tasks t).state = .sleeping := by
  unfold requeue
  split
  · rename_i yields
    have other : t ≠ c := by
      intro same
      rw [same,yields.1] at sleeping
      cases sleeping
    rw [enqueue_state,if_neg other,setTask_tasks,if_neg other]
    exact sleeping
  · exact sleeping

/-- A switch makes the next task RUNNING and leaves every other sleeper asleep. -/
theorem switch_sleeping (s : State) (n t : Slot) (sleeping : (s.tasks t).state = .sleeping) :
    (switchTo s n).current = some n ∧
      ((switchTo s n).tasks t).state = if t = n then .running else .sleeping := by
  have ends (s : State) (asleep : (s.tasks t).state = .sleeping) :
      ((handed s n).tasks t).state = if t = n then .running else .sleeping := by
    rw [handed,setTask_tasks]
    split
    · rfl
    · exact asleep
  unfold switchTo
  cases s.current with
  | none =>
    dsimp only
    split
    · exact ⟨rfl,ends s sleeping⟩
    · exact ⟨rfl,ends s sleeping⟩
  | some prev =>
    have asleep := requeue_sleeping s prev t sleeping
    dsimp only
    split
    · exact ⟨rfl,ends _ asleep⟩
    · exact ⟨rfl,ends _ asleep⟩

theorem switch_woken (s : State) (n t : Slot) (sleeping : (s.tasks t).state = .sleeping) :
    Woken (switchTo s n) t ↔ t = n := by
  obtain ⟨current,state⟩ := switch_sleeping s n t sleeping
  by_cases next : t = n
  · rw [if_pos next] at state
    refine iff_of_true ⟨by rw [state]; nofun,Or.inr ?_⟩ next
    rw [current,next]
  · rw [if_neg next] at state
    exact iff_of_false (fun woken => woken.1 state) next

theorem asleep_not_woken (s : State) (t : Slot) (sleeping : (s.tasks t).state = .sleeping) : ¬Woken s t :=
  fun woken => woken.1 sleeping

theorem chosen_idle (s : State) (t : Slot) (empty : ∀ l, s.heads l = none) : Chosen s t ↔ s.idle = some t := by
  constructor
  · intro either
    rcases either with ⟨k,head,_⟩ | ⟨_,idle⟩
    · rw [empty k] at head
      cases head
    · exact idle
  · exact fun idle => Or.inr ⟨empty,idle⟩

theorem chosen_queued (s : State) (k : Level) (h t : Slot) (first : FirstQueued s k h) : Chosen s t ↔ h = t := by
  constructor
  · intro either
    rcases either with ⟨k',other⟩ | ⟨empty,_⟩
    · exact (firstQueued_unique s k k' h t first other).2
    · have head := first.1
      rw [empty k] at head
      cases head
  · intro same
    rw [← same]
    exact Or.inl ⟨k,first⟩

theorem popped_current (s : State) (k : Level) (h : Slot) : (popped s k h).current = s.current := by
  unfold popped
  split
  · rfl
  · rfl

/-- `black_schedule_force` ends a sleep exactly when it switches to the sleeper. -/
theorem force_woken (s : State) (c : Slot) (current : s.current = some c) (t : Slot)
    (sleeping : (s.tasks t).state = .sleeping) : Woken (blackScheduleForce s) t ↔ c ≠ t ∧ Chosen s t := by
  unfold blackScheduleForce
  rw [if_neg (by decide)]
  rcases dequeue_cases s with ⟨empty,result⟩ | ⟨k,h,head,above,result⟩
  · rw [result,chosen_idle s t empty]
    dsimp only
    cases idle : s.idle with
    | none =>
      rw [if_neg (fun both => both.1 rfl)]
      exact iff_of_false (asleep_not_woken s t sleeping) (fun both => nomatch both.2)
    | some i =>
      rw [current]
      by_cases alone : c = i
      · rw [if_neg (fun both => both.2 (congrArg some alone))]
        refine iff_of_false (asleep_not_woken s t sleeping) ?_
        exact fun both => both.1 (alone.trans (Option.some.inj both.2))
      · rw [if_pos ⟨nofun,fun same => alone (Option.some.inj same)⟩]
        dsimp only
        rw [if_neg (fun same => alone (Option.some.inj same)),switch_woken s i t sleeping]
        constructor
        · intro same
          rw [same]
          exact ⟨alone,rfl⟩
        · exact fun both => (Option.some.inj both.2).symm
  · have asleep : ((popped s k h).tasks t).state = .sleeping :=
      (unlinked_state (popped_task s k h t)).trans sleeping
    rw [result,chosen_queued s k h t ⟨head,above⟩]
    dsimp only
    rw [popped_current,current]
    by_cases itself : c = h
    · rw [if_pos (congrArg some itself)]
      refine iff_of_false (asleep_not_woken _ t asleep) ?_
      exact fun both => both.1 (itself.trans both.2)
    · rw [if_neg (fun same => itself (Option.some.inj same)),switch_woken _ h t asleep]
      constructor
      · intro same
        rw [same]
        exact ⟨itself,rfl⟩
      · exact fun both => both.2.symm

theorem tick_woken (s : State) (enabled : s.enabled = true) (t : Slot) (sleeping : (s.tasks t).state = .sleeping) :
    Woken (blackSchedulerTick s) t ↔ Resumed s t := by
  unfold blackSchedulerTick
  cases current : s.current with
  | none =>
    refine iff_of_false (asleep_not_woken s t sleeping) ?_
    intro resumed
    obtain ⟨c,isCurrent,_⟩ := resumed
    rw [current] at isCurrent
    cases isCurrent
  | some c =>
    have asleep : ((account s c).tasks t).state = .sleeping := (account_state s c t).trans sleeping
    have own : (account s c).tasks c =
        {s.tasks c with cpuTime := (s.tasks c).cpuTime + 1,timeUsed := (s.tasks c).timeUsed + 1} := by
      rw [account,setTask_tasks,if_pos rfl]
    have resumed : Resumed s t ↔ ((s.tasks c).tid ≠ 0 ∧ (s.tasks c).timeSlice ≤ (s.tasks c).timeUsed + 1) ∧
        c ≠ t ∧ Chosen s t := by
      constructor
      · intro some_
        obtain ⟨c',isCurrent,other,numbered,ends,chosen⟩ := some_
        rw [← Option.some.inj (current.symm.trans isCurrent)] at other numbered ends
        exact ⟨⟨numbered,ends⟩,other,chosen⟩
      · intro parts
        obtain ⟨⟨numbered,ends⟩,other,chosen⟩ := parts
        exact ⟨c,current,other,numbered,ends,chosen⟩
    dsimp only
    rw [if_neg (by simp [enabled]),own,resumed]
    dsimp only
    split
    · rename_i ends
      have schedules : blackSchedule (account s c) = blackScheduleForce (account s c) := by
        have still : (account s c).enabled = true := enabled
        rw [blackSchedule,if_neg (by simp [still,blackSchedLock])]
      rw [schedules,force_woken (account s c) c current t asleep]
      exact ⟨fun both => ⟨ends,both⟩,fun all => all.2⟩
    · rename_i lasts
      exact iff_of_false (asleep_not_woken _ t asleep) (fun all => lasts all.1)

theorem sleeper_not_chosen (first : State) (booted : Booted first) (ops : List Op) (s : State)
    (run : Steps Next first ops s) (t : Slot) (sleeping : (s.tasks t).state = .sleeping) : ¬Chosen s t := by
  obtain ⟨q,c,inv⟩ := run_inv first booted ops s run
  intro chosen
  rcases chosen with ⟨k,first⟩ | ⟨_,idle⟩
  · obtain ⟨⟨rest,shape⟩,_⟩ := (firstQueued_iff s q c 1 inv.core k t).mp first
    have ready := core_ready s q c 1 inv.core k t (by simp [shape])
    rw [sleeping] at ready
    cases ready
  · have same : t = 1 := Option.some.inj (idle.symm.trans inv.core.idle)
    refine core_not_idle s q c 1 inv.core t ?_ ?_ same
    · rw [sleeping]
      nofun
    · rw [sleeping]
      nofun

def reached (guard kernelStack idleStack : Word) (ops : List Op) : State :=
  ops.foldl step (blackSchedulerInit unset guard kernelStack idleStack)

/-- A tick wakes a sleeper whose time has come exactly when it ends the current slice and the
sleeper is itself what the scheduler chooses next. Where idle was created and only other tasks
block, sleep and exit, that is never. -/
theorem sleeper_woken_iff (guard kernelStack idleStack : Word) (ops : List Op) (t : Slot)
    (enabled : (reached guard kernelStack idleStack ops).enabled = true)
    (sleeping : ((reached guard kernelStack idleStack ops).tasks t).state = .sleeping) :
    ∀ uptime, ((reached guard kernelStack idleStack ops).tasks t).wakeTime ≤ uptime →
      (Woken (blackSchedulerTick (reached guard kernelStack idleStack ops)) t ↔
        Resumed (reached guard kernelStack idleStack ops) t) ∧
      (Booted (blackSchedulerInit unset guard kernelStack idleStack) →
        Steps Next (blackSchedulerInit unset guard kernelStack idleStack) ops (reached guard kernelStack idleStack ops) →
        ¬Woken (blackSchedulerTick (reached guard kernelStack idleStack ops)) t) := by
  intro uptime _
  have woken := tick_woken _ enabled t sleeping
  refine ⟨woken,fun booted run wakes => ?_⟩
  obtain ⟨_,_,_,_,_,chosen⟩ := woken.mp wakes
  exact sleeper_not_chosen _ booted ops _ run t sleeping chosen

/-- Task 2 is made, gets the processor and sleeps for ten milliseconds from uptime 0. -/
def sleepOps : List Op :=
  [.create [] 0 7 16384,.scheduleForce,.scheduleForce,.enable,.sleep 0 10]

theorem sleeper_woken_iff_never : ((reached 7 4096 8192 sleepOps).tasks 2).wakeTime ≤ 1000 ∧
    (Woken (blackSchedulerTick (reached 7 4096 8192 sleepOps)) 2 ↔ Resumed (reached 7 4096 8192 sleepOps) 2) :=
  ⟨by decide,(sleeper_woken_iff 7 4096 8192 sleepOps 2 (by decide) (by decide) 1000 (by decide)).1⟩

theorem sleeper_not_woken : (reached 7 4096 8192 sleepOps).enabled = true ∧
    ((reached 7 4096 8192 sleepOps).tasks 2).state = .sleeping ∧
    ((reached 7 4096 8192 sleepOps).tasks 2).wakeTime ≤ 1000 ∧
    ¬Woken (blackSchedulerTick (reached 7 4096 8192 sleepOps)) 2 := by
  refine ⟨by decide,by decide,by decide,fun woken => ?_⟩
  exact woken.1 (by decide)

end BlackOS.Scheduler
