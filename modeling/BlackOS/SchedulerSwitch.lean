import BlackOS.SchedulerQueue

/-! What `black_schedule_force` does: it keeps the running task when only idle is
running and every queue is empty, and otherwise switches to the first task of the
best queue, or to idle when there is none. -/
namespace BlackOS.Scheduler
open BlackOS.Library.Linked

/-- The task goes back to a queue when the processor is taken from it. -/
def Yields (s : State) (c : Slot) : Prop := (s.tasks c).state = .running ∧ s.idle ≠ some c

instance (s : State) (c : Slot) : Decidable (Yields s c) :=
  inferInstanceAs (Decidable ((s.tasks c).state = .running ∧ s.idle ≠ some c))

theorem expire_unlinked (x : Task) : (expire x).unlinked = expire x.unlinked := by
  unfold expire
  by_cases expired : x.timeSlice ≤ x.timeUsed
  · have same : x.unlinked.timeSlice ≤ x.unlinked.timeUsed := expired
    rw [if_pos expired,if_pos same]
    rfl
  · have same : ¬x.unlinked.timeSlice ≤ x.unlinked.timeUsed := expired
    rw [if_neg expired,if_neg same]

theorem expire_next (x : Task) : (expire x).next = x.next := by
  unfold expire
  split <;> rfl

section
variable {x y : Task} (same : x.unlinked = y.unlinked)
include same

theorem unlinked_state : x.state = y.state := by
  have equal := congrArg Task.state same
  exact equal

theorem unlinked_level : x.mlfqLevel = y.mlfqLevel := by
  have equal := congrArg Task.mlfqLevel same
  exact equal

theorem unlinked_expire : (expire x).unlinked = (expire y).unlinked := by
  rw [expire_unlinked,expire_unlinked,same]

end

def SameFrame (s s' : State) : Prop := s'.idle = s.idle ∧ s'.enabled = s.enabled

structure Requeued (s s' : State) (q q' : Queues) (c : Slot) : Prop where
  queued : Queued s' q'
  count : ∀ x, occurrences q' x = occurrences q x + if x = c ∧ Yields s c then 1 else 0
  member : ∀ l x, x ∈ q' l →
    x ∈ q l ∨ x = c ∧ Yields s c ∧ l = queueLevel (expire (s.tasks c)).mlfqLevel
  task : ∀ x, (s'.tasks x).unlinked =
    (if x = c ∧ Yields s c then {expire (s.tasks x) with state := .ready} else s.tasks x).unlinked
  frame : SameFrame s s'

theorem requeue_spec (s : State) (q : Queues) (queued : Queued s q) (c : Slot)
    (absent : occurrences q c = 0) : ∃ q', Requeued s (requeue s c) q q' c := by
  by_cases yields : Yields s c
  · have expired := queued_setTask s q queued c expire expire_next
    have own : (s.setTask c expire).tasks c = expire (s.tasks c) := by rw [setTask_tasks,if_pos rfl]
    have shape : requeue s c = blackEnqueue (s.setTask c expire) c := if_pos yields
    rw [shape]
    refine ⟨_,enqueue_queued _ c q expired absent,?_,?_,?_,by simp [SameFrame,State.setTask]⟩
    · intro x
      rw [occurrences_appended]
      simp only [yields,and_true]
    · intro l x member
      unfold appended at member
      rw [own] at member
      by_cases here : l = queueLevel (expire (s.tasks c)).mlfqLevel
      · rw [here,Function.update_self,List.mem_append,List.mem_singleton] at member
        rw [here]
        rcases member with old | new
        · exact Or.inl old
        · exact Or.inr ⟨new,yields,rfl⟩
      · rw [Function.update_of_ne here] at member
        exact Or.inl member
    · intro x
      rw [enqueue_task,setTask_tasks]
      by_cases same : x = c
      · simp only [same,yields,and_self,if_true]
      · simp only [same,false_and,if_false]
  · have shape : requeue s c = s := if_neg yields
    rw [shape]
    refine ⟨q,queued,?_,?_,?_,rfl,rfl⟩
    · intro x
      simp [yields]
    · intro l x member
      exact Or.inl member
    · intro x
      simp [yields]

/-- The task that is run next is the first of the best queue, or idle. -/
def Picks (q : Queues) (c i t : Slot) : Prop :=
  (∃ k rest, q k = t::rest ∧ ∀ l, l < k → q l = []) ∨ ((∀ l, q l = []) ∧ t = i ∧ c ≠ i)

/-- A switch from task `c` to task `t`. -/
structure Switched (s s' : State) (q q' : Queues) (c t : Slot) : Prop where
  current : s'.current = some t
  queued : Queued s' q'
  count : ∀ x, occurrences q' x =
    if x = t then 0 else occurrences q x + if x = c ∧ Yields s c then 1 else 0
  member : ∀ l x, x ∈ q' l →
    x ∈ q l ∨ x = c ∧ Yields s c ∧ l = queueLevel (expire (s.tasks c)).mlfqLevel
  task : ∀ x, (s'.tasks x).unlinked =
    (if x = t then {s.tasks x with state := .running}
    else if x = c ∧ Yields s c then {expire (s.tasks x) with state := .ready} else s.tasks x).unlinked
  frame : SameFrame s s'

def handed (s : State) (t : Slot) : State :=
  State.setTask {s with current := some t} t (fun x => {x with state := .running})

theorem handed_queued (s : State) (q : Queues) (queued : Queued s q) (t : Slot) : Queued (handed s t) q := by
  have moved : Queued {s with current := some t} q := queued_congr s _ q queued (fun _ => rfl) rfl rfl
  exact queued_setTask _ q moved t (fun x => {x with state := .running}) (fun _ => rfl)

theorem switchTo_spec (s : State) (q : Queues) (queued : Queued s q) (c t : Slot)
    (current : s.current = some c) (other : c ≠ t) (absentC : occurrences q c = 0)
    (absentT : occurrences q t = 0) : ∃ q', Switched s (switchTo s t) q q' c t := by
  obtain ⟨q',requeued⟩ := requeue_spec s q queued c absentC
  refine ⟨q',?_⟩
  have notPrev (x : Slot) (next : x = t) : ¬(x = c ∧ Yields s c) :=
    fun both => other (both.1.symm.trans next)
  have runs := handed_queued (requeue s c) q' requeued.queued t
  have task (x : Slot) : ((handed (requeue s c) t).tasks x).unlinked =
      (if x = t then {s.tasks x with state := .running}
      else if x = c ∧ Yields s c then {expire (s.tasks x) with state := .ready} else s.tasks x).unlinked := by
    have kept := requeued.task x
    rw [handed,setTask_tasks]
    by_cases next : x = t
    · rw [if_neg (notPrev x next)] at kept
      rw [if_pos next,if_pos next]
      exact congrArg (fun y : Task => {y with state := .running}) kept
    · rw [if_neg next,if_neg next]
      exact kept
  have count (x : Slot) : occurrences q' x =
      if x = t then 0 else occurrences q x + if x = c ∧ Yields s c then 1 else 0 := by
    rw [requeued.count]
    by_cases next : x = t
    · rw [if_neg (notPrev x next),if_pos next,next,absentT]
    · rw [if_neg next]
  -- the last branch only records the stack top
  simp only [switchTo,current]
  split
  · refine ⟨rfl,?_,count,requeued.member,task,requeued.frame⟩
    exact queued_congr _ _ q' runs (fun _ => rfl) rfl rfl
  · exact ⟨rfl,runs,count,requeued.member,task,requeued.frame⟩

/-- What holds whenever `black_schedule_force` is called: the queues hold exactly
the READY tasks, the calling task is none of them, and idle was created and waits
or runs. -/
structure Core (s : State) (q : Queues) (c i : Slot) : Prop where
  queued : Queued s q
  ready : ∀ t, occurrences q t = if (s.tasks t).state = .ready then 1 else 0
  current : s.current = some c
  awake : (s.tasks c).state ≠ .ready ∧ (s.tasks c).state ≠ .unused
  idle : s.idle = some i
  idleState : (s.tasks i).state = .ready ∨ (s.tasks i).state = .running

theorem core_absent (s : State) (q : Queues) (c i : Slot) (core : Core s q c i) (t : Slot)
    (notReady : (s.tasks t).state ≠ .ready) : occurrences q t = 0 := by
  rw [core.ready,if_neg notReady]

theorem core_ready (s : State) (q : Queues) (c i : Slot) (core : Core s q c i) (l : Level) (t : Slot)
    (member : t ∈ q l) : (s.tasks t).state = .ready := by
  by_contra notReady
  exact (occurrences_zero q t).mp (core_absent s q c i core t notReady) l member

theorem core_not_idle (s : State) (q : Queues) (c i : Slot) (core : Core s q c i) (t : Slot)
    (notReady : (s.tasks t).state ≠ .ready) (notRunning : (s.tasks t).state ≠ .running) : t ≠ i := by
  intro same
  rw [same] at notReady notRunning
  rcases core.idleState with waits | runs
  · exact notReady waits
  · exact notRunning runs

section
variable (s s' : State) (q q' : Queues) (c t : Slot) (switched : Switched s s' q q' c t)
include switched

theorem switched_state (x : Slot) : (s'.tasks x).state =
    if x = t then .running else if x = c ∧ Yields s c then .ready else (s.tasks x).state := by
  rw [unlinked_state (switched.task x)]
  split
  · rfl
  · split <;> rfl

theorem switched_level (other : c ≠ t) (x : Slot) : (s'.tasks x).mlfqLevel =
    if x = c ∧ Yields s c then (expire (s.tasks x)).mlfqLevel else (s.tasks x).mlfqLevel := by
  rw [unlinked_level (switched.task x)]
  by_cases next : x = t
  · rw [if_pos next,if_neg (fun both => other (both.1.symm.trans next))]
  · rw [if_neg next]
    split <;> rfl

theorem switched_core (i : Slot) (core : Core s q c i) : Core s' q' t i := by
  have state := switched_state s s' q q' c t switched
  have running : (s'.tasks t).state = .running := by rw [state,if_pos rfl]
  refine ⟨switched.queued,?_,switched.current,by simp [running],by rw [switched.frame.1,core.idle],?_⟩
  · intro x
    rw [switched.count,state]
    by_cases next : x = t
    · simp [next]
    · rw [if_neg next,if_neg next]
      by_cases prev : x = c ∧ Yields s c
      · have absent := core_absent s q c i core x (by rw [prev.1]; exact core.awake.1)
        rw [if_pos prev,if_pos prev,absent]
        rfl
      · rw [if_neg prev,if_neg prev]
        exact core.ready x
  · by_cases next : i = t
    · rw [next]
      exact Or.inr running
    · have notPrev : ¬(i = c ∧ Yields s c) := fun both => both.2.2 (by rw [core.idle,both.1])
      rw [state,if_neg next,if_neg notPrev]
      exact core.idleState

end

/-- A state that differs from another in links only switches as that one does. -/
theorem switched_from (s s₁ s' : State) (q q₁ q' : Queues) (c t : Slot)
    (task : ∀ x, (s₁.tasks x).unlinked = (s.tasks x).unlinked) (frame : SameFrame s s₁)
    (count : ∀ x, x ≠ t → occurrences q₁ x = occurrences q x) (fewer : ∀ l x, x ∈ q₁ l → x ∈ q l)
    (switched : Switched s₁ s' q₁ q' c t) : Switched s s' q q' c t := by
  have yields : Yields s₁ c ↔ Yields s c := by
    unfold Yields
    rw [unlinked_state (task c),frame.1]
  have level : (expire (s₁.tasks c)).mlfqLevel = (expire (s.tasks c)).mlfqLevel :=
    unlinked_level (unlinked_expire (task c))
  refine ⟨switched.current,switched.queued,?_,?_,?_,?_⟩
  · intro x
    rw [switched.count]
    by_cases next : x = t
    · rw [if_pos next,if_pos next]
    · rw [if_neg next,if_neg next,count x next]
      simp only [yields]
  · intro l x member
    rcases switched.member l x member with old | ⟨isPrev,goes,place⟩
    · exact Or.inl (fewer l x old)
    · exact Or.inr ⟨isPrev,yields.mp goes,by rw [place,level]⟩
  · intro x
    rw [switched.task]
    simp only [yields]
    split
    · exact congrArg (fun y : Task => {y with state := .running}) (task x)
    · split
      · exact congrArg (fun y : Task => {y with state := .ready}) (unlinked_expire (task x))
      · exact task x
  · exact ⟨switched.frame.1.trans frame.1,switched.frame.2.trans frame.2⟩

theorem dequeues_rest (s s' : State) (q : Queues) (k : Level) (t : Slot) (rest : List Slot)
    (dequeues : Dequeues s s' q k t rest) (once : occurrences q t = 1) :
    occurrences (Function.update q k rest) t = 0 ∧
      (∀ x, x ≠ t → occurrences (Function.update q k rest) x = occurrences q x) ∧
      ∀ l x, x ∈ Function.update q k rest l → x ∈ q l := by
  have update (x : Slot) := occurrences_update q k rest x
  refine ⟨?_,?_,?_⟩
  · have balance := update t
    rw [dequeues.shape,List.count_cons_self] at balance
    omega
  · intro x different
    have balance := update x
    rw [dequeues.shape,List.count_cons_of_ne different.symm] at balance
    omega
  · intro l x inside
    by_cases here : l = k
    · subst here
      rw [Function.update_self] at inside
      rw [dequeues.shape]
      exact List.mem_cons_of_mem t inside
    · rwa [Function.update_of_ne here] at inside

/-- `black_schedule_force` stays only with idle and nothing queued; otherwise it
switches to the task it picks. -/
theorem force_spec (s : State) (q : Queues) (c i : Slot) (core : Core s q c i) :
    ((∀ l, q l = []) ∧ c = i ∧ blackScheduleForce s = s) ∨
      ∃ t q', Picks q c i t ∧ c ≠ t ∧ Switched s (blackScheduleForce s) q q' c t ∧
        Core (blackScheduleForce s) q' t i := by
  have absentC := core_absent s q c i core c core.awake.1
  rcases dequeue_spec s q core.queued with ⟨empty,result⟩ | ⟨s₁,k,t,rest,result,dequeues⟩
  · by_cases alone : c = i
    · refine Or.inl ⟨empty,alone,?_⟩
      simp [blackScheduleForce,blackSchedLock,result,core.current,core.idle,alone]
    · have force : blackScheduleForce s = switchTo s i := by
        have notSelf : ¬s.current = some i := by
          rw [core.current]
          exact fun same => alone (Option.some.inj same)
        simp [blackScheduleForce,blackSchedLock,result,core.idle,notSelf]
      have absentI : occurrences q i = 0 := (occurrences_zero q i).mpr (by simp [empty])
      obtain ⟨q',switched⟩ := switchTo_spec s q core.queued c i core.current alone absentC absentI
      rw [force]
      exact Or.inr ⟨i,q',Or.inr ⟨empty,rfl,alone⟩,alone,switched,
        switched_core s _ q q' c i switched i core⟩
  · have member : t ∈ q k := by simp [dequeues.shape]
    have ready := core_ready s q c i core k t member
    have other : c ≠ t := by
      intro same
      rw [← same] at ready
      exact core.awake.1 ready
    have force : blackScheduleForce s = switchTo s₁ t := by
      have notSelf : ¬s₁.current = some t := by
        rw [dequeues.current,core.current]
        exact fun same => other (Option.some.inj same)
      simp [blackScheduleForce,blackSchedLock,result,notSelf]
    obtain ⟨absentT,count,fewer⟩ := dequeues_rest s s₁ q k t rest dequeues (by rw [core.ready,if_pos ready])
    obtain ⟨q',switched⟩ := switchTo_spec s₁ _ dequeues.queued c t (dequeues.current.trans core.current) other
      (by rw [count c other,absentC]) absentT
    have whole := switched_from s s₁ _ q _ q' c t dequeues.task ⟨dequeues.idle,dequeues.enabled⟩ count fewer switched
    rw [force]
    exact Or.inr ⟨t,q',Or.inl ⟨k,rest,dequeues.shape,dequeues.above⟩,other,whole,
      switched_core s _ q q' c t whole i core⟩

end BlackOS.Scheduler
