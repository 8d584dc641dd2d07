import BlackOS.SchedulerSlots

/-! Level, time slice and time used of the tasks. A task that waits or runs has time left; one that
blocked, slept or exited may have used all of it. -/
namespace BlackOS.Scheduler
open BlackOS.Library.Ram BlackOS.Library.Run

structure Budget (x : Task) : Prop where
  level : x.mlfqLevel ≤ 3
  slice : x.timeSlice = word (5 * 2^x.mlfqLevel)
  used : x.timeUsed ≤ x.timeSlice

def Spare (x : Task) : Prop := x.timeUsed < x.timeSlice

def Active (s : State) (t : Slot) : Prop :=
  (s.tasks t).state = .ready ∨ (s.tasks t).state = .running ∨ s.current = some t

def Sound (s : State) (t : Slot) : Prop := Budget (s.tasks t) ∧ (Active s t → Spare (s.tasks t))

/-- The tasks other than the kernel task and idle. -/
def Budgeted (s : State) : Prop := ∀ t, t ≠ 0 → t ≠ 1 → Used s t → Sound s t

/-- Where `black_schedule_force` is called, the caller may have no time left. -/
def CallBudgeted (s : State) (c : Slot) : Prop :=
  ∀ t, t ≠ 0 → t ≠ 1 → Used s t → Budget (s.tasks t) ∧ (t ≠ c → Active s t → Spare (s.tasks t))

theorem budget_unlinked {x y : Task} (same : x.unlinked = y.unlinked) (budget : Budget y) : Budget x := by
  have unlinked : Budget y.unlinked := ⟨budget.level,budget.slice,budget.used⟩
  rw [← same] at unlinked
  exact ⟨unlinked.level,unlinked.slice,unlinked.used⟩

theorem spare_unlinked {x y : Task} (same : x.unlinked = y.unlinked) (spare : Spare y) : Spare x := by
  have unlinked : Spare y.unlinked := spare
  rw [← same] at unlinked
  exact unlinked

theorem sound_unlinked (s s' : State) (t : Slot) (same : (s'.tasks t).unlinked = (s.tasks t).unlinked)
    (current : s'.current = s.current) (sound : Sound s t) : Sound s' t := by
  refine ⟨budget_unlinked same sound.1,fun active => spare_unlinked same (sound.2 ?_)⟩
  rwa [Active,unlinked_state same,current] at active

theorem slice_word (level : Nat) (bounded : level ≤ 3) :
    mlfqTimesliceBase * (1 <<< level) = word (5 * 2^level) ∧ 0 < word (5 * 2^level) := by
  revert level
  decide

theorem expire_budget (x : Task) (budget : Budget x) : Budget (expire x) ∧ Spare (expire x) := by
  have level := expire_bounded x budget.level
  unfold expire at level ⊢
  split
  · rename_i expired
    rw [if_pos expired] at level
    dsimp only at level
    obtain ⟨slice,positive⟩ := slice_word _ level
    refine ⟨⟨level,slice,?_⟩,?_⟩
    · exact BitVec.le_def.mpr (Nat.zero_le _)
    · show 0 < mlfqTimesliceBase * (1 <<< _)
      rw [slice]
      exact positive
  · rename_i left
    exact ⟨budget,BitVec.not_le.mp left⟩

theorem force_budgeted (s : State) (q : Queues) (c : Slot) (core : Core s q c 1) (budgeted : CallBudgeted s c) :
    Budgeted (blackScheduleForce s) := by
  intro x notKernel notIdle used
  rcases force_spec s q c 1 core with ⟨_,alone,stays⟩ | ⟨t,q',picks,other,switched,_⟩
  · rw [stays] at used ⊢
    obtain ⟨budget,spare⟩ := budgeted x notKernel notIdle used
    exact ⟨budget,spare (by rw [alone]; exact notIdle)⟩
  · have state := switched_state s _ q q' c t switched x
    have task := switched.task x
    by_cases next : x = t
    · -- the task that is picked was waiting
      have ready : (s.tasks x).state = .ready := by
        rcases picks with ⟨k,rest,shape,_⟩ | ⟨_,isIdle,_⟩
        · exact core_ready s q c 1 core k x (by simp [shape,next])
        · exact absurd (next.trans isIdle) notIdle
      obtain ⟨budget,spare⟩ := budgeted x notKernel notIdle (by rw [Used,ready]; decide)
      rw [if_pos next] at task
      refine ⟨budget_unlinked task ⟨budget.level,budget.slice,budget.used⟩,fun _ => ?_⟩
      exact spare_unlinked task (spare (fun same => other (same.symm.trans next)) (Or.inl ready))
    · rw [if_neg next] at task state
      by_cases yields : x = c ∧ Yields s c
      · have running : Used s x := by
          rw [Used,yields.1,yields.2.1]
          decide
        obtain ⟨budget,spare⟩ := expire_budget _ (budgeted x notKernel notIdle running).1
        rw [if_pos yields] at task
        refine ⟨budget_unlinked task ⟨budget.level,budget.slice,budget.used⟩,fun _ => ?_⟩
        exact spare_unlinked task spare
      · rw [if_neg yields] at task state
        rw [Used,state] at used
        obtain ⟨budget,spare⟩ := budgeted x notKernel notIdle used
        refine ⟨budget_unlinked task budget,fun active => spare_unlinked task (spare ?_ ?_)⟩
        · intro caller
          rw [Active,state,switched.current] at active
          rcases active with ready | running | current
          · rw [caller] at ready
            exact core.awake.1 ready
          · refine yields ⟨caller,?_,?_⟩
            · rwa [caller] at running
            · rw [core.idle,← caller]
              exact fun same => notIdle (Option.some.inj same).symm
          · exact next (Option.some.inj current).symm
        · rw [Active,state,switched.current] at active
          rcases active with ready | running | current
          · exact Or.inl ready
          · exact Or.inr (Or.inl running)
          · exact absurd (Option.some.inj current).symm next

theorem caller_budgeted (s : State) (c : Slot) (budgeted : Budgeted s) (f : Task → Task)
    (leaves : (f (s.tasks c)).state = .unused ↔ (s.tasks c).state = .unused)
    (keeps : Sound s c → Budget (f (s.tasks c))) : CallBudgeted (s.setTask c f) c := by
  intro x notKernel notIdle used
  rw [Used,setTask_tasks] at used
  rw [Active,setTask_tasks]
  by_cases caller : x = c
  · rw [if_pos caller,caller] at used
    rw [if_pos caller,caller]
    have sound := budgeted c (by rw [← caller]; exact notKernel) (by rw [← caller]; exact notIdle)
      (fun unused => used (leaves.mpr unused))
    exact ⟨keeps sound,fun other => absurd rfl other⟩
  · rw [if_neg caller] at used
    rw [if_neg caller]
    obtain ⟨budget,spare⟩ := budgeted x notKernel notIdle used
    exact ⟨budget,fun _ => spare⟩

theorem calls_budgeted (s : State) (c : Slot) (budgeted : Budgeted s) : CallBudgeted s c := by
  intro x notKernel notIdle used
  obtain ⟨budget,spare⟩ := budgeted x notKernel notIdle used
  exact ⟨budget,fun _ => spare⟩

section
variable (s : State) (c : Slot) (current : s.current = some c) (budgeted : Budgeted s)
include current budgeted

theorem account_budgeted : CallBudgeted (account s c) c := by
  refine caller_budgeted s c budgeted _ Iff.rfl ?_
  intro sound
  have spare : (s.tasks c).timeUsed < (s.tasks c).timeSlice := sound.2 (Or.inr (Or.inr current))
  refine ⟨sound.1.level,sound.1.slice,?_⟩
  dsimp only
  bv_omega

theorem call_budgeted (awake : Used s c) (op : Op) (s₁ : State) (call : forceCall s op = some s₁) :
    CallBudgeted s₁ c := by
  have keeps (sound : Sound s c) : Budget (s.tasks c) := sound.1
  cases op with
  | schedule =>
    simp only [forceCall] at call
    split at call <;> cases call
    exact calls_budgeted s c budgeted
  | scheduleForce =>
    cases call
    exact calls_budgeted s c budgeted
  | tick =>
    simp only [forceCall,current] at call
    split at call <;> cases call
    exact account_budgeted s c current budgeted
  | block reason =>
    simp only [forceCall,current,Option.map_some] at call
    cases call
    exact caller_budgeted s c budgeted _ (iff_of_false (fun same => by cases same) awake)
      (fun sound => ⟨sound.1.level,sound.1.slice,sound.1.used⟩)
  | sleep uptime ms =>
    simp only [forceCall,current,Option.map_some] at call
    split at call <;> cases call
    exact caller_budgeted s c budgeted _ (iff_of_false (fun same => by cases same) awake)
      (fun sound => ⟨sound.1.level,sound.1.slice,sound.1.used⟩)
  | exit =>
    simp only [forceCall,current,Option.map_some] at call
    cases call
    exact caller_budgeted s c budgeted _ (iff_of_false (fun same => by cases same) awake)
      (fun sound => ⟨sound.1.level,sound.1.slice,sound.1.used⟩)
  | create name stackSize guard stack => cases call
  | unblock task => cases call
  | enable => cases call
  | disable => cases call

end

theorem fresh_budget (x : Task) (level : x.mlfqLevel = 0) (slice : x.timeSlice = mlfqTimesliceBase)
    (used : x.timeUsed = 0) : Budget x ∧ Spare x := by
  refine ⟨⟨?_,?_,?_⟩,?_⟩
  · rw [level]
    exact Nat.zero_le 3
  · rw [level,slice]
    rfl
  · rw [used,slice]
    decide
  · rw [Spare,used,slice]
    decide

theorem enqueue_budgeted (s s₁ : State) (t : Slot) (budgeted : Budgeted s) (others : ∀ x, x ≠ t → s₁.tasks x = s.tasks x)
    (current : s₁.current = s.current) (fresh : Budget (s₁.tasks t) ∧ Spare (s₁.tasks t)) :
    Budgeted (blackEnqueue s₁ t) := by
  intro x notKernel notIdle used
  have task := enqueue_task s₁ t x
  by_cases here : x = t
  · rw [if_pos here,here] at task
    rw [here]
    obtain ⟨budget,spare⟩ := fresh
    exact ⟨budget_unlinked task ⟨budget.level,budget.slice,budget.used⟩,fun _ => spare_unlinked task spare⟩
  · rw [if_neg here,others x here] at task
    refine sound_unlinked s _ x task ((enqueue_current s₁ t).trans current) (budgeted x notKernel notIdle ?_)
    rwa [Used,unlinked_state task] at used

theorem create_budgeted (s : State) (budgeted : Budgeted s) (name : List Byte) (stackSize guard stack : Word) :
    Budgeted (blackTaskCreate s name stackSize guard stack).1 := by
  rcases create_cases s name stackSize guard stack with ⟨fails,_⟩ | ⟨t,_,_,_,succeeds⟩
  · rw [fails]
    exact budgeted
  · rw [succeeds]
    refine enqueue_budgeted s _ t budgeted (occupied_tasks s t name stackSize guard stack) rfl ?_
    simp only [occupied,State.setTask,Function.update_self,fillTask]
    exact fresh_budget _ rfl rfl rfl

theorem unblock_budgeted (s : State) (budgeted : Budgeted s) (task : Option Slot) : Budgeted (blackTaskUnblock s task) := by
  unfold blackTaskUnblock
  split
  · exact budgeted
  · rename_i t
    split
    · exact budgeted
    · refine enqueue_budgeted s _ t budgeted ?_ rfl ?_
      · intro x other
        rw [setTask_tasks,if_neg other]
      · rw [setTask_tasks,if_pos rfl]
        exact fresh_budget _ rfl rfl rfl

/-- A tick that does not end the slice leaves time to the current task. -/
theorem tick_budgeted (s : State) (c : Slot) (current : s.current = some c) (tidy : Tidy s) (budgeted : Budgeted s)
    (quiet : forceCall s .tick = none) : Budgeted (step s .tick) := by
  simp only [forceCall,current,ite_eq_right_iff,reduceCtorEq,imp_false] at quiet
  simp only [step,blackSchedulerTick,current]
  split
  · exact budgeted
  · rename_i off
    have enabled : s.enabled = true := by simpa using off
    rw [if_neg (fun due => quiet ⟨enabled,due⟩)]
    intro x notKernel notIdle used
    obtain ⟨budget,spare⟩ := account_budgeted s c current budgeted x notKernel notIdle used
    refine ⟨budget,fun active => ?_⟩
    by_cases caller : x = c
    · have numbered : ((account s c).tasks x).tid = word x.val :=
        (tidy_kept s _ tidy (kept_account s tidy c current)).tid x used
      have positive : ((account s c).tasks x).tid ≠ 0 := by
        rw [numbered]
        intro zero
        have bound := x.isLt
        exact notKernel (Fin.ext (word_injective x.val 0 (by omega) (by decide) zero))
      rw [caller] at positive ⊢
      exact BitVec.not_le.mp (fun due => quiet ⟨enabled,positive,due⟩)
    · exact spare caller active

theorem sleep_budgeted (s : State) (c : Slot) (budgeted : Budgeted s) (used : Used s c) (uptime : BitVec 64) (ms : Word)
    (current : s.current = some c) :
    Budgeted (s.setTask c (fun x => {x with wakeTime := uptime + ms.setWidth 64,state := .sleeping})) := by
  intro x notKernel notIdle isUsed
  rw [Used,setTask_tasks] at isUsed
  rw [Sound,Active,setTask_tasks]
  by_cases caller : x = c
  · rw [if_pos caller]
    obtain ⟨budget,spare⟩ := budgeted x notKernel notIdle (by rw [caller]; exact used)
    refine ⟨⟨budget.level,budget.slice,budget.used⟩,fun _ => spare (Or.inr (Or.inr ?_))⟩
    rw [current,caller]
  · rw [if_neg caller] at isUsed ⊢
    exact budgeted x notKernel notIdle isUsed

theorem quiet_budgeted (s : State) (c : Slot) (current : s.current = some c) (tidy : Tidy s) (budgeted : Budgeted s)
    (op : Op) (quiet : forceCall s op = none) : Budgeted (step s op) := by
  cases op with
  | create name stackSize guard stack => exact create_budgeted s budgeted name stackSize guard stack
  | schedule =>
    rw [schedule_quiet s quiet]
    exact budgeted
  | scheduleForce => cases quiet
  | tick => exact tick_budgeted s c current tidy budgeted quiet
  | block reason => simp [forceCall,current] at quiet
  | unblock task => exact unblock_budgeted s budgeted task
  | sleep uptime ms =>
    rw [sleep_quiet s c current uptime ms quiet]
    exact sleep_budgeted s c budgeted (tidy.points c (Or.inl current)) uptime ms current
  | exit => simp [forceCall,current] at quiet
  | enable => exact budgeted
  | disable => exact budgeted

theorem step_budgeted (s : State) (q : Queues) (c : Slot) (inv : Inv s q c 1) (tidy : Tidy s) (budgeted : Budgeted s)
    (op : Op) (allowed : Allowed s op) : Budgeted (step s op) := by
  have current := inv.core.current
  cases call : forceCall s op with
  | none => exact quiet_budgeted s c current tidy budgeted op call
  | some s₁ =>
    obtain ⟨core,_⟩ := call_core s q c 1 inv op allowed s₁ call
    rw [step_of_call s op s₁ call]
    exact force_budgeted s₁ q c core (call_budgeted s c current budgeted inv.core.awake.2 op s₁ call)

def LevelStep (s : State) (op : Op) (t : Slot) (new : Nat) : Prop :=
  new = (s.tasks t).mlfqLevel ∨
  (∃ called, forceCall s op = some called ∧ called.current = some t ∧
    (called.tasks t).timeSlice ≤ (called.tasks t).timeUsed ∧ new = (s.tasks t).mlfqLevel + 1) ∨
  op = .unblock (some t) ∧ (s.tasks t).state = .blocked ∧ new = 0

theorem setTask_level (s : State) (t : Slot) (f : Task → Task) (kept : ∀ x, (f x).mlfqLevel = x.mlfqLevel) (x : Slot) :
    ((s.setTask t f).tasks x).mlfqLevel = (s.tasks x).mlfqLevel := by
  rw [setTask_tasks]
  split
  · exact kept _
  · rfl

theorem enqueue_level (s : State) (t x : Slot) : ((blackEnqueue s t).tasks x).mlfqLevel = (s.tasks x).mlfqLevel := by
  refine (unlinked_level (enqueue_task s t x)).trans ?_
  split <;> rfl

theorem create_level (s : State) (tidy : Tidy s) (name : List Byte) (stackSize guard stack : Word) (x : Slot) :
    ((blackTaskCreate s name stackSize guard stack).1.tasks x).mlfqLevel = (s.tasks x).mlfqLevel := by
  rcases create_cases s name stackSize guard stack with ⟨fails,_⟩ | ⟨t,unused,_,_,succeeds⟩
  · rw [fails]
  · rw [succeeds,enqueue_level]
    by_cases here : x = t
    · rw [here,tidy.clear t unused]
      simp [occupied,State.setTask,fillTask]
    · rw [occupied_tasks s t name stackSize guard stack x here]

section
variable (s : State) (c : Slot) (current : s.current = some c)
include current

theorem call_level (op : Op) (s₁ : State) (call : forceCall s op = some s₁) (x : Slot) :
    (s₁.tasks x).mlfqLevel = (s.tasks x).mlfqLevel := by
  cases op with
  | schedule =>
    simp only [forceCall] at call
    split at call <;> cases call
    rfl
  | scheduleForce =>
    cases call
    rfl
  | tick =>
    simp only [forceCall,current] at call
    split at call <;> cases call
    exact setTask_level s c _ (by intro y; rfl) x
  | block reason =>
    simp only [forceCall,current,Option.map_some] at call
    cases call
    exact setTask_level s c _ (by intro y; rfl) x
  | sleep uptime ms =>
    simp only [forceCall,current,Option.map_some] at call
    split at call <;> cases call
    exact setTask_level s c _ (by intro y; rfl) x
  | exit =>
    simp only [forceCall,current,Option.map_some] at call
    cases call
    exact setTask_level s c _ (by intro y; rfl) x
  | create name stackSize guard stack => cases call
  | unblock task => cases call
  | enable => cases call
  | disable => cases call

theorem quiet_level (tidy : Tidy s) (op : Op) (quiet : forceCall s op = none) (x : Slot) :
    LevelStep s op x ((step s op).tasks x).mlfqLevel := by
  cases op with
  | create name stackSize guard stack => exact Or.inl (create_level s tidy name stackSize guard stack x)
  | schedule =>
    rw [schedule_quiet s quiet]
    exact Or.inl rfl
  | scheduleForce => cases quiet
  | tick =>
    left
    rcases tick_quiet s c current quiet with same | counted
    · rw [same]
    · rw [counted]
      exact setTask_level s c _ (by intro y; rfl) x
  | block reason => simp [forceCall,current] at quiet
  | unblock task =>
    simp only [step,blackTaskUnblock]
    split
    · exact Or.inl rfl
    · rename_i t
      split
      · exact Or.inl rfl
      · rename_i blocked
        rw [enqueue_level,setTask_tasks]
        by_cases here : x = t
        · rw [if_pos here,here]
          exact Or.inr (Or.inr ⟨rfl,not_not.mp blocked,rfl⟩)
        · rw [if_neg here]
          exact Or.inl rfl
  | sleep uptime ms =>
    rw [sleep_quiet s c current uptime ms quiet]
    exact Or.inl (setTask_level s c _ (by intro y; rfl) x)
  | exit => simp [forceCall,current] at quiet
  | enable => exact Or.inl rfl
  | disable => exact Or.inl rfl

end

theorem expire_level (x : Task) : (expire x).mlfqLevel = x.mlfqLevel ∨
    x.timeSlice ≤ x.timeUsed ∧ (expire x).mlfqLevel = x.mlfqLevel + 1 := by
  unfold expire
  split
  · rename_i expired
    dsimp only
    split
    · exact Or.inr ⟨expired,rfl⟩
    · exact Or.inl rfl
  · exact Or.inl rfl

theorem step_level (s : State) (q : Queues) (c : Slot) (inv : Inv s q c 1) (tidy : Tidy s) (op : Op)
    (allowed : Allowed s op) (x : Slot) : LevelStep s op x ((step s op).tasks x).mlfqLevel := by
  have current := inv.core.current
  cases call : forceCall s op with
  | none => exact quiet_level s c current tidy op call x
  | some s₁ =>
    obtain ⟨core,_⟩ := call_core s q c 1 inv op allowed s₁ call
    have before := call_level s c current op s₁ call x
    rw [step_of_call s op s₁ call]
    rcases force_spec s₁ q c 1 core with ⟨_,_,stays⟩ | ⟨t,q',_,other,switched,_⟩
    · rw [stays]
      exact Or.inl before
    · rw [switched_level s₁ _ q q' c t switched other]
      split
      · rename_i yields
        rcases expire_level (s₁.tasks x) with kept | ⟨expired,rises⟩
        · rw [kept]
          exact Or.inl before
        · rw [rises,before]
          exact Or.inr (Or.inl ⟨s₁,call,by rw [yields.1]; exact core.current,expired,rfl⟩)
      · exact Or.inl before

theorem booted_tidy (s : State) (booted : Booted s) : Tidy s := by
  obtain ⟨guard,kernelStack,idleStack,_,init⟩ := booted_eq s booted
  rw [← init]
  exact init_tidy guard kernelStack idleStack

theorem booted_budgeted (s : State) (booted : Booted s) : Budgeted s := by
  intro t notKernel notIdle used
  rw [Used,booted_state s booted,if_neg notIdle,if_neg notKernel] at used
  exact absurd rfl used

theorem run_budgeted (first : State) (booted : Booted first) (ops : List Op) (s : State)
    (run : Steps Next first ops s) : (∃ q c, Inv s q c 1) ∧ Tidy s ∧ Budgeted s := by
  obtain ⟨q,inv⟩ := booted_inv first booted
  refine Steps.invariant (fun s => (∃ q c, Inv s q c 1) ∧ Tidy s ∧ Budgeted s)
    ⟨⟨q,0,inv⟩,booted_tidy first booted,booted_budgeted first booted⟩ ?_ run
  intro s op s' held next
  obtain ⟨⟨q,c,inv⟩,tidy,budgeted⟩ := held
  obtain ⟨allowed,done⟩ := next
  rw [← done]
  exact ⟨step_inv s q c 1 inv op allowed,step_tidy s tidy op,step_budgeted s q c inv tidy budgeted op allowed⟩

/-- In every run the tasks other than the kernel task and idle keep to the slice of their level, and
in every call a level stays, rises by one when the slice is used up, or falls to 0 on an unblock. -/
theorem budget_kept (first : State) (booted : Booted first) (ops : List Op) (s : State)
    (run : Steps Next first ops s) :
    (∀ t, t ≠ 0 → s.idle ≠ some t → (s.tasks t).state ≠ .unused → (s.tasks t).mlfqLevel ≤ 3 ∧
      (s.tasks t).timeSlice.toNat = 5 * 2^(s.tasks t).mlfqLevel ∧ (s.tasks t).timeUsed ≤ (s.tasks t).timeSlice) ∧
    ∀ op s', Next s op s' → ∀ t, LevelStep s op t (s'.tasks t).mlfqLevel := by
  obtain ⟨⟨q,c,inv⟩,tidy,budgeted⟩ := run_budgeted first booted ops s run
  constructor
  · intro t notKernel notIdle used
    have other : t ≠ 1 := by
      intro same
      rw [same] at notIdle
      exact notIdle inv.core.idle
    obtain ⟨budget,_⟩ := budgeted t notKernel other used
    refine ⟨budget.level,?_,budget.used⟩
    have exact_ : ∀ level ≤ 3, (word (5 * 2^level)).toNat = 5 * 2^level := by decide
    rw [budget.slice,exact_ _ budget.level]
  · intro op s' next t
    obtain ⟨allowed,done⟩ := next
    rw [← done]
    exact step_level s q c inv tidy op allowed t

/-- Task 2 is made, gets the processor and uses up its first slice. -/
def slicedOps : List Op :=
  [.create [] 0 7 16384,.scheduleForce,.scheduleForce,.enable,.tick,.tick,.tick,.tick,.tick]

theorem budget_kept_sliced : ∃ s, Steps Next (blackSchedulerInit unset 7 4096 8192) slicedOps s ∧
    (s.tasks 2).mlfqLevel = 1 ∧ (s.tasks 2).timeSlice.toNat = 5 * 2^(s.tasks 2).mlfqLevel := by
  have start : Steps Next (blackSchedulerInit unset 7 4096 8192) [] _ := .nil
  have made := Steps.snoc _ (Op.create [] 0 7 16384) _ _ start ⟨trivial,rfl⟩
  have idles := Steps.snoc _ Op.scheduleForce _ _ made ⟨trivial,rfl⟩
  have runs := Steps.snoc _ Op.scheduleForce _ _ idles ⟨trivial,rfl⟩
  have enabled := Steps.snoc _ Op.enable _ _ runs ⟨trivial,rfl⟩
  have one := Steps.snoc _ Op.tick _ _ enabled ⟨trivial,rfl⟩
  have two := Steps.snoc _ Op.tick _ _ one ⟨trivial,rfl⟩
  have three := Steps.snoc _ Op.tick _ _ two ⟨trivial,rfl⟩
  have four := Steps.snoc _ Op.tick _ _ three ⟨trivial,rfl⟩
  have five := Steps.snoc _ Op.tick _ _ four ⟨trivial,rfl⟩
  exact ⟨_,five,by decide,((budget_kept _ init_booted _ _ five).1 2 (by decide) (by decide) (by decide)).2.1⟩

end BlackOS.Scheduler
