import BlackOS.SchedulerStates

/-! The System Monitor window of `kernel/gui/desktop.c`. A click on a row of its task
list marks that task ZOMBIE straight in the scheduler's table, and leaves the run
queues as they are. Runs mix these clicks with the calls of the scheduler; a ghost
field remembers which tasks have been ZOMBIE. -/
namespace BlackOS.SystemMonitor
open BlackOS.Scheduler BlackOS.Library.Run

/-- A visible window with the title "System Monitor". -/
structure Window where
  y : Int
  h : Int

def blackWinTitlebar : Int := 24
def blackMaxTasks : Int := 128

def taskBaseY (w : Window) : Int := w.y + blackWinTitlebar + 10 + 20 + 12 + 20 + 30 + 16

/-- The loop over the task table: the task of a row, counting the used slots that are left. -/
def rowTask (s : State) (row : Int) : List Slot → Int → Option Slot
  | [],_ => none
  | j::rest,valid =>
    if (s.tasks j).state ≠ .unused then
      if valid = row then some j else rowTask s row rest (valid + 1)
    else rowTask s row rest valid

def clicked (s : State) (w : Window) (my : Int) : Option Slot :=
  if taskBaseY w ≤ my ∧ my < w.y + w.h - 20 then
    let row := (my - taskBaseY w).tdiv 12
    if 0 ≤ row ∧ row < blackMaxTasks then rowTask s row (List.finRange 128) 0 else none
  else none

/-- What one System Monitor window does in `black_gui_handle_mouse` when the button goes down. -/
def click (s : State) (w : Window) (my : Int) : State :=
  match clicked s w my with
  | none => s
  | some t => s.setTask t (fun x => {x with state := .zombie})

inductive Action
  | call (op : Op)
  | click (w : Window) (my : Int)

def act (s : State) : Action → State
  | .call op => step s op
  | .click w my => SystemMonitor.click s w my

/-- The scheduler, with the tasks that have been ZOMBIE so far. -/
structure System where
  sched : State
  dead : Slot → Bool

def System.act (s : System) (a : Action) : System :=
  let sched := SystemMonitor.act s.sched a
  ⟨sched,fun t => s.dead t || decide ((sched.tasks t).state = .zombie)⟩

def Promised (s : System) : Action → Prop
  | .call op => Allowed s.sched op
  | .click _ _ => True

def Next (s : System) (a : Action) (s' : System) : Prop := Promised s a ∧ s.act a = s'

/-- The click does not hit a READY task or idle, and a killed task that has blocked
since is not unblocked. -/
def Spares (s : System) : Action → Prop
  | .click w my => ∀ t, clicked s.sched w my = some t →
      (s.sched.tasks t).state ≠ .ready ∧ s.sched.idle ≠ some t
  | .call (.unblock (some t)) => s.dead t = true → (s.sched.tasks t).state ≠ .blocked
  | .call _ => True

def SparingNext (s : System) (a : Action) (s' : System) : Prop := Next s a s' ∧ Spares s a

/-- The task holds its slot and neither runs nor waits for the processor. -/
structure Lifeless (s : State) (t : Slot) : Prop where
  ready : (s.tasks t).state ≠ .ready
  running : (s.tasks t).state ≠ .running
  used : (s.tasks t).state ≠ .unused

theorem lifeless_of_state (s s' : State) (t : Slot) (lifeless : Lifeless s t)
    (same : (s'.tasks t).state = (s.tasks t).state) : Lifeless s' t :=
  ⟨by rw [same]; exact lifeless.ready,by rw [same]; exact lifeless.running,by rw [same]; exact lifeless.used⟩

/-- `black_schedule_force` neither revives a lifeless task nor switches to it. -/
theorem force_lifeless (s : State) (q : Queues) (c i : Slot) (core : Core s q c i) (t : Slot)
    (lifeless : Lifeless s t) : ((blackScheduleForce s).tasks t).state = (s.tasks t).state ∧
      ((blackScheduleForce s).current = some t → c = t) := by
  rcases force_spec s q c i core with ⟨_,_,stays⟩ | ⟨next,q',picks,other,switched,_⟩
  · rw [stays]
    exact ⟨rfl,fun current => Option.some.inj (core.current.symm.trans current)⟩
  · have different : t ≠ next := by
      intro same
      subst same
      rcases picks with ⟨k,rest,shape,_⟩ | ⟨_,isIdle,_⟩
      · exact lifeless.ready (core_ready s q c i core k t (by simp [shape]))
      · exact core_not_idle s q c i core t lifeless.ready lifeless.running isIdle
    constructor
    · rw [switched_state s _ q q' c next switched,if_neg different]
      refine if_neg ?_
      intro prev
      rw [prev.1] at lifeless
      exact lifeless.running prev.2.1
    · intro current
      exact absurd (Option.some.inj (current.symm.trans switched.current)) different

section
variable (s : State) (q : Queues) (c i : Slot) (inv : Inv s q c i)
include inv

theorem step_lifeless (op : Op) (allowed : Allowed s op) (t : Slot) (lifeless : Lifeless s t)
    (spared : op = .unblock (some t) → (s.tasks t).state ≠ .blocked) :
    Lifeless (step s op) t ∧ ((step s op).current = some t → s.current = some t) := by
  have current := inv.core.current
  cases call : forceCall s op with
  | none =>
    rw [quiet_current s c current op call]
    refine ⟨?_,fun same => same⟩
    rcases quiet_state s c current op call t with same | ⟨unused,_⟩ | ⟨isUnblock,blocked,_⟩ | ⟨_,_,sleeps⟩
    · exact lifeless_of_state s _ t lifeless same
    · exact absurd unused lifeless.used
    · exact absurd blocked (spared isUnblock)
    · exact ⟨by simp [sleeps],by simp [sleeps],by simp [sleeps]⟩
  | some s₁ =>
    obtain ⟨core,_⟩ := call_core s q c i inv op allowed s₁ call
    have before : Lifeless s₁ t := by
      rcases call_state s c current op s₁ call t with same | ⟨_,⟨_,blocks⟩ | ⟨_,sleeps⟩ | ⟨_,exits⟩⟩
      · exact lifeless_of_state s s₁ t lifeless same
      · exact ⟨by simp [blocks],by simp [blocks],by simp [blocks]⟩
      · exact ⟨by simp [sleeps],by simp [sleeps],by simp [sleeps]⟩
      · exact ⟨by simp [exits],by simp [exits],by simp [exits]⟩
    obtain ⟨state,stays⟩ := force_lifeless s₁ q c i core t before
    rw [step_of_call s op s₁ call]
    refine ⟨lifeless_of_state s₁ _ t before state,?_⟩
    intro switched
    rw [current,stays switched]

theorem click_inv (w : Window) (my : Int) (spares : ∀ t, clicked s w my = some t →
    (s.tasks t).state ≠ .ready ∧ s.idle ≠ some t) : Inv (click s w my) q c i := by
  unfold click
  split
  · exact inv
  · rename_i t hit
    obtain ⟨notReady,notIdle⟩ := spares t hit
    rw [inv.core.idle] at notIdle
    refine ⟨core_setTask s q c i inv.core t _ (fun _ => rfl) (iff_of_false (by simp) notReady) (fun _ => by simp)
      (fun same => absurd (by rw [same]) notIdle),?_,ranked_setTask s q i inv.ranked t _ (fun _ => rfl)⟩
    rw [setTask_tasks]
    split
    · simp
    · exact inv.unblocked

end

theorem click_current (s : State) (w : Window) (my : Int) : (click s w my).current = s.current := by
  unfold click
  split <;> rfl

theorem click_lifeless (s : State) (w : Window) (my : Int) (t : Slot) (lifeless : Lifeless s t) :
    Lifeless (click s w my) t := by
  unfold click
  split
  · exact lifeless
  · refine ⟨?_,?_,?_⟩ <;> rw [setTask_tasks] <;> split
    · simp
    · exact lifeless.ready
    · simp
    · exact lifeless.running
    · simp
    · exact lifeless.used

def Buried (s : System) : Prop :=
  (∃ q c, Inv s.sched q c 1) ∧ ∀ t, s.dead t = true → Lifeless s.sched t

theorem sparing_dead (s : System) (buried : Buried s) (a : Action) (s' : System) (next : SparingNext s a s')
    (t : Slot) (dead : s.dead t = true) :
    Lifeless s'.sched t ∧ (s'.sched.current = some t → s.sched.current = some t) := by
  obtain ⟨⟨q,c,inv⟩,lifeless⟩ := buried
  obtain ⟨⟨allowed,done⟩,spares⟩ := next
  rw [← done]
  cases a with
  | call op =>
    refine step_lifeless s.sched q c 1 inv op allowed t (lifeless t dead) ?_
    intro isUnblock
    rw [isUnblock] at spares
    exact spares dead
  | click w my =>
    refine ⟨click_lifeless s.sched w my t (lifeless t dead),?_⟩
    intro current
    rwa [← click_current s.sched w my]

theorem sparing_buried (s : System) (buried : Buried s) (a : Action) (s' : System)
    (next : SparingNext s a s') : Buried s' := by
  have old := sparing_dead s buried a s' next
  obtain ⟨⟨q,c,inv⟩,_⟩ := buried
  obtain ⟨⟨allowed,done⟩,spares⟩ := next
  subst done
  constructor
  · cases a with
    | call op => exact step_inv s.sched q c 1 inv op allowed
    | click w my => exact ⟨q,c,click_inv s.sched q c 1 inv w my spares⟩
  · intro t dead
    simp only [System.act,Bool.or_eq_true,decide_eq_true_eq] at dead
    rcases dead with before | zombie
    · exact (old t before).1
    · exact ⟨by simp [System.act,zombie],by simp [System.act,zombie],by simp [System.act,zombie]⟩

/-- In a run that spares READY tasks, idle and the blocked dead, a task that has been
ZOMBIE is never READY or RUNNING again and never becomes the current task. -/
theorem death_final (first : State) (booted : Booted first) (actions : List Action) (s : System)
    (run : Steps SparingNext ⟨first,fun _ => false⟩ actions s) (t : Slot) (dead : s.dead t = true) :
    (s.sched.tasks t).state ≠ .ready ∧ (s.sched.tasks t).state ≠ .running ∧
      ∀ a s', SparingNext s a s' → s'.sched.current = some t → s.sched.current = some t := by
  obtain ⟨q,inv⟩ := booted_inv first booted
  have buried : Buried s := by
    refine Steps.invariant Buried ⟨⟨q,0,inv⟩,?_⟩ ?_ run
    · intro t dead
      cases dead
    · intro s a s' buried next
      exact sparing_buried s buried a s' next
  have lifeless := buried.2 t dead
  exact ⟨lifeless.ready,lifeless.running,fun a s' next => (sparing_dead s buried a s' next t dead).2⟩

def bootedSystem : System := ⟨blackSchedulerInit unset 7 4096 8192,fun _ => false⟩

theorem death_final_kernel : ∃ s, Steps SparingNext bootedSystem [.click ⟨150,500⟩ 282,.call .scheduleForce] s ∧
    s.dead 0 = true ∧ (s.sched.tasks 0).state ≠ .ready ∧ (s.sched.tasks 0).state ≠ .running := by
  have spares : Spares bootedSystem (.click ⟨150,500⟩ 282) := by
    intro t hit
    have row : clicked bootedSystem.sched ⟨150,500⟩ 282 = some 0 := by decide
    have isKernel : t = 0 := Option.some.inj (hit.symm.trans row)
    rw [isKernel]
    exact ⟨by decide,by decide⟩
  have killed : Steps SparingNext bootedSystem [.click ⟨150,500⟩ 282] _ :=
    .snoc [] _ _ _ .nil ⟨⟨trivial,rfl⟩,spares⟩
  have run : Steps SparingNext bootedSystem [.click ⟨150,500⟩ 282,.call .scheduleForce] _ :=
    .snoc [_] (Action.call .scheduleForce) _ _ killed ⟨⟨trivial,rfl⟩,trivial⟩
  have final := death_final _ init_booted _ _ run 0 (by decide)
  exact ⟨_,run,by decide,final.1,final.2.1⟩

/-- A task that waits in a run queue is killed there, and runs two switches later. -/
theorem killed_task_runs : ∃ first s, Booted first ∧ Steps Next ⟨first,fun _ => false⟩
    [.call (.create [] 0 7 16384),.click ⟨150,500⟩ 306,.call .scheduleForce,.call .scheduleForce] s ∧
      s.dead 2 = true ∧ (s.sched.tasks 2).state = .running ∧ s.sched.current = some 2 := by
  have created : Steps Next bootedSystem [.call (.create [] 0 7 16384)] _ := .snoc [] _ _ _ .nil ⟨trivial,rfl⟩
  have killed := Steps.snoc _ (Action.click ⟨150,500⟩ 306) _ _ created ⟨trivial,rfl⟩
  have idles := Steps.snoc _ (Action.call .scheduleForce) _ _ killed ⟨trivial,rfl⟩
  have runs := Steps.snoc _ (Action.call .scheduleForce) _ _ idles ⟨trivial,rfl⟩
  exact ⟨_,_,init_booted,runs,by decide,by decide,by decide⟩

end BlackOS.SystemMonitor
