import BlackOS.SystemMonitor

/-! The task slots over the life of the kernel. A slot that was once used stays used, so the used
slots are those below the next task number, whatever calls and clicks are made. -/
namespace BlackOS.Scheduler
open BlackOS.Library.Ram BlackOS.SystemMonitor

/-- A pointer of the scheduler, or a link of a task, is to the task. -/
def Points (s : State) (t : Slot) : Prop :=
  s.current = some t ∨ s.idle = some t ∨ (∃ l, s.heads l = some t) ∨ ∃ x, (s.tasks x).next = some t

/-- The change uses no new slot, frees none and renumbers none, and stores pointers to used slots
only. -/
structure Kept (s s' : State) : Prop where
  nextTid : s'.nextTid = s.nextTid
  used : ∀ x, Used s' x ↔ Used s x
  tid : ∀ x, (s'.tasks x).tid = (s.tasks x).tid
  clear : ∀ x, ¬Used s x → (s'.tasks x).mlfqLevel = (s.tasks x).mlfqLevel
  points : ∀ u, Points s' u → Points s u ∨ Used s u

theorem kept_refl (s : State) : Kept s s :=
  ⟨rfl,fun _ => Iff.rfl,fun _ => rfl,fun _ _ => rfl,fun _ points => Or.inl points⟩

theorem Kept.trans {s s₁ s₂ : State} (first : Kept s s₁) (second : Kept s₁ s₂) : Kept s s₂ := by
  refine ⟨second.nextTid.trans first.nextTid,fun x => (second.used x).trans (first.used x),
    fun x => (second.tid x).trans (first.tid x),?_,?_⟩
  · intro x unused
    exact (second.clear x (fun used => unused ((first.used x).mp used))).trans (first.clear x unused)
  · intro u points
    rcases second.points u points with before | used
    · exact first.points u before
    · exact Or.inr ((first.used u).mp used)

theorem unlinked_tid {x y : Task} (same : x.unlinked = y.unlinked) : x.tid = y.tid := by
  have equal := congrArg Task.tid same
  exact equal

theorem kept_unlinked (s s' : State) (task : ∀ x, (s'.tasks x).unlinked = (s.tasks x).unlinked)
    (nextTid : s'.nextTid = s.nextTid) (points : ∀ u, Points s' u → Points s u ∨ Used s u) : Kept s s' := by
  refine ⟨nextTid,?_,?_,?_,points⟩
  · intro x
    rw [Used,unlinked_state (task x)]
    rfl
  · exact fun x => unlinked_tid (task x)
  · exact fun x _ => unlinked_level (task x)

theorem kept_setTask (s : State) (t : Slot) (f : Task → Task) (used : Used s t)
    (state : (f (s.tasks t)).state ≠ .unused) (tid : ∀ x, (f x).tid = x.tid)
    (next : ∀ u, (f (s.tasks t)).next = some u → Points s u ∨ Used s u) : Kept s (s.setTask t f) := by
  refine ⟨rfl,?_,?_,?_,?_⟩
  · intro x
    rw [Used,setTask_tasks]
    by_cases here : x = t
    · rw [if_pos here,here]
      exact iff_of_true state used
    · rw [if_neg here]
      rfl
  · intro x
    rw [setTask_tasks]
    split
    · exact tid _
    · rfl
  · intro x unused
    rw [setTask_tasks,if_neg]
    intro here
    rw [here] at unused
    exact unused used
  · intro u points
    rcases points with current | idle | head | ⟨x,link⟩
    · exact Or.inl (Or.inl current)
    · exact Or.inl (Or.inr (Or.inl idle))
    · exact Or.inl (Or.inr (Or.inr (Or.inl head)))
    · rw [setTask_tasks] at link
      by_cases here : x = t
      · rw [if_pos here,here] at link
        exact next u link
      · rw [if_neg here] at link
        exact Or.inl (Or.inr (Or.inr (Or.inr ⟨x,link⟩)))

theorem kept_relabel (s : State) (t : Slot) (f : Task → Task) (used : Used s t)
    (state : (f (s.tasks t)).state ≠ .unused) (tid : ∀ x, (f x).tid = x.tid)
    (link : ∀ x, (f x).next = x.next) : Kept s (s.setTask t f) := by
  refine kept_setTask s t f used state tid ?_
  intro u next
  rw [link] at next
  exact Or.inl (Or.inr (Or.inr (Or.inr ⟨t,next⟩)))

theorem enqueue_nextTid (s : State) (t : Slot) : (blackEnqueue s t).nextTid = s.nextTid := by
  simp only [blackEnqueue]
  split <;> rfl

theorem enqueue_points (s : State) (t u : Slot) (points : Points (blackEnqueue s t) u) : Points s u ∨ u = t := by
  rcases points with current | idle | ⟨l,head⟩ | ⟨x,link⟩
  · rw [enqueue_current] at current
    exact Or.inl (Or.inl current)
  · rw [enqueue_idle] at idle
    exact Or.inl (Or.inr (Or.inl idle))
  · cases last : s.tails (queueLevel (s.tasks t).mlfqLevel) with
    | none =>
      rw [(enqueue_first s t last).2] at head
      by_cases here : l = queueLevel (s.tasks t).mlfqLevel
      · rw [here,Function.update_self] at head
        exact Or.inr (Option.some.inj head).symm
      · rw [Function.update_of_ne here] at head
        exact Or.inl (Or.inr (Or.inr (Or.inl ⟨l,head⟩)))
    | some y =>
      rw [(enqueue_behind s t y last).2] at head
      exact Or.inl (Or.inr (Or.inr (Or.inl ⟨l,head⟩)))
  · cases last : s.tails (queueLevel (s.tasks t).mlfqLevel) with
    | none =>
      rw [(enqueue_first s t last).1] at link
      split at link
      · cases link
      · exact Or.inl (Or.inr (Or.inr (Or.inr ⟨x,link⟩)))
    | some y =>
      rw [(enqueue_behind s t y last).1] at link
      split at link
      · exact Or.inr (Option.some.inj link).symm
      · split at link
        · cases link
        · exact Or.inl (Or.inr (Or.inr (Or.inr ⟨x,link⟩)))

theorem kept_enqueue (s : State) (t : Slot) (used : Used s t) : Kept s (blackEnqueue s t) := by
  refine ⟨enqueue_nextTid s t,?_,?_,?_,?_⟩
  · intro x
    rw [Used,enqueue_state]
    by_cases here : x = t
    · rw [if_pos here,here]
      exact iff_of_true (by simp) used
    · rw [if_neg here]
      rfl
  · intro x
    refine (unlinked_tid (enqueue_task s t x)).trans ?_
    split <;> rfl
  · intro x _
    refine (unlinked_level (enqueue_task s t x)).trans ?_
    split <;> rfl
  · intro u points
    rcases enqueue_points s t u points with before | here
    · exact Or.inl before
    · rw [here]
      exact Or.inr used

theorem popped_points (s : State) (l : Level) (t : Slot) (u : Slot) (points : Points (popped s l t) u) :
    Points s u := by
  rcases points with current | idle | ⟨k,head⟩ | ⟨x,link⟩
  · refine Or.inl (Eq.trans ?_ current)
    unfold popped
    split <;> rfl
  · refine Or.inr (Or.inl (Eq.trans ?_ idle))
    unfold popped
    split <;> rfl
  · rw [popped_heads] at head
    by_cases here : k = l
    · rw [here,Function.update_self] at head
      exact Or.inr (Or.inr (Or.inr ⟨t,head⟩))
    · rw [Function.update_of_ne here] at head
      exact Or.inr (Or.inr (Or.inl ⟨k,head⟩))
  · rw [popped_next] at link
    split at link
    · cases link
    · exact Or.inr (Or.inr (Or.inr ⟨x,link⟩))

theorem kept_dequeueFrom (s : State) (levels : List Level) :
    Kept s (dequeueFrom s levels).1 ∧ ∀ t, (dequeueFrom s levels).2 = some t → Points s t := by
  induction levels with
  | nil => exact ⟨kept_refl s,nofun⟩
  | cons l rest ih =>
    cases head : s.heads l with
    | none =>
      rw [dequeueFrom_none s l rest head]
      exact ih
    | some t =>
      rw [dequeueFrom_some s l rest t head]
      constructor
      · refine kept_unlinked s _ (popped_task s l t) ?_ (fun u points => Or.inl (popped_points s l t u points))
        unfold popped
        split <;> rfl
      · intro t' found
        rw [← Option.some.inj found]
        exact Or.inr (Or.inr (Or.inl ⟨l,head⟩))

theorem expire_state (x : Task) : (expire x).state = x.state := by
  unfold expire
  split <;> rfl

theorem expire_tid (x : Task) : (expire x).tid = x.tid := by
  unfold expire
  split <;> rfl

theorem kept_requeue (s : State) (c : Slot) : Kept s (requeue s c) := by
  unfold requeue
  split
  · rename_i yields
    have used : Used s c := by
      rw [Used,yields.1]
      nofun
    have expired := kept_relabel s c expire used (by rw [expire_state]; exact used) expire_tid expire_next
    exact expired.trans (kept_enqueue _ c ((expired.used c).mpr used))
  · exact kept_refl s

theorem kept_handed (s : State) (t : Slot) (used : Used s t) : Kept s (handed s t) := by
  have moved : Kept s {s with current := some t} := by
    refine kept_unlinked s _ (fun _ => rfl) rfl ?_
    intro u points
    rcases points with current | other
    · rw [← Option.some.inj current]
      exact Or.inr used
    · exact Or.inl (Or.inr other)
  exact moved.trans (kept_relabel _ t _ ((moved.used t).mpr used) (by simp) (fun _ => rfl) (fun _ => rfl))

/-- The end of a switch: the next task runs, and its stack top is recorded. -/
theorem kept_entered (s : State) (t : Slot) (used : Used s t) :
    Kept s (if ((handed s t).tasks t).kernelStack ≠ 0 then
      {handed s t with
        kernelStackTop := ((handed s t).tasks t).kernelStack + ((handed s t).tasks t).kernelStackSize}
      else handed s t) := by
  have runs := kept_handed s t used
  split
  · exact ⟨runs.nextTid,runs.used,runs.tid,runs.clear,runs.points⟩
  · exact runs

theorem kept_switchTo (s : State) (t : Slot) (used : Used s t) : Kept s (switchTo s t) := by
  unfold switchTo
  cases s.current with
  | none => exact kept_entered s t used
  | some prev =>
    have back := kept_requeue s prev
    exact back.trans (kept_entered (requeue s prev) t ((back.used t).mpr used))

/-- The used slots are those below the next task number, each with its own number, and no pointer
leads to an unused slot. -/
structure Tidy (s : State) : Prop where
  few : s.nextTid.toNat ≤ 128
  used : ∀ t : Slot, Used s t ↔ t.val < s.nextTid.toNat
  tid : ∀ t, Used s t → (s.tasks t).tid = word t.val
  clear : ∀ t, ¬Used s t → (s.tasks t).mlfqLevel = 0
  points : ∀ t, Points s t → Used s t

theorem tidy_kept (s s' : State) (tidy : Tidy s) (kept : Kept s s') : Tidy s' := by
  refine ⟨?_,?_,?_,?_,?_⟩
  · rw [kept.nextTid]
    exact tidy.few
  · intro t
    rw [kept.used,kept.nextTid]
    exact tidy.used t
  · intro t used
    rw [kept.tid]
    exact tidy.tid t ((kept.used t).mp used)
  · intro t unused
    have before : ¬Used s t := fun used => unused ((kept.used t).mpr used)
    rw [kept.clear t before]
    exact tidy.clear t before
  · intro t points
    rw [kept.used]
    rcases kept.points t points with before | used
    · exact tidy.points t before
    · exact used

section Calls
variable (s : State) (tidy : Tidy s)
include tidy

theorem kept_force : Kept s (blackScheduleForce s) := by
  obtain ⟨kept,found⟩ := kept_dequeueFrom s [0,1,2,3]
  have tidy₁ := tidy_kept s _ tidy kept
  unfold blackScheduleForce blackDequeue
  rw [if_neg (by decide)]
  generalize dequeueFrom s [0,1,2,3] = result at kept found tidy₁ ⊢
  obtain ⟨s₁,found₁⟩ := result
  dsimp only at kept found tidy₁ ⊢
  split
  · exact kept
  · rename_i t next
    split
    · exact kept
    · refine kept.trans (kept_switchTo s₁ t ?_)
      split at next
      · rw [kept.used,← Option.some.inj next]
        exact tidy.points _ (found _ rfl)
      · split at next
        · exact tidy₁.points t (Or.inr (Or.inl next))
        · cases next

theorem kept_schedule : Kept s (blackSchedule s) := by
  unfold blackSchedule
  split
  · exact kept_refl s
  · exact kept_force s tidy

theorem kept_account (c : Slot) (current : s.current = some c) : Kept s (account s c) := by
  have used := tidy.points c (Or.inl current)
  exact kept_relabel s c _ used used (fun _ => rfl) (fun _ => rfl)

theorem kept_tick : Kept s (blackSchedulerTick s) := by
  unfold blackSchedulerTick
  split
  · exact kept_refl s
  · rename_i c current
    have counted := kept_account s tidy c current
    split
    · exact kept_refl s
    · dsimp only
      split
      · exact counted.trans (kept_schedule _ (tidy_kept s _ tidy counted))
      · exact counted

theorem kept_retire (f : Task → Task) (after : State → State) (state : ∀ x, (f x).state ≠ .unused)
    (tid : ∀ x, (f x).tid = x.tid) (link : ∀ x, (f x).next = x.next)
    (continues : ∀ s, Tidy s → Kept s (after s)) : Kept s (retire s f after) := by
  unfold retire
  split
  · exact kept_refl s
  · rename_i c current
    have used := tidy.points c (Or.inl current)
    have leaves := kept_relabel s c f used (state _) tid link
    exact leaves.trans (continues _ (tidy_kept s _ tidy leaves))

end Calls

theorem kept_unblock (s : State) (task : Option Slot) : Kept s (blackTaskUnblock s task) := by
  unfold blackTaskUnblock
  split
  · exact kept_refl s
  · rename_i t
    split
    · exact kept_refl s
    · rename_i blocked
      have used : Used s t := by
        rw [Used,not_not.mp blocked]
        nofun
      have woken := kept_relabel s t (fun x => {x with
        blockReason := blockReasonNone,mlfqLevel := 0,timeSlice := mlfqTimesliceBase,timeUsed := 0})
        used used (fun _ => rfl) (fun _ => rfl)
      exact woken.trans (kept_enqueue _ t ((woken.used t).mpr used))

section Create
variable (s : State) (name : List Byte) (stackSize guard stack : Word)

theorem occupied_state (t : Slot) : ((occupied s t name stackSize guard stack).tasks t).state = .ready := by
  simp [occupied,State.setTask,fillTask]

theorem occupied_used (t x : Slot) : Used (occupied s t name stackSize guard stack) x ↔ x = t ∨ Used s x := by
  by_cases here : x = t
  · refine iff_of_true ?_ (Or.inl here)
    rw [Used,here,occupied_state]
    nofun
  · rw [Used,occupied_tasks s t name stackSize guard stack x here]
    exact ⟨Or.inr,fun either => either.resolve_left here⟩

theorem occupied_points (t u : Slot) (points : Points (occupied s t name stackSize guard stack) u) : Points s u := by
  rcases points with current | idle | head | ⟨x,link⟩
  · exact Or.inl current
  · exact Or.inr (Or.inl idle)
  · exact Or.inr (Or.inr (Or.inl head))
  · refine Or.inr (Or.inr (Or.inr ⟨x,?_⟩))
    by_cases here : x = t
    · rw [here] at link ⊢
      simpa [occupied,State.setTask,fillTask] using link
    · rwa [occupied_tasks s t name stackSize guard stack x here] at link

section First
variable (tidy : Tidy s) (t : Slot) (unused : ¬Used s t) (first : ∀ j, j < t → Used s j)
include tidy unused first

theorem first_slot : t.val = s.nextTid.toNat := by
  have above : ¬t.val < s.nextTid.toNat := fun below => unused ((tidy.used t).mpr below)
  by_contra different
  have bound := t.isLt
  have free := first ⟨s.nextTid.toNat,by omega⟩ (by rw [Fin.lt_def]; dsimp only; omega)
  exact Nat.lt_irrefl _ ((tidy.used _).mp free)

theorem first_next : (s.nextTid + 1).toNat = t.val + 1 := by
  have bound := t.isLt
  rw [BitVec.toNat_add,← first_slot s tidy t unused first]
  simp
  omega

theorem occupied_tidy : Tidy (occupied s t name stackSize guard stack) := by
  have place := first_slot s tidy t unused first
  have next : (occupied s t name stackSize guard stack).nextTid.toNat = t.val + 1 :=
    first_next s tidy t unused first
  have used := occupied_used s name stackSize guard stack t
  have others := occupied_tasks s t name stackSize guard stack
  refine ⟨?_,?_,?_,?_,?_⟩
  · rw [next]
    exact t.isLt
  · intro x
    rw [used,next,tidy.used,Fin.ext_iff]
    omega
  · intro x isUsed
    by_cases here : x = t
    · rw [here,place]
      simp [occupied,State.setTask,fillTask]
    · rw [others x here]
      exact tidy.tid x (((used x).mp isUsed).resolve_left here)
  · intro x isUnused
    have here : x ≠ t := fun same => isUnused ((used x).mpr (Or.inl same))
    rw [others x here]
    exact tidy.clear x (fun before => isUnused ((used x).mpr (Or.inr before)))
  · intro u points
    exact (used u).mpr (Or.inr (tidy.points u (occupied_points s name stackSize guard stack t u points)))

end First

theorem create_tidy (tidy : Tidy s) : Tidy (blackTaskCreate s name stackSize guard stack).1 := by
  rcases create_cases s name stackSize guard stack with ⟨fails,_⟩ | ⟨t,unused,first,_,succeeds⟩
  · rw [fails]
    exact tidy
  · rw [succeeds]
    exact tidy_kept _ _ (occupied_tidy s name stackSize guard stack tidy t unused first)
      (kept_enqueue _ t ((occupied_used s name stackSize guard stack t t).mpr (Or.inl rfl)))

end Create

theorem step_tidy (s : State) (tidy : Tidy s) (op : Op) : Tidy (step s op) := by
  cases op with
  | create name stackSize guard stack => exact create_tidy s name stackSize guard stack tidy
  | schedule => exact tidy_kept s _ tidy (kept_schedule s tidy)
  | scheduleForce => exact tidy_kept s _ tidy (kept_force s tidy)
  | tick => exact tidy_kept s _ tidy (kept_tick s tidy)
  | block reason =>
    exact tidy_kept s _ tidy (kept_retire s tidy _ _ (fun _ => nofun) (fun _ => rfl) (fun _ => rfl) kept_force)
  | unblock task => exact tidy_kept s _ tidy (kept_unblock s task)
  | sleep uptime ms =>
    exact tidy_kept s _ tidy (kept_retire s tidy _ _ (fun _ => nofun) (fun _ => rfl) (fun _ => rfl) kept_schedule)
  | exit =>
    exact tidy_kept s _ tidy (kept_retire s tidy _ _ (fun _ => nofun) (fun _ => rfl) (fun _ => rfl) kept_force)
  | enable => exact tidy_kept s _ tidy ⟨rfl,fun _ => Iff.rfl,fun _ => rfl,fun _ _ => rfl,fun _ points => Or.inl points⟩
  | disable => exact tidy_kept s _ tidy ⟨rfl,fun _ => Iff.rfl,fun _ => rfl,fun _ _ => rfl,fun _ points => Or.inl points⟩

theorem rowTask_used (s : State) (row : Int) (slots : List Slot) (valid : Int) (t : Slot)
    (hit : rowTask s row slots valid = some t) : Used s t := by
  induction slots generalizing valid with
  | nil => cases hit
  | cons j rest ih =>
    rw [rowTask] at hit
    split at hit
    · rename_i used
      split at hit
      · rw [← Option.some.inj hit]
        exact used
      · exact ih (valid + 1) hit
    · exact ih valid hit

theorem click_tidy (s : State) (tidy : Tidy s) (w : Window) (my : Int) : Tidy (click s w my) := by
  unfold click
  split
  · exact tidy
  · rename_i t hit
    have used : Used s t := by
      unfold clicked at hit
      split at hit
      · dsimp only at hit
        split at hit
        · exact rowTask_used s _ _ _ t hit
        · cases hit
      · cases hit
    exact tidy_kept s _ tidy (kept_relabel s t _ used nofun (fun _ => rfl) (fun _ => rfl))

theorem act_tidy (s : State) (tidy : Tidy s) (a : Action) : Tidy (act s a) := by
  cases a with
  | call op => exact step_tidy s tidy op
  | click w my => exact click_tidy s tidy w my

theorem boot_tidy (guard kernelStack : Word) : Tidy (bootKernel unset guard kernelStack) := by
  have state (t : Slot) : ((bootKernel unset guard kernelStack).tasks t).state =
      if t = 0 then .running else .unused := by
    rw [bootKernel]
    dsimp only
    rw [setTask_tasks]
    split <;> rfl
  have first (t : Slot) : Used (bootKernel unset guard kernelStack) t ↔ t = 0 := by
    rw [Used,state]
    split
    · rename_i here
      exact iff_of_true (by decide) here
    · rename_i other
      exact iff_of_false (fun used => used rfl) other
  refine ⟨(by decide : 1 ≤ 128),?_,?_,?_,?_⟩
  · intro t
    have next : (bootKernel unset guard kernelStack).nextTid.toNat = 1 := rfl
    rw [first,next,Fin.ext_iff]
    exact Nat.lt_one_iff.symm
  · intro t used
    rw [(first t).mp used]
    rfl
  · intro t unused
    have other : t ≠ 0 := fun same => unused ((first t).mpr same)
    rw [bootKernel]
    dsimp only
    rw [setTask_tasks,if_neg other]
    rfl
  · intro t points
    rw [first]
    rcases points with current | idle | ⟨l,head⟩ | ⟨x,link⟩
    · exact (Option.some.inj current).symm
    · cases idle
    · cases head
    · rw [bootKernel] at link
      dsimp only at link
      rw [setTask_tasks] at link
      split at link
      · cases link
      · cases link

theorem init_tidy (guard kernelStack idleStack : Word) : Tidy (blackSchedulerInit unset guard kernelStack idleStack) := by
  have boot := boot_tidy guard kernelStack
  have made := create_tidy _ (ascii "black_idle") blackDefaultStack guard idleStack boot
  have fresh := create_cases (bootKernel unset guard kernelStack) (ascii "black_idle") blackDefaultStack guard idleStack
  have named (s : State) (tidy : Tidy s) (idle : Option Slot) (used : ∀ t, idle = some t → Used s t) :
      Tidy {s with idle := idle} := by
    refine ⟨tidy.few,tidy.used,tidy.tid,tidy.clear,?_⟩
    intro t points
    rcases points with current | isIdle | other
    · exact tidy.points t (Or.inl current)
    · exact used t isIdle
    · exact tidy.points t (Or.inr (Or.inr other))
  unfold blackSchedulerInit
  dsimp only
  generalize blackTaskCreate (bootKernel unset guard kernelStack) (ascii "black_idle") blackDefaultStack guard
    idleStack = result at made fresh ⊢
  obtain ⟨s,idle⟩ := result
  cases idle with
  | none => exact named s made none nofun
  | some t =>
    have used : Used s t := by
      rcases fresh with ⟨fails,_⟩ | ⟨t',_,_,_,succeeds⟩
      · cases fails
      · cases succeeds
        rw [Used,enqueue_state,if_pos rfl]
        nofun
    have lowered := named s made (some t) (fun t' same => by rw [← Option.some.inj same]; exact used)
    exact tidy_kept _ _ lowered
      (kept_relabel _ t (fun x => {x with priority := 255,mlfqLevel := 3}) used used (fun _ => rfl) (fun _ => rfl))

def after (guard kernelStack idleStack : Word) (actions : List Action) : State :=
  actions.foldl act (blackSchedulerInit unset guard kernelStack idleStack)

theorem after_tidy (guard kernelStack idleStack : Word) (actions : List Action) :
    Tidy (after guard kernelStack idleStack actions) := by
  induction actions using List.reverseRecOn with
  | nil => exact init_tidy guard kernelStack idleStack
  | append_singleton actions a ih =>
    rw [after,List.foldl_concat]
    exact act_tidy _ ih a

/-- `black_task_create` fails only without a stack or with all slots held by tasks that live, and
then changes neither the tasks nor the queues. -/
def Recycles (s : State) (name : List Byte) (stackSize guard stack : Word) : Prop :=
  let made := blackTaskCreate s name stackSize guard stack
  made.2 = none →
    (stack = 0 ∨ ∀ t, (s.tasks t).state ≠ .unused ∧ (s.tasks t).state ≠ .zombie) ∧
    made.1.tasks = s.tasks ∧ made.1.heads = s.heads ∧ made.1.tails = s.tails

/-- A creation without a stack, before 128 tasks were made, or without a ZOMBIE. -/
def Recyclable (s : State) (stack : Word) : Prop :=
  stack = 0 ∨ s.nextTid.toNat < 128 ∨ ∀ t, (s.tasks t).state ≠ .zombie

theorem full_fails (s : State) (full : ∀ t, Used s t) (name : List Byte) (stackSize guard stack : Word) :
    (blackTaskCreate s name stackSize guard stack).2 = none := by
  rcases create_cases s name stackSize guard stack with ⟨fails,_⟩ | ⟨t,unused,_⟩
  · rw [fails]
  · exact absurd (full t) unused

/-- A ZOMBIE keeps its slot for good: after 128 tasks were made, creations fail because of it. -/
theorem slots_recycled_iff (guard kernelStack idleStack : Word) (actions : List Action) (name : List Byte)
    (stackSize guard' stack : Word) :
    Recycles (after guard kernelStack idleStack actions) name stackSize guard' stack ↔
      Recyclable (after guard kernelStack idleStack actions) stack := by
  have tidy := after_tidy guard kernelStack idleStack actions
  generalize after guard kernelStack idleStack actions = s at tidy ⊢
  constructor
  · intro recycles
    by_cases room : s.nextTid.toNat < 128
    · exact Or.inr (Or.inl room)
    · have full (t : Slot) : Used s t := (tidy.used t).mpr (by have bound := t.isLt; omega)
      rcases (recycles (full_fails s full name stackSize guard' stack)).1 with starved | living
      · exact Or.inl starved
      · exact Or.inr (Or.inr (fun t => (living t).2))
  · intro recyclable fails
    rcases create_cases s name stackSize guard' stack with ⟨unchanged,why⟩ | ⟨t,_,_,_,succeeds⟩
    · rw [unchanged]
      refine ⟨?_,rfl,rfl,rfl⟩
      rcases why with starved | full
      · exact Or.inl starved
      · rcases recyclable with starved | room | living
        · exact Or.inl starved
        · exact absurd ((tidy.used ⟨s.nextTid.toNat,room⟩).mp (full _)) (Nat.lt_irrefl _)
        · exact Or.inr (fun t => ⟨full t,living t⟩)
    · rw [succeeds] at fails
      cases fails

theorem creations_fill (s : State) (tidy : Tidy s) (n : Nat) (room : s.nextTid.toNat + n ≤ 128) :
    ∃ s', Tidy s' ∧ s'.nextTid.toNat = s.nextTid.toNat + n ∧
      (∀ t, (s.tasks t).state = .zombie → (s'.tasks t).state = .zombie) ∧
      (List.replicate n (Action.call (.create [] 0 7 16384))).foldl act s = s' := by
  induction n generalizing s with
  | zero => exact ⟨s,tidy,rfl,fun _ zombie => zombie,rfl⟩
  | succ n ih =>
    rcases create_cases s [] 0 7 16384 with ⟨_,starved | full⟩ | ⟨t,unused,first,_,succeeds⟩
    · cases starved
    · exact absurd ((tidy.used ⟨s.nextTid.toNat,by omega⟩).mp (full _)) (Nat.lt_irrefl _)
    · have made : act s (.call (.create [] 0 7 16384)) = blackEnqueue (occupied s t [] 0 7 16384) t :=
        congrArg Prod.fst succeeds
      have next : (act s (.call (.create [] 0 7 16384))).nextTid.toNat = s.nextTid.toNat + 1 := by
        rw [made,enqueue_nextTid,← first_slot s tidy t unused first]
        exact first_next s tidy t unused first
      obtain ⟨s',tidy',count,zombies,same⟩ := ih _ (act_tidy s tidy (.call (.create [] 0 7 16384))) (by omega)
      refine ⟨s',tidy',by omega,?_,same⟩
      intro x zombie
      refine zombies x ?_
      rcases create_state s [] 0 7 16384 x with kept | ⟨free,_⟩
      · exact kept.trans zombie
      · rw [zombie] at free
        cases free

/-- A task is made, gets the processor and exits; then tasks are made until no slot is left. -/
def exitThenFill : List Action :=
  [.call (.create [] 0 7 16384),.call .scheduleForce,.call .scheduleForce,.call .exit] ++
    List.replicate 125 (.call (.create [] 0 7 16384))

theorem zombie_not_recycled : ¬Recycles (after 7 4096 8192 exitThenFill) [] 0 7 16384 := by
  have early := after_tidy 7 4096 8192 (exitThenFill.take 4)
  have zombie : ((after 7 4096 8192 (exitThenFill.take 4)).tasks 2).state = .zombie := by decide
  have next : (after 7 4096 8192 (exitThenFill.take 4)).nextTid.toNat = 3 := by decide
  obtain ⟨s,tidy,count,zombies,same⟩ := creations_fill _ early 125 (by omega)
  have shape : after 7 4096 8192 exitThenFill = s := by
    rw [← same]
    exact List.foldl_append
  rw [shape]
  intro recycles
  have full (t : Slot) : Used s t := (tidy.used t).mpr (by have bound := t.isLt; omega)
  rcases (recycles (full_fails s full _ _ _ _)).1 with starved | living
  · cases starved
  · exact (living 2).2 (zombies 2 zombie)

end BlackOS.Scheduler
