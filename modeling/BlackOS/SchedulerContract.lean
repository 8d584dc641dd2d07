import BlackOS.SchedulerStates

/-! What holds in every run of the scheduler: the run queues stay intact, a switch
picks the best runnable task exactly under the stated conditions, and one task runs
as long as the processor is never taken from idle. -/
namespace BlackOS.Scheduler
open BlackOS.Library.Ram BlackOS.Library.Linked BlackOS.Library.Run

/-- The queues are finite lists with their tails, hold exactly the READY tasks, each
once, and not the running task. -/
theorem queues_intact (first : State) (booted : Booted first) (ops : List Op) (s : State)
    (run : Steps Next first ops s) :
    ∃ q : Queues, (∀ l, Visits (fun t => (s.tasks t).next) (s.heads l) (q l) ∧ (q l).Nodup ∧
        s.tails l = (q l).getLast? ∧ (s.tails l = none ↔ s.heads l = none)) ∧
      (∀ t, occurrences q t ≤ 1 ∧ ((s.tasks t).state = .ready ↔ occurrences q t = 1)) ∧
      ∃ c, s.current = some c ∧ ∀ l, c ∉ q l := by
  obtain ⟨q,c,inv⟩ := run_inv first booted ops s run
  obtain ⟨core,_,_⟩ := inv
  refine ⟨q,?_,?_,c,core.current,?_⟩
  · intro l
    refine ⟨core.queued.visits l,queued_nodup s q core.queued l,core.queued.tail l,?_⟩
    rw [heads_empty s q core.queued,core.queued.tail,List.getLast?_eq_none_iff]
  · intro t
    refine ⟨core.queued.once t,?_⟩
    rw [core.ready]
    split
    · rename_i ready
      exact iff_of_true ready rfl
    · rename_i notReady
      exact iff_of_false notReady (by simp)
  · exact (occurrences_zero q c).mp (core_absent s q c 1 core c core.awake.1)

theorem queues_intact_init : ∃ s, Steps Next (blackSchedulerInit unset 7 4096 8192) [.enable,.scheduleForce] s ∧
    ∃ q : Queues, (∀ l, s.tails l = (q l).getLast?) ∧ ∀ t, (s.tasks t).state = .ready ↔ occurrences q t = 1 := by
  have enabled : Steps Next _ [Op.enable] (step (blackSchedulerInit unset 7 4096 8192) .enable) :=
    .snoc [] Op.enable _ _ .nil ⟨trivial,rfl⟩
  have run : Steps Next _ [Op.enable,.scheduleForce] (step _ .scheduleForce) :=
    .snoc [Op.enable] Op.scheduleForce _ _ enabled ⟨trivial,rfl⟩
  obtain ⟨q,lists,ready,_⟩ := queues_intact _ init_booted _ _ run
  exact ⟨_,run,q,fun l => (lists l).2.2.1,fun t => (ready t).2⟩

def Runnable (s : State) (x : Slot) : Prop :=
  (s.tasks x).state = .ready ∨ s.current = some x ∧ (s.tasks x).state = .running

/-- A switch from `s` to `s'` goes to a task of the best level among the runnable
ones, and to idle only when nothing else is runnable. -/
def BestPick (s s' : State) : Prop :=
  ∀ t, s'.current = some t → s.current ≠ some t →
    (∀ x, x ≠ t → Runnable s x → (s'.tasks t).mlfqLevel ≤ (s'.tasks x).mlfqLevel) ∧
    (s'.idle = some t → ∀ x, x ≠ t → ¬Runnable s x)

def FirstQueued (s : State) (k : Level) (h : Slot) : Prop :=
  s.heads k = some h ∧ ∀ l, l < k → s.heads l = none

/-- When the choice of `black_schedule_force` is the best one: with nothing queued,
the caller has given up running; idle at the head is alone in the queues and the
caller has given up running; any other head is at least as good as a caller that
goes on running. -/
structure FairChoice (s : State) (c : Slot) : Prop where
  empty : (∀ l, s.heads l = none) → ¬Yields s c
  idle : ∀ k h, FirstQueued s k h → s.idle = some h →
    ¬Yields s c ∧ (s.tasks h).next = none ∧ ∀ l, l ≠ k → s.heads l = none
  level : ∀ k h, FirstQueued s k h → s.idle ≠ some h → Yields s c → k.val ≤ (expire (s.tasks c)).mlfqLevel

section
variable (s : State) (q : Queues) (c i : Slot) (core : Core s q c i)
include core

theorem head_queued (l : Level) (h : Slot) : s.heads l = some h ↔ ∃ rest, q l = h::rest := by
  have visits := core.queued.visits l
  cases shape : q l with
  | nil =>
    rw [shape] at visits
    have none_ : s.heads l = none := visits
    simp [none_]
  | cons t ts =>
    rw [shape] at visits
    rw [visits.1]
    constructor
    · intro same
      exact ⟨ts,by rw [Option.some.inj same]⟩
    · intro holder
      obtain ⟨rest,same⟩ := holder
      cases same
      rfl

theorem firstQueued_iff (k : Level) (h : Slot) :
    FirstQueued s k h ↔ (∃ rest, q k = h::rest) ∧ ∀ l, l < k → q l = [] := by
  unfold FirstQueued
  rw [head_queued s q c i core]
  simp only [heads_empty s q core.queued]

omit core in
theorem firstQueued_unique (k k' : Level) (h h' : Slot) (left : FirstQueued s k h)
    (right : FirstQueued s k' h') : k = k' ∧ h = h' := by
  have same : k = k' := by
    rcases lt_trichotomy k k' with before | equal | after
    · have none_ := right.2 k before
      rw [left.1] at none_
      cases none_
    · exact equal
    · have none_ := left.2 k' after
      rw [right.1] at none_
      cases none_
  subst same
  exact ⟨rfl,Option.some.inj (left.1.symm.trans right.1)⟩

theorem runnable_iff (x : Slot) :
    Runnable s x ↔ (∃ l, x ∈ q l) ∨ x = c ∧ (s.tasks x).state = .running := by
  unfold Runnable
  rw [core.current]
  constructor
  · intro either
    rcases either with ready | ⟨isCurrent,running⟩
    · left
      have once := core.ready x
      rw [if_pos ready] at once
      by_contra nowhere
      have zero := (occurrences_zero q x).mpr (fun l member => nowhere ⟨l,member⟩)
      omega
    · exact Or.inr ⟨(Option.some.inj isCurrent).symm,running⟩
  · intro either
    rcases either with ⟨l,member⟩ | ⟨isCurrent,running⟩
    · exact Or.inl (core_ready s q c i core l x member)
    · exact Or.inr ⟨by rw [isCurrent],running⟩

theorem yields_iff : Yields s c ↔ (s.tasks c).state = .running ∧ c ≠ i := by
  unfold Yields
  rw [core.idle]
  constructor
  · intro both
    exact ⟨both.1,fun same => both.2 (by rw [same])⟩
  · intro both
    exact ⟨both.1,fun same => both.2 (Option.some.inj same).symm⟩

theorem idle_pick (s' : State) (current : s'.current = some i) (idle : s'.idle = some i) (other : c ≠ i) :
    BestPick s s' ↔ ∀ x, x ≠ i → ¬Runnable s x := by
  have notSelf : s.current ≠ some i := by
    rw [core.current]
    exact fun same => other (Option.some.inj same)
  constructor
  · intro best
    exact (best i current notSelf).2 idle
  · intro alone t isCurrent _
    have same : t = i := Option.some.inj (isCurrent.symm.trans current)
    subst same
    exact ⟨fun x different runnable => absurd runnable (alone x different),fun _ => alone⟩

theorem best_empty (s' : State) (empty : ∀ l, q l = []) (current : s'.current = some i)
    (idle : s'.idle = some i) (other : c ≠ i) : BestPick s s' ↔ FairChoice s c := by
  have none_ (l : Level) : s.heads l = none := (heads_empty s q core.queued l).mpr (empty l)
  have noFirst (k : Level) (h : Slot) : ¬FirstQueued s k h := by
    intro first
    have head := first.1
    rw [none_ k] at head
    cases head
  have runnable := runnable_iff s q c i core
  rw [idle_pick s q c i core s' current idle other]
  constructor
  · intro alone
    refine ⟨?_,fun k h first => absurd first (noFirst k h),fun k h first => absurd first (noFirst k h)⟩
    intro _ yields
    exact alone c other ((runnable c).mpr (Or.inr ⟨rfl,yields.1⟩))
  · intro fair x different able
    rcases (runnable x).mp able with ⟨l,member⟩ | ⟨isCurrent,running⟩
    · rw [empty l] at member
      cases member
    · rw [isCurrent] at running
      exact fair.empty none_ ((yields_iff s q c i core).mpr ⟨running,other⟩)

/-- The slot at the head of a queue has no next one exactly when it is alone there. -/
theorem next_none_iff (k : Level) (rest : List Slot) (shape : q k = i::rest) :
    (s.tasks i).next = none ↔ rest = [] := by
  have visits := core.queued.visits k
  rw [shape] at visits
  cases rest with
  | nil => exact iff_of_true visits.2 rfl
  | cons y ys =>
    have next : (s.tasks i).next = some y := visits.2.1
    simp [next]

/-- Where no other slot is queued, the idle task is alone in its queue and the other queues are empty. -/
theorem alone_queued (k : Level) (rest : List Slot) (shape : q k = i::rest)
    (onlyIdle : ∀ l x, x ∈ q l → x = i) : rest = [] ∧ ∀ l, l ≠ k → s.heads l = none := by
  refine ⟨?_,fun l otherLevel => ?_⟩
  · apply List.eq_nil_iff_forall_not_mem.mpr
    intro x member
    have nodup := queued_nodup s q core.queued k
    rw [shape] at nodup
    have same := onlyIdle k x (by simp [shape,member])
    rw [same] at member
    exact (List.nodup_cons.mp nodup).1 member
  · rw [heads_empty s q core.queued]
    apply List.eq_nil_iff_forall_not_mem.mpr
    intro x member
    have same := onlyIdle l x member
    rw [same] at member
    exact otherLevel (occurrences_unique q i (core.queued.once i) l k member (by simp [shape]))

theorem best_idle (s' : State) (k : Level) (rest : List Slot) (shape : q k = i::rest)
    (above : ∀ l, l < k → q l = []) (current : s'.current = some i) (idle : s'.idle = some i)
    (other : c ≠ i) : BestPick s s' ↔ FairChoice s c := by
  have first : FirstQueued s k i := (firstQueued_iff s q c i core k i).mpr ⟨⟨rest,shape⟩,above⟩
  have runnable := runnable_iff s q c i core
  have link := next_none_iff s q c i core k rest shape
  rw [idle_pick s q c i core s' current idle other]
  constructor
  · intro alone
    have notYields : ¬Yields s c := fun yields => alone c other ((runnable c).mpr (Or.inr ⟨rfl,yields.1⟩))
    have onlyIdle (l : Level) (x : Slot) (member : x ∈ q l) : x = i := by
      by_contra different
      exact alone x different ((runnable x).mpr (Or.inl ⟨l,member⟩))
    refine ⟨fun _ => notYields,?_,?_⟩
    · intro k' h first' _
      obtain ⟨sameK,sameH⟩ := firstQueued_unique s k k' i h first first'
      subst sameK sameH
      obtain ⟨last,others⟩ := alone_queued s q c i core k rest shape onlyIdle
      exact ⟨notYields,link.mpr last,others⟩
    · intro k' h first' notIdle
      obtain ⟨_,sameH⟩ := firstQueued_unique s k k' i h first first'
      rw [← sameH,core.idle] at notIdle
      exact absurd rfl notIdle
  · intro fair x different able
    obtain ⟨notYields,last,others⟩ := fair.idle k i first core.idle
    rcases (runnable x).mp able with ⟨l,member⟩ | ⟨isCurrent,running⟩
    · by_cases here : l = k
      · rw [here,shape,link.mp last] at member
        exact different (List.mem_singleton.mp member)
      · rw [(heads_empty s q core.queued l).mp (others l here)] at member
        cases member
    · rw [isCurrent] at running
      exact notYields ((yields_iff s q c i core).mpr ⟨running,other⟩)

theorem best_task (ranked : Ranked s q i) (s' : State) (q' : Queues) (k : Level) (t : Slot) (rest : List Slot)
    (shape : q k = t::rest) (above : ∀ l, l < k → q l = []) (switched : Switched s s' q q' c t)
    (other : c ≠ t) (notIdle : t ≠ i) : BestPick s s' ↔ FairChoice s c := by
  have first : FirstQueued s k t := (firstQueued_iff s q c i core k t).mpr ⟨⟨rest,shape⟩,above⟩
  have runnable := runnable_iff s q c i core
  have level := switched_level s s' q q' c t switched other
  have own : (s'.tasks t).mlfqLevel = k := by
    rw [level,if_neg (fun both => other both.1.symm)]
    exact ranked.placed k t (by simp [shape]) notIdle
  have bounded := k.isLt
  have idle : s.idle ≠ some t := by
    rw [core.idle]
    exact fun same => notIdle (Option.some.inj same).symm
  constructor
  · intro best
    obtain ⟨levels,_⟩ := best t switched.current (by rw [core.current]; exact fun same => other (Option.some.inj same))
    refine ⟨?_,?_,?_⟩
    · intro empty
      have head := first.1
      rw [empty k] at head
      cases head
    · intro k' h first' isIdle
      obtain ⟨_,sameH⟩ := firstQueued_unique s k k' t h first first'
      rw [← sameH] at isIdle
      exact absurd isIdle idle
    · intro k' h first' _ yields
      obtain ⟨sameK,_⟩ := firstQueued_unique s k k' t h first first'
      have least := levels c other ((runnable c).mpr (Or.inr ⟨rfl,yields.1⟩))
      rw [own,level,if_pos ⟨rfl,yields⟩] at least
      rwa [← sameK]
  · intro fair t' isCurrent _
    have same : t' = t := Option.some.inj (isCurrent.symm.trans switched.current)
    subst same
    refine ⟨?_,?_⟩
    · intro x different able
      rw [own,level]
      by_cases yields : x = c ∧ Yields s c
      · rw [if_pos yields,yields.1]
        exact fair.level k t' first idle yields.2
      · rw [if_neg yields]
        by_cases isIdle : x = i
        · rw [isIdle,ranked.lowest]
          omega
        · rcases (runnable x).mp able with ⟨l,member⟩ | ⟨isCaller,running⟩
          · rw [ranked.placed l x member isIdle]
            by_contra better
            have before : l < k := by
              rw [Fin.lt_def]
              omega
            rw [above l before] at member
            cases member
          · rw [isCaller] at running isIdle
            exact absurd ⟨isCaller,(yields_iff s q c i core).mpr ⟨running,isIdle⟩⟩ yields
    · intro isIdle
      rw [switched.frame.1] at isIdle
      exact absurd isIdle idle

theorem best_iff (ranked : Ranked s q i) : BestPick s (blackScheduleForce s) ↔ FairChoice s c := by
  rcases force_spec s q c i core with ⟨empty,alone,stays⟩ | ⟨t,q',picks,other,switched,_⟩
  · rw [stays]
    refine iff_of_true (fun t isCurrent elsewhere => absurd isCurrent elsewhere) ?_
    have none_ (l : Level) : s.heads l = none := (heads_empty s q core.queued l).mpr (empty l)
    refine ⟨?_,?_,?_⟩
    · intro _ yields
      exact ((yields_iff s q c i core).mp yields).2 alone
    · intro k h first
      have head := first.1
      rw [none_ k] at head
      cases head
    · intro k h first
      have head := first.1
      rw [none_ k] at head
      cases head
  · have idle : (blackScheduleForce s).idle = some i := switched.frame.1.trans core.idle
    rcases picks with ⟨k,rest,shape,above⟩ | ⟨empty,isIdle,elsewhere⟩
    · by_cases isIdle : t = i
      · subst isIdle
        exact best_idle s q c t core _ k rest shape above switched.current idle other
      · exact best_task s q c i core ranked _ q' k t rest shape above switched other isIdle
    · subst isIdle
      exact best_empty s q c t core _ empty switched.current idle elsewhere

end

/-- Wherever a call reaches `black_schedule_force`, its choice is the best one
exactly under the condition on the queues and the caller. -/
theorem switch_best_iff (first : State) (booted : Booted first) (ops : List Op) (s : State)
    (run : Steps Next first ops s) (op : Op) (allowed : Allowed s op) (called : State)
    (call : forceCall s op = some called) (c : Slot) (caller : called.current = some c) :
    BestPick called (blackScheduleForce called) ↔ FairChoice called c := by
  obtain ⟨q,c',inv⟩ := run_inv first booted ops s run
  obtain ⟨core,ranked⟩ := call_core s q c' 1 inv op allowed called call
  have same : c = c' := Option.some.inj (caller.symm.trans core.current)
  subst same
  exact best_iff called q c 1 core ranked

theorem fair_alone (s : State) (c i : Slot) (k : Level) (notYields : ¬Yields s c) (idle : s.idle = some i)
    (last : (s.tasks i).next = none) (others : ∀ l, l ≠ k → s.heads l = none) : FairChoice s c := by
  refine ⟨fun _ => notYields,?_,fun _ _ _ _ yields => absurd yields notYields⟩
  intro k' h queued isIdle
  have own : h = i := Option.some.inj (isIdle.symm.trans idle)
  have level : k' = k := by
    by_contra different
    have head := queued.1
    rw [others k' different] at head
    cases head
  subst own level
  exact ⟨notYields,last,others⟩

theorem switch_best_block : ∃ called, forceCall (blackSchedulerInit unset 7 4096 8192) (.block 1) = some called ∧
    BestPick called (blackScheduleForce called) := by
  refine ⟨_,rfl,?_⟩
  apply (switch_best_iff _ init_booted [] _ .nil (.block 1) (by decide : _ ≠ _) _ rfl 0 (by decide)).mpr
  exact fair_alone _ 0 1 0 (by decide) (by decide) (by decide) (by decide)

/-- The kernel task calls `black_schedule_force` right after boot: idle, queued at
level 0, takes the processor from a RUNNING task. -/
theorem switch_to_idle : ∃ s, Booted s ∧ Steps Next s [] s ∧ forceCall s .scheduleForce = some s ∧
    ¬BestPick s (blackScheduleForce s) := by
  refine ⟨_,init_booted,.nil,rfl,?_⟩
  intro best
  have alone := (best 1 (by decide) (by decide)).2 (by decide) 0 (by decide)
  exact alone (Or.inr ⟨by decide,by decide⟩)

/-- Exactly one task is RUNNING, and it is the current one. -/
def Single (s : State) : Prop := ∃ c, s.current = some c ∧ ∀ t, (s.tasks t).state = .running ↔ t = c

def Waking : Op → Prop
  | .sleep _ _ => False
  | .disable => False
  | _ => True

/-- The call takes the processor from idle for a queued task. -/
def TakesFromIdle (s : State) (op : Op) : Prop :=
  s.current = s.idle ∧ (∃ l, s.heads l ≠ none) ∧ forceCall s op ≠ none

theorem quiet_single (s : State) (single : Single s) (op : Op) (waking : Waking op)
    (quiet : forceCall s op = none) : Single (step s op) := by
  obtain ⟨c,current,running⟩ := single
  refine ⟨c,(quiet_current s c current op quiet).trans current,?_⟩
  intro t
  rw [← running t]
  rcases quiet_state s c current op quiet t with same | ⟨was,now⟩ | ⟨_,was,now⟩ | ⟨_,⟨uptime,ms,isSleep⟩,_⟩
  · rw [same]
  · simp [was,now]
  · simp [was,now]
  · rw [isSleep] at waking
    cases waking

theorem switched_single (s s' : State) (q q' : Queues) (c i t : Slot) (core : Core s q c i)
    (alone : ∀ x, x ≠ c → (s.tasks x).state ≠ .running) (other : c ≠ t)
    (switched : Switched s s' q q' c t) : Single s' ↔ ¬((s.tasks c).state = .running ∧ c = i) := by
  have state := switched_state s s' q q' c t switched
  have yields := yields_iff s q c i core
  constructor
  · intro single both
    obtain ⟨c',current,running⟩ := single
    have isNext : c' = t := Option.some.inj (current.symm.trans switched.current)
    have still : (s'.tasks c).state = .running := by
      rw [state,if_neg other,if_neg (fun goes => (yields.mp goes.2).2 both.2)]
      exact both.1
    exact other (((running c).mp still).trans isNext)
  · intro free
    refine ⟨t,switched.current,?_⟩
    intro x
    rw [state]
    by_cases next : x = t
    · rw [if_pos next]
      exact iff_of_true rfl next
    · rw [if_neg next]
      refine iff_of_false ?_ next
      by_cases prev : x = c
      · subst prev
        by_cases runs : (s.tasks x).state = .running
        · rw [if_pos ⟨rfl,yields.mpr ⟨runs,fun same => free ⟨runs,same⟩⟩⟩]
          simp
        · rw [if_neg (fun goes => runs (yields.mp goes.2).1)]
          exact runs
      · rw [if_neg (fun both => prev both.1)]
        exact alone x prev

section
variable (s : State) (q : Queues) (c i : Slot) (inv : Inv s q c i) (single : Single s)
include inv single

omit inv in
theorem call_alone (current : s.current = some c) (op : Op) (s₁ : State) (call : forceCall s op = some s₁)
    (x : Slot) (other : x ≠ c) : (s₁.tasks x).state ≠ .running := by
  obtain ⟨c',isCurrent,running⟩ := single
  have same : c' = c := Option.some.inj (isCurrent.symm.trans current)
  subst same
  rcases call_state s c' current op s₁ call x with kept | ⟨isCaller,_⟩
  · rw [kept,Ne,running]
    exact other
  · exact absurd (Option.some.inj (isCaller.symm.trans current)) other

theorem idle_runs (op : Op) (allowed : Allowed s op) (waking : Waking op) (s₁ : State)
    (call : forceCall s op = some s₁) (same : c = i) : (s₁.tasks c).state = .running := by
  have current := inv.core.current
  have here : s.current = s.idle := by rw [current,inv.core.idle,same]
  obtain ⟨c',isCurrent,running⟩ := single
  have isCaller : c = c' := Option.some.inj (current.symm.trans isCurrent)
  rcases call_state s c current op s₁ call c with kept | ⟨_,⟨⟨reason,isBlock⟩,_⟩ | ⟨⟨uptime,ms,isSleep⟩,_⟩ | ⟨isExit,_⟩⟩
  · rw [kept]
    exact (running c).mpr isCaller
  · rw [isBlock] at allowed
    exact absurd here allowed
  · rw [isSleep] at waking
    cases waking
  · rw [isExit] at allowed
    exact absurd here allowed

theorem step_single (op : Op) (allowed : Allowed s op) (waking : Waking op) :
    Single (step s op) ↔ ¬TakesFromIdle s op := by
  cases call : forceCall s op with
  | none => exact iff_of_true (quiet_single s single op waking call) (fun takes => takes.2.2 call)
  | some s₁ =>
    obtain ⟨core,_⟩ := call_core s q c i inv op allowed s₁ call
    have alone := call_alone s c single inv.core.current op s₁ call
    have isIdle : s.current = s.idle ↔ c = i := by
      rw [inv.core.current,inv.core.idle,Option.some.injEq]
    rw [step_of_call s op s₁ call]
    rcases force_spec s₁ q c i core with ⟨empty,same,stays⟩ | ⟨t,q',picks,other,switched,_⟩
    · have runs := idle_runs s q c i inv single op allowed waking s₁ call same
      rw [stays]
      refine iff_of_true ⟨c,core.current,?_⟩ ?_
      · intro x
        by_cases here : x = c
        · exact iff_of_true (by rw [here,runs]) here
        · exact iff_of_false (alone x here) here
      · intro takes
        obtain ⟨l,head⟩ := takes.2.1
        exact head ((heads_empty s q inv.core.queued l).mpr (empty l))
    · rw [switched_single s₁ _ q q' c i t core alone other switched,not_iff_not]
      constructor
      · intro both
        refine ⟨isIdle.mpr both.2,?_,by rw [call]; simp⟩
        rcases picks with ⟨k,rest,shape,_⟩ | ⟨_,_,elsewhere⟩
        · refine ⟨k,?_⟩
          rw [Ne,heads_empty s q inv.core.queued,shape]
          simp
        · exact absurd both.2 elsewhere
      · intro takes
        have same := isIdle.mp takes.1
        exact ⟨idle_runs s q c i inv single op allowed waking s₁ call same,same⟩

end

def IdleKept (s : State) (op : Op) (s' : State) : Prop := Next s op s' ∧ Waking op ∧ ¬TakesFromIdle s op

theorem booted_single (s : State) (booted : Booted s) : Single s := by
  obtain ⟨q,inv⟩ := booted_inv s booted
  refine ⟨0,inv.core.current,?_⟩
  intro t
  rw [booted_state s booted]
  by_cases isIdle : t = 1
  · simp [isIdle]
  · rw [if_neg isIdle]
    split
    · rename_i first
      exact iff_of_true rfl first
    · rename_i later
      exact iff_of_false (by simp) later

/-- One task is RUNNING, the current one, in every run that never takes the
processor from idle, and the first call that takes it ends this. -/
theorem single_running (first : State) (booted : Booted first) (ops : List Op) (s : State)
    (run : Steps IdleKept first ops s) :
    Single s ∧ ∀ op s', Next s op s' → Waking op → (Single s' ↔ ¬TakesFromIdle s op) := by
  obtain ⟨q,inv⟩ := booted_inv first booted
  have held : (∃ q c, Inv s q c 1) ∧ Single s := by
    refine Steps.invariant (fun s => (∃ q c, Inv s q c 1) ∧ Single s) ⟨⟨q,0,inv⟩,booted_single first booted⟩ ?_ run
    intro s op s' held kept
    obtain ⟨⟨q,c,inv⟩,single⟩ := held
    obtain ⟨⟨allowed,done⟩,waking,keeps⟩ := kept
    rw [← done]
    exact ⟨step_inv s q c 1 inv op allowed,(step_single s q c 1 inv single op allowed waking).mpr keeps⟩
  obtain ⟨⟨q,c,inv⟩,single⟩ := held
  refine ⟨single,?_⟩
  intro op s' next waking
  obtain ⟨allowed,done⟩ := next
  rw [← done]
  exact step_single s q c 1 inv single op allowed waking

theorem single_running_yield : ∃ s, Steps IdleKept (blackSchedulerInit unset 7 4096 8192) [.scheduleForce] s ∧
    s.current = some 1 ∧ Single s := by
  have run : Steps IdleKept _ [Op.scheduleForce] (step (blackSchedulerInit unset 7 4096 8192) .scheduleForce) :=
    .snoc [] Op.scheduleForce _ _ .nil ⟨⟨trivial,rfl⟩,trivial,fun takes => absurd takes.1 (by decide)⟩
  exact ⟨_,run,by decide,(single_running _ init_booted _ _ run).1⟩

/-- The kernel task yields to idle, and the next call takes the processor back:
both are RUNNING. -/
theorem idle_stays_running : ∃ first s, Booted first ∧ Steps Next first [.scheduleForce,.scheduleForce] s ∧
    s.current = some 0 ∧ (s.tasks 0).state = .running ∧ (s.tasks 1).state = .running ∧ ¬Single s := by
  have yielded : Steps Next _ [Op.scheduleForce] (step (blackSchedulerInit unset 7 4096 8192) .scheduleForce) :=
    .snoc [] Op.scheduleForce _ _ .nil ⟨trivial,rfl⟩
  have run : Steps Next _ [Op.scheduleForce,.scheduleForce] (step _ .scheduleForce) :=
    .snoc [Op.scheduleForce] Op.scheduleForce _ _ yielded ⟨trivial,rfl⟩
  refine ⟨_,_,init_booted,run,by decide,by decide,by decide,?_⟩
  intro single
  obtain ⟨c,current,running⟩ := single
  have isFirst : c = 0 := by
    have same : some c = some (0 : Slot) := current.symm.trans (by decide)
    exact Option.some.inj same
  have isIdle : (1 : Slot) = c := (running 1).mp (by decide)
  rw [isFirst] at isIdle
  cases isIdle

end BlackOS.Scheduler
