import BlackOS.Scheduler
import BlackOS.Library.Linked

/-! The run queues as lists: what enqueueing and dequeueing do to them, and that
neither touches a task beyond its link and, for an enqueued task, its state. -/
namespace BlackOS.Scheduler
open BlackOS.Library.Linked

abbrev Queues := Level → List Slot

/-- The heads, tails and links of the table hold the given queues. -/
structure Queued (s : State) (q : Queues) : Prop where
  visits : ∀ l, Visits (fun t => (s.tasks t).next) (s.heads l) (q l)
  tail : ∀ l, s.tails l = (q l).getLast?
  once : ∀ t, occurrences q t ≤ 1

def Task.unlinked (x : Task) : Task := {x with next := none}

theorem setTask_tasks (s : State) (t : Slot) (f : Task → Task) (x : Slot) :
    (s.setTask t f).tasks x = if x = t then f (s.tasks x) else s.tasks x := by
  by_cases same : x = t
  · simp [State.setTask,same]
  · simp [State.setTask,same]

theorem queued_nodup (s : State) (q : Queues) (queued : Queued s q) (l : Level) : (q l).Nodup := by
  rw [List.nodup_iff_count_le_one]
  intro t
  exact (count_le_occurrences q l t).trans (queued.once t)

theorem queued_congr (s s' : State) (q : Queues) (queued : Queued s q)
    (links : ∀ t, (s'.tasks t).next = (s.tasks t).next) (heads : s'.heads = s.heads)
    (tails : s'.tails = s.tails) : Queued s' q := by
  refine ⟨?_,?_,queued.once⟩
  · intro l
    rw [heads]
    exact visits_congr _ _ _ (fun t _ => links t) _ (queued.visits l)
  · intro l
    rw [tails]
    exact queued.tail l

theorem queued_setTask (s : State) (q : Queues) (queued : Queued s q) (t : Slot) (f : Task → Task)
    (link : ∀ x, (f x).next = x.next) : Queued (s.setTask t f) q := by
  refine queued_congr s (s.setTask t f) q queued ?_ rfl rfl
  intro x
  rw [setTask_tasks]
  split
  · exact link _
  · rfl

theorem heads_empty (s : State) (q : Queues) (queued : Queued s q) (l : Level) :
    s.heads l = none ↔ q l = [] := by
  have visits := queued.visits l
  cases shape : q l with
  | nil =>
    rw [shape] at visits
    exact iff_of_true visits rfl
  | cons t ts =>
    rw [shape] at visits
    simp [visits.1]

def appended (s : State) (q : Queues) (t : Slot) : Queues :=
  Function.update q (queueLevel (s.tasks t).mlfqLevel) (q (queueLevel (s.tasks t).mlfqLevel) ++ [t])

theorem occurrences_appended (s : State) (q : Queues) (t x : Slot) :
    occurrences (appended s q t) x = occurrences q x + if x = t then 1 else 0 := by
  have updated := occurrences_update q (queueLevel (s.tasks t).mlfqLevel)
    (q (queueLevel (s.tasks t).mlfqLevel) ++ [t]) x
  rw [List.count_append,List.count_singleton] at updated
  simp only [beq_iff_eq,eq_comm (a := t)] at updated
  unfold appended
  omega

section Enqueue
variable (s : State) (t : Slot)

@[simp] theorem enqueue_current : (blackEnqueue s t).current = s.current := by
  simp only [blackEnqueue]
  split <;> rfl

@[simp] theorem enqueue_idle : (blackEnqueue s t).idle = s.idle := by
  simp only [blackEnqueue]
  split <;> rfl

@[simp] theorem enqueue_enabled : (blackEnqueue s t).enabled = s.enabled := by
  simp only [blackEnqueue]
  split <;> rfl

theorem enqueue_task (x : Slot) : ((blackEnqueue s t).tasks x).unlinked =
    (if x = t then {s.tasks x with state := .ready} else s.tasks x).unlinked := by
  simp only [blackEnqueue]
  split
  · rename_i last _
    rw [setTask_tasks,setTask_tasks]
    by_cases atLast : x = last <;> by_cases atT : x = t <;> simp [atLast,atT,Task.unlinked]
    all_goals split <;> simp_all
  · simp only [setTask_tasks]
    by_cases atT : x = t <;> simp [atT,Task.unlinked]

theorem enqueue_first (empty : s.tails (queueLevel (s.tasks t).mlfqLevel) = none) :
    (∀ x, ((blackEnqueue s t).tasks x).next = if x = t then none else (s.tasks x).next) ∧
    (blackEnqueue s t).heads = Function.update s.heads (queueLevel (s.tasks t).mlfqLevel) (some t) := by
  have empty' : (s.setTask t (fun x => {x with next := none,state := .ready})).tails
      (queueLevel (s.tasks t).mlfqLevel) = none := empty
  simp only [blackEnqueue,empty']
  refine ⟨?_,rfl⟩
  intro x
  rw [setTask_tasks]
  split <;> rfl

theorem enqueue_behind (last : Slot) (behind : s.tails (queueLevel (s.tasks t).mlfqLevel) = some last) :
    (∀ x, ((blackEnqueue s t).tasks x).next =
      if x = last then some t else if x = t then none else (s.tasks x).next) ∧
    (blackEnqueue s t).heads = s.heads := by
  have behind' : (s.setTask t (fun x => {x with next := none,state := .ready})).tails
      (queueLevel (s.tasks t).mlfqLevel) = some last := behind
  simp only [blackEnqueue,behind']
  refine ⟨?_,rfl⟩
  intro x
  rw [setTask_tasks,setTask_tasks]
  split
  · rfl
  · split <;> rfl

theorem enqueue_tails :
    (blackEnqueue s t).tails = Function.update s.tails (queueLevel (s.tasks t).mlfqLevel) (some t) := by
  simp only [blackEnqueue]
  split <;> rfl

theorem enqueue_visits (q : Queues) (queued : Queued s q) (absent : occurrences q t = 0) (l : Level) :
    Visits (fun x => ((blackEnqueue s t).tasks x).next) ((blackEnqueue s t).heads l) (appended s q t l) := by
  have apart (l : Level) (x : Slot) (member : x ∈ q l) : x ≠ t := by
    intro same
    rw [same] at member
    exact (occurrences_zero q t).mp absent l member
  have tails := queued.tail (queueLevel (s.tasks t).mlfqLevel)
  unfold appended
  cases back : s.tails (queueLevel (s.tasks t).mlfqLevel) with
  | none =>
    obtain ⟨links,heads⟩ := enqueue_first s t back
    have empty : q (queueLevel (s.tasks t).mlfqLevel) = [] := by
      rw [back] at tails
      exact List.getLast?_eq_none_iff.mp tails.symm
    rw [heads]
    by_cases here : l = queueLevel (s.tasks t).mlfqLevel
    · subst here
      rw [Function.update_self,Function.update_self,empty]
      exact ⟨rfl,by simp [links,Visits]⟩
    · rw [Function.update_of_ne here,Function.update_of_ne here]
      refine visits_congr _ _ _ ?_ _ (queued.visits l)
      intro x member
      rw [links,if_neg (apart l x member)]
  | some last =>
    obtain ⟨links,heads⟩ := enqueue_behind s t last back
    rw [back] at tails
    have member := List.mem_of_getLast? tails.symm
    have other := (apart _ last member).symm
    rw [heads]
    by_cases here : l = queueLevel (s.tasks t).mlfqLevel
    · subst here
      rw [Function.update_self]
      refine visits_snoc _ _ _ last t tails.symm (queued_nodup s q queued _) ?_ ?_ ?_ _ (queued.visits _)
      · rw [links,if_pos rfl]
      · rw [links,if_neg other,if_pos rfl]
      · intro x inside notLast
        rw [links,if_neg notLast,if_neg (apart _ x inside)]
    · rw [Function.update_of_ne here]
      refine visits_congr _ _ _ ?_ _ (queued.visits l)
      intro x inside
      have notLast : x ≠ last := by
        intro same
        subst same
        exact here (occurrences_unique q x (queued.once x) l _ inside member)
      rw [links,if_neg notLast,if_neg (apart l x inside)]

theorem enqueue_queued (q : Queues) (queued : Queued s q) (absent : occurrences q t = 0) :
    Queued (blackEnqueue s t) (appended s q t) := by
  refine ⟨enqueue_visits s t q queued absent,?_,?_⟩
  · intro l
    unfold appended
    rw [enqueue_tails]
    by_cases here : l = queueLevel (s.tasks t).mlfqLevel
    · subst here
      simp
    · rw [Function.update_of_ne here,Function.update_of_ne here]
      exact queued.tail l
  · intro x
    rw [occurrences_appended]
    have before := queued.once x
    split
    · rename_i same
      rw [same,absent]
    · omega

end Enqueue

/-- What `black_dequeue` takes: the first task of the first queue that has one. -/
structure Dequeues (s s' : State) (q : Queues) (k : Level) (t : Slot) (rest : List Slot) : Prop where
  shape : q k = t::rest
  above : ∀ l, l < k → q l = []
  queued : Queued s' (Function.update q k rest)
  task : ∀ x, (s'.tasks x).unlinked = (s.tasks x).unlinked
  current : s'.current = s.current
  idle : s'.idle = s.idle
  enabled : s'.enabled = s.enabled

def popped (s : State) (l : Level) (t : Slot) : State :=
  (if (s.tasks t).next = none then
    {s with heads := Function.update s.heads l (s.tasks t).next,tails := Function.update s.tails l none}
  else {s with heads := Function.update s.heads l (s.tasks t).next}).setTask t (fun x => {x with next := none})

theorem dequeueFrom_some (s : State) (l : Level) (levels : List Level) (t : Slot)
    (head : s.heads l = some t) : dequeueFrom s (l::levels) = (popped s l t,some t) := by
  simp only [dequeueFrom,head,popped,Function.update_self]

section Popped
variable (s : State) (l : Level) (t : Slot)

theorem popped_next (x : Slot) : ((popped s l t).tasks x).next = if x = t then none else (s.tasks x).next := by
  unfold popped
  rw [setTask_tasks]
  split
  · rfl
  · split <;> rfl

theorem popped_task (x : Slot) : ((popped s l t).tasks x).unlinked = (s.tasks x).unlinked := by
  unfold popped
  rw [setTask_tasks]
  split <;> split <;> rfl

theorem popped_heads : (popped s l t).heads = Function.update s.heads l (s.tasks t).next := by
  unfold popped
  split <;> rfl

theorem popped_tails : (popped s l t).tails =
    if (s.tasks t).next = none then Function.update s.tails l none else s.tails := by
  unfold popped
  split <;> rfl

/-- The links of the other tasks stay, so the queues are visited as before but for the first task of the level. -/
theorem popped_visits (q : Queues) (queued : Queued s q) (rest : List Slot) (shape : q l = t::rest)
    (visits : Visits (fun x => (s.tasks x).next) (s.tasks t).next rest) (i : Level) :
    Visits (fun x => ((popped s l t).tasks x).next) ((popped s l t).heads i) (Function.update q l rest i) := by
  have nodup := queued_nodup s q queued l
  rw [shape] at nodup
  rw [popped_heads]
  by_cases here : i = l
  · subst here
    rw [Function.update_self,Function.update_self]
    refine visits_congr _ _ _ ?_ _ visits
    intro x member
    have other : x ≠ t := fun same => (List.nodup_cons.mp nodup).1 (by rwa [same] at member)
    rw [popped_next,if_neg other]
  · rw [Function.update_of_ne here,Function.update_of_ne here]
    refine visits_congr _ _ _ ?_ _ (queued.visits i)
    intro x member
    have other : x ≠ t := by
      intro same
      subst same
      exact here (occurrences_unique q x (queued.once x) i l member (by simp [shape]))
    rw [popped_next,if_neg other]

theorem popped_tail (q : Queues) (queued : Queued s q) (rest : List Slot) (shape : q l = t::rest)
    (visits : Visits (fun x => (s.tasks x).next) (s.tasks t).next rest) (i : Level) :
    (popped s l t).tails i = (Function.update q l rest i).getLast? := by
  have tail := queued.tail l
  rw [popped_tails]
  by_cases here : i = l
  · subst here
    rw [shape] at tail
    rw [Function.update_self]
    cases rest with
    | nil =>
      have ends : (s.tasks t).next = none := visits
      rw [if_pos ends,Function.update_self]
      rfl
    | cons second others => rw [if_neg (by simp [visits.1]),tail,List.getLast?_cons_cons]
  · rw [Function.update_of_ne here,← queued.tail i]
    split
    · rw [Function.update_of_ne here]
    · rfl

theorem popped_dequeues (q : Queues) (queued : Queued s q) (head : s.heads l = some t)
    (above : ∀ i, i < l → q i = []) : ∃ rest, Dequeues s (popped s l t) q l t rest := by
  have visits := queued.visits l
  cases shape : q l with
  | nil =>
    rw [shape,head] at visits
    cases visits
  | cons first rest =>
    rw [shape] at visits
    obtain ⟨starts,visits⟩ := visits
    have same : first = t := by simpa [head] using starts.symm
    subst same
    refine ⟨rest,shape,above,⟨popped_visits s l first q queued rest shape visits,
      popped_tail s l first q queued rest shape visits,?_⟩,popped_task s l first,?_,?_,?_⟩
    · intro x
      have updated := occurrences_update q l rest x
      have before := queued.once x
      rw [shape,List.count_cons] at updated
      omega
    · unfold popped
      split <;> rfl
    · unfold popped
      split <;> rfl
    · unfold popped
      split <;> rfl

end Popped

theorem dequeueFrom_none (s : State) (l : Level) (levels : List Level) (head : s.heads l = none) :
    dequeueFrom s (l::levels) = dequeueFrom s levels := by
  simp only [dequeueFrom,head]

theorem dequeueFrom_cases (s : State) (levels : List Level) (rest : ∀ l, l ∉ levels → s.heads l = none)
    (sorted : levels.Pairwise (· < ·)) :
    (∀ l, s.heads l = none) ∧ dequeueFrom s levels = (s,none) ∨
      ∃ k h, s.heads k = some h ∧ (∀ l, l < k → s.heads l = none) ∧ dequeueFrom s levels = (popped s k h,some h) := by
  induction levels with
  | nil => exact Or.inl ⟨fun l => rest l List.not_mem_nil,rfl⟩
  | cons k levels ih =>
    obtain ⟨least,sorted⟩ := List.pairwise_cons.mp sorted
    cases head : s.heads k with
    | none =>
      rw [dequeueFrom_none s k levels head]
      refine ih ?_ sorted
      intro l absent
      by_cases here : l = k
      · rw [here]
        exact head
      · exact rest l (List.not_mem_cons_of_ne_of_not_mem here absent)
    | some h =>
      refine Or.inr ⟨k,h,head,?_,dequeueFrom_some s k levels h head⟩
      intro l below
      refine rest l (List.not_mem_cons_of_ne_of_not_mem (Fin.ne_of_lt below) ?_)
      exact fun later => absurd (least l later) (Fin.not_lt.mpr (Fin.le_of_lt below))

theorem dequeue_cases (s : State) :
    (∀ l, s.heads l = none) ∧ blackDequeue s = (s,none) ∨
      ∃ k h, s.heads k = some h ∧ (∀ l, l < k → s.heads l = none) ∧ blackDequeue s = (popped s k h,some h) := by
  have all : ∀ l : Level, l ∈ [0,1,2,3] := by decide
  exact dequeueFrom_cases s [0,1,2,3] (fun l absent => absurd (all l) absent) (by decide)

theorem dequeue_spec (s : State) (q : Queues) (queued : Queued s q) :
    ((∀ l, q l = []) ∧ blackDequeue s = (s,none)) ∨
      ∃ s' k t rest, blackDequeue s = (s',some t) ∧ Dequeues s s' q k t rest := by
  have empty := heads_empty s q queued
  rcases dequeue_cases s with ⟨none_,result⟩ | ⟨k,h,head,above,result⟩
  · exact Or.inl ⟨fun l => (empty l).mp (none_ l),result⟩
  · obtain ⟨others,dequeues⟩ := popped_dequeues s k h q queued head (fun l below => (empty l).mp (above l below))
    exact Or.inr ⟨_,k,h,others,result,dequeues⟩

end BlackOS.Scheduler
