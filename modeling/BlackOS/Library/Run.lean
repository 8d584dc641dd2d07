import Mathlib.Tactic.Common

/-! Finite runs of a labelled transition relation and their invariants. -/
namespace BlackOS.Library.Run

variable {State Action : Type}

/-- `Steps next first actions last`: the actions, taken in order, lead from `first` to `last`. -/
inductive Steps (next : State → Action → State → Prop) (first : State) : List Action → State → Prop
  | nil : Steps next first [] first
  | snoc (actions : List Action) (action : Action) (middle last : State)
      (before : Steps next first actions middle) (step : next middle action last) :
      Steps next first (actions ++ [action]) last

/-- What holds at first and is kept by every step holds after every run. -/
theorem Steps.invariant {next : State → Action → State → Prop} {first last : State}
    {actions : List Action} (holds : State → Prop) (initial : holds first)
    (kept : ∀ s a s', holds s → next s a s' → holds s')
    (run : Steps next first actions last) : holds last := by
  induction run with
  | nil => exact initial
  | snoc actions action middle last before step ih => exact kept middle action last ih step

section Throughout
variable (step : State → Action → State)

/-- The property holds at every action of the run, of the state in which the action is taken. -/
def Throughout (P : State → Action → Prop) : State → List Action → Prop
  | _,[] => True
  | s,a::actions => P s a ∧ Throughout P (step s a) actions

theorem throughout_append (P : State → Action → Prop) (s : State) (first second : List Action) :
    Throughout step P s (first ++ second) ↔
      Throughout step P s first ∧ Throughout step P (first.foldl step s) second := by
  induction first generalizing s with
  | nil => exact (and_iff_right True.intro).symm
  | cons a first ih =>
    rw [List.cons_append,Throughout,Throughout,ih,and_assoc,List.foldl_cons]

/-- Two properties that agree in the states of an invariant, which the second one keeps, agree on
every run. -/
theorem throughout_iff (P Q : State → Action → Prop) (inv : State → Prop)
    (agree : ∀ s a, inv s → (P s a ↔ Q s a)) (kept : ∀ s a, inv s → Q s a → inv (step s a))
    (s : State) (initial : inv s) (actions : List Action) :
    Throughout step P s actions ↔ Throughout step Q s actions := by
  induction actions generalizing s with
  | nil => exact Iff.rfl
  | cons a actions ih =>
    rw [Throughout,Throughout,agree s a initial]
    exact and_congr_right fun holds => ih (step s a) (kept s a initial holds)

/-- A property that a step keeps just where the action meets a condition holds at the end of the runs
whose actions all meet it. -/
theorem throughout_final (P : State → Prop) (Q : State → Action → Prop) (inv : State → Prop)
    (kept : ∀ s a, inv s → inv (step s a)) (one : ∀ s a, inv s → (P (step s a) ↔ P s ∧ Q s a))
    (s : State) (initial : inv s) (actions : List Action) :
    P (actions.foldl step s) ↔ P s ∧ Throughout step Q s actions := by
  induction actions generalizing s with
  | nil => exact (and_iff_left True.intro).symm
  | cons a actions ih =>
    rw [List.foldl_cons,ih (step s a) (kept s a initial),one s a initial,Throughout,and_assoc]

end Throughout

end BlackOS.Library.Run
