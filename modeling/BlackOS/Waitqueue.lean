import BlackOS.Library.Ram
import BlackOS.Library.Run
import Mathlib.Logic.Function.Basic

/-! The wait queue of `kernel/sync/waitqueue.c`, a counter shared by any number of
sleepers and wakers. Entering is one atomic increment, each turn of the waiting loop
one load, and a wake-up one store of 0. -/
namespace BlackOS.Waitqueue
open BlackOS.Library.Ram BlackOS.Library.Run

/-- A sleeper in the loop of `black_waitqueue_sleep` is woken once a wake-up has
happened since its increment. -/
inductive Pc
  | outside
  | asleep
  | woken
  deriving DecidableEq

structure State (T : Type) where
  count : Word
  pc : T → Pc

inductive Action (T : Type)
  | sleep (t : T)
  | load (t : T)
  | wake

variable {T : Type} [DecidableEq T]

def blackWaitqueueInit : State T := ⟨0,fun _ => .outside⟩

/-- The increment of `black_waitqueue_sleep`. -/
def sleep (s : State T) (t : T) : State T := ⟨s.count + 1,Function.update s.pc t .asleep⟩

/-- One turn of the loop: a positive count keeps the sleeper there. -/
def load (s : State T) (t : T) : State T :=
  if 0 < s.count.toInt then s else {s with pc := Function.update s.pc t .outside}

def blackWaitqueueWake (s : State T) : State T := ⟨0,fun t => if s.pc t = .asleep then .woken else s.pc t⟩

def step (s : State T) : Action T → State T
  | .sleep t => sleep s t
  | .load t => load s t
  | .wake => blackWaitqueueWake s

def Enabled (s : State T) : Action T → Prop
  | .sleep t => s.pc t = .outside
  | .load t => s.pc t ≠ .outside
  | .wake => True

def Next (s : State T) (a : Action T) (s' : State T) : Prop := Enabled s a ∧ step s a = s'

/-- No sleeper reads a positive count after its wake-up. -/
def Released (s : State T) : Prop := ∀ t, s.pc t = .woken → ¬0 < s.count.toInt

/-- Nobody goes to sleep while a woken sleeper is still in its loop. -/
def Settled (s : State T) : Action T → Prop
  | .sleep _ => ∀ t, s.pc t ≠ .woken
  | _ => True

def SettledNext (s : State T) (a : Action T) (s' : State T) : Prop := Next s a s' ∧ Settled s a

/-- A woken sleeper that is still in its loop finds the count at 0. -/
def Inv (s : State T) : Prop := ∀ t, s.pc t = .woken → s.count = 0

omit [DecidableEq T] in
theorem inv_released (s : State T) (inv : Inv s) : Released s := by
  intro t woken
  rw [inv t woken]
  decide

theorem step_inv (s : State T) (inv : Inv s) (a : Action T) (settled : Settled s a) : Inv (step s a) := by
  intro t woken
  cases a with
  | sleep u =>
    by_cases same : t = u
    · simp [step,sleep,same] at woken
    · simp only [step,sleep,Function.update_of_ne same] at woken
      exact absurd woken (settled t)
  | load u =>
    simp only [step,load] at woken ⊢
    split at woken
    · rename_i positive
      rw [if_pos positive]
      exact inv t woken
    · rename_i free
      rw [if_neg free]
      by_cases same : t = u
      · simp [same] at woken
      · have before : s.pc t = .woken := by simpa [same] using woken
        exact inv t before
  | wake => rfl

theorem step_released (s : State T) (inv : Inv s) (a : Action T) (enabled : Enabled s a) :
    Released (step s a) ↔ Settled s a := by
  constructor
  · intro released
    cases a with
    | sleep u =>
      intro t woken
      have other : t ≠ u := by
        intro same
        have outside : s.pc u = .outside := enabled
        rw [same,outside] at woken
        cases woken
      apply released t
      · simp only [step,sleep,Function.update_of_ne other]
        exact woken
      · simp only [step,sleep,inv t woken]
        decide
    | load u => trivial
    | wake => trivial
  · intro settled
    exact inv_released _ (step_inv s inv a settled)

/-- In a run where nobody goes to sleep while a woken sleeper is still in its loop,
no sleeper reads a positive count after its wake-up; the first step that breaks this
rule gives a woken sleeper a positive count to read. -/
theorem woken_released (actions : List (Action T)) (s : State T)
    (run : Steps SettledNext blackWaitqueueInit actions s) :
    Released s ∧ ∀ a s', Next s a s' → (Released s' ↔ Settled s a) := by
  have inv : Inv s := by
    refine Steps.invariant Inv ?_ ?_ run
    · intro t woken
      cases woken
    · intro s a s' inv next
      obtain ⟨⟨_,done⟩,settled⟩ := next
      rw [← done]
      exact step_inv s inv a settled
  refine ⟨inv_released s inv,?_⟩
  intro a s' next
  obtain ⟨enabled,done⟩ := next
  rw [← done]
  exact step_released s inv a enabled

/-- Two sleepers are woken together. -/
theorem woken_released_two : ∃ s : State Bool, Steps SettledNext blackWaitqueueInit
    [.sleep true,.sleep false,.wake] s ∧ s.pc true = .woken ∧ s.pc false = .woken ∧ Released s := by
  have start : Steps SettledNext (blackWaitqueueInit : State Bool) [] blackWaitqueueInit := .nil
  have first := Steps.snoc _ (Action.sleep true) _ _ start ⟨⟨rfl,rfl⟩,fun t => by cases t <;> decide⟩
  have second := Steps.snoc _ (Action.sleep false) _ _ first ⟨⟨rfl,rfl⟩,fun t => by cases t <;> decide⟩
  have run := Steps.snoc _ Action.wake _ _ second ⟨⟨trivial,rfl⟩,trivial⟩
  exact ⟨_,run,rfl,rfl,(woken_released _ _ run).1⟩

/-- A second sleeper comes after the wake-up and before the first one looks again: the
woken sleeper reads 1 and stays in its loop. -/
theorem wakeup_lost : ∃ s : State Bool, Steps Next blackWaitqueueInit
    [.sleep true,.wake,.sleep false,.load true] s ∧ s.pc true = .woken ∧ 0 < s.count.toInt ∧ ¬Released s := by
  have start : Steps Next (blackWaitqueueInit : State Bool) [] blackWaitqueueInit := .nil
  have first := Steps.snoc _ (Action.sleep true) _ _ start ⟨rfl,rfl⟩
  have woken := Steps.snoc _ Action.wake _ _ first ⟨trivial,rfl⟩
  have second := Steps.snoc _ (Action.sleep false) _ _ woken ⟨rfl,rfl⟩
  have run := Steps.snoc _ (Action.load true) _ _ second ⟨(by decide : _ ≠ Pc.outside),rfl⟩
  refine ⟨_,run,by decide,by decide,?_⟩
  intro released
  exact released true (by decide) (by decide)

end BlackOS.Waitqueue
