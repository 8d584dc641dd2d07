import BlackOS.Library.Ram
import BlackOS.Library.Run
import Mathlib.Logic.Function.Basic

/-! The counting semaphore of `kernel/sync/semaphore.c`, shared by any number of
threads. The load and the compare-and-swap of `black_semaphore_wait` are two steps
of the waiting thread; `black_semaphore_signal` is one atomic addition. -/
namespace BlackOS.Semaphore
open BlackOS.Library.Ram BlackOS.Library.Run

/-- A thread is outside or at the head of the loop of `black_semaphore_wait`, or it
has loaded `black_old`. -/
inductive Pc
  | ready
  | loaded (old : Word)
  deriving DecidableEq

/-- `black_semaphore_t` with its threads, the signals done and the waits returned. -/
structure State (T : Type) where
  count : Word
  pc : T → Pc
  signals : Nat
  waits : Nat

inductive Action (T : Type)
  | load (t : T)
  | swap (t : T)
  | signal

variable {T : Type} [DecidableEq T]

def load (s : State T) (t : T) : State T := {s with pc := Function.update s.pc t (.loaded s.count)}

/-- The test of the loop: a positive value that is still there is decremented and the
wait returns; otherwise the loop starts over. -/
def swap (s : State T) (t : T) (old : Word) : State T :=
  if 0 < old.toInt ∧ s.count = old then
    {s with count := old - 1,pc := Function.update s.pc t .ready,waits := s.waits + 1}
  else {s with pc := Function.update s.pc t .ready}

def blackSemaphoreSignal (s : State T) : State T := {s with count := s.count + 1,signals := s.signals + 1}

def step (s : State T) : Action T → State T
  | .load t => load s t
  | .swap t =>
    match s.pc t with
    | .loaded old => swap s t old
    | .ready => s
  | .signal => blackSemaphoreSignal s

def Enabled (s : State T) : Action T → Prop
  | .load t => s.pc t = .ready
  | .swap t => ∃ old, s.pc t = .loaded old
  | .signal => True

def Next (s : State T) (a : Action T) (s' : State T) : Prop := Enabled s a ∧ step s a = s'

/-- The count is what was there and signalled, less the waits that returned. -/
def Balanced (val : Word) (s : State T) : Prop :=
  s.count.toInt = val.toInt + s.signals - s.waits ∧ 0 ≤ s.count.toInt

end BlackOS.Semaphore
