import Mathlib.Tactic.Common

/-! Machines that answer calls one after the other. A machine may fail; the machine that it is
compared with does not. -/
namespace BlackOS.Library.Simulation

variable {State Spec Call Reply : Type}

/-- The state and the replies after a list of calls, where none of them fails. -/
def answers (step : State → Call → Option (State × Reply)) (s : State) : List Call → Option (State × List Reply)
  | [] => some (s,[])
  | c::calls => do
    let (s,reply) ← step s c
    let (s,rest) ← answers step s calls
    return (s,reply::rest)

/-- The same for a machine that never fails. -/
def replies (spec : Spec → Call → Spec × Reply) (a : Spec) : List Call → Spec × List Reply
  | [] => (a,[])
  | c::calls =>
    let (a,reply) := spec a c
    let (a,rest) := replies spec a calls
    (a,reply::rest)

/-- Every call is allowed in the state in which it is made. -/
def Along (allowed : State → Call → Prop) (step : State → Call → Option (State × Reply)) : State → List Call → Prop
  | _,[] => True
  | s,c::calls => allowed s c ∧ ∀ s' reply, step s c = some (s',reply) → Along allowed step s' calls

/-- In related states the first machine answers an allowed call as the second does, and they stay
related. -/
def Simulates (allowed : State → Call → Prop) (rel : State → Spec → Prop)
    (step : State → Call → Option (State × Reply)) (spec : Spec → Call → Spec × Reply) : Prop :=
  ∀ s a c, rel s a → allowed s c → ∃ s', step s c = some (s',(spec a c).2) ∧ rel s' (spec a c).1

/-- What holds of every single call holds of every list of calls. -/
theorem Simulates.answers {allowed : State → Call → Prop} {rel : State → Spec → Prop}
    {step : State → Call → Option (State × Reply)} {spec : Spec → Call → Spec × Reply}
    (simulates : Simulates allowed rel step spec) (calls : List Call) (s : State) (a : Spec) (related : rel s a)
    (along : Along allowed step s calls) :
    ∃ s', answers step s calls = some (s',(replies spec a calls).2) ∧ rel s' (replies spec a calls).1 := by
  induction calls generalizing s a with
  | nil => exact ⟨s,rfl,related⟩
  | cons c calls ih =>
    obtain ⟨s₁,answered,related₁⟩ := simulates s a c related along.1
    obtain ⟨s₂,later,related₂⟩ := ih s₁ (spec a c).1 related₁ (along.2 s₁ _ answered)
    refine ⟨s₂,?_,related₂⟩
    rw [Simulation.answers,answered]
    change (Simulation.answers step s₁ calls).bind _ = _
    rw [later]
    rfl

theorem along_always (step : State → Call → Option (State × Reply)) (s : State) (calls : List Call) :
    Along (fun _ _ => True) step s calls := by
  induction calls generalizing s with
  | nil => exact True.intro
  | cons c calls ih => exact ⟨True.intro,fun s' _ _ => ih s'⟩

/-- Calls that are allowed in every state. -/
theorem along_of_forall (allowed : Call → Prop) (step : State → Call → Option (State × Reply)) (s : State)
    (calls : List Call) (all : ∀ c ∈ calls, allowed c) : Along (fun _ => allowed) step s calls := by
  induction calls generalizing s with
  | nil => exact True.intro
  | cons c calls ih =>
    exact ⟨all c List.mem_cons_self,fun s' _ _ => ih s' fun c' among => all c' (List.mem_cons_of_mem c among)⟩

end BlackOS.Library.Simulation
