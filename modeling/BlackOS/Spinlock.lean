import BlackOS.Library.Ram
import BlackOS.Library.Run
import Mathlib.Data.Fintype.List
import Mathlib.Data.List.Nodup
import Mathlib.Logic.Function.Basic

/-! The ticket lock of `kernel/sync/spinlock.c`, shared by any number of threads. An
atomic operation is one step: taking a ticket, one turn of the waiting loop, and
advancing the number served. Interrupt flags are not part of the state. -/
namespace BlackOS.Spinlock
open BlackOS.Library.Ram BlackOS.Library.Run

/-- Where a thread is: outside, in the loop of `black_spinlock_acquire` with its
ticket, or between the return of acquire and release. -/
inductive Pc
  | outside
  | waiting (myTicket : Word)
  | holding
  deriving DecidableEq

/-- `black_spinlock_t` without its unused word, with the threads and the orders in
which they took their tickets and entered. -/
structure State (T : Type) where
  ticket : Word
  serving : Word
  pc : T → Pc
  taken : List T
  entered : List T

inductive Action (T : Type)
  | take (t : T)
  | spin (t : T)
  | release (t : T)

variable {T : Type} [DecidableEq T]

/-- `SPINLOCK_INIT`, with every thread outside. -/
def spinlockInit : State T := ⟨0,0,fun _ => .outside,[],[]⟩

def take (s : State T) (t : T) : State T :=
  {s with ticket := s.ticket + 1,pc := Function.update s.pc t (.waiting s.ticket),taken := s.taken ++ [t]}

/-- The compare-and-swap writes back the value it compares with: the loop ends when
that is the ticket. -/
def spin (s : State T) (t : T) : State T :=
  if s.pc t = .waiting s.serving then
    {s with pc := Function.update s.pc t .holding,entered := s.entered ++ [t]}
  else s

def release (s : State T) (t : T) : State T :=
  {s with serving := s.serving + 1,pc := Function.update s.pc t .outside}

def step (s : State T) : Action T → State T
  | .take t => take s t
  | .spin t => spin s t
  | .release t => release s t

/-- Each step is taken where the thread is in the code, and only the holder releases. -/
def Enabled (s : State T) : Action T → Prop
  | .take t => s.pc t = .outside
  | .spin t => ∃ myTicket, s.pc t = .waiting myTicket
  | .release t => s.pc t = .holding

/-- Fewer than `2^32` threads wait or hold. -/
def Few (s : State T) : Prop :=
  ∀ crowd : List T, crowd.Nodup → (∀ t ∈ crowd, s.pc t ≠ .outside) → crowd.length < 2^32

def Next (s : State T) (a : Action T) (s' : State T) : Prop := Enabled s a ∧ step s a = s' ∧ Few s'

/-- The threads in line, the first one served next: their tickets are consecutive
from the number served up to the next ticket, and only the first may hold. -/
structure Line (s : State T) (queue : List T) : Prop where
  nodup : queue.Nodup
  member : ∀ t, t ∈ queue ↔ s.pc t ≠ .outside
  ticket : s.ticket = s.serving + word queue.length
  waits : ∀ k t, queue[k]? = some t → s.pc t = .waiting (s.serving + word k) ∨ k = 0 ∧ s.pc t = .holding
  order : ∃ served, s.taken = served ++ queue ∧
    ((∀ t, s.pc t ≠ .holding) ∧ s.entered = served ∨
      ∃ t rest, queue = t::rest ∧ s.pc t = .holding ∧ s.entered = served ++ [t])

section
variable (s : State T) (queue : List T) (held : Line s queue)
include held

omit [DecidableEq T] in
theorem holder_first (t : T) (holds : s.pc t = .holding) : ∃ rest, queue = t::rest := by
  have inside : t ∈ queue := (held.member t).mpr (by simp [holds])
  obtain ⟨k,place⟩ := List.mem_iff_getElem?.mp inside
  rcases held.waits k t place with waits | ⟨first,_⟩
  · rw [holds] at waits
    cases waits
  · subst first
    cases queue with
    | nil => cases inside
    | cons x rest =>
      cases place
      exact ⟨rest,rfl⟩

omit [DecidableEq T] in
/-- With fewer than `2^32` tickets out, the number served is the ticket of the first. -/
theorem served_first (few : Few s) (t : T) (served : s.pc t = .waiting s.serving) : ∃ rest, queue = t::rest := by
  have inside : t ∈ queue := (held.member t).mpr (by simp [served])
  have short := few queue held.nodup (fun x member => (held.member x).mp member)
  obtain ⟨k,place⟩ := List.mem_iff_getElem?.mp inside
  have bound : k < queue.length := (List.getElem?_eq_some_iff.mp place).1
  rcases held.waits k t place with waits | ⟨_,holds⟩
  · rw [served] at waits
    have equal : s.serving = s.serving + word k := Pc.waiting.inj waits
    have first : k = 0 := by
      have value := congrArg BitVec.toNat equal
      have small := s.serving.isLt
      rw [BitVec.toNat_add,word_toNat k (by omega)] at value
      omega
    subst first
    cases queue with
    | nil => cases inside
    | cons x rest =>
      cases place
      exact ⟨rest,rfl⟩
  · rw [served] at holds
    cases holds

theorem take_line (t : T) (outside : s.pc t = .outside) : Line (take s t) (queue ++ [t]) := by
  have absent : t ∉ queue := fun member => (held.member t).mp member outside
  have other (x : T) (member : x ∈ queue) : x ≠ t := fun same => absent (same ▸ member)
  refine ⟨?_,?_,?_,?_,?_⟩
  · rw [List.nodup_append]
    refine ⟨held.nodup,List.nodup_singleton t,?_⟩
    intro x member y single same
    rw [List.mem_singleton] at single
    exact other x member (same.trans single)
  · intro x
    rw [List.mem_append,List.mem_singleton,held.member]
    by_cases same : x = t
    · simp [take,same]
    · simp [take,same]
  · simp only [take,held.ticket,List.length_append,List.length_singleton]
    rw [BitVec.add_assoc]
    exact congrArg (s.serving + ·) (word_add queue.length 1)
  · intro k x place
    by_cases inside : k < queue.length
    · rw [List.getElem?_append_left inside] at place
      have member := List.mem_of_getElem? place
      simp only [take,Function.update_of_ne (other x member)]
      exact held.waits k x place
    · rw [List.getElem?_append_right (by omega)] at place
      have last : k = queue.length ∧ x = t := by
        cases gap : k - queue.length with
        | zero =>
          rw [gap] at place
          cases place
          exact ⟨by omega,rfl⟩
        | succ n =>
          rw [gap] at place
          cases place
      rw [last.1,last.2]
      left
      simp only [take,Function.update_self,held.ticket]
  · obtain ⟨served,sum,stage⟩ := held.order
    refine ⟨served,by simp only [take,sum,List.append_assoc],?_⟩
    rcases stage with ⟨free,entered⟩ | ⟨holder,rest,shape,holds,entered⟩
    · left
      refine ⟨?_,entered⟩
      intro x
      by_cases same : x = t
      · simp [take,same]
      · simp only [take,Function.update_of_ne same]
        exact free x
    · right
      refine ⟨holder,rest ++ [t],by rw [shape,List.cons_append],?_,entered⟩
      simp only [take,Function.update_of_ne (other holder (by simp [shape]))]
      exact holds

/-- Only the first in line leaves the loop, and then nobody else holds. -/
theorem spin_line (few : Few s) (t : T) : Line (spin s t) queue := by
  by_cases served : s.pc t = .waiting s.serving
  · obtain ⟨rest,shape⟩ := served_first s queue held few t served
    have stays (x : T) (other : x ≠ t) : (spin s t).pc x = s.pc x := by
      simp only [spin,if_pos served,Function.update_of_ne other]
    have holds : (spin s t).pc t = .holding := by
      simp only [spin,if_pos served,Function.update_self]
    have serving : (spin s t).serving = s.serving := by simp only [spin,if_pos served]
    refine ⟨held.nodup,?_,?_,?_,?_⟩
    · intro x
      rw [held.member]
      by_cases same : x = t
      · simp [same,holds,served]
      · rw [stays x same]
    · simp only [spin,if_pos served]
      exact held.ticket
    · intro k x place
      rw [serving]
      by_cases same : x = t
      · subst same
        right
        refine ⟨?_,holds⟩
        have first : queue[0]? = some x := by simp [shape]
        have bound := (List.getElem?_eq_some_iff.mp place).1
        exact (List.getElem?_inj bound held.nodup).mp (place.trans first.symm)
      · rw [stays x same]
        exact held.waits k x place
    · obtain ⟨before,sum,stage⟩ := held.order
      refine ⟨before,by simp only [spin,if_pos served,sum],Or.inr ⟨t,rest,shape,holds,?_⟩⟩
      rcases stage with ⟨_,entered⟩ | ⟨holder,others,shape',occupied,_⟩
      · simp only [spin,if_pos served,entered]
      · have same : t = holder := (List.cons.inj (shape.symm.trans shape')).1
        rw [← same,served] at occupied
        cases occupied
  · rw [spin,if_neg served]
    exact held

theorem release_line (t : T) (holds : s.pc t = .holding) : ∃ rest, Line (release s t) rest := by
  obtain ⟨rest,shape⟩ := holder_first s queue held t holds
  subst shape
  have apart := List.nodup_cons.mp held.nodup
  have stays (x : T) (other : x ≠ t) : (release s t).pc x = s.pc x := by
    simp only [release,Function.update_of_ne other]
  have other (x : T) (member : x ∈ rest) : x ≠ t := by
    intro same
    rw [same] at member
    exact apart.1 member
  have move (k : Nat) : s.serving + word (k + 1) = s.serving + 1 + word k := by
    rw [Nat.add_comm k 1,← word_add,BitVec.add_assoc]
    rfl
  refine ⟨rest,apart.2,?_,?_,?_,?_⟩
  · intro x
    by_cases same : x = t
    · simp [release,same,apart.1]
    · rw [stays x same,← held.member,List.mem_cons]
      simp [same]
  · simp only [release,held.ticket,List.length_cons]
    exact move rest.length
  · intro k x place
    have different := other x (List.mem_of_getElem? place)
    rw [stays x different]
    rcases held.waits (k + 1) x (by simpa using place) with waits | ⟨zero,_⟩
    · left
      rw [waits,move k]
      rfl
    · cases zero
  · obtain ⟨before,sum,stage⟩ := held.order
    refine ⟨before ++ [t],by simp [release,sum],Or.inl ⟨?_,?_⟩⟩
    · intro x
      by_cases same : x = t
      · simp [release,same]
      · rw [stays x same]
        intro also
        obtain ⟨_,shape⟩ := holder_first s (t::rest) held x also
        exact same (List.cons.inj shape).1.symm
    · rcases stage with ⟨free,_⟩ | ⟨holder,others,shape,_,entered⟩
      · exact absurd holds (free t)
      · rw [(List.cons.inj shape).1]
        simp only [release,entered]

theorem step_line (few : Few s) (a : Action T) (enabled : Enabled s a) : ∃ line', Line (step s a) line' := by
  cases a with
  | take t => exact ⟨_,take_line s queue held t enabled⟩
  | spin t => exact ⟨_,spin_line s queue held few t⟩
  | release t => exact release_line s queue held t enabled

end

/-- At most one thread is between acquire and release, and the threads enter in the
order in which they took their tickets. -/
theorem ticket_lock (actions : List (Action T)) (s : State T) (run : Steps Next spinlockInit actions s) :
    (∀ t u, s.pc t = .holding → s.pc u = .holding → t = u) ∧ s.entered <+: s.taken := by
  have held : (∃ queue, Line s queue) ∧ Few s := by
    refine Steps.invariant (fun s => (∃ queue, Line s queue) ∧ Few s) ⟨⟨[],?_⟩,?_⟩ ?_ run
    · exact ⟨List.nodup_nil,by simp [spinlockInit],by simp [spinlockInit,word],by simp,
        [],rfl,Or.inl ⟨by simp [spinlockInit],rfl⟩⟩
    · intro crowd _ inside
      cases crowd with
      | nil => exact Nat.two_pow_pos 32
      | cons t rest => exact absurd rfl (inside t (by simp))
    · intro s a s' held next
      obtain ⟨⟨queue,held⟩,few⟩ := held
      obtain ⟨enabled,done,few'⟩ := next
      rw [← done] at few' ⊢
      exact ⟨step_line s queue held few a enabled,few'⟩
  obtain ⟨⟨queue,held⟩,_⟩ := held
  constructor
  · intro t u left right
    obtain ⟨rest,shape⟩ := holder_first s queue held t left
    obtain ⟨rest',shape'⟩ := holder_first s queue held u right
    exact (List.cons.inj (shape.symm.trans shape')).1
  · obtain ⟨served,sum,stage⟩ := held.order
    rw [sum]
    rcases stage with ⟨_,entered⟩ | ⟨t,rest,shape,_,entered⟩
    · exact ⟨queue,by rw [entered]⟩
    · exact ⟨rest,by rw [entered,shape]; simp⟩

theorem few_bool (s : State Bool) : Few s := by
  intro crowd nodup _
  have size := nodup.length_le_card
  have two : Fintype.card Bool = 2 := rfl
  omega

/-- Two threads take tickets, and the first enters although the second looks first. -/
theorem ticket_lock_two : ∃ s : State Bool,
    Steps Next spinlockInit [.take true,.take false,.spin false,.spin true] s ∧ s.entered = [true] ∧
      s.entered <+: s.taken := by
  have start : Steps Next (spinlockInit : State Bool) [] spinlockInit := .nil
  have first := Steps.snoc _ (Action.take true) _ _ start ⟨rfl,rfl,few_bool _⟩
  have second := Steps.snoc _ (Action.take false) _ _ first ⟨rfl,rfl,few_bool _⟩
  have looks := Steps.snoc _ (Action.spin false) _ _ second ⟨⟨1,rfl⟩,rfl,few_bool _⟩
  have run := Steps.snoc _ (Action.spin true) _ _ looks ⟨⟨0,rfl⟩,rfl,few_bool _⟩
  exact ⟨_,run,rfl,(ticket_lock _ _ run).2⟩

end BlackOS.Spinlock
