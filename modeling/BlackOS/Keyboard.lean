import BlackOS.Library.Ram
import BlackOS.Library.Ring
import BlackOS.Library.Run

/-! The event ring of `kernel/drivers/keyboard/keyboard.c`. The interrupt runs
`black_kb_push_event` in one piece; `black_keyboard_get_event` is interrupted between its test
for emptiness, its copy of the event and its update of the tail. -/
namespace BlackOS.Keyboard
open BlackOS.Library.Ram BlackOS.Library.Ring BlackOS.Library.Run

def blackKbBufSize : Nat := 256

structure KeyEvent where
  scancode : Byte
  ascii : Byte
  modifiers : Byte
  pressed : Byte
  extended : Byte
  deriving DecidableEq

/-- `black_kb_event_buf`, `black_kb_head` and `black_kb_tail`. -/
structure Ring where
  buf : Nat → KeyEvent
  head : Nat
  tail : Nat

def emptyRing : Ring := ⟨fun _ => ⟨0,0,0,0,0⟩,0,0⟩

def nextHead (r : Ring) : Nat := (r.head + 1) % blackKbBufSize

def blackKbPushEvent (r : Ring) (ev : KeyEvent) : Ring :=
  if nextHead r = r.tail then r else {r with buf := Function.update r.buf r.head ev,head := nextHead r}

/-- Where a call of `black_keyboard_get_event` is: outside, past the test, or past the copy. -/
inductive Pc
  | outside
  | copying
  | updating (ev : KeyEvent)

/-- The ring and the reader, with the events that were stored and those that were returned. -/
structure State where
  ring : Ring
  pc : Pc
  stored : List KeyEvent
  received : List KeyEvent

inductive Action
  | push (ev : KeyEvent)
  | test
  | copy
  | update

def start : State := ⟨emptyRing,.outside,[],[]⟩

def Dropped (r : Ring) : Prop := nextHead r = r.tail

instance (r : Ring) : Decidable (Dropped r) := inferInstanceAs (Decidable (_ = _))

def step (s : State) : Action → State
  | .push ev => {s with
      ring := blackKbPushEvent s.ring ev
      stored := if Dropped s.ring then s.stored else s.stored ++ [ev]}
  | .test => if s.ring.tail = s.ring.head then s else {s with pc := .copying}
  | .copy => {s with pc := .updating (s.ring.buf s.ring.tail)}
  | .update =>
    match s.pc with
    | .updating ev => {s with
        ring := {s.ring with tail := (s.ring.tail + 1) % blackKbBufSize}
        pc := .outside
        received := s.received ++ [ev]}
    | _ => s

def Enabled (s : State) : Action → Prop
  | .push _ => True
  | .test => s.pc = .outside
  | .copy => s.pc = .copying
  | .update => ∃ ev, s.pc = .updating ev

def Next (s : State) (a : Action) (s' : State) : Prop := Enabled s a ∧ step s a = s'

/-- The events that wait in the ring. -/
def pending (r : Ring) : List KeyEvent := between blackKbBufSize r.buf r.tail r.head

structure Inv (s : State) : Prop where
  head : s.ring.head < blackKbBufSize
  tail : s.ring.tail < blackKbBufSize
  events : s.stored = s.received ++ pending s.ring
  filled : s.pc ≠ .outside → s.ring.tail ≠ s.ring.head
  copied : ∀ ev, s.pc = .updating ev → s.ring.buf s.ring.tail = ev

theorem start_inv : Inv start :=
  ⟨by decide,by decide,(between_self blackKbBufSize emptyRing.buf 0).symm,fun inside => absurd rfl inside,nofun⟩

section Steps
variable (s : State) (inv : Inv s)
include inv

theorem dropped_iff : Dropped s.ring ↔ (pending s.ring).length = 255 := by
  have full := distance_full blackKbBufSize s.ring.tail s.ring.head inv.tail inv.head
  have size : blackKbBufSize = 256 := rfl
  rw [pending,between_length]
  unfold Dropped nextHead
  omega

theorem push_inv (ev : KeyEvent) : Inv (step s (.push ev)) := by
  by_cases full : Dropped s.ring
  · have ring : (step s (.push ev)).ring = s.ring := if_pos full
    have stored : (step s (.push ev)).stored = s.stored := if_pos full
    refine ⟨?_,?_,?_,?_,?_⟩
    · rw [ring]
      exact inv.head
    · rw [ring]
      exact inv.tail
    · rw [ring,stored]
      exact inv.events
    · rw [ring]
      exact inv.filled
    · rw [ring]
      exact inv.copied
  · have ring : (step s (.push ev)).ring =
        {s.ring with buf := Function.update s.ring.buf s.ring.head ev,head := nextHead s.ring} := if_neg full
    have stored : (step s (.push ev)).stored = s.stored ++ [ev] := if_neg full
    have pc : (step s (.push ev)).pc = s.pc := rfl
    have received : (step s (.push ev)).received = s.received := rfl
    constructor
    · rw [ring]
      exact Nat.mod_lt _ (by decide)
    · rw [ring]
      exact inv.tail
    · rw [ring,stored,received,inv.events,List.append_assoc]
      refine congrArg (s.received ++ ·) ?_
      exact (between_push blackKbBufSize s.ring.buf _ _ inv.tail inv.head ev full).symm
    · intro inside
      rw [ring]
      exact fun same => full same.symm
    · intro copy copying
      have apart := inv.filled (by rw [← pc,copying]; nofun)
      rw [ring]
      exact (Function.update_of_ne apart ev s.ring.buf).trans (inv.copied copy copying)

theorem test_inv : Inv (step s .test) := by
  rw [step]
  split
  · exact inv
  · rename_i filled
    exact ⟨inv.head,inv.tail,inv.events,fun _ => filled,nofun⟩

theorem copy_inv (copying : s.pc = .copying) : Inv (step s .copy) := by
  have filled := inv.filled (by rw [copying]; nofun)
  refine ⟨inv.head,inv.tail,inv.events,fun _ => filled,fun ev same => ?_⟩
  exact Pc.updating.inj same

theorem update_inv (ev : KeyEvent) (updating : s.pc = .updating ev) : Inv (step s .update) := by
  have filled := inv.filled (by rw [updating]; nofun)
  have first := inv.copied ev updating
  simp only [step,updating]
  refine ⟨inv.head,Nat.mod_lt _ (by decide),?_,fun inside => absurd rfl inside,nofun⟩
  have pops := between_pop blackKbBufSize s.ring.buf _ _ inv.tail inv.head filled
  rw [first] at pops
  dsimp only
  rw [inv.events,pending,pops,List.append_assoc]
  rfl

theorem step_inv (a : Action) (enabled : Enabled s a) : Inv (step s a) := by
  cases a with
  | push ev => exact push_inv s inv ev
  | test => exact test_inv s inv
  | copy => exact copy_inv s inv enabled
  | update =>
    obtain ⟨ev,updating⟩ := enabled
    exact update_inv s inv ev updating

end Steps

theorem run_inv (actions : List Action) (s : State) (run : Steps Next start actions s) : Inv s := by
  refine Steps.invariant Inv start_inv ?_ run
  intro s a s' inv next
  obtain ⟨enabled,done⟩ := next
  rw [← done]
  exact step_inv s inv a enabled

/-- What the reader has received and what waits are the stored events, each once and in their
order; a call returns the oldest event that waits, and none when none waits; an event is dropped
exactly when 255 wait; and the indices stay in the ring. -/
theorem events_kept (actions : List Action) (s : State) (run : Steps Next start actions s) :
    s.ring.head < 256 ∧ s.ring.tail < 256 ∧ s.stored = s.received ++ pending s.ring ∧
    (∀ ev, s.pc = .updating ev → (pending s.ring).head? = some ev) ∧
    (s.ring.tail = s.ring.head ↔ pending s.ring = []) ∧
    (∀ ev, (step s (.push ev)).stored =
      if (pending s.ring).length = 255 then s.stored else s.stored ++ [ev]) ∧
    ∀ ev, pending (step s (.push ev)).ring =
      if (pending s.ring).length = 255 then pending s.ring else pending s.ring ++ [ev] := by
  have inv := run_inv actions s run
  have full := dropped_iff s inv
  refine ⟨inv.head,inv.tail,inv.events,?_,?_,?_,?_⟩
  · intro ev updating
    have filled := inv.filled (by rw [updating]; nofun)
    have pops := between_pop blackKbBufSize s.ring.buf _ _ inv.tail inv.head filled
    rw [pending,pops,inv.copied ev updating]
    rfl
  · rw [← List.length_eq_zero_iff,pending,between_length]
    exact (distance_zero blackKbBufSize _ _ inv.tail).symm
  · intro ev
    exact if_congr full rfl rfl
  · intro ev
    have pushed := (push_inv s inv ev).events
    have stored : (step s (.push ev)).stored =
        if (pending s.ring).length = 255 then s.stored else s.stored ++ [ev] := if_congr full rfl rfl
    have received : (step s (.push ev)).received = s.received := rfl
    rw [stored,received,inv.events] at pushed
    split at pushed
    · rename_i many
      rw [if_pos many]
      exact (List.append_cancel_left pushed).symm
    · rename_i few
      rw [if_neg few]
      rw [List.append_assoc] at pushed
      exact (List.append_cancel_left pushed).symm

/-- The interrupt stores a second event after the test of a call that returns the first. -/
theorem events_kept_interrupted : ∃ s, Steps Next start
    [.push ⟨30,97,0,1,0⟩,.test,.push ⟨48,98,0,1,0⟩,.copy,.update] s ∧
    s.received = [⟨30,97,0,1,0⟩] ∧ s.stored = s.received ++ pending s.ring := by
  have begins : Steps Next start [] start := .nil
  have first := Steps.snoc _ (Action.push ⟨30,97,0,1,0⟩) _ _ begins ⟨trivial,rfl⟩
  have tests := Steps.snoc _ Action.test _ _ first ⟨rfl,rfl⟩
  have second := Steps.snoc _ (Action.push ⟨48,98,0,1,0⟩) _ _ tests ⟨trivial,rfl⟩
  have copies := Steps.snoc _ Action.copy _ _ second ⟨rfl,rfl⟩
  have run := Steps.snoc _ Action.update _ _ copies ⟨⟨_,rfl⟩,rfl⟩
  exact ⟨_,run,rfl,(events_kept _ _ run).2.2.1⟩

end BlackOS.Keyboard
