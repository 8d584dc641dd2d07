import BlackOS.Library.Ram
import BlackOS.Library.Ring
import BlackOS.Library.Simulation

/-! The byte ring of `rust/black_core`. A call that would index the array out of range panics and
has no result. -/
namespace BlackOS.RingBuffer
open BlackOS.Library.Ram BlackOS.Library.Ring BlackOS.Library.Simulation

def capacity : Nat := 4096

/-- `black_ring_buffer`. -/
structure Buffer where
  data : Nat → Byte
  head : Nat
  tail : Nat
  count : Nat

def blackNew : Buffer := ⟨fun _ => 0,0,0,0⟩

section Calls
variable (b : Buffer)

def load (i : Nat) : Option Byte := if i < capacity then some (b.data i) else none

def store (i : Nat) (byte : Byte) : Option Buffer :=
  if i < capacity then some {b with data := Function.update b.data i byte} else none

def blackPush (byte : Byte) : Option (Buffer × Bool) :=
  if capacity ≤ b.count then some (b,false) else do
  let b ← store b b.head byte
  return ({b with head := (b.head + 1) % capacity,count := b.count + 1},true)

def blackPop : Option (Buffer × Option Byte) :=
  if b.count = 0 then some (b,none) else do
  let byte ← load b b.tail
  return ({b with tail := (b.tail + 1) % capacity,count := b.count - 1},some byte)

def blackPeek : Option (Option Byte) :=
  if b.count = 0 then some none else do
  let byte ← load b b.tail
  return some byte

def blackLen : Nat := b.count

def blackClear : Buffer := {b with head := 0,tail := 0,count := 0}

end Calls

inductive Call
  | push (byte : Byte)
  | pop
  | peek
  | clear
  | len
  deriving DecidableEq

inductive Reply
  | accepted (flag : Bool)
  | byte (result : Option Byte)
  | done
  | length (n : Nat)
  deriving DecidableEq

def step (b : Buffer) : Call → Option (Buffer × Reply)
  | .push byte => (blackPush b byte).map fun (b,flag) => (b,.accepted flag)
  | .pop => (blackPop b).map fun (b,result) => (b,.byte result)
  | .peek => (blackPeek b).map fun result => (b,.byte result)
  | .clear => some (blackClear b,.done)
  | .len => some (b,.length (blackLen b))

/-- A queue of at most 4096 bytes. -/
def queueStep (q : List Byte) : Call → List Byte × Reply
  | .push byte => if q.length = capacity then (q,.accepted false) else (q ++ [byte],.accepted true)
  | .pop => (q.tail,.byte q.head?)
  | .peek => (q,.byte q.head?)
  | .clear => ([],.done)
  | .len => (q,.length q.length)

def contents (b : Buffer) : List Byte := slice capacity b.data b.tail b.count

/-- The cursors are in range, the head is where the queue ends, and the queue is in the array. -/
structure Holds (b : Buffer) (q : List Byte) : Prop where
  tail : b.tail < capacity
  room : b.count ≤ capacity
  head : b.head = (b.tail + b.count) % capacity
  queue : contents b = q

section Simulation
variable (b : Buffer) (q : List Byte) (holds : Holds b q)
include holds

theorem holds_length : q.length = b.count := by
  rw [← holds.queue]
  exact slice_length _ _ _ _

theorem head_inside : b.head < capacity := by
  rw [holds.head]
  exact Nat.mod_lt _ (by decide)

theorem push_simulates (byte : Byte) : ∃ b', step b (.push byte) = some (b',(queueStep q (.push byte)).2) ∧
    Holds b' (queueStep q (.push byte)).1 := by
  have length := holds_length b q holds
  simp only [step,blackPush,queueStep]
  by_cases full : capacity ≤ b.count
  · have most := holds.room
    rw [if_pos full,if_pos (by omega)]
    exact ⟨b,rfl,holds⟩
  · rw [if_neg full,if_neg (by omega),store,if_pos (head_inside b q holds)]
    refine ⟨_,rfl,holds.tail,?_,?_,?_⟩
    · exact Nat.not_le.mp full
    · rw [holds.head,Nat.mod_add_mod,Nat.add_assoc]
    · have pushed := slice_push capacity b.data b.tail b.count byte (Nat.not_le.mp full)
      rw [← holds.head] at pushed
      rw [← holds.queue]
      exact pushed

/-- A queue that is not empty starts with the byte under the tail. -/
theorem holds_cons (filled : b.count ≠ 0) :
    q = b.data b.tail::slice capacity b.data ((b.tail + 1) % capacity) (b.count - 1) := by
  obtain ⟨n,count⟩ := Nat.exists_eq_succ_of_ne_zero filled
  rw [← holds.queue,contents,count,Nat.succ_sub_one]
  exact slice_pop capacity b.data b.tail n holds.tail

theorem empty_iff : b.count = 0 ↔ q = [] := by
  rw [← holds_length b q holds]
  exact List.length_eq_zero_iff

theorem pop_simulates : ∃ b', step b .pop = some (b',(queueStep q .pop).2) ∧ Holds b' (queueStep q .pop).1 := by
  simp only [step,blackPop,queueStep]
  by_cases empty : b.count = 0
  · rw [if_pos empty]
    have nothing := (empty_iff b q holds).mp empty
    rw [nothing] at holds ⊢
    exact ⟨b,rfl,holds⟩
  · have shape := holds_cons b q holds empty
    have most := holds.room
    rw [if_neg empty,load,if_pos holds.tail]
    refine ⟨_,by rw [shape]; rfl,?_,?_,?_,?_⟩
    · exact Nat.mod_lt _ (by decide)
    · exact Nat.le_trans (Nat.sub_le _ _) most
    · have step : b.tail + 1 + (b.count - 1) = b.tail + b.count := by omega
      change b.head = ((b.tail + 1) % capacity + (b.count - 1)) % capacity
      rw [Nat.mod_add_mod,step]
      exact holds.head
    · rw [shape]
      rfl

theorem peek_simulates : ∃ b', step b .peek = some (b',(queueStep q .peek).2) ∧ Holds b' (queueStep q .peek).1 := by
  simp only [step,blackPeek,queueStep]
  refine ⟨b,?_,holds⟩
  by_cases empty : b.count = 0
  · rw [if_pos empty,(empty_iff b q holds).mp empty]
    rfl
  · rw [if_neg empty,load,if_pos holds.tail,holds_cons b q holds empty]
    rfl

end Simulation

theorem ring_simulates : Simulates (fun _ _ => True) Holds step queueStep := by
  intro b q c holds _
  cases c with
  | push byte => exact push_simulates b q holds byte
  | pop => exact pop_simulates b q holds
  | peek => exact peek_simulates b q holds
  | clear => exact ⟨_,rfl,(by decide : 0 < capacity),Nat.zero_le _,rfl,rfl⟩
  | len =>
    refine ⟨b,?_,holds⟩
    rw [queueStep,holds_length b q holds]
    rfl

/-- Every list of calls on a new buffer is answered as the bounded queue answers it, and none of them
leaves the array. -/
theorem ring_is_queue (calls : List Call) :
    ∃ b, answers step blackNew calls = some (b,(replies queueStep [] calls).2) ∧
      contents b = (replies queueStep [] calls).1 ∧ blackLen b = (replies queueStep [] calls).1.length ∧
      (replies queueStep [] calls).1.length ≤ 4096 := by
  have new : Holds blackNew [] := ⟨by decide,by decide,rfl,rfl⟩
  obtain ⟨b,answered,holds⟩ := ring_simulates.answers calls blackNew [] new (along_always step blackNew calls)
  have length := holds_length b _ holds
  refine ⟨b,answered,holds.queue,length.symm,?_⟩
  rw [length]
  exact holds.room

end BlackOS.RingBuffer
