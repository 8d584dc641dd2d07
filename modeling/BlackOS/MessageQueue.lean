import BlackOS.Library.Ram
import BlackOS.Library.Ring
import BlackOS.Library.Run

/-! One message queue of `kernel/ipc/ipc.c` under any number of senders and receivers.
A call of `black_msgq_send` or `black_msgq_recv` is two steps: its check of the count
without the lock, and its body under the lock. Messages are numbered in the order
in which they are stored, and each slot is labelled with the message stored last. -/
namespace BlackOS.MessageQueue
open BlackOS.Library.Ram BlackOS.Library.Ring BlackOS.Library.Run

def blackMaxMessages : Nat := 64

/-- `black_msg_t`: a copy on the kernel heap. -/
structure Msg where
  data : Word
  size : Word
  deriving DecidableEq

/-- `black_msg_queue_t` while it is active, less its name and lock. -/
structure Queue where
  messages : Nat → Msg
  head : Nat
  tail : Nat
  count : Word

/-- A fresh queue of `black_msgq_create`. -/
def freshQueue : Queue := ⟨fun _ => ⟨0,0⟩,0,0,0⟩

/-- The body of `black_msgq_send` after `kmalloc` has returned `copy`. -/
def sendBody (q : Queue) (copy sz : Word) : Queue :=
  {q with
    messages := Function.update q.messages q.head ⟨copy,sz⟩
    head := (q.head + 1) % blackMaxMessages
    count := q.count + 1}

/-- The body of `black_msgq_recv`, which frees the copy in the tail slot. -/
def recvBody (q : Queue) : Queue := {q with tail := (q.tail + 1) % blackMaxMessages,count := q.count - 1}

/-- A thread is outside, or past the check of a send of `sz` bytes or of a receive. -/
inductive Pc
  | outside
  | sending (sz : Word)
  | receiving
  deriving DecidableEq

structure State (T : Type) where
  queue : Queue
  pc : T → Pc
  label : Nat → Option Nat
  sent : Nat
  received : List Nat

inductive Action (T : Type)
  | sendCheck (t : T) (sz : Word)
  | sendBody (t : T) (copy : Word)
  | recvCheck (t : T)
  | recvBody (t : T)

variable {T : Type} [DecidableEq T]

def start : State T := ⟨freshQueue,fun _ => .outside,fun _ => none,0,[]⟩

def State.move (s : State T) (t : T) (pc : Pc) : State T := {s with pc := Function.update s.pc t pc}

/-- The message is stored in the head slot under the next number. -/
def store (s : State T) (copy sz : Word) : State T :=
  {s with
    queue := sendBody s.queue copy sz
    label := Function.update s.label s.queue.head (some s.sent)
    sent := s.sent + 1}

/-- The message of the tail slot is handed out. -/
def consume (s : State T) : State T :=
  {s with queue := recvBody s.queue,received := s.received ++ (s.label s.queue.tail).toList}

/-- The steps of the two calls. Without a copy, where `kmalloc` returns NULL, a send gives up. -/
def step (s : State T) : Action T → State T
  | .sendCheck t sz => if blackMaxMessages ≤ s.queue.count.toNat then s else s.move t (.sending sz)
  | .sendBody t copy =>
    match s.pc t with
    | .sending sz => (if copy = 0 then s else store s copy sz).move t .outside
    | _ => s
  | .recvCheck t => if s.queue.count = 0 then s else s.move t .receiving
  | .recvBody t => (consume s).move t .outside

def Enabled (s : State T) : Action T → Prop
  | .sendCheck t _ => s.pc t = .outside
  | .sendBody t _ => ∃ sz, s.pc t = .sending sz
  | .recvCheck t => s.pc t = .outside
  | .recvBody t => s.pc t = .receiving

def Next (s : State T) (a : Action T) (s' : State T) : Prop := Enabled s a ∧ step s a = s'

def Pending (s : State T) (slot n : Nat) : Prop := s.label slot = some n ∧ n ∉ s.received

/-- A stored message overwrites no pending one, a receive finds a pending message that
nobody has received, and the count stays between 0 and 64. -/
def Sound (s : State T) (a : Action T) : Prop :=
  (step s a).queue.count.toNat ≤ 64 ∧
    match a with
    | .sendBody _ copy => copy ≠ 0 → ∀ n, ¬Pending s s.queue.head n
    | .recvBody _ => ∃ n, Pending s s.queue.tail n
    | _ => True

/-- The unlocked check still holds where the body runs. -/
def StillHolds (s : State T) : Action T → Prop
  | .sendBody _ copy => copy ≠ 0 → s.queue.count.toNat < 64
  | .recvBody _ => s.queue.count ≠ 0
  | _ => True

def CheckedNext (s : State T) (a : Action T) (s' : State T) : Prop := Next s a s' ∧ StillHolds s a

/-- From the tail slot on, as many slots as the count says hold the messages that were
sent and not received, in their order; no other slot holds one of them. -/
structure Inv (s : State T) : Prop where
  tail : s.queue.tail < blackMaxMessages
  room : s.queue.count.toNat ≤ blackMaxMessages
  head : s.queue.head = (s.queue.tail + s.queue.count.toNat) % blackMaxMessages
  sent : s.sent = s.received.length + s.queue.count.toNat
  order : s.received = List.range s.received.length
  queued : slice blackMaxMessages s.label s.queue.tail s.queue.count.toNat =
    (List.range s.queue.count.toNat).map (fun k => some (s.received.length + k))
  old : ∀ slot n, s.label slot = some n → s.received.length ≤ n →
    ∃ k, k < s.queue.count.toNat ∧ slot = (s.queue.tail + k) % blackMaxMessages

section
variable (s : State T) (inv : Inv s)
include inv

omit [DecidableEq T] in
theorem not_received (n : Nat) : n ∉ s.received ↔ s.received.length ≤ n := by
  rw [inv.order,List.mem_range,List.length_range]
  omega

omit [DecidableEq T] in
theorem head_free (room : s.queue.count.toNat < blackMaxMessages) (n : Nat) : ¬Pending s s.queue.head n := by
  intro pending
  obtain ⟨k,before,place⟩ := inv.old s.queue.head n pending.1 ((not_received s inv n).mp pending.2)
  rw [inv.head] at place
  exact slots_apart blackMaxMessages s.queue.tail k s.queue.count.toNat before room place.symm

omit [DecidableEq T] in
theorem tail_label (some_ : s.queue.count ≠ 0) : s.label s.queue.tail = some s.received.length ∧
    slice blackMaxMessages s.label ((s.queue.tail + 1) % blackMaxMessages) (s.queue.count.toNat - 1) =
      (List.range (s.queue.count.toNat - 1)).map (fun k => some (s.received.length + 1 + k)) := by
  have positive : s.queue.count.toNat ≠ 0 := fun zero => some_ (BitVec.eq_of_toNat_eq zero)
  have queued := inv.queued
  have count : s.queue.count.toNat = s.queue.count.toNat - 1 + 1 := by omega
  rw [count,slice_pop _ _ _ _ inv.tail,List.range_succ_eq_map,List.map_cons,List.map_map] at queued
  obtain ⟨first,rest⟩ := List.cons.inj queued
  refine ⟨first,rest.trans ?_⟩
  apply List.map_congr_left
  intro k _
  simp only [Function.comp_apply]
  congr 1
  omega

omit [DecidableEq T] in
theorem tail_pending (some_ : s.queue.count ≠ 0) : Pending s s.queue.tail s.received.length :=
  ⟨(tail_label s inv some_).1,(not_received s inv _).mpr (Nat.le_refl _)⟩

omit [DecidableEq T] inv in
theorem count_inc (room : s.queue.count.toNat < blackMaxMessages) :
    (s.queue.count + 1).toNat = s.queue.count.toNat + 1 := by
  have size : blackMaxMessages = 64 := rfl
  rw [BitVec.toNat_add]
  simp
  omega

omit [DecidableEq T] inv in
theorem count_dec (some_ : s.queue.count ≠ 0) : (s.queue.count - 1).toNat = s.queue.count.toNat - 1 := by
  have bound := s.queue.count.isLt
  have positive : s.queue.count.toNat ≠ 0 := fun zero => some_ (BitVec.eq_of_toNat_eq zero)
  rw [BitVec.toNat_sub]
  simp
  omega

omit [DecidableEq T] in
theorem store_inv (copy sz : Word) (room : s.queue.count.toNat < blackMaxMessages) : Inv (store s copy sz) := by
  have count := count_inc s room
  obtain ⟨tail,_,head,sent,order,queued,old⟩ := inv
  refine ⟨tail,?_,?_,?_,order,?_,?_⟩
  · simp only [store,sendBody,count]
    omega
  · simp only [store,sendBody,count,head,Nat.mod_add_mod,Nat.add_assoc]
  · simp only [store,sendBody,count,sent,Nat.add_assoc]
  · simp only [store,sendBody,count]
    rw [head,slice_push _ _ _ _ _ room,queued,sent,List.range_succ,List.map_append]
    rfl
  · intro slot n labelled unread
    simp only [store,sendBody,count] at labelled unread ⊢
    by_cases here : slot = s.queue.head
    · exact ⟨s.queue.count.toNat,by omega,here.trans head⟩
    · rw [Function.update_of_ne here] at labelled
      obtain ⟨k,before,place⟩ := old slot n labelled unread
      exact ⟨k,by omega,place⟩

omit [DecidableEq T] in
theorem consume_inv (some_ : s.queue.count ≠ 0) : Inv (consume s) := by
  obtain ⟨label,rest⟩ := tail_label s inv some_
  have count := count_dec s some_
  have positive : s.queue.count.toNat ≠ 0 := fun zero => some_ (BitVec.eq_of_toNat_eq zero)
  obtain ⟨tail,room,head,sent,order,queued,old⟩ := inv
  have received : (consume s).received = s.received ++ [s.received.length] := by
    simp [consume,label]
  have length : (consume s).received.length = s.received.length + 1 := by simp [received]
  refine ⟨Nat.mod_lt _ (by decide),?_,?_,?_,?_,?_,?_⟩
  · simp only [consume,recvBody,count]
    omega
  · simp only [consume,recvBody,count,head,Nat.mod_add_mod]
    congr 1
    omega
  · rw [length]
    simp only [consume,recvBody,count,sent]
    omega
  · rw [length,List.range_succ,← order,received]
  · rw [length]
    simp only [consume,recvBody,count]
    exact rest
  · intro slot n labelled unread
    rw [length] at unread
    simp only [consume,recvBody,count] at labelled ⊢
    obtain ⟨k,before,place⟩ := old slot n labelled (by omega)
    cases k with
    | zero =>
      rw [Nat.add_zero,Nat.mod_eq_of_lt tail] at place
      rw [place,label] at labelled
      have same := Option.some.inj labelled
      omega
    | succ k =>
      refine ⟨k,by omega,?_⟩
      rw [place,Nat.mod_add_mod]
      congr 1
      omega

theorem move_inv (t : T) (pc : Pc) : Inv (s.move t pc) :=
  ⟨inv.tail,inv.room,inv.head,inv.sent,inv.order,inv.queued,inv.old⟩

theorem step_inv (a : Action T) (enabled : Enabled s a) (holds : StillHolds s a) : Inv (step s a) := by
  cases a with
  | sendCheck t sz =>
    simp only [step]
    split
    · exact inv
    · exact move_inv s inv t _
  | sendBody t copy =>
    obtain ⟨sz,sending⟩ := enabled
    simp only [step,sending]
    split
    · exact move_inv s inv t _
    · rename_i served
      exact move_inv _ (store_inv s inv copy sz (holds served)) t _
  | recvCheck t =>
    simp only [step]
    split
    · exact inv
    · exact move_inv s inv t _
  | recvBody t => exact move_inv _ (consume_inv s inv holds) t _

/-- A step is sound exactly where the unlocked check still holds. -/
theorem step_sound (a : Action T) (enabled : Enabled s a) : Sound s a ↔ StillHolds s a := by
  have room : s.queue.count.toNat ≤ 64 := inv.room
  constructor
  · intro sound
    cases a with
    | sendCheck t sz => trivial
    | sendBody t copy =>
      intro served
      obtain ⟨sz,sending⟩ := enabled
      have after := sound.1
      simp only [step,sending,if_neg served,State.move,store,sendBody] at after
      by_contra full
      have exact : s.queue.count = 64 := BitVec.eq_of_toNat_eq (by simp; omega)
      rw [exact] at after
      exact absurd after (by decide)
    | recvCheck t => trivial
    | recvBody t =>
      obtain ⟨n,pending⟩ := sound.2
      obtain ⟨k,before,_⟩ := inv.old _ n pending.1 ((not_received s inv n).mp pending.2)
      intro zero
      rw [zero] at before
      cases before
  · intro holds
    refine ⟨(step_inv s inv a enabled holds).room,?_⟩
    cases a with
    | sendCheck t sz => trivial
    | sendBody t copy => exact fun served n => head_free s inv (holds served) n
    | recvCheck t => trivial
    | recvBody t => exact ⟨_,tail_pending s inv holds⟩

end

/-- In a run where the unlocked checks still hold when the bodies run, the count stays
between 0 and 64 and no message is received twice, and the next step overwrites no
pending message and receives no slot without one exactly when its check still holds. -/
theorem messages_safe (actions : List (Action T)) (s : State T) (run : Steps CheckedNext start actions s) :
    s.queue.count.toNat ≤ 64 ∧ s.received.Nodup ∧ ∀ a s', Next s a s' → (Sound s a ↔ StillHolds s a) := by
  have inv : Inv s := by
    refine Steps.invariant Inv ?_ ?_ run
    · exact ⟨by simp [start,freshQueue,blackMaxMessages],by simp [start,freshQueue],by simp [start,freshQueue],
        by simp [start,freshQueue],by simp [start],rfl,by simp [start]⟩
    · intro s a s' inv next
      obtain ⟨⟨enabled,done⟩,holds⟩ := next
      rw [← done]
      exact step_inv s inv a enabled holds
  refine ⟨inv.room,?_,fun a s' next => step_sound s inv a next.1⟩
  rw [inv.order]
  exact List.nodup_range

theorem messages_safe_pair : ∃ s : State Bool, Steps CheckedNext start
    [.sendCheck true 4,.sendBody true 4096,.recvCheck false,.recvBody false] s ∧ s.received = [0] ∧
      s.queue.count.toNat ≤ 64 := by
  have begin_ : Steps CheckedNext (start : State Bool) [] start := .nil
  have checked := Steps.snoc _ (Action.sendCheck true 4) _ _ begin_ ⟨⟨rfl,rfl⟩,trivial⟩
  have stored := Steps.snoc _ (Action.sendBody true 4096) _ _ checked ⟨⟨⟨4,rfl⟩,rfl⟩,fun _ => by decide⟩
  have seen := Steps.snoc _ (Action.recvCheck false) _ _ stored ⟨⟨rfl,rfl⟩,trivial⟩
  have run := Steps.snoc _ (Action.recvBody false) _ _ seen ⟨⟨rfl,rfl⟩,(by decide : _ ≠ (0 : Word))⟩
  exact ⟨_,run,by decide,(messages_safe _ _ run).1⟩

/-- Two receivers see the one pending message before either takes it: the second
takes a slot that holds none, and the count wraps around. -/
theorem received_nothing : ∃ s s' : State Bool, Steps Next start
    [.sendCheck true 4,.sendBody true 4096,.recvCheck true,.recvCheck false,.recvBody true] s ∧
      Next s (.recvBody false) s' ∧ (∀ n, ¬Pending s s.queue.tail n) ∧ 64 < s'.queue.count.toNat := by
  have begin_ : Steps Next (start : State Bool) [] start := .nil
  have checked := Steps.snoc _ (Action.sendCheck true 4) _ _ begin_ ⟨rfl,rfl⟩
  have stored := Steps.snoc _ (Action.sendBody true 4096) _ _ checked ⟨⟨4,rfl⟩,rfl⟩
  have first := Steps.snoc _ (Action.recvCheck true) _ _ stored ⟨rfl,rfl⟩
  have second := Steps.snoc _ (Action.recvCheck false) _ _ first ⟨rfl,rfl⟩
  have taken := Steps.snoc _ (Action.recvBody true) _ _ second ⟨rfl,rfl⟩
  refine ⟨_,_,taken,⟨rfl,rfl⟩,?_,by decide⟩
  intro n pending
  cases pending.1

end BlackOS.MessageQueue
