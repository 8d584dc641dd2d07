import BlackOS.Library.Ram
import BlackOS.Library.Run
import Mathlib.Data.Finset.Card

/-! The reader/writer lock of `kernel/sync/rwlock.c`, shared by any number of threads.
Each atomic operation and each load of `black_readers` is one step. -/
namespace BlackOS.Rwlock
open BlackOS.Library.Ram BlackOS.Library.Run

/-- Where a thread is. A reader has `passed` between its test-and-set and its
increment; a writer has `claimed` the flag while it waits for the readers. -/
inductive Pc
  | outside
  | readSpin
  | passed
  | reading
  | writeSpin
  | claimed
  | writing
  deriving DecidableEq

/-- `black_rwlock_t` with its threads; `writer` is whether `black_writer` is 1. -/
structure State (T : Type) where
  readers : Word
  writer : Bool
  pc : T → Pc

inductive Action (T : Type)
  | readTestAndSet (t : T)
  | readAdd (t : T)
  | readUnlock (t : T)
  | writeTestAndSet (t : T)
  | writeLoad (t : T)
  | writeUnlock (t : T)

variable {T : Type} [DecidableEq T]

def blackRwlockInit : State T := ⟨0,false,fun _ => .outside⟩

def State.move (s : State T) (t : T) (pc : Pc) : State T := {s with pc := Function.update s.pc t pc}

/-- The test-and-set of `black_rwlock_read_lock`, which stores 0. -/
def readTestAndSet (s : State T) (t : T) : State T :=
  State.move {s with writer := false} t (if s.writer then .readSpin else .passed)

def readAdd (s : State T) (t : T) : State T := State.move {s with readers := s.readers + 1} t .reading

def blackRwlockReadUnlock (s : State T) (t : T) : State T :=
  State.move {s with readers := s.readers - 1} t .outside

/-- The test-and-set of `black_rwlock_write_lock`, which stores 1. -/
def writeTestAndSet (s : State T) (t : T) : State T :=
  State.move {s with writer := true} t (if s.writer then .writeSpin else .claimed)

/-- One load of `black_readers` by a writer that has claimed the flag. -/
def writeLoad (s : State T) (t : T) : State T := if 0 < s.readers.toInt then s else s.move t .writing

def blackRwlockWriteUnlock (s : State T) (t : T) : State T := State.move {s with writer := false} t .outside

def step (s : State T) : Action T → State T
  | .readTestAndSet t => readTestAndSet s t
  | .readAdd t => readAdd s t
  | .readUnlock t => blackRwlockReadUnlock s t
  | .writeTestAndSet t => writeTestAndSet s t
  | .writeLoad t => writeLoad s t
  | .writeUnlock t => blackRwlockWriteUnlock s t

/-- Each step is taken where the thread is in the code; threads unlock what they locked. -/
def Enabled (s : State T) : Action T → Prop
  | .readTestAndSet t => s.pc t = .outside ∨ s.pc t = .readSpin
  | .readAdd t => s.pc t = .passed
  | .readUnlock t => s.pc t = .reading
  | .writeTestAndSet t => s.pc t = .outside ∨ s.pc t = .writeSpin
  | .writeLoad t => s.pc t = .claimed
  | .writeUnlock t => s.pc t = .writing

def Next (s : State T) (a : Action T) (s' : State T) : Prop := Enabled s a ∧ step s a = s'

/-- A writer past `write_lock` is alone. -/
def Exclusive (s : State T) : Prop :=
  ∀ w, s.pc w = .writing → ∀ t, t ≠ w → s.pc t ≠ .reading ∧ s.pc t ≠ .writing

/-- The steps that keep readers and writers apart: a reader tries the flag only while
no writer has it, a writer goes on only when no reader stands between its
test-and-set and its increment, and the reader count does not overflow. -/
def Careful (s : State T) : Action T → Prop
  | .readTestAndSet _ => s.writer = false
  | .readAdd _ => s.readers ≠ 0x7FFFFFFF
  | .writeLoad _ => ¬0 < s.readers.toInt → ∀ t, s.pc t ≠ .passed
  | _ => True

def CarefulNext (s : State T) (a : Action T) (s' : State T) : Prop := Next s a s' ∧ Careful s a

def Owns (pc : Pc) : Prop := pc = .claimed ∨ pc = .writing

/-- The count is that of the readers inside, one thread at most has the flag, and a
writer inside has no reader beside it, nor one about to enter. -/
structure Inv (s : State T) (inside : Finset T) : Prop where
  member : ∀ t, t ∈ inside ↔ s.pc t = .reading
  count : s.readers = word inside.card
  few : inside.card < 2^31
  flag : ∀ t, Owns (s.pc t) → s.writer = true
  single : ∀ t u, Owns (s.pc t) → Owns (s.pc u) → t = u
  alone : ∀ w, s.pc w = .writing → inside = ∅ ∧ ∀ t, s.pc t ≠ .passed

omit [DecidableEq T] in
theorem inv_exclusive (s : State T) (inside : Finset T) (inv : Inv s inside) : Exclusive s := by
  intro w writes t other
  constructor
  · intro reads
    have member := (inv.member t).mpr reads
    rw [(inv.alone w writes).1] at member
    simp at member
  · intro also
    exact other (inv.single t w (Or.inr also) (Or.inr writes))

omit [DecidableEq T] in
theorem readers_positive (s : State T) (inside : Finset T) (inv : Inv s inside) :
    0 < s.readers.toInt ↔ inside.Nonempty := by
  have few := inv.few
  rw [inv.count,BitVec.toInt_eq_toNat_of_lt (by rw [word_toNat _ (by omega)]; omega),word_toNat _ (by omega),
    ← Finset.card_pos]
  omega

theorem move_pc (s : State T) (t : T) (pc : Pc) (x : T) :
    (s.move t pc).pc x = if x = t then pc else s.pc x := by
  simp [State.move,Function.update_apply]

/-- A thread that moves where nobody owns the flag leaves the owners as they are. -/
theorem owns_of_move (s : State T) (t : T) (pc : Pc) (idle : ¬Owns pc) (x : T)
    (owns : Owns ((s.move t pc).pc x)) : x ≠ t ∧ Owns (s.pc x) := by
  rw [move_pc] at owns
  split at owns
  · exact absurd owns idle
  · rename_i other
    exact ⟨other,owns⟩

section
variable (s : State T) (inside : Finset T) (inv : Inv s inside)
include inv

omit [DecidableEq T] in
theorem unowned (free : s.writer = false) (t : T) : ¬Owns (s.pc t) := by
  intro owns
  have held := inv.flag t owns
  rw [free] at held
  cases held

/-- A thread that is not inside moves to a place where it neither reads nor owns the
flag; unless it stands before its increment, nothing else needs to hold. -/
theorem move_inv (t : T) (pc : Pc) (flag : Bool) (notInside : t ∉ inside)
    (bystander : pc ≠ .reading ∧ ¬Owns pc) (kept : ∀ u, u ≠ t → Owns (s.pc u) → flag = true)
    (before : pc = .passed → ∀ w, s.pc w ≠ .writing) : Inv (State.move {s with writer := flag} t pc) inside := by
  obtain ⟨member,count,few,_,single,alone⟩ := inv
  have elsewhere := owns_of_move {s with writer := flag} t pc bystander.2
  refine ⟨?_,count,few,?_,?_,?_⟩
  · intro x
    rw [move_pc]
    by_cases same : x = t
    · rw [if_pos same,same]
      exact iff_of_false notInside bystander.1
    · rw [if_neg same]
      exact member x
  · intro x owns
    obtain ⟨other,owned⟩ := elsewhere x owns
    exact kept x other owned
  · intro x y left right
    exact single x y (elsewhere x left).2 (elsewhere y right).2
  · intro w writes
    obtain ⟨other,_⟩ := elsewhere w (Or.inr writes)
    rw [move_pc,if_neg other] at writes
    refine ⟨(alone w writes).1,?_⟩
    intro x
    rw [move_pc]
    split
    · exact fun passes => before passes w writes
    · exact (alone w writes).2 x

omit [DecidableEq T] in
theorem not_inside (t : T) (elsewhere : s.pc t ≠ .reading) : t ∉ inside :=
  fun member => elsewhere ((inv.member t).mp member)

theorem readTestAndSet_inv (t : T) (trying : s.pc t = .outside ∨ s.pc t = .readSpin) (free : s.writer = false) :
    Inv (readTestAndSet s t) inside := by
  have notReading : s.pc t ≠ .reading := by rcases trying with at_ | at_ <;> simp [at_]
  simp only [readTestAndSet,free,Bool.false_eq_true,if_false]
  refine move_inv s inside inv t .passed false (not_inside s inside inv t notReading) (by simp [Owns]) ?_ ?_
  · intro u _ owns
    exact absurd owns (unowned s inside inv free u)
  · intro _ w writes
    exact unowned s inside inv free w (Or.inr writes)

theorem readAdd_inv (t : T) (passed : s.pc t = .passed) (room : s.readers ≠ 0x7FFFFFFF) :
    Inv (readAdd s t) (insert t inside) := by
  obtain ⟨member,count,few,flag,single,alone⟩ := inv
  have absent : t ∉ inside := fun among => by
    rw [member,passed] at among
    cases among
  have size : (insert t inside).card = inside.card + 1 := Finset.card_insert_of_notMem absent
  have noWriter (w : T) : s.pc w ≠ .writing := fun writes => (alone w writes).2 t passed
  have elsewhere (x : T) (owns : Owns ((readAdd s t).pc x)) : Owns (s.pc x) :=
    (owns_of_move _ t .reading (by simp [Owns]) x owns).2
  refine ⟨?_,?_,?_,?_,?_,?_⟩
  · intro x
    rw [readAdd,move_pc,Finset.mem_insert]
    by_cases same : x = t
    · simp [same]
    · simp [same,member]
  · rw [size,← word_add]
    simp only [readAdd,State.move,count]
    rfl
  · rw [size]
    by_contra full
    have exact : inside.card = 0x7FFFFFFF := by omega
    rw [count,exact] at room
    exact room rfl
  · intro x owns
    exact flag x (elsewhere x owns)
  · intro x y left right
    exact single x y (elsewhere x left) (elsewhere y right)
  · intro w writes
    rw [readAdd,move_pc] at writes
    split at writes
    · cases writes
    · exact absurd writes (noWriter w)

theorem readUnlock_inv (t : T) (reading : s.pc t = .reading) :
    Inv (blackRwlockReadUnlock s t) (inside.erase t) := by
  obtain ⟨member,count,few,flag,single,alone⟩ := inv
  have among : t ∈ inside := (member t).mpr reading
  have size : inside.card = (inside.erase t).card + 1 := (Finset.card_erase_add_one among).symm
  have elsewhere (x : T) (owns : Owns ((blackRwlockReadUnlock s t).pc x)) : Owns (s.pc x) :=
    (owns_of_move _ t .outside (by simp [Owns]) x owns).2
  refine ⟨?_,?_,by omega,?_,?_,?_⟩
  · intro x
    rw [blackRwlockReadUnlock,move_pc,Finset.mem_erase]
    by_cases same : x = t
    · simp [same]
    · simp [same,member]
  · simp only [blackRwlockReadUnlock,State.move,count]
    rw [size,← word_add]
    exact BitVec.add_sub_cancel _ _
  · intro x owns
    exact flag x (elsewhere x owns)
  · intro x y left right
    exact single x y (elsewhere x left) (elsewhere y right)
  · intro w writes
    rw [blackRwlockReadUnlock,move_pc] at writes
    split at writes
    · cases writes
    · rw [(alone w writes).1] at among
      simp at among

/-- A thread outside takes the flag that nobody else owns. -/
theorem own_inv (t : T) (pc : Pc) (notInside : t ∉ inside) (owns : Owns pc)
    (others : ∀ u, u ≠ t → ¬Owns (s.pc u)) (quiet : pc = .writing → inside = ∅ ∧ ∀ u, s.pc u ≠ .passed) :
    Inv (State.move {s with writer := true} t pc) inside := by
  obtain ⟨member,count,few,_,_,_⟩ := inv
  have own (x : T) (owned : Owns ((State.move {s with writer := true} t pc).pc x)) : x = t := by
    rw [move_pc] at owned
    by_contra other
    rw [if_neg other] at owned
    exact others x other owned
  refine ⟨?_,count,few,fun _ _ => rfl,?_,?_⟩
  · intro x
    rw [move_pc]
    by_cases same : x = t
    · rw [if_pos same,same]
      refine iff_of_false notInside ?_
      rcases owns with claims | writes
      · simp [claims]
      · simp [writes]
    · rw [if_neg same]
      exact member x
  · intro x y left right
    rw [own x left,own y right]
  · intro w writes
    rw [own w (Or.inr writes),move_pc,if_pos rfl] at writes
    refine ⟨(quiet writes).1,?_⟩
    intro x
    rw [move_pc]
    split
    · simp [writes]
    · exact (quiet writes).2 x

theorem writeTestAndSet_inv (t : T) (trying : s.pc t = .outside ∨ s.pc t = .writeSpin) :
    Inv (writeTestAndSet s t) inside := by
  have notReading : s.pc t ≠ .reading := by rcases trying with at_ | at_ <;> simp [at_]
  have absent := not_inside s inside inv t notReading
  unfold writeTestAndSet
  cases taken : s.writer with
  | true => exact move_inv s inside inv t .writeSpin true absent (by simp [Owns]) (fun _ _ _ => rfl) (by simp)
  | false =>
    exact own_inv s inside inv t .claimed absent (Or.inl rfl) (fun u _ => unowned s inside inv taken u) (by simp)

theorem writeLoad_inv (t : T) (claimed : s.pc t = .claimed)
    (settled : ¬0 < s.readers.toInt → ∀ u, s.pc u ≠ .passed) : Inv (writeLoad s t) inside := by
  unfold writeLoad
  split
  · exact inv
  · rename_i done
    have empty : inside = ∅ := by
      rw [readers_positive s inside inv] at done
      exact Finset.not_nonempty_iff_eq_empty.mp done
    have flag : s = {s with writer := true} := by
      have taken := inv.flag t (Or.inl claimed)
      cases s
      cases taken
      rfl
    rw [flag]
    refine own_inv s inside inv t .writing (not_inside s inside inv t (by simp [claimed])) (Or.inr rfl) ?_ ?_
    · intro u other owns
      exact other (inv.single u t owns (Or.inl claimed))
    · exact fun _ => ⟨empty,settled done⟩

theorem writeUnlock_inv (t : T) (writing : s.pc t = .writing) : Inv (blackRwlockWriteUnlock s t) inside := by
  refine move_inv s inside inv t .outside false (not_inside s inside inv t (by simp [writing])) (by simp [Owns]) ?_
    (by simp)
  intro u other owns
  exact absurd (inv.single u t owns (Or.inr writing)) other

theorem step_inv (a : Action T) (enabled : Enabled s a) (careful : Careful s a) :
    ∃ inside', Inv (step s a) inside' := by
  cases a with
  | readTestAndSet t => exact ⟨_,readTestAndSet_inv s inside inv t enabled careful⟩
  | readAdd t => exact ⟨_,readAdd_inv s inside inv t enabled careful⟩
  | readUnlock t => exact ⟨_,readUnlock_inv s inside inv t enabled⟩
  | writeTestAndSet t => exact ⟨_,writeTestAndSet_inv s inside inv t enabled⟩
  | writeLoad t => exact ⟨_,writeLoad_inv s inside inv t enabled careful⟩
  | writeUnlock t => exact ⟨_,writeUnlock_inv s inside inv t enabled⟩

end

/-- In every run of careful steps a writer past `write_lock` is alone. -/
theorem writers_exclusive (actions : List (Action T)) (s : State T)
    (run : Steps CarefulNext blackRwlockInit actions s) : Exclusive s := by
  have held : ∃ inside, Inv s inside := by
    refine Steps.invariant (fun s => ∃ inside, Inv s inside) ⟨∅,?_⟩ ?_ run
    · exact ⟨by simp [blackRwlockInit],rfl,by simp,by simp [blackRwlockInit,Owns],by simp [blackRwlockInit,Owns],
        by simp [blackRwlockInit]⟩
    · intro s a s' held next
      obtain ⟨inside,inv⟩ := held
      obtain ⟨⟨enabled,done⟩,careful⟩ := next
      rw [← done]
      exact step_inv s inside inv a enabled careful
  obtain ⟨inside,inv⟩ := held
  exact inv_exclusive s inside inv

/-- A reader comes and goes before the writer looks at the count. -/
theorem writers_exclusive_turns : ∃ s : State Bool, Steps CarefulNext blackRwlockInit
    [.readTestAndSet true,.readAdd true,.writeTestAndSet false,.readUnlock true,.writeLoad false] s ∧
      s.pc false = .writing ∧ Exclusive s := by
  have start : Steps CarefulNext (blackRwlockInit : State Bool) [] blackRwlockInit := .nil
  have passed := Steps.snoc _ (Action.readTestAndSet true) _ _ start ⟨⟨Or.inl rfl,rfl⟩,rfl⟩
  have reads := Steps.snoc _ (Action.readAdd true) _ _ passed ⟨⟨rfl,rfl⟩,(by decide : _ ≠ (0x7FFFFFFF : Word))⟩
  have claims := Steps.snoc _ (Action.writeTestAndSet false) _ _ reads ⟨⟨Or.inl rfl,rfl⟩,trivial⟩
  have leaves := Steps.snoc _ (Action.readUnlock true) _ _ claims ⟨⟨rfl,rfl⟩,trivial⟩
  have run := Steps.snoc _ (Action.writeLoad false) _ _ leaves
    ⟨⟨rfl,rfl⟩,fun _ t => by cases t <;> decide⟩
  exact ⟨_,run,rfl,writers_exclusive _ _ run⟩

/-- The test-and-set of a waiting reader clears the writer's flag, so its second try
lets it in beside the writer. -/
theorem reader_joins_writer : ∃ s : State Bool, Steps Next blackRwlockInit
    [.writeTestAndSet false,.writeLoad false,.readTestAndSet true,.readTestAndSet true,.readAdd true] s ∧
      s.pc false = .writing ∧ s.pc true = .reading ∧ ¬Exclusive s := by
  have start : Steps Next (blackRwlockInit : State Bool) [] blackRwlockInit := .nil
  have claims := Steps.snoc _ (Action.writeTestAndSet false) _ _ start ⟨Or.inl rfl,rfl⟩
  have writes := Steps.snoc _ (Action.writeLoad false) _ _ claims ⟨rfl,rfl⟩
  have clears := Steps.snoc _ (Action.readTestAndSet true) _ _ writes ⟨Or.inl rfl,rfl⟩
  have passes := Steps.snoc _ (Action.readTestAndSet true) _ _ clears ⟨Or.inr rfl,rfl⟩
  have run := Steps.snoc _ (Action.readAdd true) _ _ passes ⟨rfl,rfl⟩
  refine ⟨_,run,by decide,by decide,?_⟩
  intro exclusive
  exact (exclusive false (by decide) true (by decide)).1 (by decide)

end BlackOS.Rwlock
