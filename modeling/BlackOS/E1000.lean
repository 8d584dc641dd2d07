import BlackOS.Library.Ram
import BlackOS.Library.Ring

/-! The transmit ring of `kernel/drivers/net/e1000.c` and the device that takes descriptors from
its head towards the tail. The device takes `head = tail` for an empty ring. -/
namespace BlackOS.E1000
open BlackOS.Library.Ram BlackOS.Library.Ring

def blackE1000NumTxDesc : Nat := 8

/-- A frame handed to `black_e1000_send`; its length fits a buffer. -/
abbrev Frame := {data : List Byte // data.length ≤ 8192}

/-- `black_e1000_tx_desc_t`. A buffer is named by its index in `black_tx_bufs`; the null address is
`none`. -/
structure TxDesc where
  addr : Option Nat
  length : Nat
  cmd : Byte
  status : Byte
  deriving DecidableEq

/-- The driver's variables, the device's head and tail registers, the frame whose buffer the device
has read, and the frames sent and transmitted so far. -/
structure State where
  memBase : Word
  descs : Nat → TxDesc
  bufs : Nat → Nat → Byte
  cur : Nat
  head : Nat
  tail : Nat
  fetched : Option (List Byte)
  sent : List (List Byte)
  transmitted : List (List Byte)

/-- The state after `black_e1000_init` at boot: the descriptors are cleared and both registers are
zero. -/
def blackE1000Init (memBase : Word) : State where
  memBase := memBase
  descs := fun _ => ⟨none,0,0,0⟩
  bufs := fun _ _ => 0
  cur := 0
  head := 0
  tail := 0
  fetched := none
  sent := []
  transmitted := []

def copyIn (buf : Nat → Byte) (data : List Byte) : Nat → Byte := fun i => data.getD i (buf i)

def blackE1000Send (s : State) (data : List Byte) : State :=
  if s.memBase = 0 then s
  else
    let cur := (s.cur + 1) % blackE1000NumTxDesc
    {s with
      bufs := Function.update s.bufs s.cur (copyIn (s.bufs s.cur) data)
      descs := Function.update s.descs s.cur ⟨some s.cur,data.length,0x08 ||| 0x02 ||| 0x01,0⟩
      cur := cur
      tail := cur
      sent := s.sent ++ [data]}

def frame (s : State) (i : Nat) : List Byte :=
  match (s.descs i).addr with
  | none => []
  | some b => (List.range (s.descs i).length).map (s.bufs b)

/-- The device reads the buffer of the descriptor at its head. -/
def fetch (s : State) : State :=
  if s.fetched.isNone ∧ s.head ≠ s.tail then {s with fetched := some (frame s s.head)} else s

/-- The device sets the done bit of the descriptor whose buffer it has read. -/
def finish (s : State) : State :=
  match s.fetched with
  | none => s
  | some data =>
    let done := {s.descs s.head with status := (s.descs s.head).status ||| 1}
    {s with
      descs := Function.update s.descs s.head done
      head := (s.head + 1) % blackE1000NumTxDesc
      fetched := none
      transmitted := s.transmitted ++ [data]}

inductive Action
  | send (data : Frame)
  | fetch
  | finish

def step (s : State) : Action → State
  | .send data => blackE1000Send s data.val
  | .fetch => fetch s
  | .finish => finish s

def run (memBase : Word) (actions : List Action) : State := actions.foldl step (blackE1000Init memBase)

def Unprocessed (d : TxDesc) : Prop := d.cmd ≠ 0 ∧ d.status &&& 1 = 0

/-- The frames that the device still takes. -/
def pending (s : State) : List (List Byte) := between blackE1000NumTxDesc (frame s) s.head s.tail

/-- What the device has transmitted and still takes are the frames sent. -/
def Kept (s : State) : Prop := s.sent = s.transmitted ++ pending s

/-- In every state of the run no frame is lost, doubled or out of order, and no send of the run
overwrites a descriptor that the device has not processed. -/
def Lossless (memBase : Word) (actions : List Action) : Prop :=
  (∀ before, before <+: actions → Kept (run memBase before)) ∧
  ∀ before data, before ++ [.send data] <+: actions →
    ¬Unprocessed ((run memBase before).descs (run memBase before).cur)

/-- Every send of the run finds at most six frames that the device has not processed. -/
def Roomy (memBase : Word) (actions : List Action) : Prop :=
  ∀ before data, before ++ [.send data] <+: actions → (pending (run memBase before)).length ≤ 6

structure Inv (s : State) : Prop where
  mapped : s.memBase ≠ 0
  cursor : s.cur = s.tail
  head : s.head < blackE1000NumTxDesc
  tail : s.tail < blackE1000NumTxDesc
  buffers : ∀ i b, (s.descs i).addr = some b → b = i
  kept : Kept s
  reading : ∀ data, s.fetched = some data → s.head ≠ s.tail ∧ frame s s.head = data
  busy : ∀ i, i < blackE1000NumTxDesc → Unprocessed (s.descs i) →
    distance blackE1000NumTxDesc s.head i < distance blackE1000NumTxDesc s.head s.tail

theorem init_inv (memBase : Word) (mapped : memBase ≠ 0) : Inv (blackE1000Init memBase) where
  mapped := mapped
  cursor := rfl
  head := Nat.two_pow_pos 3
  tail := Nat.two_pow_pos 3
  buffers := nofun
  kept := rfl
  reading := nofun
  busy := fun _ _ unprocessed => absurd rfl unprocessed.1

theorem copyIn_read (buf : Nat → Byte) (data : List Byte) :
    (List.range data.length).map (copyIn buf data) = data := by
  apply List.ext_getElem
  · simp
  · intro i left right
    simp [copyIn,right]

theorem frame_done (s : State) (status : Byte) (head : Nat) (fetched : Option (List Byte))
    (transmitted : List (List Byte)) :
    frame {s with
      descs := Function.update s.descs s.head {s.descs s.head with status := status}
      head := head
      fetched := fetched
      transmitted := transmitted} = frame s := by
  funext i
  by_cases here : i = s.head
  · rw [here]
    simp only [frame,Function.update_self]
  · simp only [frame,Function.update_of_ne here]

theorem done_processed (status : Byte) : (status ||| 1) &&& 1 ≠ 0 := by
  revert status
  decide

section Steps
variable (s : State) (inv : Inv s)
include inv

theorem frame_send (data : List Byte) : frame (blackE1000Send s data) = Function.update (frame s) s.cur data := by
  funext i
  rw [blackE1000Send,if_neg inv.mapped]
  by_cases here : i = s.cur
  · subst here
    simp only [frame,Function.update_self]
    exact copyIn_read _ data
  · rw [Function.update_of_ne here]
    simp only [frame,Function.update_of_ne here]
    cases slot : (s.descs i).addr with
    | none => rfl
    | some b =>
      have other : b ≠ s.cur := fun same => here ((inv.buffers i b slot).symm.trans same)
      simp only [Function.update_of_ne other]

/-- With seven frames in flight the cursor is about to meet the head. -/
theorem room_iff : (pending s).length ≤ 6 ↔ (s.tail + 1) % blackE1000NumTxDesc ≠ s.head := by
  have full := distance_full blackE1000NumTxDesc s.head s.tail inv.head inv.tail
  have less := distance_lt blackE1000NumTxDesc s.head s.tail inv.head inv.tail
  have size : blackE1000NumTxDesc = 8 := rfl
  rw [pending,between_length]
  omega

theorem free_slot : ¬Unprocessed (s.descs s.cur) := by
  intro unprocessed
  rw [inv.cursor] at unprocessed
  exact Nat.lt_irrefl _ (inv.busy s.tail inv.tail unprocessed)

theorem send_inv (data : List Byte) (room : (s.tail + 1) % blackE1000NumTxDesc ≠ s.head) :
    Inv (blackE1000Send s data) := by
  have frames := frame_send s inv data
  have grows := distance_grows blackE1000NumTxDesc s.head s.tail inv.head inv.tail room
  rw [inv.cursor] at frames
  unfold blackE1000Send at frames ⊢
  rw [if_neg inv.mapped] at frames ⊢
  simp only [inv.cursor] at frames ⊢
  constructor
  · exact inv.mapped
  · rfl
  · exact inv.head
  · exact Nat.mod_lt _ (Nat.two_pow_pos 3)
  · intro i b slot
    dsimp only at slot
    by_cases here : i = s.tail
    · rw [here,Function.update_self] at slot
      exact (Option.some.inj slot).symm.trans here.symm
    · rw [Function.update_of_ne here] at slot
      exact inv.buffers i b slot
  · have pushed := between_push blackE1000NumTxDesc (frame s) _ _ inv.head inv.tail data room
    have kept : s.sent = s.transmitted ++ pending s := inv.kept
    rw [Kept,pending,frames]
    dsimp only
    rw [pushed,kept,List.append_assoc]
    rfl
  · intro read fetched
    obtain ⟨filled,same⟩ := inv.reading read fetched
    refine ⟨fun met => room met.symm,?_⟩
    rw [frames]
    exact (Function.update_of_ne filled data (frame s)).trans same
  · intro i inside unprocessed
    dsimp only at unprocessed ⊢
    rw [grows]
    by_cases here : i = s.tail
    · rw [here]
      exact Nat.lt_succ_self _
    · rw [Function.update_of_ne here] at unprocessed
      exact Nat.lt_succ_of_lt (inv.busy i inside unprocessed)

theorem fetch_inv : Inv (fetch s) := by
  unfold fetch
  split
  · rename_i filled
    refine ⟨inv.mapped,inv.cursor,inv.head,inv.tail,inv.buffers,inv.kept,?_,inv.busy⟩
    intro data same
    exact ⟨filled.2,Option.some.inj same⟩
  · exact inv

theorem finish_inv : Inv (finish s) := by
  unfold finish
  split
  · exact inv
  · rename_i data fetched
    obtain ⟨filled,read⟩ := inv.reading data fetched
    have pops := between_pop blackE1000NumTxDesc (frame s) _ _ inv.head inv.tail filled
    constructor
    · exact inv.mapped
    · exact inv.cursor
    · exact Nat.mod_lt _ (Nat.two_pow_pos 3)
    · exact inv.tail
    · intro i b slot
      dsimp only at slot
      by_cases here : i = s.head
      · rw [here,Function.update_self] at slot
        exact (inv.buffers s.head b slot).trans here.symm
      · rw [Function.update_of_ne here] at slot
        exact inv.buffers i b slot
    · have kept : s.sent = s.transmitted ++ pending s := inv.kept
      rw [Kept,pending,frame_done s]
      dsimp only
      rw [kept,pending,pops,read,List.append_assoc]
      rfl
    · nofun
    · intro i inside unprocessed
      dsimp only at unprocessed ⊢
      by_cases here : i = s.head
      · rw [here,Function.update_self] at unprocessed
        exact absurd unprocessed.2 (done_processed _)
      · rw [Function.update_of_ne here] at unprocessed
        have before := inv.busy i inside unprocessed
        have nearer := distance_shrinks blackE1000NumTxDesc s.head i inv.head inside (Ne.symm here)
        have shorter := distance_shrinks blackE1000NumTxDesc s.head s.tail inv.head inv.tail filled
        omega

/-- A send that lets the tail meet the head makes the ring look empty. -/
theorem send_lost (data : List Byte) (met : (s.tail + 1) % blackE1000NumTxDesc = s.head) :
    ¬Kept (blackE1000Send s data) := by
  have kept : s.sent = s.transmitted ++ pending s := inv.kept
  unfold blackE1000Send
  rw [if_neg inv.mapped,Kept,pending]
  dsimp only
  rw [inv.cursor,met,between_self,kept,List.append_nil]
  intro same
  have sizes := congrArg List.length same
  simp only [List.length_append,List.length_singleton] at sizes
  omega

theorem step_inv (a : Action) (room : ∀ data, a = .send data → (pending s).length ≤ 6) : Inv (step s a) := by
  cases a with
  | send data => exact send_inv s inv data.val ((room_iff s inv).mp (room data rfl))
  | fetch => exact fetch_inv s inv
  | finish => exact finish_inv s inv

end Steps

section Runs
variable (memBase : Word) (mapped : memBase ≠ 0)

theorem run_snoc (actions : List Action) (a : Action) :
    run memBase (actions ++ [a]) = step (run memBase actions) a :=
  List.foldl_concat step _ a actions

include mapped

theorem roomy_inv (actions : List Action) (roomy : Roomy memBase actions) : Inv (run memBase actions) := by
  induction actions using List.reverseRecOn with
  | nil => exact init_inv memBase mapped
  | append_singleton actions a ih =>
    have earlier : Roomy memBase actions := fun before data sends =>
      roomy before data (sends.trans (List.prefix_append actions [a]))
    rw [run_snoc]
    refine step_inv _ (ih earlier) a ?_
    intro data same
    exact roomy actions data (by rw [same])

theorem lossless_roomy (actions : List Action) (lossless : Lossless memBase actions) : Roomy memBase actions := by
  induction actions using List.reverseRecOn with
  | nil => exact fun before data sends => absurd (List.prefix_nil.mp sends) (by simp)
  | append_singleton actions a ih =>
    have longer := List.prefix_append actions [a]
    have earlier : Roomy memBase actions := ih
      ⟨fun before within => lossless.1 before (within.trans longer),
        fun before data sends => lossless.2 before data (sends.trans longer)⟩
    have inv := roomy_inv memBase mapped actions earlier
    intro before data sends
    rcases List.prefix_concat_iff.mp sends with same | sooner
    · obtain ⟨same,last⟩ := List.append_inj' same rfl
      rw [same,room_iff _ inv]
      intro met
      have kept := lossless.1 _ (List.prefix_refl (actions ++ [a]))
      rw [run_snoc,← (List.cons.inj last).1] at kept
      exact send_lost _ inv data.val met kept
    · exact earlier before data sooner

/-- The frames are transmitted once each and in their order, and none is overwritten, exactly when
each send finds at most six frames that the device has not processed. -/
theorem frames_kept_iff (actions : List Action) : Lossless memBase actions ↔ Roomy memBase actions := by
  refine ⟨lossless_roomy memBase mapped actions,fun roomy => ⟨?_,?_⟩⟩
  · intro before within
    refine (roomy_inv memBase mapped before ?_).kept
    exact fun first data sends => roomy first data (sends.trans within)
  · intro before data sends
    refine free_slot _ (roomy_inv memBase mapped before ?_)
    intro first other earlier
    exact roomy first other (earlier.trans ((List.prefix_append before _).trans sends))

end Runs

def threeFrames : List Action :=
  [.send ⟨[1],by decide⟩,.send ⟨[2],by decide⟩,.fetch,.finish,.send ⟨[3],by decide⟩]

theorem frames_kept_iff_three : Lossless 0xFEB00000 threeFrames := by
  refine (frames_kept_iff 0xFEB00000 (by decide) threeFrames).mpr ?_
  intro before data sends
  have within := (List.prefix_append before [.send data]).trans sends
  have few : ∀ k ≤ 5, (pending (run 0xFEB00000 (threeFrames.take k))).length ≤ 6 := by decide
  rw [List.prefix_iff_eq_take.mp within]
  exact few _ within.length_le

/-- Eight frames sent before the device has looked: it finds an empty ring. -/
theorem eight_frames_lost :
    ¬Lossless 0xFEB00000 (List.replicate 8 (.send ⟨[1],by decide⟩)) := by
  intro lossless
  have kept := lossless.1 _ (List.prefix_refl _)
  have sizes := congrArg List.length kept
  exact absurd sizes (by decide)

end BlackOS.E1000
