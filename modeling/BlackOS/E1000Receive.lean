import BlackOS.E1000

/-! The receive ring of `kernel/drivers/net/e1000.c`. The device stores frames from its head up to the tail, and
`black_e1000_receive` takes them; the steps of the two come in any order. -/
namespace BlackOS.E1000Receive
open BlackOS.Library.Ram BlackOS.Library.Ring
open BlackOS.E1000 (copyIn copyIn_read)

def blackE1000NumRxDesc : Nat := 32

/-- The size of a buffer as the receive control register gives it to the device, which drops a longer frame. -/
def bufferSize : Nat := 2048

/-- `black_e1000_rx_desc_t`. A buffer is named by its index in `black_rx_bufs`. -/
structure RxDesc where
  addr : Nat
  length : Nat
  status : Byte
  deriving DecidableEq

/-- How far a call of `black_e1000_receive` has come. -/
inductive Phase
  | idle
  | polled (maxLen len : Nat)
  | copied (maxLen : Nat) (data : List Byte)
  | cleared (maxLen : Nat) (data : List Byte)

/-- The driver's variables, the device's head and tail registers, the frame whose data the device has written, the frames
stored and missed so far, and the calls that returned a frame. -/
structure State where
  memBase : Word
  descs : Nat → RxDesc
  bufs : Nat → Nat → Byte
  cur : Nat
  head : Nat
  tail : Nat
  phase : Phase
  writing : Option (List Byte)
  stored : List (List Byte)
  missed : List (List Byte)
  returned : List (Nat × List Byte)

/-- The state after `black_e1000_init` at boot. -/
def blackE1000Init (memBase : Word) : State where
  memBase := memBase
  descs := fun i => ⟨i,0,0⟩
  bufs := fun _ _ => 0
  cur := 0
  head := 0
  tail := blackE1000NumRxDesc - 1
  phase := .idle
  writing := none
  stored := []
  missed := []
  returned := []

def poll (s : State) (maxLen : Nat) : State :=
  match s.phase with
  | .idle =>
    if s.memBase = 0 then s
    else if (s.descs s.cur).status &&& 0x01 = 0 then s
    else {s with phase := .polled maxLen (min (s.descs s.cur).length maxLen)}
  | _ => s

def copy (s : State) : State :=
  match s.phase with
  | .polled maxLen len => {s with phase := .copied maxLen ((List.range len).map (s.bufs s.cur))}
  | _ => s

def clear (s : State) : State :=
  match s.phase with
  | .copied maxLen data =>
    {s with descs := Function.update s.descs s.cur {s.descs s.cur with status := 0},phase := .cleared maxLen data}
  | _ => s

def release (s : State) : State :=
  match s.phase with
  | .cleared maxLen data =>
    {s with
      tail := s.cur
      cur := (s.cur + 1) % blackE1000NumRxDesc
      phase := .idle
      returned := s.returned ++ [(maxLen,data)]}
  | _ => s

/-- `black_e1000_receive` where the device does nothing between its steps; the second value is what it returns. -/
def blackE1000Receive (s : State) (maxLen : Nat) : State × Nat :=
  if s.memBase = 0 then (s,0)
  else
    let rd := s.descs s.cur
    if rd.status &&& 0x01 = 0 then (s,0)
    else
      let len := if rd.length > maxLen then maxLen else rd.length
      let data := (List.range len).map (s.bufs s.cur)
      ({s with
        descs := Function.update s.descs s.cur {rd with status := 0}
        tail := s.cur
        cur := (s.cur + 1) % blackE1000NumRxDesc
        returned := s.returned ++ [(maxLen,data)]},len)

/-- The device takes a frame from the line, once the frame before is stored. -/
def arrive (s : State) (data : List Byte) : State :=
  match s.writing with
  | some _ => s
  | none =>
    if data.length ≤ bufferSize ∧ s.head ≠ s.tail then
      let b := (s.descs s.head).addr
      {s with bufs := Function.update s.bufs b (copyIn (s.bufs b) data),writing := some data}
    else {s with missed := s.missed ++ [data]}

/-- The device writes back the descriptor of the frame, with the done and the end of packet bit. -/
def store (s : State) : State :=
  match s.writing with
  | none => s
  | some data =>
    {s with
      descs := Function.update s.descs s.head {s.descs s.head with length := data.length,status := 0x03}
      head := (s.head + 1) % blackE1000NumRxDesc
      writing := none
      stored := s.stored ++ [data]}

inductive Action
  | poll (maxLen : Nat)
  | copy
  | clear
  | release
  | arrive (data : List Byte)
  | store

def step (s : State) : Action → State
  | .poll maxLen => poll s maxLen
  | .copy => copy s
  | .clear => clear s
  | .release => release s
  | .arrive data => arrive s data
  | .store => store s

def run (memBase : Word) (actions : List Action) : State := actions.foldl step (blackE1000Init memBase)

/-- The frame of a descriptor. -/
def frame (s : State) (i : Nat) : List Byte := (List.range (s.descs i).length).map (s.bufs i)

/-- The frames that are stored and not yet given up by the driver. -/
def pending (s : State) : List (List Byte) := between blackE1000NumRxDesc (frame s) s.cur s.head

/-- The calls returned the first frames, in their order and each cut at the length that was asked for. -/
def Queued (s : State) : Prop :=
  ∃ front, s.stored = front ++ pending s ∧ List.Forall₂ (fun call f => call.2 = f.take call.1) s.returned front

def Cleared (s : State) : Prop := ∃ maxLen data, s.phase = .cleared maxLen data

/-- What a call that is under way knows of the frame at the cursor. -/
def Under (s : State) : Phase → Prop
  | .idle => True
  | .polled maxLen len => s.cur ≠ s.head ∧ len = min (s.descs s.cur).length maxLen
  | .copied maxLen data => s.cur ≠ s.head ∧ data = (frame s s.cur).take maxLen
  | .cleared maxLen data => s.cur ≠ s.head ∧ data = (frame s s.cur).take maxLen

structure Inv (s : State) : Prop where
  mapped : s.memBase ≠ 0
  cursor : s.cur < blackE1000NumRxDesc
  head : s.head < blackE1000NumRxDesc
  tail : s.tail = (s.cur + 31) % blackE1000NumRxDesc
  buffers : ∀ i, (s.descs i).addr = i
  queued : Queued s
  under : Under s s.phase
  writing : ∀ data, s.writing = some data → s.head ≠ s.tail ∧ (List.range data.length).map (s.bufs s.head) = data
  ready : ∀ i < blackE1000NumRxDesc, (s.descs i).status &&& 0x01 ≠ 0 ↔
    distance blackE1000NumRxDesc s.cur i < distance blackE1000NumRxDesc s.cur s.head ∧ ¬(Cleared s ∧ i = s.cur)

theorem init_inv (memBase : Word) (mapped : memBase ≠ 0) : Inv (blackE1000Init memBase) where
  mapped := mapped
  cursor := Nat.two_pow_pos 5
  head := Nat.two_pow_pos 5
  tail := rfl
  buffers := fun _ => rfl
  queued := ⟨[],rfl,.nil⟩
  under := True.intro
  writing := fun _ same => by cases same
  ready := fun i _ => by simp [blackE1000Init,distance_self]

/-- The device's next slot is the driver's only when all but one are filled. -/
theorem next_head (cur head : Nat) (low : cur < blackE1000NumRxDesc) (high : head < blackE1000NumRxDesc) :
    head = (cur + 31) % blackE1000NumRxDesc ↔ (head + 1) % blackE1000NumRxDesc = cur := by
  unfold blackE1000NumRxDesc at *
  omega

theorem take_range (buf : Nat → Byte) (n m : Nat) : ((List.range n).map buf).take m = (List.range (min n m)).map buf := by
  rw [← List.map_take,List.take_range,Nat.min_comm]

section Steps
variable (s : State) (inv : Inv s)
include inv

theorem pending_small : (pending s).length ≤ 31 := by
  have less := distance_lt blackE1000NumRxDesc s.cur s.head inv.cursor inv.head
  have size : blackE1000NumRxDesc = 32 := rfl
  rw [pending,between_length]
  omega

theorem pending_full : (pending s).length = 31 ↔ s.head = s.tail := by
  have full := distance_full blackE1000NumRxDesc s.cur s.head inv.cursor inv.head
  have size : blackE1000NumRxDesc = 32 := rfl
  rw [pending,between_length,inv.tail,next_head s.cur s.head inv.cursor inv.head,← full]
  omega

theorem poll_inv (maxLen : Nat) : Inv (poll s maxLen) := by
  unfold poll
  split
  · rename_i idle
    split
    · exact inv
    · split
      · exact inv
      · rename_i done
        have notCleared (i : Nat) : ¬(Cleared s ∧ i = s.cur) := by
          rintro ⟨⟨m,data,phase⟩,_⟩
          rw [idle] at phase
          cases phase
        obtain ⟨near,_⟩ := (inv.ready s.cur inv.cursor).mp done
        have filled : s.cur ≠ s.head := by
          intro same
          rw [same] at near
          exact Nat.lt_irrefl _ near
        refine ⟨inv.mapped,inv.cursor,inv.head,inv.tail,inv.buffers,inv.queued,⟨filled,rfl⟩,inv.writing,fun i inside => ?_⟩
        have before := inv.ready i inside
        simp only [notCleared,not_false_eq_true,and_true] at before
        rw [before]
        simp [Cleared]
  · exact inv

theorem copy_inv : Inv (copy s) := by
  unfold copy
  split
  · rename_i maxLen len polled
    have under := inv.under
    rw [polled] at under
    obtain ⟨filled,same⟩ := under
    refine ⟨inv.mapped,inv.cursor,inv.head,inv.tail,inv.buffers,inv.queued,⟨filled,?_⟩,inv.writing,fun i inside => ?_⟩
    · rw [same]
      exact (take_range _ _ _).symm
    · rw [inv.ready i inside]
      simp [polled,Cleared]
  · exact inv

omit inv in
theorem frame_clear (status : Byte) (phase : Phase) :
    frame {s with descs := Function.update s.descs s.cur {s.descs s.cur with status := status},phase := phase} = frame s := by
  funext i
  by_cases here : i = s.cur
  · simp [frame,here]
  · simp [frame,here]

theorem clear_inv : Inv (clear s) := by
  unfold clear
  split
  · rename_i maxLen data copied
    have under := inv.under
    rw [copied] at under
    obtain ⟨filled,same⟩ := under
    have frames := frame_clear s 0 (.cleared maxLen data)
    refine ⟨inv.mapped,inv.cursor,inv.head,inv.tail,fun i => ?_,?_,⟨filled,?_⟩,inv.writing,fun i inside => ?_⟩
    · by_cases here : i = s.cur
      · simp [here,inv.buffers]
      · simp [here,inv.buffers]
    · rw [Queued,pending,frames]
      exact inv.queued
    · rw [frames]
      exact same
    · have before := inv.ready i inside
      have notCleared : ¬Cleared s := by
        rintro ⟨m,d,phase⟩
        rw [copied] at phase
        cases phase
      by_cases here : i = s.cur
      · simp [here,Cleared]
      · simpa [here,notCleared] using before
  · exact inv

theorem release_inv : Inv (release s) := by
  unfold release
  split
  · rename_i maxLen data cleared
    have size : blackE1000NumRxDesc = 32 := rfl
    have under := inv.under
    rw [cleared] at under
    obtain ⟨filled,same⟩ := under
    have pops := between_pop blackE1000NumRxDesc (frame s) _ _ inv.cursor inv.head filled
    have shorter := distance_shrinks blackE1000NumRxDesc s.cur s.head inv.cursor inv.head filled
    have low := inv.cursor
    refine ⟨inv.mapped,Nat.mod_lt _ (Nat.two_pow_pos 5),inv.head,?_,inv.buffers,?_,True.intro,?_,fun i inside => ?_⟩
    · dsimp only
      rw [size] at low ⊢
      omega
    · obtain ⟨front,stored,calls⟩ := inv.queued
      refine ⟨front ++ [frame s s.cur],?_,?_⟩
      · have rest : s.stored = (front ++ [frame s s.cur]) ++ between blackE1000NumRxDesc (frame s)
            ((s.cur + 1) % blackE1000NumRxDesc) s.head := by
          rw [stored,pending,pops,List.append_assoc]
          rfl
        exact rest
      · exact List.rel_append calls (.cons same .nil)
    · intro read writes
      obtain ⟨_,written⟩ := inv.writing read writes
      exact ⟨fun here => filled here.symm,written⟩
    · have before := inv.ready i inside
      have isCleared : Cleared s := ⟨maxLen,data,cleared⟩
      have idle : ¬Cleared {s with tail := s.cur,cur := (s.cur + 1) % blackE1000NumRxDesc,phase := .idle,returned := s.returned ++ [(maxLen,data)]} := by
        rintro ⟨m,d,phase⟩
        cases phase
      simp only [isCleared,true_and] at before
      simp only [idle,false_and,not_false_eq_true,and_true]
      rw [before]
      by_cases here : i = s.cur
      · have far : distance blackE1000NumRxDesc ((s.cur + 1) % blackE1000NumRxDesc) s.cur = 31 := by
          have full := distance_full blackE1000NumRxDesc ((s.cur + 1) % blackE1000NumRxDesc) s.cur (Nat.mod_lt _ (by omega)) low
          omega
        have less := distance_lt blackE1000NumRxDesc s.cur s.head inv.cursor inv.head
        rw [here,far]
        simp only [not_true_eq_false,and_false,false_iff]
        omega
      · have nearer := distance_shrinks blackE1000NumRxDesc s.cur i inv.cursor inside (Ne.symm here)
        simp only [here,not_false_eq_true,and_true]
        omega
  · exact inv

omit inv in
theorem frame_arrive (t : State) (data : List Byte) (descs : t.descs = s.descs)
    (bufs : t.bufs = Function.update s.bufs s.head (copyIn (s.bufs s.head) data)) (i : Nat) (other : i ≠ s.head) :
    frame t i = frame s i := by
  simp [frame,descs,bufs,other]

/-- The frames stored do not see the data that the device writes. -/
theorem pending_arrive (t : State) (data : List Byte) (descs : t.descs = s.descs)
    (bufs : t.bufs = Function.update s.bufs s.head (copyIn (s.bufs s.head) data)) (cur : t.cur = s.cur)
    (head : t.head = s.head) : pending t = pending s := by
  have less := distance_lt blackE1000NumRxDesc s.cur s.head inv.cursor inv.head
  have reaches := distance_reaches blackE1000NumRxDesc s.cur s.head inv.cursor inv.head
  rw [pending,pending,cur,head]
  apply List.map_congr_left
  intro k member
  have apart := slots_apart blackE1000NumRxDesc s.cur k _ (List.mem_range.mp member) less
  rw [reaches] at apart
  exact frame_arrive s t data descs bufs _ apart

theorem arrive_inv (data : List Byte) : Inv (arrive s data) := by
  unfold arrive
  split
  · exact inv
  · split
    · rename_i taken
      obtain ⟨_,room⟩ := taken
      simp only [inv.buffers]
      let taken : State :=
        {s with bufs := Function.update s.bufs s.head (copyIn (s.bufs s.head) data),writing := some data}
      have frames : ∀ i, i ≠ s.head → frame taken i = frame s i := frame_arrive s taken data rfl rfl
      have waits : pending taken = pending s := pending_arrive s inv taken data rfl rfl rfl rfl
      change Inv taken
      refine ⟨inv.mapped,inv.cursor,inv.head,inv.tail,inv.buffers,?_,?_,fun read same => ?_,inv.ready⟩
      · rw [Queued,waits]
        exact inv.queued
      · have under := inv.under
        change Under taken s.phase
        cases phase : s.phase with
        | idle => exact True.intro
        | polled maxLen len =>
          rw [phase] at under
          exact under
        | copied maxLen read =>
          rw [phase] at under
          exact ⟨under.1,by rw [frames _ under.1]; exact under.2⟩
        | cleared maxLen read =>
          rw [phase] at under
          exact ⟨under.1,by rw [frames _ under.1]; exact under.2⟩
      · obtain rfl := Option.some.inj same
        refine ⟨room,?_⟩
        simp only [taken,Function.update_self]
        exact copyIn_read _ _
    · exact ⟨inv.mapped,inv.cursor,inv.head,inv.tail,inv.buffers,inv.queued,inv.under,inv.writing,inv.ready⟩

theorem store_inv : Inv (store s) := by
  unfold store
  split
  · exact inv
  · rename_i data writes
    obtain ⟨room,written⟩ := inv.writing data writes
    have space : (s.head + 1) % blackE1000NumRxDesc ≠ s.cur := by
      rw [inv.tail] at room
      exact fun full => room ((next_head s.cur s.head inv.cursor inv.head).mpr full)
    let done : State := {s with
      descs := Function.update s.descs s.head {s.descs s.head with length := data.length,status := 0x03}
      head := (s.head + 1) % blackE1000NumRxDesc
      writing := none
      stored := s.stored ++ [data]}
    have frames : frame done = Function.update (frame s) s.head data := by
      funext i
      by_cases here : i = s.head
      · simp [done,frame,here,written]
      · simp [done,frame,here]
    have pushed := between_push blackE1000NumRxDesc (frame s) _ _ inv.cursor inv.head data space
    have grows := distance_grows blackE1000NumRxDesc s.cur s.head inv.cursor inv.head space
    have after : pending done = pending s ++ [data] := by
      rw [pending,frames]
      exact pushed
    have kept (filled : s.cur ≠ s.head) : frame done s.cur = frame s s.cur := by
      simp [frames,filled]
    have far (filled : s.cur ≠ s.head) : s.cur ≠ (s.head + 1) % blackE1000NumRxDesc := space.symm
    change Inv done
    refine ⟨inv.mapped,inv.cursor,Nat.mod_lt _ (Nat.two_pow_pos 5),inv.tail,fun i => ?_,?_,?_,?_,fun i inside => ?_⟩
    · by_cases here : i = s.head
      · simp [done,here,inv.buffers]
      · simp [done,here,inv.buffers]
    · obtain ⟨front,stored,calls⟩ := inv.queued
      refine ⟨front,?_,calls⟩
      rw [after,← List.append_assoc,← stored]
    · have under := inv.under
      change Under done s.phase
      cases phase : s.phase with
      | idle => exact True.intro
      | polled maxLen len =>
        rw [phase] at under
        refine ⟨space.symm,?_⟩
        simpa [done,under.1] using under.2
      | copied maxLen read =>
        rw [phase] at under
        refine ⟨space.symm,?_⟩
        rw [show done.cur = s.cur from rfl,kept under.1]
        exact under.2
      | cleared maxLen read =>
        rw [phase] at under
        refine ⟨space.symm,?_⟩
        rw [show done.cur = s.cur from rfl,kept under.1]
        exact under.2
    · intro read same
      cases same
    · have before := inv.ready i inside
      have same : Cleared done ↔ Cleared s := Iff.rfl
      rw [show done.cur = s.cur from rfl,show done.head = (s.head + 1) % blackE1000NumRxDesc from rfl,grows,same]
      by_cases here : i = s.head
      · have filled : Cleared s → s.head ≠ s.cur := by
          rintro ⟨m,d,phase⟩
          have under := inv.under
          rw [phase] at under
          exact under.1.symm
        have bit : (0x03 : Byte) &&& 0x01 ≠ 0 := by decide
        simp only [done,here,Function.update_self]
        constructor
        · intro _
          exact ⟨Nat.lt_succ_self _,fun both => filled both.1 both.2⟩
        · intro _
          exact bit
      · have apart : distance blackE1000NumRxDesc s.cur i ≠ distance blackE1000NumRxDesc s.cur s.head := by
          intro equal
          have first := distance_reaches blackE1000NumRxDesc s.cur i inv.cursor inside
          have second := distance_reaches blackE1000NumRxDesc s.cur s.head inv.cursor inv.head
          rw [equal] at first
          exact here (first.symm.trans second)
        have less : distance blackE1000NumRxDesc s.cur i < distance blackE1000NumRxDesc s.cur s.head + 1 ↔
            distance blackE1000NumRxDesc s.cur i < distance blackE1000NumRxDesc s.cur s.head := by
          omega
        rw [less]
        simpa [done,here] using before

theorem step_inv (a : Action) : Inv (step s a) := by
  cases a with
  | poll maxLen => exact poll_inv s inv maxLen
  | copy => exact copy_inv s inv
  | clear => exact clear_inv s inv
  | release => exact release_inv s inv
  | arrive data => exact arrive_inv s inv data
  | store => exact store_inv s inv

end Steps

theorem run_inv (memBase : Word) (mapped : memBase ≠ 0) (actions : List Action) : Inv (run memBase actions) := by
  induction actions using List.reverseRecOn with
  | nil => exact init_inv memBase mapped
  | append_singleton actions a ih =>
    rw [run,List.foldl_concat]
    exact step_inv _ ih a

section Calls
variable (s : State) (inv : Inv s) (idle : s.phase = .idle) (maxLen : Nat)
include inv

theorem ready_iff (notCleared : ¬Cleared s) : (s.descs s.cur).status &&& 0x01 ≠ 0 ↔ pending s ≠ [] := by
  have before := inv.ready s.cur inv.cursor
  have zero := distance_zero blackE1000NumRxDesc s.cur s.head inv.cursor
  rw [distance_self] at before
  simp only [notCleared,not_false_eq_true,and_true] at before
  rw [before,← List.length_pos_iff,pending,between_length]

include idle

/-- The steps of a call are the call, where the device waits meanwhile. -/
theorem receive_steps : release (clear (copy (poll s maxLen))) = (blackE1000Receive s maxLen).1 := by
  have cut : min (s.descs s.cur).length maxLen =
      if (s.descs s.cur).length > maxLen then maxLen else (s.descs s.cur).length := by
    split
    · omega
    · omega
  unfold poll blackE1000Receive
  rw [idle,if_neg inv.mapped]
  dsimp only
  by_cases done : (s.descs s.cur).status &&& 0x01 = 0
  · rw [if_neg inv.mapped,if_pos done,if_pos done]
    simp [copy,clear,release,idle]
  · rw [if_neg inv.mapped,if_neg done,if_neg done]
    simp [copy,clear,release,cut]

theorem receive_nothing (nothing : pending s = []) : blackE1000Receive s maxLen = (s,0) := by
  have notCleared : ¬Cleared s := by
    rintro ⟨m,data,phase⟩
    rw [idle] at phase
    cases phase
  have done : (s.descs s.cur).status &&& 0x01 = 0 := by
    by_contra set
    exact (ready_iff s inv notCleared).mp set nothing
  rw [blackE1000Receive,if_neg inv.mapped]
  dsimp only
  rw [if_pos done]

theorem receive_first (f : List Byte) (rest : List (List Byte)) (waiting : pending s = f::rest) :
    (blackE1000Receive s maxLen).2 = (f.take maxLen).length ∧
      (blackE1000Receive s maxLen).1.returned = s.returned ++ [(maxLen,f.take maxLen)] ∧
      pending (blackE1000Receive s maxLen).1 = rest := by
  have notCleared : ¬Cleared s := by
    rintro ⟨m,data,phase⟩
    rw [idle] at phase
    cases phase
  have done : (s.descs s.cur).status &&& 0x01 ≠ 0 := by
    rw [ready_iff s inv notCleared,waiting]
    exact List.cons_ne_nil _ _
  have filled : s.cur ≠ s.head := by
    intro same
    rw [pending,same,between_self] at waiting
    cases waiting
  have pops := between_pop blackE1000NumRxDesc (frame s) _ _ inv.cursor inv.head filled
  rw [pending,pops,List.cons.injEq] at waiting
  obtain ⟨first,others⟩ := waiting
  have cut : (List.range (if (s.descs s.cur).length > maxLen then maxLen else (s.descs s.cur).length)).map (s.bufs s.cur) =
      f.take maxLen := by
    rw [← first,frame,take_range]
    congr 2
    split
    · omega
    · omega
  have call : blackE1000Receive s maxLen =
      ({s with
        descs := Function.update s.descs s.cur {s.descs s.cur with status := 0}
        tail := s.cur
        cur := (s.cur + 1) % blackE1000NumRxDesc
        returned := s.returned ++ [(maxLen,f.take maxLen)]},(f.take maxLen).length) := by
    rw [blackE1000Receive,if_neg inv.mapped]
    dsimp only
    rw [if_neg done,cut,← cut]
    simp
  have frames (t : State) (bufs : t.bufs = s.bufs)
      (descs : t.descs = Function.update s.descs s.cur {s.descs s.cur with status := 0}) : frame t = frame s := by
    funext i
    by_cases here : i = s.cur
    · simp [frame,bufs,descs,here]
    · simp [frame,bufs,descs,here]
  have same : frame (blackE1000Receive s maxLen).1 = frame s := by
    apply frames
    · rw [call]
    · rw [call]
  rw [pending,same,call]
  exact ⟨rfl,rfl,others⟩

end Calls

theorem arrive_taken (s : State) (inv : Inv s) (free : s.writing = none) (room : (pending s).length < 31) (data : List Byte)
    (fits : data.length ≤ bufferSize) : (arrive s data).missed = s.missed ∧ (arrive s data).writing = some data := by
  have space : s.head ≠ s.tail := by
    intro full
    have many := (pending_full s inv).mpr full
    omega
  simp [arrive,free,fits,space]

/-- In any order of the steps of the driver and the device, the calls return the frames that the device has stored, once
each and in their order; at most thirty-one wait. A call without a step of the device in it returns the first of them, and
zero where none waits. With fewer than thirty-one waiting, the device misses no frame that fits a buffer. -/
theorem received_in_order (memBase : Word) (mapped : memBase ≠ 0) (actions : List Action) :
    ∃ s front waiting, s = run memBase actions ∧ s.stored = front ++ waiting ∧ waiting.length ≤ 31 ∧
      List.Forall₂ (fun call f => call.2 = f.take call.1) s.returned front ∧
      (s.phase = .idle → ∀ maxLen, match waiting with
        | [] => blackE1000Receive s maxLen = (s,0)
        | f::_ => (blackE1000Receive s maxLen).2 = (f.take maxLen).length ∧
          (blackE1000Receive s maxLen).1 = [.poll maxLen,.copy,.clear,.release].foldl step s ∧
          (blackE1000Receive s maxLen).1.returned = s.returned ++ [(maxLen,f.take maxLen)]) ∧
      (s.writing = none → waiting.length < 31 → ∀ data : List Byte, data.length ≤ bufferSize →
        (arrive s data).missed = s.missed ∧ (store (arrive s data)).stored = s.stored ++ [data]) := by
  have inv := run_inv memBase mapped actions
  obtain ⟨front,stored,calls⟩ := inv.queued
  refine ⟨_,front,_,rfl,stored,pending_small _ inv,calls,fun idle maxLen => ?_,fun free room data fits => ?_⟩
  · split
    · rename_i nothing
      exact receive_nothing _ inv idle maxLen nothing
    · rename_i f rest waits
      obtain ⟨length,returned,_⟩ := receive_first _ inv idle maxLen f rest waits
      exact ⟨length,(receive_steps _ inv idle maxLen).symm,returned⟩
  · obtain ⟨missed,writing⟩ := arrive_taken _ inv free room data fits
    refine ⟨missed,?_⟩
    have kept : (arrive (run memBase actions) data).stored = (run memBase actions).stored := by
      unfold arrive
      split
      · rfl
      · split
        · rfl
        · rfl
    rw [store,writing]
    simp [kept]

theorem received_in_order_cut : ∃ front waiting, (run 0xFEB00000 [.arrive [1,2,3],.store,.poll 2,.copy,.arrive [4],
    .clear,.store,.release]).stored = front ++ waiting ∧
    List.Forall₂ (fun call f => call.2 = f.take call.1) [(2,[1,2])] front := by
  obtain ⟨s,front,waiting,same,stored,_,calls,_⟩ := received_in_order 0xFEB00000 (by decide)
    [.arrive [1,2,3],.store,.poll 2,.copy,.arrive [4],.clear,.store,.release]
  have returned : s.returned = [(2,[1,2])] := by
    rw [same]
    decide
  rw [returned] at calls
  exact ⟨front,waiting,same ▸ stored,calls⟩

end BlackOS.E1000Receive
