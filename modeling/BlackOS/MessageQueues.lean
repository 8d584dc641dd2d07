import BlackOS.LibcText
import BlackOS.MessageQueue
import BlackOS.Library.Simulation
import Mathlib.Data.List.Forall2

/-! The message queues of `kernel/ipc/ipc.c`, called one call after the other, with the copies of the
messages on the kernel heap. A call fails where it reads or frees a block that is not allocated. -/
namespace BlackOS.MessageQueues
open BlackOS.Library.Ram BlackOS.Library.Ring BlackOS.Library.Simulation BlackOS.LibcText
open BlackOS.MessageQueue (Msg Queue freshQueue sendBody recvBody blackMaxMessages)

abbrev Slot := Fin 16

/-- `black_msg_queue_t`, less its lock. -/
structure Entry where
  queue : Queue
  name : Text
  active : Bool

/-- The queues, and the blocks of the kernel heap that hold messages. -/
structure State where
  queues : Slot → Entry
  heap : Word → Option (List Byte)

structure Reply where
  result : Int
  bytes : List Byte
  deriving DecidableEq

/-- The queues as `black_ipc_init` leaves them. -/
def boot : State := ⟨fun _ => ⟨freshQueue,⟨[],nil_terminated⟩,false⟩,fun _ => none⟩

variable (s : State)

def blackMsgqCreate (name : Text) : State × Int :=
  match (List.finRange 16).find? fun i => !(s.queues i).active with
  | none => (s,-1)
  | some i => ({s with queues := Function.update s.queues i ⟨freshQueue,strncpy name 31,true⟩},i.val)

def slot (id : Int) : Option Slot := if inside : 0 ≤ id ∧ id < 16 then some ⟨id.toNat,by omega⟩ else none

/-- The check of `black_msgq_send` and `black_msgq_recv`. -/
def valid (id : Int) : Option Slot := (slot id).filter fun i => (s.queues i).active

def put (i : Slot) (q : Queue) : Slot → Entry := Function.update s.queues i {s.queues i with queue := q}

/-- `black_msgq_send` of the `sz` bytes at `src`; `copy` is what `kmalloc` returns. -/
def blackMsgqSend (id : Int) (src : Nat → Byte) (sz copy : Word) : State × Int :=
  match valid s id with
  | none => (s,-1)
  | some i =>
    let q := (s.queues i).queue
    if blackMaxMessages ≤ q.count.toNat then (s,-1)
    else if copy = 0 then (s,-1)
    else
      (⟨put s i (sendBody q copy sz),Function.update s.heap copy (some ((List.range sz.toNat).map src))⟩,0)

/-- `black_msgq_recv`, with the bytes stored at `black_buf`. -/
def blackMsgqRecv (id : Int) (max : Word) : Option (State × Reply) :=
  match valid s id with
  | none => some (s,⟨-1,[]⟩)
  | some i =>
    let q := (s.queues i).queue
    if q.count = 0 then some (s,⟨0,[]⟩)
    else do
      let m := q.messages q.tail
      let copySz := if m.size < max then m.size else max
      let block ← s.heap m.data
      if block.length < copySz.toNat then none
      return (⟨put s i (recvBody q),Function.update s.heap m.data none⟩,⟨copySz.toInt,block.take copySz.toNat⟩)

inductive Call
  | create (name : Text)
  | send (id : Int) (src : Nat → Byte) (sz copy : Word)
  | recv (id : Int) (max : Word)

def step : Call → Option (State × Reply)
  | .create name => let (s,id) := blackMsgqCreate s name; some (s,⟨id,[]⟩)
  | .send id src sz copy => let (s,result) := blackMsgqSend s id src sz copy; some (s,⟨result,[]⟩)
  | .recv id max => blackMsgqRecv s id max

def blackHeapStart : Nat := 0xD0000000
def blackHeapSize : Nat := 0x02000000

/-- `kmalloc` returns NULL or a new block of `sz` bytes in the kernel heap. -/
def Granted : Call → Prop
  | .send _ _ sz copy =>
    copy = 0 ∨ s.heap copy = none ∧ blackHeapStart ≤ copy.toNat ∧ copy.toNat + sz.toNat ≤ blackHeapStart + blackHeapSize
  | _ => True

/-- All messages that were sent to a queue, and how many of them were received. -/
structure History where
  sent : List (List Byte)
  taken : Nat
  inside : taken ≤ sent.length

def History.pending (h : History) : List (List Byte) := h.sent.drop h.taken

def History.send (h : History) (message : List Byte) : History where
  sent := h.sent ++ [message]
  taken := h.taken
  inside := h.inside.trans (List.sublist_append_left h.sent [message]).length_le

abbrev Spec := Slot → Option History

def onQueue (a : Spec) (id : Int) (f : History → History × Reply) : Spec × Reply :=
  match (slot id).bind fun i => (a i).map (Prod.mk i) with
  | none => (a,⟨-1,[]⟩)
  | some (i,h) => (Function.update a i (some (f h).1),(f h).2)

/-- The first queue that is free is created; a message is refused where 64 are pending or there is no
memory; the next message in order is received, up to `max` bytes of it. -/
def specStep (a : Spec) : Call → Spec × Reply
  | .create _ =>
    match (List.finRange 16).find? fun i => (a i).isNone with
    | none => (a,⟨-1,[]⟩)
    | some i => (Function.update a i (some ⟨[],0,Nat.le_refl 0⟩),⟨i.val,[]⟩)
  | .send id src sz copy =>
    onQueue a id fun h =>
      if h.pending.length = 64 ∨ copy = 0 then (h,⟨-1,[]⟩)
      else (h.send ((List.range sz.toNat).map src),⟨0,[]⟩)
  | .recv id max =>
    onQueue a id fun h =>
      if more : h.taken < h.sent.length then
        let message := h.sent[h.taken]
        (⟨h.sent,h.taken + 1,more⟩,⟨min message.length max.toNat,message.take max.toNat⟩)
      else (h,⟨0,[]⟩)

def pending (a : Spec) (i : Slot) : List (List Byte) := ((a i).map History.pending).getD []

def waiting (q : Queue) : List Msg := slice blackMaxMessages q.messages q.tail q.count.toNat

structure Shape (q : Queue) : Prop where
  tail : q.tail < blackMaxMessages
  room : q.count.toNat ≤ blackMaxMessages
  head : q.head = (q.tail + q.count.toNat) % blackMaxMessages

/-- The copy of the message is on the heap. -/
def Stored (heap : Word → Option (List Byte)) (m : Msg) (bytes : List Byte) : Prop :=
  heap m.data = some bytes ∧ m.size.toNat = bytes.length ∧ bytes.length < 2^31

def blocks (i : Slot) : List Word := (waiting (s.queues i).queue).map Msg.data

/-- The queues hold the pending messages in their order, every pending message has its own block, and
no other block is allocated. -/
structure Holds (s : State) (a : Spec) : Prop where
  active : ∀ i, (s.queues i).active = (a i).isSome
  shape : ∀ i, Shape (s.queues i).queue
  stored : ∀ i, List.Forall₂ (Stored s.heap) (waiting (s.queues i).queue) (pending a i)
  once : ∀ i, (blocks s i).Nodup
  apart : ∀ i j addr, addr ∈ blocks s i → addr ∈ blocks s j → i = j
  owned : ∀ addr, s.heap addr ≠ none ↔ ∃ i, addr ∈ blocks s i

theorem slot_val (i : Slot) : slot i.val = some i := by
  have below := i.isLt
  rw [slot,dif_pos ⟨by omega,by omega⟩]
  rfl

theorem fresh_shape : Shape freshQueue := ⟨by decide,by decide,rfl⟩

theorem boot_holds : Holds boot fun _ => none :=
  ⟨fun _ => rfl,fun _ => fresh_shape,fun _ => List.Forall₂.nil,fun _ => List.nodup_nil,fun _ _ _ => nofun,
    fun _ => iff_of_false (fun some => some rfl) fun ⟨_,member⟩ => List.not_mem_nil member⟩

theorem stored_congr (heap heap' : Word → Option (List Byte)) (msgs : List Msg) (texts : List (List Byte))
    (stored : List.Forall₂ (Stored heap) msgs texts) (same : ∀ m ∈ msgs, heap' m.data = heap m.data) :
    List.Forall₂ (Stored heap') msgs texts := by
  refine ((List.forall₂_and_left msgs texts).mpr ⟨same,stored⟩).imp fun m bytes both => ?_
  rw [Stored,both.1]
  exact both.2

section Cursors
variable (q : Queue) (shape : Shape q)
include shape

theorem send_shape (copy sz : Word) (room : q.count.toNat < blackMaxMessages) :
    Shape (sendBody q copy sz) ∧ waiting (sendBody q copy sz) = waiting q ++ [⟨copy,sz⟩] := by
  have count : (q.count + 1).toNat = q.count.toNat + 1 := by
    have most : q.count.toNat ≤ 64 := shape.room
    rw [BitVec.toNat_add]
    exact Nat.mod_eq_of_lt (by change q.count.toNat + 1 < 2^32; omega)
  refine ⟨⟨shape.tail,?_,?_⟩,?_⟩
  · exact (congrArg (· ≤ blackMaxMessages) count).mpr room
  · change (q.head + 1) % blackMaxMessages = (q.tail + (q.count + 1).toNat) % blackMaxMessages
    rw [shape.head,count,Nat.mod_add_mod,Nat.add_assoc]
  · change slice blackMaxMessages (Function.update q.messages q.head ⟨copy,sz⟩) q.tail (q.count + 1).toNat = _
    rw [count,shape.head]
    exact slice_push blackMaxMessages q.messages q.tail q.count.toNat ⟨copy,sz⟩ room

theorem recv_shape (filled : q.count ≠ 0) :
    Shape (recvBody q) ∧ waiting q = q.messages q.tail::waiting (recvBody q) := by
  have positive : 0 < q.count.toNat := Nat.pos_of_ne_zero fun zero => filled (BitVec.eq_of_toNat_eq zero)
  have count : (q.count - 1).toNat = q.count.toNat - 1 := BitVec.toNat_sub_of_le positive
  refine ⟨⟨Nat.mod_lt _ (by decide),?_,?_⟩,?_⟩
  · change (q.count - 1).toNat ≤ blackMaxMessages
    rw [count]
    exact (Nat.sub_le _ _).trans shape.room
  · change q.head = ((q.tail + 1) % blackMaxMessages + (q.count - 1).toNat) % blackMaxMessages
    rw [shape.head,count,Nat.mod_add_mod]
    congr 1
    omega
  · change slice blackMaxMessages q.messages q.tail q.count.toNat =
      _::slice blackMaxMessages q.messages ((q.tail + 1) % blackMaxMessages) (q.count - 1).toNat
    rw [count,← slice_pop blackMaxMessages q.messages q.tail (q.count.toNat - 1) shape.tail]
    congr 1
    omega

end Cursors

/-- A receive copies no more than the block holds, and its result is not negative. -/
theorem recv_reply (m : Msg) (max : Word) (bytes : List Byte) (size : m.size.toNat = bytes.length)
    (small : bytes.length < 2^31) :
    let copySz := if m.size < max then m.size else max
    ¬bytes.length < copySz.toNat ∧
      (⟨copySz.toInt,bytes.take copySz.toNat⟩ : Reply) = ⟨min bytes.length max.toNat,bytes.take max.toNat⟩ := by
  intro copySz
  have number : copySz.toNat = min bytes.length max.toNat := by
    rw [← size]
    by_cases less : m.size < max
    · exact (congrArg BitVec.toNat (if_pos less)).trans (Nat.min_eq_left (Nat.le_of_lt less)).symm
    · exact (congrArg BitVec.toNat (if_neg less)).trans (Nat.min_eq_right (Nat.le_of_not_lt less)).symm
  have signed : copySz.toInt = min (bytes.length : Int) max.toNat := by
    rw [BitVec.toInt_eq_toNat_of_lt (by omega),number]
    omega
  have same : bytes.take copySz.toNat = bytes.take max.toNat := by
    rw [number,List.take_eq_take_iff]
    omega
  rw [signed,same]
  exact ⟨by omega,rfl⟩

section Exchange
variable (a : Spec) (i : Slot) (entry : Entry) (heap : Word → Option (List Byte)) (h : History)

theorem blocks_self : blocks ⟨Function.update s.queues i entry,heap⟩ i = (waiting entry.queue).map Msg.data := by
  unfold blocks
  dsimp only
  rw [Function.update_self]

theorem blocks_other (j : Slot) (other : j ≠ i) : blocks ⟨Function.update s.queues i entry,heap⟩ j = blocks s j := by
  unfold blocks
  dsimp only
  rw [Function.update_of_ne other]

theorem mem_blocks_split (addr : Word) :
    (∃ j, addr ∈ blocks s j) ↔ addr ∈ blocks s i ∨ ∃ j ≠ i, addr ∈ blocks s j := by
  constructor
  · intro mine
    obtain ⟨j,member⟩ := mine
    by_cases same : j = i
    · exact Or.inl (same ▸ member)
    · exact Or.inr ⟨j,same,member⟩
  · intro mine
    rcases mine with here | there
    · exact ⟨i,here⟩
    · obtain ⟨j,_,member⟩ := there
      exact ⟨j,member⟩

/-- One queue, its blocks and its messages change; the other queues keep theirs. -/
theorem Holds.exchange (holds : Holds s a) (active : entry.active = true) (shape : Shape entry.queue)
    (stored : List.Forall₂ (Stored heap) (waiting entry.queue) h.pending)
    (once : ((waiting entry.queue).map Msg.data).Nodup)
    (others : ∀ j ≠ i, ∀ addr ∈ blocks s j, heap addr = s.heap addr ∧ addr ∉ (waiting entry.queue).map Msg.data)
    (owned : ∀ addr, heap addr ≠ none ↔ addr ∈ (waiting entry.queue).map Msg.data ∨ ∃ j ≠ i, addr ∈ blocks s j) :
    Holds ⟨Function.update s.queues i entry,heap⟩ (Function.update a i (some h)) := by
  have aside (j : Slot) (other : j ≠ i) (addr : Word) (member : addr ∈ blocks s j) :
      addr ∉ blocks ⟨Function.update s.queues i entry,heap⟩ i := by
    rw [blocks_self]
    exact (others j other addr member).2
  refine ⟨fun j => ?_,fun j => ?_,fun j => ?_,fun j => ?_,fun j k addr first second => ?_,fun addr => ?_⟩
  · dsimp only
    by_cases same : j = i
    · rw [same,Function.update_self,Function.update_self,active]
      rfl
    · rw [Function.update_of_ne same,Function.update_of_ne same]
      exact holds.active j
  · dsimp only
    by_cases same : j = i
    · rw [same,Function.update_self]
      exact shape
    · rw [Function.update_of_ne same]
      exact holds.shape j
  · dsimp only
    by_cases same : j = i
    · rw [same,pending,Function.update_self,Function.update_self]
      exact stored
    · rw [pending,Function.update_of_ne same,Function.update_of_ne same]
      refine stored_congr s.heap heap _ _ (holds.stored j) fun m member => ?_
      exact (others j same m.data (List.mem_map_of_mem member)).1
  · by_cases same : j = i
    · rw [same,blocks_self]
      exact once
    · rw [blocks_other s i entry heap j same]
      exact holds.once j
  · by_cases left : j = i
    · by_cases right : k = i
      · rw [left,right]
      · rw [left] at first
        rw [blocks_other s i entry heap k right] at second
        exact absurd first (aside k right addr second)
    · rw [blocks_other s i entry heap j left] at first
      by_cases right : k = i
      · rw [right] at second
        exact absurd second (aside j left addr first)
      · rw [blocks_other s i entry heap k right] at second
        exact holds.apart j k addr first second
  · rw [owned addr,mem_blocks_split _ i,blocks_self]
    refine or_congr_right (exists_congr fun j => and_congr_right fun other => ?_)
    rw [blocks_other s i entry heap j other]

end Exchange

section Simulation
variable (a : Spec) (holds : Holds s a)
include holds

theorem waiting_length (i : Slot) (h : History) (created : a i = some h) :
    h.pending.length = (s.queues i).queue.count.toNat := by
  have stored := (holds.stored i).length_eq
  rw [waiting,slice_length,pending,created] at stored
  exact stored.symm

theorem created_active (i : Slot) (h : History) (created : a i = some h) : (s.queues i).active = true := by
  rw [holds.active,created]
  rfl

/-- A call finds the queue that it is about, or the queue was not created. -/
theorem target (id : Int) :
    valid s id = none ∧ (∀ f, onQueue a id f = (a,⟨-1,[]⟩)) ∨
    ∃ i h, valid s id = some i ∧ a i = some h ∧ (s.queues i).active = true ∧
      ∀ f, onQueue a id f = (Function.update a i (some (f h).1),(f h).2) := by
  cases here : slot id with
  | none =>
    refine Or.inl ⟨by rw [valid,here]; rfl,fun f => ?_⟩
    rw [onQueue,here]
    rfl
  | some i =>
    cases created : a i with
    | none =>
      have inactive := holds.active i
      rw [created] at inactive
      refine Or.inl ⟨?_,fun f => ?_⟩
      · rw [valid,here,Option.filter_some,inactive]
        rfl
      · rw [onQueue,here,Option.bind_some,created]
        rfl
    | some h =>
      have active := created_active s a holds i h created
      refine Or.inr ⟨i,h,?_,created,active,fun f => ?_⟩
      · rw [valid,here,Option.filter_some,active]
        rfl
      · rw [onQueue,here,Option.bind_some,created]
        rfl

theorem push_holds (i : Slot) (h : History) (created : a i = some h) (copy sz : Word) (bytes : List Byte)
    (room : (s.queues i).queue.count.toNat < blackMaxMessages) (fresh : s.heap copy = none)
    (size : sz.toNat = bytes.length) (small : bytes.length < 2^31) :
    Holds ⟨put s i (sendBody (s.queues i).queue copy sz),Function.update s.heap copy (some bytes)⟩
      (Function.update a i (some (h.send bytes))) := by
  obtain ⟨shape,pushed⟩ := send_shape _ (holds.shape i) copy sz room
  have unused (j : Slot) : copy ∉ blocks s j := fun member => (holds.owned copy).mpr ⟨j,member⟩ fresh
  have kept (addr : Word) (other : addr ≠ copy) : Function.update s.heap copy (some bytes) addr = s.heap addr :=
    Function.update_of_ne other _ _
  have distinct (j : Slot) (addr : Word) (member : addr ∈ blocks s j) : addr ≠ copy :=
    fun same => unused j (same ▸ member)
  have stored := holds.stored i
  rw [pending,created] at stored
  have active := created_active s a holds i h created
  have addresses : (waiting (sendBody (s.queues i).queue copy sz)).map Msg.data = blocks s i ++ [copy] := by
    rw [pushed,List.map_append]
    rfl
  refine holds.exchange s a i _ _ _ active shape ?_ ?_ (fun j other addr member => ⟨kept addr (distinct j addr member),?_⟩)
    fun addr => ?_
  · dsimp only
    rw [pushed,History.pending,History.send,List.drop_append_of_le_length h.inside]
    refine List.rel_append ?_ (List.Forall₂.cons ⟨Function.update_self _ _ _,size,small⟩ List.Forall₂.nil)
    exact stored_congr s.heap _ _ _ stored fun m member => kept m.data (distinct i m.data (List.mem_map_of_mem member))
  · dsimp only
    rw [addresses]
    refine List.nodup_append.mpr ⟨holds.once i,List.nodup_singleton copy,fun addr member last single => ?_⟩
    rw [List.mem_singleton.mp single]
    exact distinct i addr member
  · dsimp only
    rw [addresses,List.mem_append,List.mem_singleton]
    intro mine
    rcases mine with here | new
    · exact other (holds.apart j i addr member here)
    · exact distinct j addr member new
  · dsimp only
    rw [addresses,List.mem_append,List.mem_singleton]
    by_cases new : addr = copy
    · rw [new,Function.update_self]
      exact iff_of_true nofun (Or.inl (Or.inr rfl))
    · rw [kept addr new,holds.owned,mem_blocks_split s i,or_iff_left new]

/-- The message that is received next is the first pending one. -/
theorem front_stored (i : Slot) (h : History) (created : a i = some h) (filled : (s.queues i).queue.count ≠ 0) :
    ∃ more : h.taken < h.sent.length,
      Stored s.heap ((s.queues i).queue.messages (s.queues i).queue.tail) h.sent[h.taken] ∧
      List.Forall₂ (Stored s.heap) (waiting (recvBody (s.queues i).queue)) (h.sent.drop (h.taken + 1)) := by
  have more : h.taken < h.sent.length := by
    have length := waiting_length s a holds i h created
    rw [History.pending,List.length_drop] at length
    have positive : (s.queues i).queue.count.toNat ≠ 0 := fun zero => filled (BitVec.eq_of_toNat_eq zero)
    omega
  have stored := holds.stored i
  rw [pending,created,(recv_shape _ (holds.shape i) filled).2] at stored
  change List.Forall₂ (Stored s.heap) _ (h.sent.drop h.taken) at stored
  rw [List.drop_eq_getElem_cons more,List.forall₂_cons] at stored
  exact ⟨more,stored⟩

theorem pop_holds (i : Slot) (h : History) (created : a i = some h) (filled : (s.queues i).queue.count ≠ 0) :
    let m := (s.queues i).queue.messages (s.queues i).queue.tail
    ∃ more : h.taken < h.sent.length, Stored s.heap m h.sent[h.taken] ∧
      Holds ⟨put s i (recvBody (s.queues i).queue),Function.update s.heap m.data none⟩
        (Function.update a i (some ⟨h.sent,h.taken + 1,more⟩)) := by
  intro m
  obtain ⟨shape,popped⟩ := recv_shape _ (holds.shape i) filled
  obtain ⟨more,first,later⟩ := front_stored s a holds i h created filled
  have once := holds.once i
  have addresses : blocks s i = m.data::(waiting (recvBody (s.queues i).queue)).map Msg.data := by
    rw [blocks,popped]
    rfl
  rw [addresses,List.nodup_cons] at once
  have active := created_active s a holds i h created
  have kept (addr : Word) (other : addr ≠ m.data) : Function.update s.heap m.data none addr = s.heap addr :=
    Function.update_of_ne other _ _
  have mine : m.data ∈ blocks s i := by
    rw [addresses]
    exact List.mem_cons_self
  have rest (addr : Word) (member : addr ∈ (waiting (recvBody (s.queues i).queue)).map Msg.data) :
      addr ∈ blocks s i ∧ addr ≠ m.data := by
    rw [addresses]
    exact ⟨List.mem_cons_of_mem _ member,fun same => once.1 (same ▸ member)⟩
  have aside (j : Slot) (other : j ≠ i) (addr : Word) (member : addr ∈ blocks s j) : addr ≠ m.data := by
    intro same
    exact other (holds.apart j i m.data (same ▸ member) mine)
  refine ⟨more,first,?_⟩
  refine holds.exchange s a i _ _ _ active shape ?_ once.2
    (fun j other addr member => ⟨kept addr (aside j other addr member),fun here => ?_⟩) fun addr => ?_
  · refine stored_congr s.heap _ _ _ later fun n member => kept n.data ?_
    exact (rest n.data (List.mem_map_of_mem member)).2
  · exact other (holds.apart j i addr member (rest addr here).1)
  · dsimp only
    by_cases gone : addr = m.data
    · rw [gone,Function.update_self]
      refine iff_of_false (fun some => some rfl) fun held => ?_
      rcases held with here | there
      · exact (rest m.data here).2 rfl
      · obtain ⟨j,other,member⟩ := there
        exact aside j other m.data member rfl
    · rw [kept addr gone,holds.owned,mem_blocks_split s i,addresses,List.mem_cons,or_iff_right gone]

theorem create_simulates (name : Text) :
    ∃ s', step s (.create name) = some (s',(specStep a (.create name)).2) ∧ Holds s' (specStep a (.create name)).1 := by
  have same : (fun i => !(s.queues i).active) = fun i => (a i).isNone := by
    funext i
    rw [holds.active i]
    exact Option.not_isSome (a i)
  rw [step,blackMsgqCreate,specStep,same]
  cases found : (List.finRange 16).find? fun i => (a i).isNone with
  | none => exact ⟨s,rfl,holds⟩
  | some i =>
    have free := List.find?_some found
    have empty : waiting (s.queues i).queue = [] := by
      have stored := holds.stored i
      rw [pending,Option.isNone_iff_eq_none.mp free] at stored
      exact List.forall₂_nil_right_iff.mp stored
    refine ⟨_,rfl,?_⟩
    refine holds.exchange s a i _ s.heap ⟨[],0,Nat.le_refl 0⟩ rfl fresh_shape List.Forall₂.nil List.nodup_nil
      (fun j _ addr _ => ⟨rfl,List.not_mem_nil⟩) fun addr => ?_
    rw [holds.owned]
    constructor
    · intro mine
      obtain ⟨j,member⟩ := mine
      refine Or.inr ⟨j,?_,member⟩
      intro here
      rw [here,blocks,empty] at member
      exact List.not_mem_nil member
    · intro mine
      rcases mine with none | there
      · exact absurd none List.not_mem_nil
      · obtain ⟨j,_,member⟩ := there
        exact ⟨j,member⟩

theorem send_simulates (id : Int) (src : Nat → Byte) (sz copy : Word) (granted : Granted s (.send id src sz copy)) :
    ∃ s', step s (.send id src sz copy) = some (s',(specStep a (.send id src sz copy)).2) ∧
      Holds s' (specStep a (.send id src sz copy)).1 := by
  rw [step,blackMsgqSend,specStep]
  rcases target s a holds id with missing | found
  · rw [missing.1,missing.2]
    exact ⟨s,rfl,holds⟩
  · obtain ⟨i,h,here,created,active,onto⟩ := found
    have length := waiting_length s a holds i h created
    have shape := holds.shape i
    have most : (s.queues i).queue.count.toNat ≤ 64 := shape.room
    have unchanged : Function.update a i (some h) = a := by
      rw [← created,Function.update_eq_self]
    rw [here,onto]
    dsimp only
    by_cases full : blackMaxMessages ≤ (s.queues i).queue.count.toNat
    · have many : h.pending.length = 64 := length.trans (Nat.le_antisymm most full)
      rw [if_pos full,if_pos (Or.inl many)]
      exact ⟨s,rfl,unchanged.symm ▸ holds⟩
    · rw [if_neg full]
      by_cases null : copy = 0
      · rw [if_pos null,if_pos (Or.inr null)]
        exact ⟨s,rfl,unchanged.symm ▸ holds⟩
      · rw [if_neg null,if_neg fun refused => ?_]
        · rcases granted with none | grant
          · exact absurd none null
          · obtain ⟨fresh,low,high⟩ := grant
            refine ⟨_,rfl,?_⟩
            refine push_holds s a holds i h created copy sz _ (Nat.lt_of_not_le full) fresh ?_ ?_
            · rw [List.length_map,List.length_range]
            · rw [List.length_map,List.length_range]
              rw [blackHeapStart] at low high
              rw [blackHeapSize] at high
              omega
        · rcases refused with many | none
          · exact full (Nat.le_of_eq (many.symm.trans length))
          · exact null none

/-- A send to a queue is refused where 64 messages are pending or there is no memory, and then
nothing changes. -/
theorem send_refused (i : Slot) (created : (a i).isSome = true) (src : Nat → Byte) (sz copy : Word) :
    let sent := blackMsgqSend s i.val src sz copy
    (sent.2 = -1 ↔ (pending a i).length = 64 ∨ copy = 0) ∧ (sent.2 = -1 → sent.1 = s) := by
  have length : (pending a i).length = (s.queues i).queue.count.toNat := by
    rw [← (holds.stored i).length_eq,waiting,slice_length]
  have most : (s.queues i).queue.count.toNat ≤ 64 := (holds.shape i).room
  have here : valid s i.val = some i := by
    rw [valid,slot_val,Option.filter_some,holds.active i,created]
    rfl
  rw [blackMsgqSend,here,length]
  dsimp only
  by_cases full : blackMaxMessages ≤ (s.queues i).queue.count.toNat
  · rw [if_pos full]
    exact ⟨iff_of_true rfl (Or.inl (Nat.le_antisymm most full)),fun _ => rfl⟩
  · rw [if_neg full]
    by_cases null : copy = 0
    · rw [if_pos null]
      exact ⟨iff_of_true rfl (Or.inr null),fun _ => rfl⟩
    · rw [if_neg null]
      have done : (0 : Int) ≠ -1 := by decide
      refine ⟨iff_of_false done fun refused => ?_,fun failed => absurd failed done⟩
      rcases refused with many | none
      · exact full (Nat.le_of_eq many.symm)
      · exact null none

theorem recv_simulates (id : Int) (max : Word) :
    ∃ s', step s (.recv id max) = some (s',(specStep a (.recv id max)).2) ∧
      Holds s' (specStep a (.recv id max)).1 := by
  rw [step,blackMsgqRecv,specStep]
  rcases target s a holds id with missing | found
  · rw [missing.1,missing.2]
    exact ⟨s,rfl,holds⟩
  · obtain ⟨i,h,here,created,active,onto⟩ := found
    rw [here,onto]
    dsimp only
    by_cases empty : (s.queues i).queue.count = 0
    · have none : ¬h.taken < h.sent.length := by
        have length := waiting_length s a holds i h created
        rw [History.pending,List.length_drop,empty] at length
        have zero : (0 : Word).toNat = 0 := rfl
        omega
      rw [if_pos empty,dif_neg none]
      refine ⟨s,rfl,?_⟩
      rw [← created,Function.update_eq_self]
      exact holds
    · obtain ⟨more,stored,popped⟩ := pop_holds s a holds i h created empty
      obtain ⟨block,size,small⟩ := stored
      rw [if_neg empty,dif_pos more,block]
      refine ⟨_,?_,popped⟩
      obtain ⟨inside,reply⟩ := recv_reply _ max h.sent[h.taken] size small
      change (if h.sent[h.taken].length < _ then none else some _) = _
      rw [if_neg inside,reply]

end Simulation

theorem queues_simulate : Simulates Granted Holds step specStep := by
  intro s a c holds granted
  cases c with
  | create name => exact create_simulates s a holds name
  | send id src sz copy => exact send_simulates s a holds id src sz copy granted
  | recv id max => exact recv_simulates s a holds id max

/-- Every list of calls is answered as the queues of messages answer it, no call reads or frees a
block that is not allocated, and the blocks that are allocated are those of the pending messages. -/
theorem queues_are_fifo (calls : List Call) (granted : Along Granted step boot calls) :
    let spec := replies specStep (fun _ => none) calls
    ∃ s, answers step boot calls = some (s,spec.2) ∧ Holds s spec.1 ∧ (∀ i, (pending spec.1 i).length ≤ 64) ∧
      ∀ i, (spec.1 i).isSome = true → ∀ src sz copy,
        ((blackMsgqSend s i.val src sz copy).2 = -1 ↔ (pending spec.1 i).length = 64 ∨ copy = 0) ∧
        ((blackMsgqSend s i.val src sz copy).2 = -1 → (blackMsgqSend s i.val src sz copy).1 = s) := by
  intro spec
  obtain ⟨s,answered,holds⟩ := queues_simulate.answers calls boot (fun _ => none) boot_holds granted
  refine ⟨s,answered,holds,fun i => ?_,fun i created => send_refused s spec.1 holds i created⟩
  rw [← (holds.stored i).length_eq,waiting,slice_length]
  exact (holds.shape i).room

/-- One byte of a message of two is received, and nothing is left on the heap. -/
theorem queues_are_fifo_truncated :
    let calls := [.create ⟨[0x71],by decide⟩,.send 0 (fun k => if k = 0 then 0x68 else 0x69) 2 0xD0000010,.recv 0 1]
    ∃ s, answers step boot calls = some (s,[⟨0,[]⟩,⟨0,[]⟩,⟨1,[0x68]⟩]) ∧ ∀ addr, s.heap addr = none := by
  intro calls
  have granted : Along Granted step boot calls := by
    refine ⟨True.intro,fun s reply first => ⟨?_,fun s reply second => ⟨True.intro,fun s reply third => True.intro⟩⟩⟩
    cases first
    exact Or.inr ⟨rfl,by decide,by decide⟩
  obtain ⟨s,answered,holds,_⟩ := queues_are_fifo calls granted
  have none (i : Slot) : pending (replies specStep (fun _ => none) calls).1 i = [] := by
    revert i
    decide
  refine ⟨s,answered,fun addr => ?_⟩
  by_contra allocated
  obtain ⟨i,member⟩ := (holds.owned addr).mp allocated
  have stored := holds.stored i
  rw [none i,List.forall₂_nil_right_iff] at stored
  rw [blocks,stored] at member
  exact List.not_mem_nil member

end BlackOS.MessageQueues
