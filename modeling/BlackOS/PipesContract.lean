import BlackOS.Pipes

/-! Every pipe is a bounded byte queue: the calls do to the table what they do to a
family of queues, one for each active pipe, and what was read since the creation of
a pipe is a prefix of what was accepted. -/
namespace BlackOS.Pipes
open BlackOS.Library.Ram BlackOS.Library.Ring BlackOS.Library.Run

/-- The bytes written to the pipe and not yet read. -/
def contents (p : Pipe) : List Byte := slice blackPipeBufSize p.buffer p.readPos p.count

/-- The three ring indices agree. -/
structure Consistent (p : Pipe) : Prop where
  read : p.readPos < blackPipeBufSize
  room : p.count ≤ blackPipeBufSize
  write : p.writePos = (p.readPos + p.count) % blackPipeBufSize

/-- The queues of the active pipes. -/
abbrev Queues := Id → Option (List Byte)

def view (s : State) : Queues := fun i => if (s i).active then some (contents (s i)) else none

/-- The queue that an id names, if its pipe is active. -/
def named (q : Queues) (id : Int) : Option (Id × List Byte) :=
  (slot id).bind (fun i => (q i).map (fun c => (i,c)))

/-- What the calls do to bounded byte queues. -/
def queueStep (q : Queues) : Op → Queues × Reply
  | .create =>
    match (List.finRange 32).find? (fun i => (q i).isNone) with
    | none => (q,⟨-1,[]⟩)
    | some i => (Function.update q i (some []),⟨i,[]⟩)
  | .read id sz =>
    match named q id with
    | none => (q,⟨-1,[]⟩)
    | some (i,c) =>
      let n := min sz.toNat c.length
      (Function.update q i (some (c.drop n)),⟨n,c.take n⟩)
  | .write id src sz =>
    match named q id with
    | none => (q,⟨-1,[]⟩)
    | some (i,c) =>
      let n := min sz.toNat (4096 - c.length)
      (Function.update q i (some (c ++ (List.range n).map src)),⟨n,[]⟩)
  | .close id =>
    match slot id with
    | none => (q,⟨0,[]⟩)
    | some i => (Function.update q i none,⟨0,[]⟩)

theorem contents_length (p : Pipe) : (contents p).length = p.count := slice_length _ _ _ _

theorem readLoop_spec (left : Nat) (p : Pipe) (consistent : Consistent p) :
    Consistent (readLoop left p).1 ∧ (readLoop left p).1.active = p.active ∧
      contents (readLoop left p).1 = (contents p).drop left ∧ (readLoop left p).2 = (contents p).take left := by
  induction left generalizing p with
  | zero => exact ⟨consistent,rfl,by simp [readLoop],by simp [readLoop]⟩
  | succ left ih =>
    obtain ⟨read,room,write⟩ := consistent
    by_cases some_ : 0 < p.count
    · have next : Consistent {p with readPos := (p.readPos + 1) % blackPipeBufSize,count := p.count - 1} := by
        refine ⟨Nat.mod_lt _ (by decide),by simp only; omega,?_⟩
        simp only [write,Nat.mod_add_mod]
        congr 1
        omega
      have pop : contents p = p.buffer p.readPos::contents
          {p with readPos := (p.readPos + 1) % blackPipeBufSize,count := p.count - 1} := by
        have count : p.count = p.count - 1 + 1 := by omega
        unfold contents
        rw [count,slice_pop _ _ _ _ read]
        simp
      obtain ⟨kept,active,rest,bytes⟩ := ih _ next
      simp only [readLoop,if_pos some_]
      refine ⟨kept,active,?_,?_⟩
      · rw [rest,pop,List.drop_succ_cons]
      · rw [bytes,pop,List.take_succ_cons]
    · have empty : contents p = [] := by
        have none_ : p.count = 0 := by omega
        rw [contents,none_,slice_zero]
      simp only [readLoop,if_neg some_]
      exact ⟨⟨read,room,write⟩,trivial,by simp [empty],by simp [empty]⟩

theorem writeLoop_spec (src : Nat → Byte) (left written : Nat) (p : Pipe) (consistent : Consistent p) :
    Consistent (writeLoop src left written p).1 ∧ (writeLoop src left written p).1.active = p.active ∧
      contents (writeLoop src left written p).1 =
        contents p ++ (List.range (min left (4096 - p.count))).map (fun k => src (written + k)) ∧
      (writeLoop src left written p).2 = written + min left (4096 - p.count) := by
  induction left generalizing written p with
  | zero => exact ⟨consistent,rfl,by simp [writeLoop],by simp [writeLoop]⟩
  | succ left ih =>
    have size : blackPipeBufSize = 4096 := rfl
    obtain ⟨read,room,write⟩ := consistent
    by_cases more : p.count < blackPipeBufSize
    · have next : Consistent {p with
          buffer := Function.update p.buffer p.writePos (src written)
          writePos := (p.writePos + 1) % blackPipeBufSize
          count := p.count + 1} := by
        refine ⟨read,by simp only; omega,?_⟩
        simp only [write,Nat.mod_add_mod,Nat.add_assoc]
      have push : contents {p with
          buffer := Function.update p.buffer p.writePos (src written)
          writePos := (p.writePos + 1) % blackPipeBufSize
          count := p.count + 1} = contents p ++ [src written] := by
        unfold contents
        simp only [write]
        exact slice_push _ _ _ _ _ more
      obtain ⟨kept,active,bytes,total⟩ := ih (written + 1) _ next
      have fewer : min (left + 1) (4096 - p.count) = min left (4096 - (p.count + 1)) + 1 := by omega
      simp only [writeLoop,if_pos more]
      refine ⟨kept,active,?_,?_⟩
      · rw [bytes,push,fewer,List.range_succ_eq_map,List.map_cons,List.map_map,List.append_assoc]
        simp only [List.cons_append,List.nil_append,Nat.add_zero]
        congr 2
        apply List.map_congr_left
        intro k _
        simp only [Function.comp_apply]
        congr 1
        omega
      · rw [total,fewer]
        dsimp only
        omega
    · have full : 4096 - p.count = 0 := by omega
      simp only [writeLoop,if_neg more,full,Nat.min_zero,List.range_zero,List.map_nil,List.append_nil,Nat.add_zero]
      exact ⟨⟨read,room,write⟩,trivial,trivial,trivial⟩

theorem view_update (s : State) (i : Id) (p : Pipe) :
    view (Function.update s i p) = Function.update (view s) i (if p.active then some (contents p) else none) := by
  funext j
  by_cases same : j = i
  · subst same
    simp [view]
  · simp [view,same]

theorem named_view (s : State) (id : Int) : named (view s) id = (valid s id).map (fun i => (i,contents (s i))) := by
  unfold named valid
  cases slot id with
  | none => rfl
  | some i => by_cases active : (s i).active <;> simp [view,active]

theorem valid_active (s : State) (id : Int) (i : Id) (found : valid s id = some i) :
    slot id = some i ∧ (s i).active = true := Option.filter_eq_some_iff.mp found

def Inv (s : State) : Prop := ∀ i, (s i).active = true → Consistent (s i)

theorem inv_update (s : State) (inv : Inv s) (i : Id) (p : Pipe) (consistent : p.active = true → Consistent p) :
    Inv (Function.update s i p) := by
  intro j active
  by_cases same : j = i
  · subst same
    rw [Function.update_self] at active ⊢
    exact consistent active
  · rw [Function.update_of_ne same] at active ⊢
    exact inv j active

section
variable (s : State) (inv : Inv s)
include inv

theorem create_queue : Inv (step s .create).1 ∧
    ((view (step s .create).1,(step s .create).2) : Queues × Reply) = queueStep (view s) .create := by
  have same : (fun i => (view s i).isNone) = fun i => !(s i).active := by
    funext i
    by_cases active : (s i).active <;> simp [view,active]
  simp only [step,blackPipeCreate,queueStep,same]
  cases (List.finRange 32).find? (fun i => !(s i).active) with
  | none => exact ⟨inv,rfl⟩
  | some i =>
    refine ⟨inv_update s inv i _ (fun _ => ⟨by decide,by decide,by decide⟩),?_⟩
    rw [view_update]
    rfl

theorem read_queue (id : Int) (sz : Word) : Inv (step s (.read id sz)).1 ∧
    ((view (step s (.read id sz)).1,(step s (.read id sz)).2) : Queues × Reply) = queueStep (view s) (.read id sz) := by
  simp only [step,blackPipeRead,queueStep,named_view]
  cases found : valid s id with
  | none => exact ⟨inv,rfl⟩
  | some i =>
    obtain ⟨_,active⟩ := valid_active s id i found
    obtain ⟨kept,still,rest,bytes⟩ := readLoop_spec sz.toNat (s i) (inv i active)
    refine ⟨inv_update s inv i _ (fun _ => kept),?_⟩
    simp only [Option.map_some]
    rw [view_update,still,active,rest,bytes]
    simp [List.take_eq_take_min,List.drop_eq_drop_min]

theorem write_queue (id : Int) (src : Nat → Byte) (sz : Word) : Inv (step s (.write id src sz)).1 ∧
    ((view (step s (.write id src sz)).1,(step s (.write id src sz)).2) : Queues × Reply) =
      queueStep (view s) (.write id src sz) := by
  simp only [step,blackPipeWrite,queueStep,named_view]
  cases found : valid s id with
  | none => exact ⟨inv,rfl⟩
  | some i =>
    obtain ⟨_,active⟩ := valid_active s id i found
    obtain ⟨kept,still,bytes,total⟩ := writeLoop_spec src sz.toNat 0 (s i) (inv i active)
    refine ⟨inv_update s inv i _ (fun _ => kept),?_⟩
    simp only [Option.map_some,contents_length]
    rw [view_update,still,active,bytes,total]
    simp

theorem close_queue (id : Int) : Inv (step s (.close id)).1 ∧
    ((view (step s (.close id)).1,(step s (.close id)).2) : Queues × Reply) = queueStep (view s) (.close id) := by
  simp only [step,blackPipeClose,queueStep]
  cases slot id with
  | none => exact ⟨inv,rfl⟩
  | some i =>
    refine ⟨inv_update s inv i _ (fun active => by cases active),?_⟩
    rw [view_update]
    rfl

/-- Every call does to the queues of the pipes what it does to bounded byte queues. -/
theorem step_queue (op : Op) : Inv (step s op).1 ∧
    ((view (step s op).1,(step s op).2) : Queues × Reply) = queueStep (view s) op := by
  cases op with
  | create => exact create_queue s inv
  | read id sz => exact read_queue s inv id sz
  | write id src sz => exact write_queue s inv id src sz
  | close id => exact close_queue s inv id

end

/-- The pipe a call works on; `black_pipe_create` works on the one it returns. -/
def target (op : Op) (reply : Reply) : Option Id :=
  match op with
  | .create => slot reply.result
  | .read id _ => slot id
  | .write id _ _ => slot id
  | .close id => slot id

theorem valid_ne (s : State) (id : Int) (j : Id) (other : slot id ≠ some j) (i : Id)
    (found : valid s id = some i) : j ≠ i := by
  intro same
  rw [same] at other
  exact other (valid_active s id i found).1

theorem slot_id (i : Id) : slot i.val = some i := by
  have bound := i.isLt
  rw [slot,dif_pos ⟨by omega,by omega⟩]
  simp

/-- A call leaves every pipe alone that it does not work on. -/
theorem step_frame (s : State) (op : Op) (j : Id) (other : target op (step s op).2 ≠ some j) :
    (step s op).1 j = s j := by
  cases op with
  | create =>
    simp only [step,blackPipeCreate,target] at other ⊢
    cases found : (List.finRange 32).find? (fun i => !(s i).active) with
    | none => rfl
    | some i =>
      rw [found] at other
      refine Function.update_of_ne ?_ _ _
      intro same
      subst same
      exact other (slot_id j)
  | read id sz =>
    simp only [step,blackPipeRead,target] at other ⊢
    cases found : valid s id with
    | none => rfl
    | some i => exact Function.update_of_ne (valid_ne s id j other i found) _ _
  | write id src sz =>
    simp only [step,blackPipeWrite,target] at other ⊢
    cases found : valid s id with
    | none => rfl
    | some i => exact Function.update_of_ne (valid_ne s id j other i found) _ _
  | close id =>
    simp only [step,blackPipeClose,target] at other ⊢
    cases found : slot id with
    | none => rfl
    | some i =>
      refine Function.update_of_ne ?_ _ _
      intro same
      subst same
      exact other found

/-- The table with all bytes accepted and all bytes read since each pipe's creation. -/
structure System where
  pipes : State
  accepted : Id → List Byte
  taken : Id → List Byte

def System.call (s : System) (op : Op) : System :=
  let (pipes,reply) := step s.pipes op
  match target op reply with
  | none => {s with pipes := pipes}
  | some i =>
    match op with
    | .create => ⟨pipes,Function.update s.accepted i [],Function.update s.taken i []⟩
    | .read _ _ => {s with pipes := pipes,taken := Function.update s.taken i (s.taken i ++ reply.bytes)}
    | .write _ src _ =>
      {s with
        pipes := pipes
        accepted := Function.update s.accepted i (s.accepted i ++ (List.range reply.result.toNat).map src)}
    | .close _ => {s with pipes := pipes}

def Next (s : System) (op : Op) (s' : System) : Prop := s.call op = s'

/-- What was read and what is unread make up what was accepted. -/
def Balanced (accepted taken : Id → List Byte) (q : Queues) : Prop :=
  ∀ i c, q i = some c → accepted i = taken i ++ c ∧ c.length ≤ 4096

theorem balanced_update (accepted taken accepted' taken' : Id → List Byte) (q : Queues)
    (balanced : Balanced accepted taken q) (i : Id) (new : Option (List Byte))
    (others : ∀ j, j ≠ i → accepted' j = accepted j ∧ taken' j = taken j)
    (own : ∀ c, new = some c → accepted' i = taken' i ++ c ∧ c.length ≤ 4096) :
    Balanced accepted' taken' (Function.update q i new) := by
  intro j c holds
  by_cases same : j = i
  · subst same
    rw [Function.update_self] at holds
    exact own c holds
  · rw [Function.update_of_ne same] at holds
    rw [(others j same).1,(others j same).2]
    exact balanced j c holds

section Transfers
variable (accepted taken : Id → List Byte) (q : Queues) (balanced : Balanced accepted taken q) (i : Id)
  (c : List Byte) (queue : q i = some c)
include balanced queue

theorem taken_balanced (n : Nat) : Balanced accepted (Function.update taken i (taken i ++ c.take n))
    (Function.update q i (some (c.drop n))) := by
  obtain ⟨sum,bound⟩ := balanced i c queue
  apply balanced_update accepted taken _ _ q balanced
  · intro j other
    exact ⟨rfl,Function.update_of_ne other _ _⟩
  · intro rest left
    cases left
    refine ⟨by simp [sum],?_⟩
    simp only [List.length_drop]
    omega

theorem accepted_balanced (more : List Byte) (room : c.length + more.length ≤ 4096) :
    Balanced (Function.update accepted i (accepted i ++ more)) taken
      (Function.update q i (some (c ++ more))) := by
  obtain ⟨sum,_⟩ := balanced i c queue
  apply balanced_update accepted taken _ _ q balanced
  · intro j other
    exact ⟨Function.update_of_ne other _ _,rfl⟩
  · intro rest new
    cases new
    refine ⟨?_,by rwa [List.length_append]⟩
    rw [Function.update_self,sum,List.append_assoc]

end Transfers

theorem named_none (q : Queues) (id : Int) (absent : slot id = none) :
    named q id = none := by
  simp [named,absent]

theorem named_some (q : Queues) (id : Int) (i : Id) (at_ : slot id = some i) :
    named q id = (q i).map (fun c => (i,c)) := by
  simp [named,at_]

theorem call_pipes (s : System) (op : Op) : (s.call op).pipes = (step s.pipes op).1 := by
  unfold System.call
  dsimp only
  split
  · rfl
  · split <;> rfl

/-- The bytes of every pipe stay balanced. -/
theorem call_balanced (s : System) (inv : Inv s.pipes) (balanced : Balanced s.accepted s.taken (view s.pipes))
    (op : Op) : Balanced (s.call op).accepted (s.call op).taken (view (s.call op).pipes) := by
  have refines := (step_queue s.pipes inv op).2
  have table : view (step s.pipes op).1 = (queueStep (view s.pipes) op).1 := congrArg Prod.fst refines
  have reply : (step s.pipes op).2 = (queueStep (view s.pipes) op).2 := congrArg Prod.snd refines
  rw [call_pipes,table]
  unfold System.call
  simp only [reply]
  cases op with
  | create =>
    simp only [queueStep,target]
    cases (List.finRange 32).find? (fun i => (view s.pipes i).isNone) with
    | none => exact balanced
    | some i =>
      simp only [slot_id]
      apply balanced_update s.accepted s.taken _ _ _ balanced
      · intro j other
        exact ⟨Function.update_of_ne other _ _,Function.update_of_ne other _ _⟩
      · intro c fresh
        cases fresh
        simp
  | read id sz =>
    simp only [queueStep,target]
    cases found : slot id with
    | none =>
      rw [named_none _ id found]
      exact balanced
    | some i =>
      rw [named_some _ id i found]
      cases queue : view s.pipes i with
      | none => simpa using balanced
      | some c => exact taken_balanced s.accepted s.taken _ balanced i c queue _
  | write id src sz =>
    simp only [queueStep,target]
    cases found : slot id with
    | none =>
      rw [named_none _ id found]
      exact balanced
    | some i =>
      rw [named_some _ id i found]
      cases queue : view s.pipes i with
      | none => simpa using balanced
      | some c =>
        have bound := (balanced i c queue).2
        apply accepted_balanced s.accepted s.taken _ balanced i c queue
        simp only [Option.map_some,Int.toNat_natCast,List.length_map,List.length_range]
        omega
  | close id =>
    simp only [queueStep,target]
    cases slot id with
    | none => exact balanced
    | some i =>
      apply balanced_update s.accepted s.taken _ _ _ balanced
      · intro j _
        exact ⟨rfl,rfl⟩
      · intro c none_
        cases none_

def booted : System := ⟨blackIpcInit,fun _ => [],fun _ => []⟩

/-- In every run the calls act as on bounded byte queues, what was read since the
creation of a pipe and what is unread make up what was accepted, and a call leaves
the other pipes alone. -/
theorem pipes_fifo (ops : List Op) (s : System) (run : Steps Next booted ops s) :
    (∀ op, view (step s.pipes op).1 = (queueStep (view s.pipes) op).1 ∧
      (step s.pipes op).2 = (queueStep (view s.pipes) op).2) ∧
    (∀ i c, view s.pipes i = some c →
      s.accepted i = s.taken i ++ c ∧ c.length = (s.pipes i).count ∧ c.length ≤ 4096) ∧
    ∀ op j, target op (step s.pipes op).2 ≠ some j → (step s.pipes op).1 j = s.pipes j := by
  have held : Inv s.pipes ∧ Balanced s.accepted s.taken (view s.pipes) := by
    refine Steps.invariant (fun s => Inv s.pipes ∧ Balanced s.accepted s.taken (view s.pipes)) ⟨?_,?_⟩ ?_ run
    · intro i active
      cases active
    · intro i c active
      cases active
    · intro s op s' held next
      rw [← next]
      refine ⟨?_,call_balanced s held.1 held.2 op⟩
      rw [call_pipes]
      exact (step_queue s.pipes held.1 op).1
  refine ⟨?_,?_,step_frame s.pipes⟩
  · intro op
    have refines := (step_queue s.pipes held.1 op).2
    exact ⟨congrArg Prod.fst refines,congrArg Prod.snd refines⟩
  · intro i c queue
    obtain ⟨sum,bound⟩ := held.2 i c queue
    refine ⟨sum,?_,bound⟩
    unfold view at queue
    split at queue
    · cases queue
      exact contents_length (s.pipes i)
    · cases queue

theorem pipes_fifo_write : ∃ s, Steps Next booted [.create,.write 0 (fun k => word k |>.setWidth 8) 3,.read 0 2] s ∧
    s.accepted 0 = [0,1] ++ [2] ∧ s.taken 0 = [0,1] := by
  have created : Steps Next booted [.create] (booted.call .create) := .snoc [] Op.create _ _ .nil rfl
  have wrote : Steps Next booted [.create,.write 0 (fun k => (word k).setWidth 8) 3] _ :=
    .snoc [Op.create] (Op.write 0 (fun k => (word k).setWidth 8) 3) _ _ created rfl
  have run : Steps Next booted [.create,.write 0 (fun k => (word k).setWidth 8) 3,.read 0 2] _ :=
    .snoc [Op.create,Op.write 0 (fun k => (word k).setWidth 8) 3] (Op.read 0 2) _ _ wrote rfl
  obtain ⟨_,balanced,_⟩ := pipes_fifo _ _ run
  exact ⟨_,run,(balanced 0 [2] (by decide)).1,by decide⟩

end BlackOS.Pipes
