import BlackOS.Library.Ram
import BlackOS.Library.Ring
import BlackOS.Library.Run

/-! The pipes of `kernel/ipc/ipc.c`: a table of ring buffers with a read position, a
write position and a count. A call is one step, as its lock makes it; the buffers
of the callers are not part of the state. -/
namespace BlackOS.Pipes
open BlackOS.Library.Ram

abbrev Id := Fin 32

def blackPipeBufSize : Nat := 4096

/-- `black_pipe_t`, less its lock. -/
structure Pipe where
  buffer : Nat → Byte
  readPos : Nat
  writePos : Nat
  count : Nat
  readers : Int
  writers : Int
  active : Bool

abbrev State := Id → Pipe

def zeroPipe : Pipe := ⟨fun _ => 0,0,0,0,0,0,false⟩

def blackIpcInit : State := fun _ => zeroPipe

def blackPipeCreate (s : State) : State × Int :=
  match (List.finRange 32).find? (fun i => !(s i).active) with
  | none => (s,-1)
  | some i => (Function.update s i {zeroPipe with active := true,readers := 1,writers := 1},i)

/-- The slot of an id in range. -/
def slot (id : Int) : Option Id := if inside : 0 ≤ id ∧ id < 32 then some ⟨id.toNat,by omega⟩ else none

/-- The check at the head of `black_pipe_read` and `black_pipe_write`. -/
def valid (s : State) (id : Int) : Option Id := (slot id).filter (fun i => (s i).active)

/-- The loop of `black_pipe_read` with `left` bytes to go. -/
def readLoop : Nat → Pipe → Pipe × List Byte
  | 0,p => (p,[])
  | left+1,p =>
    if 0 < p.count then
      let (p',rest) := readLoop left
        {p with readPos := (p.readPos + 1) % blackPipeBufSize,count := p.count - 1}
      (p',p.buffer p.readPos::rest)
    else (p,[])

/-- `black_pipe_read`: the result, and the bytes stored at `black_buf`. -/
def blackPipeRead (s : State) (id : Int) (sz : Word) : State × Int × List Byte :=
  match valid s id with
  | none => (s,-1,[])
  | some i =>
    let (p,bytes) := readLoop sz.toNat (s i)
    (Function.update s i p,bytes.length,bytes)

/-- The loop of `black_pipe_write` with `left` bytes to go. -/
def writeLoop (src : Nat → Byte) : Nat → Nat → Pipe → Pipe × Nat
  | 0,written,p => (p,written)
  | left+1,written,p =>
    if p.count < blackPipeBufSize then
      writeLoop src left (written + 1)
        {p with
          buffer := Function.update p.buffer p.writePos (src written)
          writePos := (p.writePos + 1) % blackPipeBufSize
          count := p.count + 1}
    else (p,written)

/-- `black_pipe_write`; `src` are the bytes at `black_buf`. -/
def blackPipeWrite (s : State) (id : Int) (src : Nat → Byte) (sz : Word) : State × Int :=
  match valid s id with
  | none => (s,-1)
  | some i =>
    let (p,written) := writeLoop src sz.toNat 0 (s i)
    (Function.update s i p,written)

def blackPipeClose (s : State) (id : Int) : State :=
  match slot id with
  | none => s
  | some i => Function.update s i {s i with active := false}

inductive Op
  | create
  | read (id : Int) (sz : Word)
  | write (id : Int) (src : Nat → Byte) (sz : Word)
  | close (id : Int)

/-- What a call returns: its result and the bytes it stores for the caller. -/
structure Reply where
  result : Int
  bytes : List Byte

def step (s : State) : Op → State × Reply
  | .create => let (s',r) := blackPipeCreate s; (s',⟨r,[]⟩)
  | .read id sz => let (s',r,bytes) := blackPipeRead s id sz; (s',⟨r,bytes⟩)
  | .write id src sz => let (s',r) := blackPipeWrite s id src sz; (s',⟨r,[]⟩)
  | .close id => (blackPipeClose s id,⟨0,[]⟩)

end BlackOS.Pipes
