import BlackOS.Library.Ram
import BlackOS.Library.Run
import Mathlib.Logic.Function.Basic
import Mathlib.Data.Fin.Basic

/-! The sockets of `kernel/net/socket.c`. No function reads or writes the remote end of a socket, which is left
out. -/
namespace BlackOS.Sockets
open BlackOS.Library.Ram BlackOS.Library.Run

abbrev Slot := Fin 64
abbrev Port := BitVec 16

/-- `black_socket_t`. -/
structure Socket where
  type : Int
  proto : Int
  localIp : Word
  localPort : Port
  active : Bool

def Socket.binding (socket : Socket) : Word × Port := (socket.localIp,socket.localPort)

abbrev Table := Slot → Socket

variable (t : Table)

def blackSocketInit : Table := fun i => {t i with active := false}

def blackSocketCreate (type proto : Int) : Table × Int :=
  match (List.finRange 64).find? fun i => !(t i).active with
  | none => (t,-1)
  | some i => (Function.update t i {t i with type := type,proto := proto,active := true},i.val)

/-- The test of `black_socket_bind` and `black_socket_close`. -/
def slot (fd : Int) : Option Slot := if inside : 0 ≤ fd ∧ fd < 64 then some ⟨fd.toNat,by omega⟩ else none

def blackSocketBind (fd : Int) (ip : Word) (port : Port) : Table × Int :=
  match slot fd with
  | none => (t,-1)
  | some i => (Function.update t i {t i with localIp := ip,localPort := port},0)

def blackSocketClose (fd : Int) : Table × Int :=
  match slot fd with
  | none => (t,-1)
  | some i => (Function.update t i {t i with active := false},0)

/-- The sockets, and for each slot its last bind since it was created. -/
structure World where
  sockets : Table
  bound : Slot → Option (Word × Port)

def boot : World := ⟨fun _ => ⟨0,0,0,0,false⟩,fun _ => none⟩

inductive Call
  | init
  | create (type proto : Int)
  | bind (fd : Int) (ip : Word) (port : Port)
  | close (fd : Int)

def step (w : World) : Call → World
  | .init => {w with sockets := blackSocketInit w.sockets}
  | .create type proto =>
    let (sockets,fd) := blackSocketCreate w.sockets type proto
    match slot fd with
    | none => {w with sockets := sockets}
    | some i => ⟨sockets,Function.update w.bound i none⟩
  | .bind fd ip port =>
    let (sockets,_) := blackSocketBind w.sockets fd ip port
    match slot fd with
    | none => {w with sockets := sockets}
    | some i => ⟨sockets,Function.update w.bound i (some (ip,port))⟩
  | .close fd => {w with sockets := (blackSocketClose w.sockets fd).1}

/-- Every active socket is at its last bind, or at zero where there was none. -/
def Inv (w : World) : Prop :=
  ∀ i, (w.sockets i).active = true → (w.sockets i).binding = (w.bound i).getD (0,0)

/-- The descriptor is of an active socket. -/
def Valid (fd : Int) : Prop := ∃ i, slot fd = some i ∧ (t i).active = true

/-- A bind or close of another descriptor fails and changes nothing. -/
def Refused (w : World) : Call → Prop
  | .bind fd ip port => ¬Valid w.sockets fd → blackSocketBind w.sockets fd ip port = (w.sockets,-1)
  | .close fd => ¬Valid w.sockets fd → blackSocketClose w.sockets fd = (w.sockets,-1)
  | _ => True

def Lawful (w : World) (call : Call) : Prop := Inv (step w call) ∧ Refused w call

/-- A create takes a slot whose address and port are zero, if it takes one; a bind or close of a descriptor in
the table is of an active socket. -/
def Clean (w : World) : Call → Prop
  | .init => True
  | .create _ _ => ∀ i, ((List.finRange 64).find? fun i => !(w.sockets i).active) = some i →
      (w.sockets i).binding = (0,0)
  | .bind fd _ _ => ∀ i, slot fd = some i → (w.sockets i).active = true
  | .close fd => ∀ i, slot fd = some i → (w.sockets i).active = true

theorem boot_inv : Inv boot := nofun

theorem slot_val (i : Slot) : slot i.val = some i := by
  have below := i.isLt
  rw [slot,dif_pos ⟨by omega,by omega⟩]
  rfl

/-- A call with a descriptor in the table succeeds, as it should if the socket is active. -/
theorem succeeds_iff (fd : Int) (i : Slot) (here : slot fd = some i) (after : Table) :
    (¬Valid t fd → (after,(0 : Int)) = (t,-1)) ↔ ∀ j, some i = some j → (t j).active = true := by
  constructor
  · intro refused j same
    by_contra idle
    have failed := refused fun valid => idle ?_
    · cases congrArg Prod.snd failed
    · obtain ⟨k,place,active⟩ := valid
      rw [← Option.some.inj same,Option.some.inj (here.symm.trans place)]
      exact active
  · intro active idle
    exact absurd ⟨i,here,active i rfl⟩ idle

section Steps
variable (w : World)

theorem init_lawful : Lawful w .init := ⟨fun _ active => absurd active Bool.false_ne_true,True.intro⟩

variable (inv : Inv w)
include inv

/-- One slot changes. -/
theorem Inv.change (i : Slot) (socket : Socket) (last : Option (Word × Port)) :
    Inv ⟨Function.update w.sockets i socket,Function.update w.bound i last⟩ ↔
      (socket.active = true → socket.binding = last.getD (0,0)) := by
  constructor
  · intro after
    have here := after i
    dsimp only at here
    rw [Function.update_self,Function.update_self] at here
    exact here
  · intro here j
    dsimp only
    by_cases same : j = i
    · rw [same,Function.update_self,Function.update_self]
      exact here
    · rw [Function.update_of_ne same,Function.update_of_ne same]
      exact inv j

theorem create_lawful (type proto : Int) : Lawful w (.create type proto) ↔ Clean w (.create type proto) := by
  refine (and_iff_left True.intro).trans ?_
  rw [step,Clean,blackSocketCreate]
  cases found : (List.finRange 64).find? fun i => !(w.sockets i).active with
  | none => exact iff_of_true inv nofun
  | some i =>
    dsimp only
    rw [slot_val]
    refine (inv.change w i _ none).trans ⟨fun clean j same => ?_,fun clean _ => clean i rfl⟩
    rw [← Option.some.inj same]
    exact clean rfl

theorem bind_lawful (fd : Int) (ip : Word) (port : Port) :
    Lawful w (.bind fd ip port) ↔ Clean w (.bind fd ip port) := by
  rw [Lawful,Refused,Clean,step,blackSocketBind]
  cases here : slot fd with
  | none => exact iff_of_true ⟨inv,fun _ => rfl⟩ nofun
  | some i =>
    dsimp only
    have bound := (inv.change w i {w.sockets i with localIp := ip,localPort := port} (some (ip,port))).mpr
      fun _ => rfl
    exact (and_iff_right bound).trans (succeeds_iff w.sockets fd i here _)

theorem close_lawful (fd : Int) : Lawful w (.close fd) ↔ Clean w (.close fd) := by
  rw [Lawful,Refused,Clean,step,blackSocketClose]
  cases here : slot fd with
  | none => exact iff_of_true ⟨inv,fun _ => rfl⟩ nofun
  | some i =>
    dsimp only
    have closed := (inv.change w i {w.sockets i with active := false} (w.bound i)).mpr nofun
    rw [Function.update_eq_self] at closed
    exact (and_iff_right closed).trans (succeeds_iff w.sockets fd i here _)

theorem step_lawful (call : Call) : Lawful w call ↔ Clean w call := by
  cases call with
  | init => exact iff_of_true (init_lawful w) True.intro
  | create type proto => exact create_lawful w inv type proto
  | bind fd ip port => exact bind_lawful w inv fd ip port
  | close fd => exact close_lawful w inv fd

end Steps

/-- In every state of a run the active sockets are at their last binds and calls with other descriptors fail
without a change, exactly when no create takes a slot with an old address or port and every bind or close of a
descriptor in the table is of an active socket. -/
theorem bindings_fresh_iff (calls : List Call) : Throughout step Lawful boot calls ↔ Throughout step Clean boot calls :=
  throughout_iff step Lawful Clean Inv (fun w call inv => step_lawful w inv call)
    (fun w call inv clean => ((step_lawful w inv call).mpr clean).1) boot boot_inv calls

/-- The slot of a socket that was bound and closed is taken again with the old address and port. -/
theorem binding_stale : ¬Throughout step Lawful boot [.create 1 6,.bind 0 0x0A00020F 80,.close 0,.create 1 6] := by
  intro lawful
  have stale := lawful.2.2.2.1.1 0 rfl
  exact absurd stale (by decide)

end BlackOS.Sockets
