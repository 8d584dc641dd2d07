import Mathlib.Data.List.OfFn
import Mathlib.Data.BitVec
import Mathlib.Tactic.Common

/-! A channel of two drives that are read and written a word at a time. The drive that is selected takes a command, is busy
for a while, and hands out or takes the words of one sector after the other. -/
namespace BlackOS.Library.Ata

/-- The data words of a sector. -/
abbrev Sector := Fin 256 → BitVec 16

def words (s : Sector) : List (BitVec 16) := List.ofFn s

theorem words_length (s : Sector) : (words s).length = 256 := List.length_ofFn

def sectorOf (data : List (BitVec 16)) : Sector := fun k => data.getD k.val 0

theorem words_sectorOf (data : List (BitVec 16)) (whole : data.length = 256) : words (sectorOf data) = data := by
  apply List.ext_getElem
  · rw [words_length,whole]
  · intro i _ inside
    refine (List.getElem_ofFn _).trans ?_
    simp only [sectorOf,List.getD,List.getElem?_eq_getElem inside,Option.getD_some]

/-- A packet drive answers no command of a disk. -/
structure Drive where
  packet : Bool
  ident : Sector
  capacity : Nat
  disk : Nat → Sector

inductive Phase
  | idle
  | input (words : List (BitVec 16)) (lba left : Nat)
  | output (words : List (BitVec 16)) (lba left : Nat)
  deriving DecidableEq

/-- `busy` is the number of times that the status shows the busy bit, and `delays` how it goes on. -/
structure Channel where
  drive : Bool → Option Drive
  count : BitVec 8
  low : BitVec 8
  mid : BitVec 8
  high : BitVec 8
  select : BitVec 8
  err : Bool
  phase : Phase
  busy : Nat
  delays : Nat → Nat

namespace Channel

def slave (c : Channel) : Bool := c.select.getLsbD 4

def selected (c : Channel) : Option Drive := c.drive c.slave

def lba (c : Channel) : Nat :=
  (c.select &&& 0x0F).toNat * 2^24 + c.high.toNat * 2^16 + c.mid.toNat * 2^8 + c.low.toNat

def sectors (c : Channel) : Nat := if c.count = 0 then 256 else c.count.toNat

def wait (c : Channel) : Channel := {c with busy := c.delays 0,delays := fun n => c.delays (n + 1)}

def fail (c : Channel) : Channel := {c.wait with phase := .idle,err := true}

/-- What the status shows when the drive is not busy. -/
def flags (c : Channel) : BitVec 8 :=
  0x40 ||| (if c.err then 0x01 else 0) ||| (if c.phase = .idle then 0 else 0x08)

def status (c : Channel) : BitVec 8 × Channel :=
  match c.selected with
  | none => (0,c)
  | some _ => if c.busy = 0 then (c.flags,c) else (0x80,{c with busy := c.busy - 1})

/-- The next sector of a read. -/
def toInput (c : Channel) (d : Drive) (lba : Nat) : Nat → Channel
  | 0 => {c with phase := .idle}
  | left+1 => if lba < d.capacity then {c.wait with phase := .input (words (d.disk lba)) (lba + 1) left} else c.fail

/-- The next sector of a write. -/
def toOutput (c : Channel) (d : Drive) (lba : Nat) : Nat → Channel
  | 0 => {c.wait with phase := .idle}
  | left+1 => if lba < d.capacity then {c.wait with phase := .output [] lba left} else c.fail

def command (c : Channel) (v : BitVec 8) : Channel :=
  match c.selected with
  | none => c
  | some d =>
    let c := {c with err := false}
    if v = 0xE7 then c.wait
    else if d.packet then
      if v = 0xEC then {c.fail with mid := 0x14,high := 0xEB} else c.fail
    else if v = 0xEC then {c.wait with phase := .input (words d.ident) 0 0}
    else if v = 0x20 then c.toInput d c.lba c.sectors
    else if v = 0x30 then c.toOutput d c.lba c.sectors
    else c.fail

/-- A register is named by its distance from the base of the channel. While a command is at work none is written. -/
def outb (c : Channel) (reg : Nat) (v : BitVec 8) : Channel :=
  if c.busy = 0 ∧ c.phase = .idle then
    match reg with
    | 2 => {c with count := v}
    | 3 => {c with low := v}
    | 4 => {c with mid := v}
    | 5 => {c with high := v}
    | 6 => {c with select := v}
    | 7 => c.command v
    | _ => c
  else c

def inb (c : Channel) (reg : Nat) : BitVec 8 × Channel :=
  match reg with
  | 4 => (c.mid,c)
  | 5 => (c.high,c)
  | _ => c.status

def inw (c : Channel) : BitVec 16 × Channel :=
  match c.busy,c.phase,c.selected with
  | 0,.input [w] lba left,some d => (w,c.toInput d lba left)
  | 0,.input (w::ws) lba left,some _ => (w,{c with phase := .input ws lba left})
  | _,_,_ => (0xFFFF,c)

def commit (c : Channel) (d : Drive) : Channel := {c with drive := Function.update c.drive c.slave (some d)}

def Drive.put (d : Drive) (lba : Nat) (s : Sector) : Drive := {d with disk := Function.update d.disk lba s}

def outw (c : Channel) (w : BitVec 16) : Channel :=
  match c.busy,c.phase,c.selected with
  | 0,.output ws lba left,some d =>
    if ws.length = 255 then
      let d := Drive.put d lba (sectorOf (ws ++ [w]))
      (c.commit d).toOutput d (lba + 1) left
    else {c with phase := .output (ws ++ [w]) lba left}
  | _,_,_ => c

/-- Words read one after the other. -/
def inws : Nat → Channel → List (BitVec 16) × Channel
  | 0,c => ([],c)
  | n+1,c =>
    let (w,c) := c.inw
    let (ws,c) := inws n c
    (w::ws,c)

def outws (c : Channel) (ws : List (BitVec 16)) : Channel := ws.foldl outw c

/-- Between two commands. -/
structure Settled (limit : Nat) (c : Channel) : Prop where
  quiet : c.busy = 0
  idle : c.phase = .idle
  prompt : ∀ n, c.delays n < limit

section Words
variable (c : Channel) (d : Drive) (there : c.selected = some d) (quiet : c.busy = 0)
include there quiet

theorem inws_input (w : BitVec 16) (ws : List (BitVec 16)) (lba left : Nat) (phase : c.phase = .input (w::ws) lba left) :
    inws (ws.length + 1) c = (w::ws,c.toInput d lba left) := by
  induction ws generalizing c w with
  | nil =>
    rw [inws,inw]
    simp only [quiet,phase,there]
    rfl
  | cons v ws ih =>
    have next : c.inw = (w,{c with phase := .input (v::ws) lba left}) := by
      simp only [inw,quiet,phase,there]
    have rest := ih {c with phase := .input (v::ws) lba left} there quiet v rfl
    rw [List.length_cons,inws,next]
    dsimp only
    rw [rest]
    cases left
    · rfl
    · rfl

/-- The words of a sector, and the next sector of the read. -/
theorem inws_sector (s : Sector) (lba left : Nat) (phase : c.phase = .input (words s) lba left) :
    inws 256 c = (words s,c.toInput d lba left) := by
  have length := words_length s
  cases data : words s with
  | nil =>
    rw [data] at length
    cases length
  | cons w ws =>
    rw [data] at phase length
    rw [← length]
    exact inws_input c d there quiet w ws lba left phase

theorem outw_last (ws : List (BitVec 16)) (w : BitVec 16) (lba left : Nat) (phase : c.phase = .output ws lba left)
    (last : ws.length = 255) :
    c.outw w = (c.commit (Drive.put d lba (sectorOf (ws ++ [w])))).toOutput (Drive.put d lba (sectorOf (ws ++ [w]))) (lba + 1) left := by
  simp only [outw,quiet,phase,there,last,if_true]

theorem outws_output (ws vs : List (BitVec 16)) (lba left : Nat) (phase : c.phase = .output ws lba left)
    (short : ws.length + vs.length < 256) : c.outws vs = {c with phase := .output (ws ++ vs) lba left} := by
  induction vs generalizing c ws with
  | nil =>
    rw [List.append_nil,← phase]
    rfl
  | cons v vs ih =>
    have more : ws.length ≠ 255 := by
      rw [List.length_cons] at short
      omega
    have next : c.outw v = {c with phase := .output (ws ++ [v]) lba left} := by
      simp only [outw,quiet,phase,there,if_neg more]
    have rest := ih {c with phase := .output (ws ++ [v]) lba left} there quiet (ws ++ [v]) rfl (by simp at short ⊢; omega)
    rw [List.append_assoc] at rest
    simpa [outws,next] using rest

/-- The words of a sector reach the disk, and the drive takes the next sector. -/
theorem outws_sector (vs : List (BitVec 16)) (whole : vs.length = 256) (lba left : Nat) (phase : c.phase = .output [] lba left) :
    c.outws vs = ((c.commit (Drive.put d lba (sectorOf vs))).toOutput (Drive.put d lba (sectorOf vs)) (lba + 1) left) := by
  have split : vs = vs.dropLast ++ [vs.getLast (List.ne_nil_of_length_pos (by omega))] :=
    (List.dropLast_append_getLast _).symm
  have length : vs.dropLast.length = 255 := by simp [whole]
  generalize vs.getLast _ = last at split
  have first := outws_output c d there quiet [] vs.dropLast lba left phase (by simp [whole])
  rw [outws] at first
  have final := outw_last {c with phase := .output vs.dropLast lba left} d there quiet vs.dropLast last lba left rfl length
  rw [← split] at final
  have forgets (e : Drive) : (({c with phase := .output vs.dropLast lba left} : Channel).commit e).toOutput e (lba + 1) left =
      (c.commit e).toOutput e (lba + 1) left := by
    cases left
    · rfl
    · rfl
  rw [split,outws,List.foldl_append,first,← split]
  exact final.trans (forgets _)

end Words

end Channel

end BlackOS.Library.Ata
