import BlackOS.Interrupts
import BlackOS.Library.Paging
import BlackOS.Library.Pic
import BlackOS.Library.Run

/-! The interrupt descriptor table and the handlers of `kernel/arch/x86/idt.c`. -/
namespace BlackOS.Idt
open BlackOS.Library.Ram BlackOS.Library.Run BlackOS.Library.Interrupt BlackOS.Interrupts
open BlackOS.Library BlackOS.Library.Pic

/-- `black_idt_entry_t`. -/
structure IdtEntry where
  baseLow : BitVec 16
  sel : BitVec 16
  zero : Byte
  flags : Byte
  baseHigh : BitVec 16

/-- The two words of a packed entry. -/
def IdtEntry.low (e : IdtEntry) : Word := word (e.baseLow.toNat + e.sel.toNat * 2^16)

def IdtEntry.high (e : IdtEntry) : Word := word (e.zero.toNat + e.flags.toNat * 2^8 + e.baseHigh.toNat * 2^16)

/-- The global symbols of `kernel/arch/x86/isr.asm`. -/
inductive Label
  | isr (n : Fin 20)
  | irq (n : Fin 16)
  deriving DecidableEq

def Label.number : Label → Nat
  | .isr n => n
  | .irq n => 32 + n

/-- The numbers of the stubs made by `BLACK_ISR_ERR`. -/
def errorStubs : List Nat := [8,10,11,12,13,14,17]

def Label.code : Label → List CpuInstr
  | .isr n => if n.val ∈ errorStubs then blackIsrErr (word n) else blackIsrNoerr (word n)
  | .irq n => blackIrq (word (32 + n))

/-- The variables of the file. -/
structure State (H : Type) where
  entries : Byte → IdtEntry
  handlers : Nat → Option H
  apicMode : Bool

variable {H : Type}

def blackIdtSetGate (s : State H) (num : Byte) (base : Word) (sel : BitVec 16) (flags : Byte) : State H :=
  let entry : IdtEntry := ⟨BitVec.ofNat 16 base.toNat,sel,0,flags,BitVec.ofNat 16 (base.toNat / 2^16)⟩
  {s with entries := Function.update s.entries num entry}

/-- The bytes that `black_pic_remap` writes, with their ports, besides the delays. -/
def blackPicRemap : List (Nat × Byte) :=
  [(0x20,0x11),(0xA0,0x11),(0x21,0x20),(0xA1,0x28),(0x21,0x04),(0xA1,0x02),(0x21,0x01),(0xA1,0x01),(0x21,0x00),(0xA1,0x00)]

/-- The gates in the order in which `black_idt_init` sets them. -/
def gates : List (Byte × Label × Byte) :=
  (List.finRange 20).map (fun n => (BitVec.ofNat 8 n.val,.isr n,0x8E)) ++
    (List.finRange 16).map (fun n => (BitVec.ofNat 8 (32 + n.val),.irq n,0x8E)) ++ [(0x80,.isr 19,0xEE)]

/-- `black_idt_init`, with the addresses of the stubs and without the flush of the table. -/
def blackIdtInit (address : Label → Word) (apicMode : Bool) : State H × List (Nat × Byte) :=
  let cleared : State H := ⟨fun _ => ⟨0,0,0,0,0⟩,fun _ => none,apicMode⟩
  (gates.foldl (fun s g => blackIdtSetGate s g.1 (address g.2.1) 0x08 g.2.2) cleared,blackPicRemap)

def blackIdtSetHandler (s : State H) (num : Byte) (handler : Option H) : State H :=
  {s with handlers := Function.update s.handlers num.toNat handler}

/-- The handler that is called, and what is written to the interrupt controllers. -/
def blackIsrDispatch (s : State H) (intNo : Word) : Option H × List (Nat × Byte) :=
  (s.handlers intNo.toNat,
    if 32 ≤ intNo.toNat ∧ intNo.toNat < 48 ∧ s.apicMode = false then
      (if 40 ≤ intNo.toNat then [(0xA0,0x20)] else []) ++ [(0x20,0x20)]
    else [])

/-- The table in memory at the address. -/
def Laid (mem : Memory) (idt : Word) (entries : Byte → IdtEntry) : Prop :=
  ∀ v : Byte, read32 mem (idt + word (8 * v.toNat)) = (entries v).low ∧
    read32 mem (idt + word (8 * v.toNat + 4)) = (entries v).high

/-- The stub to which the gate of a vector leads. -/
def labelOf (v : Nat) : Option Label :=
  if isr : v < 20 then some (.isr ⟨v,isr⟩)
  else if 32 ≤ v ∧ v < 48 then some (.irq (Fin.ofNat 16 (v - 32)))
  else if v = 0x80 then some (.isr 19)
  else none

/-- The handler that was set last for the number. -/
def lastSet (calls : List (Byte × Option H)) (n : Nat) : Option H :=
  ((calls.reverse.find? fun call => call.1.toNat == n).map (·.2)).join

def afterCalls (address : Label → Word) (apicMode : Bool) (calls : List (Byte × Option H)) : State H :=
  calls.foldl (fun s call => blackIdtSetHandler s call.1 call.2) (blackIdtInit address apicMode).1

section
variable (address : Label → Word) (apicMode : Bool)

def entryOf (base : Word) (flags : Byte) : IdtEntry :=
  ⟨BitVec.ofNat 16 base.toNat,0x08,0,flags,BitVec.ofNat 16 (base.toNat / 2^16)⟩

theorem setGates_entries (s : State H) (gates : List (Byte × Label × Byte)) (v : Byte) :
    (gates.foldl (fun s g => blackIdtSetGate s g.1 (address g.2.1) 0x08 g.2.2) s).entries v =
      match gates.reverse.find? (fun g => g.1 == v) with
      | none => s.entries v
      | some g => entryOf (address g.2.1) g.2.2 := by
  induction gates using List.reverseRecOn with
  | nil => rfl
  | append_singleton gates g ih =>
    rw [List.foldl_append,List.reverse_append]
    by_cases here : g.1 = v
    · subst here
      simp [blackIdtSetGate,entryOf]
    · simpa [here,blackIdtSetGate,entryOf,Function.update_of_ne (Ne.symm here)] using ih

theorem gates_find : ∀ v : Byte, gates.reverse.find? (fun g => g.1 == v) =
    (labelOf v.toNat).map fun l => (v,l,if v = 0x80 then 0xEE else 0x8E) := by
  decide +kernel

theorem init_entries (v : Byte) : (blackIdtInit (H := H) address apicMode).1.entries v =
    match labelOf v.toNat with
    | none => ⟨0,0,0,0,0⟩
    | some l => entryOf (address l) (if v = 0x80 then 0xEE else 0x8E) := by
  rw [blackIdtInit,setGates_entries,gates_find]
  cases labelOf v.toNat with
  | none => rfl
  | some l => rfl

theorem setGates_kept (s : State H) (gates : List (Byte × Label × Byte)) :
    (gates.foldl (fun s g => blackIdtSetGate s g.1 (address g.2.1) 0x08 g.2.2) s).handlers = s.handlers ∧
      (gates.foldl (fun s g => blackIdtSetGate s g.1 (address g.2.1) 0x08 g.2.2) s).apicMode = s.apicMode := by
  induction gates generalizing s with
  | nil => exact ⟨rfl,rfl⟩
  | cons g gates ih => exact ih _

theorem init_handlers : (blackIdtInit (H := H) address apicMode).1.handlers = fun _ => none :=
  (setGates_kept address _ gates).1

theorem init_apicMode : (blackIdtInit (H := H) address apicMode).1.apicMode = apicMode :=
  (setGates_kept address _ gates).2

theorem afterCalls_nil : afterCalls address apicMode [] = (blackIdtInit (H := H) address apicMode).1 := rfl

theorem afterCalls_append (calls : List (Byte × Option H)) (call : Byte × Option H) :
    afterCalls address apicMode (calls ++ [call]) = blackIdtSetHandler (afterCalls address apicMode calls) call.1 call.2 :=
  List.foldl_append

theorem calls_entries (calls : List (Byte × Option H)) : (afterCalls address apicMode calls).entries =
    (blackIdtInit (H := H) address apicMode).1.entries := by
  induction calls using List.reverseRecOn with
  | nil => rw [afterCalls_nil]
  | append_singleton calls call ih =>
    rw [afterCalls_append]
    exact ih

theorem calls_apicMode (calls : List (Byte × Option H)) : (afterCalls address apicMode calls).apicMode = apicMode := by
  induction calls using List.reverseRecOn with
  | nil => rw [afterCalls_nil,init_apicMode]
  | append_singleton calls call ih =>
    rw [afterCalls_append]
    exact ih

theorem calls_handlers (calls : List (Byte × Option H)) (n : Nat) :
    (afterCalls address apicMode calls).handlers n = lastSet calls n := by
  induction calls using List.reverseRecOn with
  | nil =>
    rw [afterCalls_nil,init_handlers]
    rfl
  | append_singleton calls call ih =>
    unfold lastSet at ih ⊢
    rw [afterCalls_append,List.reverse_append]
    by_cases here : call.1.toNat = n
    · simp [here,blackIdtSetHandler]
    · simpa [here,blackIdtSetHandler,Function.update_of_ne (Ne.symm here)] using ih

theorem read_gate (mem : Memory) (idt : Word) (entries : Byte → IdtEntry) (laid : Laid mem idt entries) (v : Byte) :
    Gate.read mem idt v.toNat =
      ⟨word ((entries v).baseLow.toNat + (entries v).baseHigh.toNat * 2^16),(entries v).sel,(entries v).flags⟩ := by
  obtain ⟨low,high⟩ := laid v
  have base := (entries v).baseLow.isLt
  have sel := (entries v).sel.isLt
  have zero := (entries v).zero.isLt
  have flags := (entries v).flags.isLt
  have top := (entries v).baseHigh.isLt
  rw [Gate.read,low,high,IdtEntry.low,IdtEntry.high,word_toNat _ (by omega),word_toNat _ (by omega)]
  refine congrArg₂ (fun f g => f g) (congrArg₂ Gate.mk ?_ ?_) ?_
  · congr 1
    omega
  · apply BitVec.eq_of_toNat_eq
    rw [BitVec.toNat_ofNat]
    omega
  · apply BitVec.eq_of_toNat_eq
    rw [BitVec.toNat_ofNat]
    omega

/-- The number that the stub of a vector pushes. The gate of system calls leads to the stub of exception 19. -/
def numberOf (v : Nat) : Nat := if v = 0x80 then 19 else v

theorem labelOf_number : ∀ v : Byte, ∀ l ∈ labelOf v.toNat, l.number = numberOf v.toNat := by decide +kernel

theorem number_error : ∀ v : Byte, ∀ l ∈ labelOf v.toNat, (l.number ∈ errorStubs ↔ v.toNat ∈ errorStubs) := by decide +kernel

/-- The stub fits whether the processor pushes an error code. -/
theorem label_code (l : Label) (error : Option Word) (same : error.isSome = true ↔ l.number ∈ errorStubs) :
    l.code = stub (word l.number) error := by
  cases l with
  | irq n =>
    have other : 32 + n.val ∉ errorStubs := by
      simp [errorStubs]
      omega
    cases error with
    | none => rfl
    | some e => exact absurd (same.mp rfl) other
  | isr n =>
    cases error with
    | none =>
      have other : n.val ∉ errorStubs := fun among => by simpa using same.mpr among
      simp [Label.code,other,stub,Label.number]
    | some e =>
      have among : n.val ∈ errorStubs := same.mp rfl
      simp [Label.code,among,stub,Label.number]

theorem labelOf_isSome (v : Nat) : (labelOf v).isSome = true ↔ v < 20 ∨ 32 ≤ v ∧ v < 48 ∨ v = 0x80 := by
  unfold labelOf
  split
  next isr => simp [isr]
  next isr =>
    split
    next irq => simp [irq]
    next irq =>
      split
      next call => simp [call]
      next call => simp [isr,irq,call]

/-- What the processor and `black_isr_dispatch` do with an interrupt of a vector. -/
structure Routed (calls : List (Byte × Option H)) (gate : Gate) (v : Byte) (l : Label) : Prop where
  gate : gate = ⟨address l,0x08,if v = 0x80 then 0xEE else 0x8E⟩
  code : ∀ error : Option Word, (error.isSome = true ↔ v.toNat ∈ errorStubs) → l.code = stub (word (numberOf v.toNat)) error
  dispatch : blackIsrDispatch (afterCalls address apicMode calls) (word (numberOf v.toNat)) =
    (lastSet calls (numberOf v.toNat),
      if 32 ≤ v.toNat ∧ v.toNat < 48 ∧ apicMode = false then ended (Fin.ofNat 16 (v.toNat - 32)) else [])

theorem dispatch_ended (calls : List (Byte × Option H)) (v : Byte) :
    blackIsrDispatch (afterCalls address apicMode calls) (word (numberOf v.toNat)) =
      (lastSet calls (numberOf v.toNat),
        if 32 ≤ v.toNat ∧ v.toNat < 48 ∧ apicMode = false then ended (Fin.ofNat 16 (v.toNat - 32)) else []) := by
  have small := v.isLt
  have number : numberOf v.toNat < 256 := by
    unfold numberOf
    split <;> omega
  rw [blackIsrDispatch,word_toNat _ (by omega),calls_handlers,calls_apicMode]
  refine Prod.ext rfl ?_
  by_cases call : v.toNat = 0x80
  · simp [numberOf,call]
  · rw [numberOf,if_neg call]
    by_cases irq : 32 ≤ v.toNat ∧ v.toNat < 48 ∧ apicMode = false
    · have high : 40 ≤ v.toNat ↔ 8 ≤ (Fin.ofNat 16 (v.toNat - 32)).val := by
        simp only [Fin.ofNat]
        omega
      simp only [if_pos irq,ended,high]
    · simp only [if_neg irq]

theorem gate_present (base : Word) (call : Prop) [Decidable call] :
    (Gate.mk base 0x08 (if call then 0xEE else 0x8E)).present = true := by
  by_cases system : call
  · simp [system,Gate.present]
  · simp [system,Gate.present]

/-- Every vector that has a gate reaches the handler that was set last for its number, which is the vector itself, but
19 for the gate of system calls, and the controllers get an end of interrupt just for their own vectors. -/
theorem idt_routes (calls : List (Byte × Option H)) (mem : Memory) (idt : Word)
    (laid : Laid mem idt (afterCalls address apicMode calls).entries) (v : Byte) :
    ((Gate.read mem idt v.toNat).present = true ↔ v.toNat < 20 ∨ 32 ≤ v.toNat ∧ v.toNat < 48 ∨ v.toNat = 0x80) ∧
      ((Gate.read mem idt v.toNat).present = true →
        ∃ l, labelOf v.toNat = some l ∧ Routed address apicMode calls (Gate.read mem idt v.toNat) v l) := by
  have gate := read_gate mem idt _ laid v
  rw [calls_entries,init_entries] at gate
  rw [← labelOf_isSome]
  cases leads : labelOf v.toNat with
  | none =>
    rw [leads] at gate
    simp [gate,Gate.present]
  | some l =>
    rw [leads] at gate
    have base := (address l).isLt
    have offset : word ((entryOf (address l) (if v = 0x80 then 0xEE else 0x8E)).baseLow.toNat +
        (entryOf (address l) (if v = 0x80 then 0xEE else 0x8E)).baseHigh.toNat * 2^16) = address l := by
      apply BitVec.eq_of_toNat_eq
      simp only [entryOf,BitVec.toNat_ofNat,word]
      omega
    have read : Gate.read mem idt v.toNat = ⟨address l,0x08,if v = 0x80 then 0xEE else 0x8E⟩ := gate.trans (by rw [offset]; rfl)
    have number := labelOf_number v l leads
    have present : (Gate.read mem idt v.toNat).present = true := by
      rw [read]
      exact gate_present (address l) (v = 0x80)
    refine ⟨by simp [present],fun _ => ⟨l,rfl,read,fun error same => ?_,dispatch_ended address apicMode calls v⟩⟩
    rw [← number]
    exact label_code l error (same.trans (number_error v l leads).symm)

end

/-- A table in memory from address zero on. -/
def tableMemory (entries : Byte → IdtEntry) : Memory :=
  Paging.ofEntries fun _ i => if i % 2 = 0 then (entries (BitVec.ofNat 8 (i / 2))).low else (entries (BitVec.ofNat 8 (i / 2))).high

theorem tableMemory_laid (entries : Byte → IdtEntry) : Laid (tableMemory entries) 0 entries := by
  intro v
  have small := v.isLt
  have low : 0 + word (8 * v.toNat) = Paging.address 0 (4 * (2 * v.toNat)) := by
    rw [Paging.address,show 0 * 4096 + 4 * (2 * v.toNat) = 8 * v.toNat by omega]
    exact BitVec.zero_add _
  have high : 0 + word (8 * v.toNat + 4) = Paging.address 0 (4 * (2 * v.toNat + 1)) := by
    rw [Paging.address,show 0 * 4096 + 4 * (2 * v.toNat + 1) = 8 * v.toNat + 4 by omega]
    exact BitVec.zero_add _
  rw [low,high]
  refine ⟨(Paging.entry_ofEntries _ 0 _ (by omega) (by omega)).trans ?_,(Paging.entry_ofEntries _ 0 _ (by omega) (by omega)).trans ?_⟩
  · simp
  · simp [Nat.add_mod,Nat.add_div]

/-- A system call reaches the handler of exception 19, whatever is set for its own vector. -/
theorem idt_routes_call : ∃ l, labelOf 0x80 = some l ∧
    Routed (fun _ => 0x1000) false [(0x80,some true)]
      (Gate.read (tableMemory (afterCalls (fun _ => 0x1000) false [(0x80,some true)]).entries) 0 0x80) 0x80 l :=
  (idt_routes (fun _ => 0x1000) false [(0x80,some true)] _ 0 (tableMemory_laid _) 0x80).2
    ((idt_routes (fun _ => 0x1000) false [(0x80,some true)] _ 0 (tableMemory_laid _) 0x80).1.mpr (by decide))

/-- The interrupt controllers, and the interrupts whose handlers have not returned, the innermost one first. -/
structure Machine where
  pics : Pair
  active : List (Fin 16)

inductive Action
  | interrupt (k : Fin 16)
  | finish

/-- The processor takes an interrupt, or the innermost call of `black_isr_dispatch` returns. -/
inductive Next (H : Type) : Machine → Action → Machine → Prop
  | interrupt (m : Machine) (k : Fin 16) (accepts : m.pics.Accepts k) :
      Next H m (.interrupt k) ⟨m.pics.accept k,k::m.active⟩
  | finish (s : State H) (pics : Pair) (k : Fin 16) (rest : List (Fin 16)) (pic : s.apicMode = false) :
      Next H ⟨pics,k::rest⟩ .finish ⟨pics.outputs (blackIsrDispatch s (word (pics.vector k))).2,rest⟩

/-- The controllers as `black_pic_remap` sets them up, with the interrupts in service. -/
structure Remapped (m : Machine) : Prop where
  nested : Nested m.pics m.active
  master : m.pics.master.offset = 0x20 ∧ m.pics.master.mask = 0
  slave : m.pics.slave.offset = 0x28 ∧ m.pics.slave.mask = 0

theorem Remapped.vector {m : Machine} (remapped : Remapped m) (k : Fin 16) : m.pics.vector k = 32 + k.val := by
  rw [Pair.vector,remapped.master.1,remapped.slave.1]
  split
  · rfl
  · simp
    omega

theorem remap_outputs (p : Pair) : Remapped ⟨p.outputs blackPicRemap,[]⟩ := by
  constructor
  · constructor <;> simp [Pair.outputs,blackPicRemap,Pair.outb,Chip.command,Chip.data]
  · simp [Pair.outputs,blackPicRemap,Pair.outb,Chip.command,Chip.data]
  · simp [Pair.outputs,blackPicRemap,Pair.outb,Chip.command,Chip.data]

theorem next_remapped (m m' : Machine) (act : Action) (remapped : Remapped m) (next : Next H m act m') : Remapped m' := by
  cases next with
  | interrupt _ k accepts =>
    refine ⟨remapped.nested.accept k accepts,remapped.master,?_⟩
    unfold Pair.accept
    split
    · exact remapped.slave
    · exact remapped.slave
  | finish s pics k rest pic =>
    have small := k.isLt
    have number : (word (pics.vector k)).toNat = 32 + k.val := by
      rw [remapped.vector,word_toNat _ (by omega)]
    have written : (blackIsrDispatch s (word (pics.vector k))).2 = ended k := by
      simp only [blackIsrDispatch,number,ended,pic,and_true]
      rw [if_pos (by omega)]
      congr 1
      simp only [show (40 ≤ 32 + k.val) = (8 ≤ k.val) by rw [eq_iff_iff]; omega]
    rw [written]
    refine ⟨remapped.nested.finish k,?_,?_⟩
    · rw [outputs_ended]
      exact remapped.master
    · rw [outputs_ended]
      split
      · exact remapped.slave
      · exact remapped.slave

/-- However interrupts interrupt each other, the lines in service are those of the handlers that have not returned, an
interrupt comes with the vector of its gate, and when all handlers have returned every line is let through again. -/
theorem pic_nested (p : Pair) (acts : List Action) (m : Machine) (run : Steps (Next H) ⟨p.outputs blackPicRemap,[]⟩ acts m) :
    Nested m.pics m.active ∧ (∀ k, m.pics.vector k = 32 + k.val) ∧ (m.active = [] → ∀ k, m.pics.Accepts k) := by
  have remapped := run.invariant Remapped (remap_outputs p) fun m act m' held next => next_remapped m m' act held next
  refine ⟨remapped.nested,remapped.vector,fun idle k => ?_⟩
  have master := remapped.nested.master
  have slave := remapped.nested.slave
  rw [idle] at master slave
  simp [Pair.Accepts,remapped.master.2,remapped.slave.2,master,slave]

def idleMachine : Machine := ⟨(⟨⟨0,0,0,∅⟩,⟨0,0,0,∅⟩⟩ : Pair).outputs blackPicRemap,[]⟩

def inMouse : Machine := ⟨idleMachine.pics.accept 12,[12]⟩

def inTimer : Machine := ⟨inMouse.pics.accept 0,[0,12]⟩

def backInMouse : Machine := ⟨inTimer.pics.outputs (blackIsrDispatch (afterCalls (H := Unit) (fun _ => 0) false []) (word (inTimer.pics.vector 0))).2,[12]⟩

/-- A mouse interrupt that is interrupted by the timer. -/
theorem pic_nested_mouse : backInMouse.pics.master.inService = {2} ∧ backInMouse.pics.slave.inService = {4} := by
  have pic := calls_apicMode (H := Unit) (fun _ => 0) false []
  have mouse := Steps.snoc [] _ _ _ Steps.nil (Next.interrupt (H := Unit) idleMachine 12 (by decide))
  have timer := Steps.snoc _ _ _ _ mouse (Next.interrupt inMouse 0 (by decide))
  have back := Steps.snoc _ _ _ _ timer (Next.finish _ inTimer.pics 0 [12] pic)
  obtain ⟨nested,_⟩ := pic_nested _ _ _ back
  exact ⟨nested.master,nested.slave⟩

end BlackOS.Idt
