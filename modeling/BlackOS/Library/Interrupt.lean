import BlackOS.Library.X86

/-! Interrupts of the 32-bit x86 in protected mode: their delivery through a gate, on the stack of the interrupted
code or on that of an inner ring, the instructions of entry code, and the return. Descriptors are not checked. -/
namespace BlackOS.Library.Interrupt
open BlackOS.Library.Ram BlackOS.Library.X86

inductive Seg
  | cs
  | ds
  | es
  | fs
  | gs
  | ss
  deriving DecidableEq

abbrev Selector := BitVec 16

/-- The privilege level in a selector, zero for the innermost ring. -/
def level (s : Selector) : Nat := s.toNat % 4

structure Cpu where
  regs : Reg → Word
  seg : Seg → Selector
  eip : Word
  eflags : Word
  mem : Memory

namespace Cpu

def setReg (c : Cpu) (r : Reg) (v : Word) : Cpu := {c with regs := Function.update c.regs r v}

def setSeg (c : Cpu) (s : Seg) (v : Selector) : Cpu := {c with seg := Function.update c.seg s v}

/-- The memory and the stack pointer after the words are pushed. -/
def pushes (c : Cpu) (words : List Word) : Cpu :=
  {c.setReg .esp (pushed c.mem (c.regs .esp) words).2 with mem := (pushed c.mem (c.regs .esp) words).1}

/-- The code runs in a ring that is not the innermost. -/
def outer (c : Cpu) : Bool := level (c.seg .cs) != 0

end Cpu

/-- A gate of the interrupt descriptor table, as the processor reads it. -/
structure Gate where
  offset : Word
  selector : Selector
  flags : Byte
  deriving DecidableEq

/-- The gate of a vector in the table at the address. -/
def Gate.read (mem : Memory) (idt : Word) (vector : Nat) : Gate :=
  let low := read32 mem (idt + word (8 * vector))
  let high := read32 mem (idt + word (8 * vector + 4))
  ⟨word (low.toNat % 2^16 + high.toNat / 2^16 * 2^16),BitVec.ofNat 16 (low.toNat / 2^16),BitVec.ofNat 8 (high.toNat / 2^8)⟩

def Gate.present (g : Gate) : Bool := g.flags.getLsbD 7

/-- The stack of the innermost ring that the task state segment names. -/
structure Tss where
  esp0 : Word
  ss0 : Selector

/-- An interrupt gate clears the flags IF, TF, NT, RF and VM. -/
def masked (eflags : Word) : Word := eflags &&& 0xFFFCBCFF

/-- The words that the processor pushes, the first one first. -/
def deliveredWords (c : Cpu) (error : Option Word) : List Word :=
  (if c.outer then [(c.seg .ss).setWidth 32,c.regs .esp] else []) ++
    [c.eflags,(c.seg .cs).setWidth 32,c.eip] ++ error.toList

/-- An interrupt from an outer ring changes to the stack of the innermost one. -/
def onKernelStack (c : Cpu) (tss : Tss) : Cpu :=
  if c.outer then (c.setReg .esp tss.esp0).setSeg .ss tss.ss0 else c

def deliver (c : Cpu) (gate : Gate) (tss : Tss) (error : Option Word) : Cpu :=
  {((onKernelStack c tss).pushes (deliveredWords c error)).setSeg .cs gate.selector with
    eip := gate.offset
    eflags := masked c.eflags}

inductive CpuInstr
  | pushImm (v : Word)
  | push (src : Reg)
  | pop (dst : Reg)
  | pusha
  | popa
  | movAxSeg (s : Seg)
  | movAxImm (v : Selector)
  | movSegAx (s : Seg)
  | addEsp (n : Word)
  | iret

/-- The registers of `pusha`, the first one first. -/
def general : List Reg := [.eax,.ecx,.edx,.ebx,.esp,.ebp,.esi,.edi]

/-- The lower half of the word is replaced. -/
def setLow (w : Word) (v : Selector) : Word := word (w.toNat / 2^16 * 2^16 + v.toNat)

def Cpu.exec (c : Cpu) : CpuInstr → Cpu
  | .pushImm v => c.pushes [v]
  | .push src => c.pushes [c.regs src]
  | .pop dst => (c.setReg .esp (c.regs .esp + 4)).setReg dst (read32 c.mem (c.regs .esp))
  | .pusha => c.pushes (general.map c.regs)
  | .popa =>
    let sp := c.regs .esp
    {c with regs := fun
      | .edi => read32 c.mem sp
      | .esi => read32 c.mem (sp + 4)
      | .ebp => read32 c.mem (sp + 8)
      | .ebx => read32 c.mem (sp + 16)
      | .edx => read32 c.mem (sp + 20)
      | .ecx => read32 c.mem (sp + 24)
      | .eax => read32 c.mem (sp + 28)
      | .esp => sp + 32}
  | .movAxSeg s => c.setReg .eax (setLow (c.regs .eax) (c.seg s))
  | .movAxImm v => c.setReg .eax (setLow (c.regs .eax) v)
  | .movSegAx s => c.setSeg s ((c.regs .eax).setWidth 16)
  | .addEsp n => c.setReg .esp (c.regs .esp + n)
  | .iret =>
    let sp := c.regs .esp
    let cs := (read32 c.mem (sp + 4)).setWidth 16
    let resumed := {c.setSeg .cs cs with eip := read32 c.mem sp,eflags := read32 c.mem (sp + 8)}
    -- A return to an outer ring takes the stack of that ring too.
    if level (c.seg .cs) < level cs then
      (resumed.setReg .esp (read32 c.mem (sp + 12))).setSeg .ss ((read32 c.mem (sp + 16)).setWidth 16)
    else resumed.setReg .esp (sp + 12)

def Cpu.execs (c : Cpu) (code : List CpuInstr) : Cpu := code.foldl Cpu.exec c

theorem pushed_append (mem : Memory) (sp : Word) (first second : List Word) :
    pushed mem sp (first ++ second) = pushed (pushed mem sp first).1 (pushed mem sp first).2 second := by
  induction first generalizing mem sp with
  | nil => rfl
  | cons v first ih => exact ih _ _

theorem pushed_sp (mem : Memory) (sp : Word) (words : List Word) : (pushed mem sp words).2 = sp - word (4 * words.length) := by
  induction words generalizing mem sp with
  | nil => exact (BitVec.sub_zero sp).symm
  | cons v words ih =>
    have split : word (4 * (words.length + 1)) = 4 + word (4 * words.length) := by
      rw [Nat.mul_succ,Nat.add_comm,← word_add]
      rfl
    rw [pushed_cons,ih,List.length_cons,split,BitVec.sub_sub]

theorem frame_read (mem : Memory) (p : Word) (words : List Word) (frame : Frame mem p words) (k : Nat) (v : Word)
    (place : words[k]? = some v) : read32 mem (p + word (4 * k)) = v := by
  induction words generalizing p k with
  | nil => cases place
  | cons w words ih =>
    cases k with
    | zero =>
      have here : p + word 0 = p := BitVec.add_zero p
      cases place
      rw [Nat.mul_zero,here]
      exact frame.1
    | succ k =>
      have shift : p + word (4 * (k + 1)) = p + 4 + word (4 * k) := by
        rw [Nat.mul_succ,Nat.add_comm,← word_add,← BitVec.add_assoc]
        rfl
      rw [shift]
      exact ih (p + 4) frame.2 k place

theorem setLow_low (w : Word) (v : Selector) : (setLow w v).setWidth 16 = v := by
  have high := w.isLt
  have low := v.isLt
  apply BitVec.eq_of_toNat_eq
  rw [setLow,BitVec.toNat_setWidth,word_toNat _ (by omega)]
  omega

namespace Cpu
variable (c : Cpu) (r : Reg) (v : Word) (s : Seg) (sel : Selector) (words : List Word)

@[simp] theorem setReg_regs : (c.setReg r v).regs = Function.update c.regs r v := by
  rfl

theorem setReg_same : (c.setReg r v).regs r = v := by simp

@[simp] theorem setReg_mem : (c.setReg r v).mem = c.mem := by
  rfl

@[simp] theorem setReg_seg : (c.setReg r v).seg = c.seg := by
  rfl

@[simp] theorem setReg_eip : (c.setReg r v).eip = c.eip := by
  rfl

@[simp] theorem setReg_eflags : (c.setReg r v).eflags = c.eflags := by
  rfl

@[simp] theorem setSeg_regs : (c.setSeg s sel).regs = c.regs := by
  rfl

@[simp] theorem setSeg_mem : (c.setSeg s sel).mem = c.mem := by
  rfl

@[simp] theorem setSeg_seg : (c.setSeg s sel).seg = Function.update c.seg s sel := by
  rfl

@[simp] theorem setSeg_eip : (c.setSeg s sel).eip = c.eip := by
  rfl

@[simp] theorem setSeg_eflags : (c.setSeg s sel).eflags = c.eflags := by
  rfl

@[simp] theorem pushes_regs : (c.pushes words).regs = Function.update c.regs .esp (c.regs .esp - word (4 * words.length)) := by
  simp [pushes,pushed_sp]

@[simp] theorem pushes_mem : (c.pushes words).mem = (pushed c.mem (c.regs .esp) words).1 := by
  rfl

@[simp] theorem pushes_seg : (c.pushes words).seg = c.seg := by
  rfl

theorem pushes_pushes (first second : List Word) : (c.pushes first).pushes second = c.pushes (first ++ second) := by
  simp only [pushes,setReg,Function.update_self,pushed_append,Function.update_idem]

end Cpu

end BlackOS.Library.Interrupt
