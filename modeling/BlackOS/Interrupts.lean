import BlackOS.Library.Interrupt

/-! The entry and the exit of interrupts in `kernel/arch/x86/isr.asm`. -/
namespace BlackOS.Interrupts
open BlackOS.Library.Ram BlackOS.Library.X86 BlackOS.Library.Interrupt

/-- `black_registers_t`, in the order of its fields. -/
structure Registers where
  ds : Word
  edi : Word
  esi : Word
  ebp : Word
  esp : Word
  ebx : Word
  edx : Word
  ecx : Word
  eax : Word
  intNo : Word
  errCode : Word
  eip : Word
  cs : Word
  eflags : Word
  useresp : Word
  ss : Word

/-- The fields that every interrupt has. -/
def Registers.words (r : Registers) : List Word :=
  [r.ds,r.edi,r.esi,r.ebp,r.esp,r.ebx,r.edx,r.ecx,r.eax,r.intNo,r.errCode,r.eip,r.cs,r.eflags]

/-- The fields of an interrupt from an outer ring. -/
def Registers.outerWords (r : Registers) : List Word := [r.useresp,r.ss]

def blackIsrNoerr (n : Word) : List CpuInstr := [.pushImm 0,.pushImm n]

def blackIsrErr (n : Word) : List CpuInstr := [.pushImm n]

def blackIrq (n : Word) : List CpuInstr := [.pushImm 0,.pushImm n]

/-- `black_isr_common` up to its call of `black_isr_dispatch`. -/
def commonEntry : List CpuInstr :=
  [.pusha,
   .movAxSeg .ds,
   .push .eax,
   .movAxImm 0x10,
   .movSegAx .ds,
   .movSegAx .es,
   .movSegAx .fs,
   .movSegAx .gs,
   .push .esp]

/-- `black_isr_common` from the return of `black_isr_dispatch` on. -/
def commonExit : List CpuInstr :=
  [.addEsp 4,
   .pop .eax,
   .movSegAx .ds,
   .movSegAx .es,
   .movSegAx .fs,
   .movSegAx .gs,
   .popa,
   .addEsp 8,
   .iret]

/-- The code of the stub for an interrupt with or without an error code. -/
def stub (n : Word) : Option Word → List CpuInstr
  | none => blackIsrNoerr n
  | some _ => blackIsrErr n

/-- The words above the frame of `pusha`, the first one that is pushed first. -/
def numbered (c : Cpu) (n : Word) (error : Option Word) : List Word :=
  (if c.outer then [(c.seg .ss).setWidth 32,c.regs .esp] else []) ++
    [c.eflags,(c.seg .cs).setWidth 32,c.eip,error.getD 0,n]

def saved (c : Cpu) (tss : Tss) (n : Word) (error : Option Word) : Registers where
  ds := setLow (c.regs .eax) (c.seg .ds)
  edi := c.regs .edi
  esi := c.regs .esi
  ebp := c.regs .ebp
  esp := (onKernelStack c tss).regs .esp - word (4 * (numbered c n error).length)
  ebx := c.regs .ebx
  edx := c.regs .edx
  ecx := c.regs .ecx
  eax := c.regs .eax
  intNo := n
  errCode := error.getD 0
  eip := c.eip
  cs := (c.seg .cs).setWidth 32
  eflags := c.eflags
  useresp := c.regs .esp
  ss := (c.seg .ss).setWidth 32

def frame (c : Cpu) (tss : Tss) (n : Word) (error : Option Word) : List Word :=
  (saved c tss n error).words ++ if c.outer then (saved c tss n error).outerWords else []

def entry (c : Cpu) (gate : Gate) (tss : Tss) (n : Word) (error : Option Word) : Cpu :=
  (deliver c gate tss error).execs (stub n error ++ commonEntry)

section Entry
variable (c : Cpu) (gate : Gate) (tss : Tss) (n : Word) (error : Option Word)

/-- The processor at the stub, before the first word is pushed. -/
def entered : Cpu :=
  {(onKernelStack c tss).setSeg .cs gate.selector with
    eip := gate.offset
    eflags := masked c.eflags}

theorem stub_exec : (deliver c gate tss error).execs (stub n error) = (entered c gate tss).pushes (numbered c n error) := by
  cases error with
  | none =>
    have steps : (deliver c gate tss none).execs (stub n none) =
        (((entered c gate tss).pushes (deliveredWords c none)).pushes [0]).pushes [n] := rfl
    rw [steps,Cpu.pushes_pushes,Cpu.pushes_pushes]
    simp [deliveredWords,numbered]
  | some e =>
    have steps : (deliver c gate tss (some e)).execs (stub n (some e)) =
        ((entered c gate tss).pushes (deliveredWords c (some e))).pushes [n] := rfl
    rw [steps,Cpu.pushes_pushes]
    simp [deliveredWords,numbered]

theorem onKernelStack_other (r : Reg) (other : r ≠ .esp) : (onKernelStack c tss).regs r = c.regs r := by
  unfold onKernelStack
  split
  · exact Function.update_of_ne other _ _
  · rfl

/-- The words that `black_isr_common` pushes, the first one first. -/
def commonWords (x : Cpu) : List Word :=
  general.map x.regs ++ [setLow (x.regs .eax) (x.seg .ds)] ++ [x.regs .esp - word 36]

theorem common_exec (x : Cpu) :
    (x.execs commonEntry).mem = (pushed x.mem (x.regs .esp) (commonWords x)).1 ∧
      (x.execs commonEntry).regs .esp = x.regs .esp - word 40 := by
  have first : x.regs .esp - word 32 - word 4 = x.regs .esp - word 36 := by
    rw [BitVec.sub_sub,word_add]
  have second : x.regs .esp - word 36 - word 4 = x.regs .esp - word 40 := by
    rw [BitVec.sub_sub,word_add]
  have words : (pushed x.mem (x.regs .esp) (commonWords x)).1 =
      (pushed (pushed (pushed x.mem (x.regs .esp) (general.map x.regs)).1 (x.regs .esp - word 32)
        [setLow (x.regs .eax) (x.seg .ds)]).1 (x.regs .esp - word 36) [x.regs .esp - word 36]).1 := by
    rw [commonWords,pushed_append,pushed_append,pushed_sp,pushed_sp]
    exact congrArg (fun sp => (pushed _ sp [x.regs .esp - word 36]).1) first
  rw [words]
  simp [Cpu.execs,commonEntry,Cpu.exec,general,first,second]

theorem common_seg (x : Cpu) (s : Seg) : (x.execs commonEntry).seg s = if s = .cs ∨ s = .ss then x.seg s else 0x10 := by
  cases s <;> simp [Cpu.execs,commonEntry,Cpu.exec,setLow_low]

theorem frame_reverse : (frame c tss n error).reverse =
    numbered c n error ++ (general.map ((entered c gate tss).pushes (numbered c n error)).regs ++
      [setLow (c.regs .eax) (c.seg .ds)]) := by
  simp [frame,saved,Registers.words,Registers.outerWords,numbered,general,entered,onKernelStack_other]
  split <;> rfl

/-- Where the registers are saved. -/
def frameBase : Word := (onKernelStack c tss).regs .esp - word (4 * (frame c tss n error).length)

theorem entry_exec :
    (entry c gate tss n error).mem =
        (pushed c.mem ((onKernelStack c tss).regs .esp) ((frame c tss n error).reverse ++ [frameBase c tss n error])).1 ∧
      (entry c gate tss n error).regs .esp = frameBase c tss n error - word 4 := by
  let x := (entered c gate tss).pushes (numbered c n error)
  have steps : entry c gate tss n error = x.execs commonEntry := by
    rw [entry,Cpu.execs,List.foldl_append]
    exact congrArg (List.foldl Cpu.exec · commonEntry) (stub_exec c gate tss n error)
  have size : (frame c tss n error).length = (numbered c n error).length + 9 := by
    rw [← List.length_reverse,frame_reverse c gate,List.length_append]
    simp [general]
  have start : (entered c gate tss).mem = c.mem := by
    simp [entered,onKernelStack]
    split <;> rfl
  have sp : x.regs .esp = (onKernelStack c tss).regs .esp - word (4 * (numbered c n error).length) := by
    simp [x,entered]
  have base : x.regs .esp - word 36 = frameBase c tss n error := by
    rw [frameBase,sp,BitVec.sub_sub,word_add,size,Nat.mul_add]
  obtain ⟨mem,esp⟩ := common_exec x
  rw [steps]
  refine ⟨?_,?_⟩
  · have words : commonWords x = general.map x.regs ++ [setLow (c.regs .eax) (c.seg .ds)] ++ [frameBase c tss n error] := by
      rw [commonWords,base]
      simp [x,entered,onKernelStack]
      split <;> simp
    have numbers : (pushed c.mem ((onKernelStack c tss).regs .esp) (numbered c n error)).1 = x.mem := by
      rw [← start]
      rfl
    rw [mem,words,frame_reverse c gate,List.append_assoc (numbered c n error),pushed_append c.mem,numbers,pushed_sp,sp]
  · rw [esp,← base,BitVec.sub_sub,word_add]

theorem frameBase_toNat (room : 4 * ((frame c tss n error).length + 1) ≤ ((onKernelStack c tss).regs .esp).toNat) :
    (frameBase c tss n error).toNat + 4 * (frame c tss n error).length = ((onKernelStack c tss).regs .esp).toNat := by
  have size := word_toNat (4 * (frame c tss n error).length) (by omega)
  rw [frameBase]
  bv_omega

/-- `black_isr_dispatch` is called with the address of `black_registers_t`, which holds what was interrupted. -/
theorem entry_frame (room : 4 * ((frame c tss n error).length + 1) ≤ ((onKernelStack c tss).regs .esp).toNat) :
    Frame (entry c gate tss n error).mem (frameBase c tss n error - word 4)
        (frameBase c tss n error::frame c tss n error) ∧
      SameOutside ((frameBase c tss n error).toNat - 4) ((onKernelStack c tss).regs .esp).toNat c.mem
        (entry c gate tss n error).mem := by
  let base := frameBase c tss n error - word 4
  let words := (frame c tss n error).reverse ++ [frameBase c tss n error]
  have value := frameBase_toNat c tss n error room
  have low : base.toNat + 4 = (frameBase c tss n error).toNat := by
    simp only [base,word]
    bv_omega
  have count : words.length = (frame c tss n error).length + 1 := by
    simp [words]
  have top : (onKernelStack c tss).regs .esp = base + word (4 * words.length) := by
    rw [count,Nat.mul_succ,Nat.add_comm,← word_add,← BitVec.add_assoc]
    simp only [base,frameBase,BitVec.sub_add_cancel]
  have bound := ((onKernelStack c tss).regs .esp).isLt
  rw [(entry_exec c gate tss n error).1,top]
  have laid := pushed_frame base words c.mem [] (by rw [count,List.length_nil]; omega) True.intro
  have outside := pushed_sameOutside base words c.mem (by omega)
  refine ⟨?_,?_⟩
  · simpa [words] using laid
  · refine outside.widen (by omega) ?_
    rw [← top]
    omega

end Entry

section Exit
variable (x : Cpu) (r : Registers) (p : Word)

/-- What `black_isr_common` goes back to, from the registers at the address. -/
structure Returned (y : Cpu) (outer : Bool) : Prop where
  general : general.map y.regs = [r.eax,r.ecx,r.edx,r.ebx,if outer then r.useresp else p + word 56,r.ebp,r.esi,r.edi]
  data : ∀ s, s ≠ .cs → s ≠ .ss → y.seg s = r.ds.setWidth 16
  cs : y.seg .cs = r.cs.setWidth 16
  ss : y.seg .ss = if outer then r.ss.setWidth 16 else x.seg .ss
  eip : y.eip = r.eip
  eflags : y.eflags = r.eflags
  mem : y.mem = x.mem

theorem exit_returned (outer : Bool) (sp : x.regs .esp = p - word 4) (ring : level (x.seg .cs) = 0)
    (target : (level (r.cs.setWidth 16) != 0) = outer)
    (frame : Frame x.mem p (r.words ++ if outer then r.outerWords else [])) :
    Returned x r p (x.execs commonExit) outer := by
  have read (k : Nat) (v : Word) (place : (r.words ++ if outer then r.outerWords else [])[k]? = some v) :
      read32 x.mem (x.regs .esp + word (4 * (k + 1))) = v := by
    rw [← frame_read x.mem p _ frame k v place,sp,Nat.mul_succ,Nat.add_comm,← word_add,← BitVec.add_assoc,
      BitVec.sub_add_cancel]
  have ds : read32 x.mem (x.regs .esp + 4#32) = r.ds := read 0 _ rfl
  have edi : read32 x.mem (x.regs .esp + 8#32) = r.edi := read 1 _ rfl
  have esi : read32 x.mem (x.regs .esp + 12#32) = r.esi := read 2 _ rfl
  have ebp : read32 x.mem (x.regs .esp + 16#32) = r.ebp := read 3 _ rfl
  have ebx : read32 x.mem (x.regs .esp + 24#32) = r.ebx := read 5 _ rfl
  have edx : read32 x.mem (x.regs .esp + 28#32) = r.edx := read 6 _ rfl
  have ecx : read32 x.mem (x.regs .esp + 32#32) = r.ecx := read 7 _ rfl
  have eax : read32 x.mem (x.regs .esp + 36#32) = r.eax := read 8 _ rfl
  have eip : read32 x.mem (x.regs .esp + 48#32) = r.eip := read 11 _ rfl
  have cs : read32 x.mem (x.regs .esp + 52#32) = r.cs := read 12 _ rfl
  have eflags : read32 x.mem (x.regs .esp + 56#32) = r.eflags := read 13 _ rfl
  have ends : x.regs .esp + 60#32 = p + word 56 := by
    rw [sp,word,word]
    bv_omega
  let y := x.execs (commonExit.take 8)
  have last : x.execs commonExit = y.exec .iret := rfl
  have code : y.seg .cs = x.seg .cs := rfl
  have stack : y.seg .ss = x.seg .ss := rfl
  have mem : y.mem = x.mem := rfl
  have top : y.regs .esp = x.regs .esp + 48#32 := by
    simp [y,Cpu.execs,commonExit,Cpu.exec,BitVec.add_assoc]
  have data (s : Seg) (first : s ≠ .cs) (second : s ≠ .ss) : y.seg s = r.ds.setWidth 16 := by
    cases s with
    | cs => cases first rfl
    | ss => cases second rfl
    | _ => simp [y,Cpu.execs,commonExit,Cpu.exec,ds]
  have popped : y.regs .eax = r.eax ∧ y.regs .ecx = r.ecx ∧ y.regs .edx = r.edx ∧ y.regs .ebx = r.ebx ∧
      y.regs .ebp = r.ebp ∧ y.regs .esi = r.esi ∧ y.regs .edi = r.edi := by
    simp [y,Cpu.execs,commonExit,Cpu.exec,edi,esi,ebp,ebx,edx,ecx,eax,BitVec.add_assoc]
  rw [last]
  cases outer with
  | false =>
    have inner : ¬level (y.seg .cs) < level (r.cs.setWidth 16) := by
      rw [code,ring,bne_eq_false_iff_eq.mp target]
      exact Nat.lt_irrefl 0
    constructor
    · simp [Cpu.exec,mem,top,cs,inner,BitVec.add_assoc,Library.Interrupt.general,popped,ends]
    · simp +contextual [Cpu.exec,mem,top,cs,inner,BitVec.add_assoc,data]
    · simp [Cpu.exec,mem,top,cs,inner,BitVec.add_assoc]
    · simp [Cpu.exec,mem,top,cs,inner,BitVec.add_assoc,stack]
    · simp [Cpu.exec,mem,top,cs,inner,BitVec.add_assoc,eip]
    · simp [Cpu.exec,mem,top,cs,inner,BitVec.add_assoc,eflags]
    · simp [Cpu.exec,mem,top,cs,inner,BitVec.add_assoc]
  | true =>
    have esp : read32 x.mem (x.regs .esp + 60#32) = r.useresp := read 14 _ rfl
    have ss : read32 x.mem (x.regs .esp + 64#32) = r.ss := read 15 _ rfl
    have outward : level (y.seg .cs) < level (r.cs.setWidth 16) := by
      rw [code,ring]
      exact Nat.pos_of_ne_zero (bne_iff_ne.mp target)
    constructor
    · simp [Cpu.exec,mem,top,cs,outward,BitVec.add_assoc,Library.Interrupt.general,popped,esp]
    · simp +contextual [Cpu.exec,mem,top,cs,outward,BitVec.add_assoc,data]
    · simp [Cpu.exec,mem,top,cs,outward,BitVec.add_assoc]
    · simp [Cpu.exec,mem,top,cs,outward,BitVec.add_assoc,ss]
    · simp [Cpu.exec,mem,top,cs,outward,BitVec.add_assoc,eip]
    · simp [Cpu.exec,mem,top,cs,outward,BitVec.add_assoc,eflags]
    · simp [Cpu.exec,mem,top,cs,outward,BitVec.add_assoc]

end Exit

/-- The memory from an address on is kept, up to the end of the stack. -/
def Kept (lo : Word) (hi : Nat) (m m' : Memory) : Prop := ∀ x : Word, lo.toNat ≤ x.toNat → x.toNat < hi → m' x = m x

theorem Kept.trans {lo : Word} {hi : Nat} {a b c : Memory} (first : Kept lo hi a b) (second : Kept lo hi b c) : Kept lo hi a c :=
  fun x low high => (second x low high).trans (first x low high)

theorem Kept.frame {lo : Word} {hi : Nat} {m m' : Memory} (kept : Kept lo hi m m') (words : List Word)
    (room : lo.toNat + 4 * words.length ≤ hi) (top : hi ≤ 2^32) (frame : Frame m lo words) : Frame m' lo words :=
  frame_congr m m' lo words (by omega) (fun x low high => kept x low (by omega)) frame

/-- The processor at the first instruction of `black_isr_dispatch`. -/
def called (c : Cpu) (gate : Gate) (tss : Tss) (n : Word) (error : Option Word) (dispatch ret : Word) : Cpu :=
  {(entry c gate tss n error).pushes [ret] with eip := dispatch}

/-- There is room on the stack, and the gate leads to the innermost ring. -/
structure Delivered (hi : Nat) (c : Cpu) (gate : Gate) (tss : Tss) (n : Word) (error : Option Word) : Prop where
  innermost : level gate.selector = 0
  room : 4 * ((frame c tss n error).length + 2) ≤ ((onKernelStack c tss).regs .esp).toNat
  inside : ((onKernelStack c tss).regs .esp).toNat ≤ hi
  top : hi ≤ 2^32

/-- Code of the kernel from one state to another. It leaves the stack from the address on as it is, besides what it
does it is interrupted any number of times, and so are the handlers of these interrupts. -/
inductive Busy (hi : Nat) : Word → Cpu → Cpu → Prop
  | nil (p c) : Busy hi p c c
  | own (p c middle last) (busy : Busy hi p c middle) (seg : last.seg = middle.seg)
      (kept : Kept p hi middle.mem last.mem) : Busy hi p c last
  | interrupted (p c middle) (gate : Gate) (tss : Tss) (n : Word) (error : Option Word) (dispatch ret : Word) (last)
      (busy : Busy hi p c middle) (below : (middle.regs .esp).toNat ≤ p.toNat) (delivered : Delivered hi middle gate tss n error)
      (handled : Busy hi (frameBase middle tss n error) (called middle gate tss n error dispatch ret) last)
      (back : last.regs .esp = frameBase middle tss n error - word 4) :
      Busy hi p c (last.execs commonExit)

section Nested
variable (hi : Nat) (c : Cpu) (gate : Gate) (tss : Tss) (n : Word) (error : Option Word) (dispatch ret : Word)

/-- Everything is as before the interrupt, but the other data segments are as `ds`. -/
structure Restored (c y : Cpu) : Prop where
  regs : y.regs = c.regs
  data : ∀ s, s ≠ .cs → s ≠ .ss → y.seg s = c.seg .ds
  cs : y.seg .cs = c.seg .cs
  ss : y.seg .ss = c.seg .ss
  eip : y.eip = c.eip
  eflags : y.eflags = c.eflags

theorem general_all (f g : Reg → Word) (same : general.map f = general.map g) : f = g := by
  simp only [general,List.map_cons,List.map_nil,List.cons.injEq] at same
  obtain ⟨eax,ecx,edx,ebx,esp,ebp,esi,edi,_⟩ := same
  funext r
  cases r <;> assumption

theorem called_seg (s : Seg) : (called c gate tss n error dispatch ret).seg s =
    if s = .cs then gate.selector else if s = .ss then (onKernelStack c tss).seg .ss else 0x10 := by
  have steps : (called c gate tss n error dispatch ret).seg s =
      ((((deliver c gate tss error).execs (stub n error)).execs commonEntry)).seg s := by
    rw [called,entry,Cpu.execs,List.foldl_append]
    rfl
  rw [steps,common_seg,stub_exec]
  cases s <;> simp [entered]

/-- The stack pointer that the exit goes back to. -/
theorem exit_sp : (if c.outer then (saved c tss n error).useresp else frameBase c tss n error + word 56) = c.regs .esp := by
  cases ring : c.outer with
  | true => rfl
  | false =>
    have size : (frame c tss n error).length = 14 := by
      rw [frame,ring]
      rfl
    rw [frameBase,size,onKernelStack,ring]
    exact BitVec.sub_add_cancel _ _

theorem exit_ss (last : Cpu) (seg : last.seg = (called c gate tss n error dispatch ret).seg) :
    (if c.outer then (saved c tss n error).ss.setWidth 16 else last.seg .ss) = c.seg .ss := by
  rw [seg,called_seg,onKernelStack]
  cases c.outer with
  | true => simp [saved]
  | false => rfl

theorem restored (delivered : Delivered hi c gate tss n error) (last : Cpu)
    (seg : last.seg = (called c gate tss n error dispatch ret).seg)
    (kept : Kept (frameBase c tss n error) hi (called c gate tss n error dispatch ret).mem last.mem)
    (back : last.regs .esp = frameBase c tss n error - word 4) :
    Restored c (last.execs commonExit) ∧ (last.execs commonExit).mem = last.mem ∧
      Kept ((onKernelStack c tss).regs .esp) hi c.mem last.mem := by
  have room := delivered.room
  have inside := delivered.inside
  have top := delivered.top
  have value := frameBase_toNat c tss n error (by omega)
  obtain ⟨laid,outside⟩ := entry_frame c gate tss n error (by omega)
  have start : frameBase c tss n error - word 4 + 4 = frameBase c tss n error := BitVec.sub_add_cancel _ 4
  have argument : Frame (entry c gate tss n error).mem (frameBase c tss n error) (frame c tss n error) := by
    rw [← start]
    exact start.symm ▸ laid.2
  have slot : (frameBase c tss n error - word 4 - word 4).toNat + 8 = (frameBase c tss n error).toNat := by
    simp only [word]
    bv_omega
  have mem : (called c gate tss n error dispatch ret).mem =
      write32 (entry c gate tss n error).mem (frameBase c tss n error - word 4 - word 4) ret := by
    rw [← (entry_exec c gate tss n error).2]
    rfl
  have call := write32_sameOutside (entry c gate tss n error).mem (frameBase c tss n error - word 4 - word 4) ret (by omega)
  rw [← mem] at call
  have saves : Frame (called c gate tss n error dispatch ret).mem (frameBase c tss n error) (frame c tss n error) :=
    frame_congr _ _ _ _ (by omega) (fun x low high => call x (.inr (by omega))) argument
  have holds := kept.frame _ (by omega) top saves
  have ring : level (last.seg .cs) = 0 := by
    rw [seg,called_seg]
    exact delivered.innermost
  have exits := exit_returned last (saved c tss n error) (frameBase c tss n error) c.outer back ring (by simp [saved,Cpu.outer]) holds
  refine ⟨?_,exits.mem,fun x low high => ?_⟩
  · refine ⟨general_all _ _ (exits.general.trans ?_),fun s first second => (exits.data s first second).trans ?_,?_,?_,exits.eip,exits.eflags⟩
    · rw [exit_sp]
      rfl
    · exact setLow_low _ _
    · rw [exits.cs]
      simp [saved]
    · exact exits.ss.trans (exit_ss c gate tss n error dispatch ret last seg)
  · rw [kept x (by omega) high,call x (.inr (by omega)),outside x (.inr low)]

/-- The processor runs in the innermost ring, with one selector in the data segments. -/
structure Kernel (c : Cpu) : Prop where
  inner : level (c.seg .cs) = 0
  data : ∀ s, s ≠ .cs → s ≠ .ss → c.seg s = c.seg .ds

theorem called_kernel (innermost : level gate.selector = 0) : Kernel (called c gate tss n error dispatch ret) := by
  refine ⟨?_,fun s first second => ?_⟩
  · rw [called_seg]
    exact innermost
  · rw [called_seg,called_seg,if_neg first,if_neg second]
    rfl

variable {hi c}

theorem busy_kept (p : Word) (last : Cpu) (busy : Busy hi p c last) (kernel : Kernel c) :
    last.seg = c.seg ∧ Kept p hi c.mem last.mem := by
  induction busy with
  | nil p c => exact ⟨rfl,fun x low high => rfl⟩
  | own p c middle last busy seg kept ih =>
    obtain ⟨same,before⟩ := ih kernel
    exact ⟨seg.trans same,before.trans kept⟩
  | interrupted p c middle gate tss n error dispatch ret last busy below delivered handled back first second =>
    obtain ⟨same,before⟩ := first kernel
    obtain ⟨seg,kept⟩ := second (called_kernel middle gate tss n error dispatch ret delivered.innermost)
    obtain ⟨back,mem,stack⟩ := restored hi middle gate tss n error dispatch ret delivered last seg kept back
    have inner : onKernelStack middle tss = middle := by
      rw [onKernelStack,Cpu.outer,same,kernel.inner]
      rfl
    refine ⟨?_,fun x low high => ?_⟩
    · funext s
      by_cases code : s = .cs
      · rw [code,back.cs,same]
      · by_cases stack : s = .ss
        · rw [stack,back.ss,same]
        · rw [back.data s code stack,same,kernel.data s code stack]
    · rw [mem,stack x (by rw [inner]; omega) high,before x low high]

/-- An interrupt that is handled by the kernel, with whatever interrupts it itself, is not seen by what it
interrupts: the registers are as before, and so is the stack of the kernel from the stack pointer on. -/
theorem interrupt_transparent (delivered : Delivered hi c gate tss n error) (last : Cpu)
    (handled : Busy hi (frameBase c tss n error) (called c gate tss n error dispatch ret) last)
    (back : last.regs .esp = frameBase c tss n error - word 4) :
    Restored c (last.execs commonExit) ∧ Kept ((onKernelStack c tss).regs .esp) hi c.mem (last.execs commonExit).mem := by
  obtain ⟨seg,kept⟩ := busy_kept _ last handled (called_kernel c gate tss n error dispatch ret delivered.innermost)
  obtain ⟨same,mem,stack⟩ := restored hi c gate tss n error dispatch ret delivered last seg kept back
  exact ⟨same,mem ▸ stack⟩

end Nested

/-- A timer interrupt of the kernel that is itself interrupted by the keyboard. -/
def kernelCpu : Cpu := ⟨fun _ => 0x1000,fun s => if s = .cs then 8 else 0x10,0x100,0x202,fun _ => 0⟩

def timerGate : Gate := ⟨0x5000,8,0x8E⟩

def kernelTss : Tss := ⟨0x2000,0x10⟩

def inTimer : Cpu := called kernelCpu timerGate kernelTss 32 none 0x6000 0x5010

def inKeyboard : Cpu := called inTimer timerGate kernelTss 33 none 0x6000 0x5010

def backInTimer : Cpu := (inKeyboard.setReg .esp (frameBase inTimer kernelTss 33 none - word 4)).execs commonExit

def backInKernel : Cpu := (backInTimer.setReg .esp (frameBase kernelCpu kernelTss 32 none - word 4)).execs commonExit

theorem timer_delivered : Delivered 0x1000 kernelCpu timerGate kernelTss 32 none := ⟨by decide,by decide,by decide,by decide⟩

theorem keyboard_delivered : Delivered 0x1000 inTimer timerGate kernelTss 33 none := ⟨by decide,by decide,by decide,by decide⟩

/-- Only the stack pointer is set by the code of the kernel. -/
theorem busy_setReg (hi : Nat) (p v : Word) (c middle : Cpu) (busy : Busy hi p c middle) : Busy hi p c (middle.setReg .esp v) :=
  .own p c middle _ busy rfl fun _ _ _ => rfl

theorem interrupt_transparent_nested : Restored kernelCpu backInKernel := by
  have keyboard := busy_setReg 0x1000 (frameBase inTimer kernelTss 33 none) (frameBase inTimer kernelTss 33 none - word 4) inKeyboard _
    (.nil _ _)
  have timer : Busy 0x1000 (frameBase kernelCpu kernelTss 32 none) inTimer backInTimer :=
    .interrupted _ inTimer inTimer timerGate kernelTss 33 none 0x6000 0x5010 _ (.nil _ _) (by decide) keyboard_delivered keyboard
      (Cpu.setReg_same _ _ _)
  have back := busy_setReg 0x1000 _ (frameBase kernelCpu kernelTss 32 none - word 4) inTimer _ timer
  exact (interrupt_transparent timerGate kernelTss 32 none 0x6000 0x5010 timer_delivered _ back (Cpu.setReg_same _ _ _)).1

end BlackOS.Interrupts
