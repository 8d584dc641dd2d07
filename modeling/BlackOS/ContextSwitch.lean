import BlackOS.Library.Run
import BlackOS.Library.X86

/-! `black_context_switch` of `kernel/arch/x86/isr.asm`, and the stack that `black_task_create` of
`kernel/sched/scheduler.c` makes for it. -/
namespace BlackOS.ContextSwitch
open BlackOS.Library.Ram BlackOS.Library.Run BlackOS.Library.X86

def blackContextSwitch : List Instr :=
  [.load .eax .esp 4,
   .load .edx .esp 8,
   .push .ebx,
   .push .esi,
   .push .edi,
   .push .ebp,
   .store .eax .esp,
   .mov .esp .edx,
   .pop .ebp,
   .pop .edi,
   .pop .esi,
   .pop .ebx,
   .ret]

/-- What a task goes on with when it is switched to, besides its stack. -/
structure Context where
  ebp : Word
  edi : Word
  esi : Word
  ebx : Word
  eip : Word

/-- The words of a context from the stack pointer of a suspended task on. -/
def Context.words (c : Context) : List Word := [c.ebp,c.edi,c.esi,c.ebx,c.eip]

/-- The context of a machine that calls a function; `ret` is the address of the instruction behind the call. -/
def called (m : Machine) (ret : Word) : Context := ⟨m.regs .ebp,m.regs .edi,m.regs .esi,m.regs .ebx,ret⟩

structure Resumed (m : Machine) (c : Context) (sp : Word) : Prop where
  ebp : m.regs .ebp = c.ebp
  edi : m.regs .edi = c.edi
  esi : m.regs .esi = c.esi
  ebx : m.regs .ebx = c.ebx
  eip : m.eip = c.eip
  esp : m.regs .esp = sp

/-- The memory after the first argument has got the stack pointer of the task that calls `black_context_switch`. -/
def suspendedMemory (m : Machine) (ret base : Word) : Memory :=
  write32 (pushed m.mem (m.regs .esp) (called m ret).words.reverse).1 (read32 m.mem (m.regs .esp)) base

section Code
variable (m : Machine)

theorem push_argument (ret a : Word) (low : 4 ≤ (m.regs .esp).toNat) (above : (m.regs .esp).toNat ≤ a.toNat)
    (room : a.toNat + 4 ≤ 2^32) : read32 (m.push ret).mem a = read32 m.mem a := by
  have sp : (m.regs .esp - 4).toNat = (m.regs .esp).toNat - 4 := by bv_omega
  have outside := write32_sameOutside m.mem (m.regs .esp - 4) ret (by omega)
  exact outside.read32 a room (.inr (by omega))

/-- The first part of the code saves the context. -/
theorem suspend_exec (ret base : Word) (room : base.toNat + 28 ≤ 2^32) (sp : m.regs .esp = base + word 20) :
    (execs (m.push ret) (blackContextSwitch.take 7)).mem = suspendedMemory m ret base ∧
      (execs (m.push ret) (blackContextSwitch.take 7)).regs .edx = read32 m.mem (m.regs .esp + 4) := by
  have value : (m.regs .esp).toNat = base.toNat + 20 := by
    rw [sp,word]
    bv_omega
  have above : (m.regs .esp + 4).toNat = base.toNat + 24 := by bv_omega
  have oldAt : (m.push ret).regs .esp + 4 = m.regs .esp := by
    rw [Machine.push_sp]
    exact BitVec.sub_add_cancel _ 4
  have newAt : (m.push ret).regs .esp + 8 = m.regs .esp + 4 := by
    rw [← oldAt,BitVec.add_assoc]
    rfl
  let old := read32 m.mem (m.regs .esp)
  let new := read32 m.mem (m.regs .esp + 4)
  let loaded := ((m.push ret).set .eax old).set .edx new
  have first : exec (m.push ret) (.load .eax .esp 4) = (m.push ret).set .eax old := by
    rw [exec,oldAt,push_argument m ret _ (by omega) (by omega) (by omega)]
  have second : exec ((m.push ret).set .eax old) (.load .edx .esp 8) = loaded := by
    rw [exec,Machine.set_other _ .eax .esp _ (by decide),newAt]
    exact congrArg (Machine.set _ .edx) (push_argument m ret _ (by omega) (by omega) (by omega))
  have pushes := execs_push loaded [.ebx,.esi,.edi,.ebp] (by decide)
  have loads (r : Reg) (other : r ≠ .edx ∧ r ≠ .eax) : loaded.regs r = (m.push ret).regs r :=
    (Machine.set_other _ .edx r new other.1).trans (Machine.set_other _ .eax r old other.2)
  have kept (r : Reg) (other : r ≠ .edx ∧ r ≠ .eax) (own : r ≠ .esp) : loaded.regs r = m.regs r :=
    (loads r other).trans (m.push_other ret r own)
  have words : pushed loaded.mem (loaded.regs .esp) ([.ebx,.esi,.edi,.ebp].map loaded.regs) =
      pushed m.mem (m.regs .esp) (called m ret).words.reverse := by
    have order : (called m ret).words.reverse = [ret,m.regs .ebx,m.regs .esi,m.regs .edi,m.regs .ebp] := rfl
    have mem : loaded.mem = write32 m.mem (m.regs .esp - 4) ret := rfl
    rw [loads .esp (by decide),Machine.push_sp,List.map_cons,List.map_cons,List.map_cons,List.map_cons,List.map_nil,
      kept .ebx (by decide) (by decide),kept .esi (by decide) (by decide),kept .edi (by decide) (by decide),
      kept .ebp (by decide) (by decide),order,mem]
    exact (pushed_cons m.mem (m.regs .esp) ret _).symm
  have bottom : (pushed m.mem (m.regs .esp) (called m ret).words.reverse).2 = base := by
    rw [sp]
    exact pushed_base base (called m ret).words.reverse m.mem
  have shape : execs (m.push ret) (blackContextSwitch.take 7) =
      exec (execs (exec (exec (m.push ret) (.load .eax .esp 4)) (.load .edx .esp 8)) ([.ebx,.esi,.edi,.ebp].map .push))
        (.store .eax .esp) := rfl
  rw [shape,first,second,pushes,words,bottom]
  have cell : (loaded.set .esp base).regs .eax = old := by
    rw [Machine.set_other _ .esp .eax _ (by decide),Machine.set_other _ .edx .eax _ (by decide)]
    exact Machine.set_same _ .eax old
  have next : (loaded.set .esp base).regs .edx = new :=
    (Machine.set_other _ .esp .edx _ (by decide)).trans (Machine.set_same _ .edx new)
  refine ⟨?_,next⟩
  rw [exec]
  exact congrArg₂ (write32 _) cell (Machine.set_same loaded .esp base)

theorem resume_exec (p : Word) (c : Context) (start : m.regs .edx = p) (frame : Frame m.mem p c.words) :
    Resumed (execs m (blackContextSwitch.drop 7)) c (p + word 20) ∧ (execs m (blackContextSwitch.drop 7)).mem = m.mem := by
  let first := m.set .esp (m.regs .edx)
  have sp : first.regs .esp = p := (m.set_same .esp _).trans start
  obtain ⟨saved,last⟩ := (frame_append m.mem p [c.ebp,c.edi,c.esi,c.ebx] [c.eip]).mp frame
  have pops := execs_pop first [.ebp,.edi,.esi,.ebx] (by decide) [c.ebp,c.edi,c.esi,c.ebx] (by decide) rfl (sp ▸ saved)
  have shape : execs m (blackContextSwitch.drop 7) = exec (execs first ([.ebp,.edi,.esi,.ebx].map .pop)) .ret := rfl
  generalize execs first ([.ebp,.edi,.esi,.ebx].map .pop) = popped at pops shape
  have top : popped.regs .esp = p + word 16 := pops.sp.trans (congrArg (· + word 16) sp)
  have values := pops.popped
  simp only [List.map_cons,List.map_nil,List.cons.injEq,and_true] at values
  obtain ⟨ebp,edi,esi,ebx⟩ := values
  have kept (r : Reg) (other : r ≠ .esp) : (exec popped .ret).regs r = popped.regs r := popped.set_other .esp r _ other
  rw [shape]
  refine ⟨⟨(kept _ (by decide)).trans ebp,(kept _ (by decide)).trans edi,(kept _ (by decide)).trans esi,
    (kept _ (by decide)).trans ebx,?_,?_⟩,pops.mem⟩
  · rw [exec,pops.mem,top]
    exact last.1
  · refine (popped.set_same .esp _).trans ?_
    rw [top,BitVec.add_assoc]
    rfl

/-- The caller is suspended, and what is switched to goes on with the context on top of its stack. -/
theorem switch_exec (ret base : Word) (room : base.toNat + 28 ≤ 2^32) (sp : m.regs .esp = base + word 20) (c : Context)
    (frame : Frame (suspendedMemory m ret base) (read32 m.mem (m.regs .esp + 4)) c.words) :
    Resumed (m.call blackContextSwitch ret) c (read32 m.mem (m.regs .esp + 4) + word 20) ∧
      (m.call blackContextSwitch ret).mem = suspendedMemory m ret base := by
  obtain ⟨mem,new⟩ := suspend_exec m ret base room sp
  have parts : m.call blackContextSwitch ret =
      execs (execs (m.push ret) (blackContextSwitch.take 7)) (blackContextSwitch.drop 7) :=
    execs_append (m.push ret) (blackContextSwitch.take 7) (blackContextSwitch.drop 7)
  obtain ⟨resumed,kept⟩ := resume_exec _ _ c new (mem ▸ frame)
  rw [parts]
  exact ⟨resumed,kept.trans mem⟩

theorem switch_mem (ret base : Word) (room : base.toNat + 28 ≤ 2^32) (sp : m.regs .esp = base + word 20) :
    (m.call blackContextSwitch ret).mem = suspendedMemory m ret base := by
  let mem := suspendedMemory m ret base
  let p := read32 m.mem (m.regs .esp + 4)
  let c : Context := ⟨read32 mem p,read32 mem (p + 4),read32 mem (p + 4 + 4),read32 mem (p + 4 + 4 + 4),
    read32 mem (p + 4 + 4 + 4 + 4)⟩
  exact (switch_exec m ret base room sp c ⟨rfl,rfl,rfl,rfl,rfl,True.intro⟩).2

end Code

structure Region where
  lo : Nat
  hi : Nat
  fits : hi ≤ 2^32

def Region.Apart (a b : Region) : Prop := a.hi ≤ b.lo ∨ b.hi ≤ a.lo

def Region.Agree (a : Region) (m m' : Memory) : Prop := ∀ x : Word, a.lo ≤ x.toNat → x.toNat < a.hi → m' x = m x

theorem Region.Apart.symm {a b : Region} (apart : a.Apart b) : b.Apart a := Or.symm apart

/-- Words that are pushed into one region, and a word that is written in another one, change no third region. -/
theorem saved_agree (a own cell : Region) (mem : Memory) (sp base c v : Word) (words : List Word)
    (start : sp = base + word (4 * words.length)) (lo : own.lo ≤ base.toNat) (hi : base.toNat + 4 * words.length ≤ own.hi)
    (at_ : cell.lo = c.toNat) (size : cell.hi = c.toNat + 4) (first : a.Apart own) (second : a.Apart cell) :
    a.Agree mem (write32 (pushed mem sp words).1 c v) := by
  intro x low high
  have fits := own.fits
  have room := cell.fits
  have stack := pushed_sameOutside base words mem (by omega)
  have written := write32_sameOutside (pushed mem sp words).1 c v (by omega)
  have apart : x.toNat < base.toNat ∨ base.toNat + 4 * words.length ≤ x.toNat := by
    rcases first with below | above
    · exact .inl (by omega)
    · exact .inr (by omega)
  have outside : x.toNat < c.toNat ∨ c.toNat + 4 ≤ x.toNat := by
    rcases second with below | above
    · exact .inl (by omega)
    · exact .inr (by omega)
  rw [written x outside,start,stack x apart]

theorem saved_frame (own cell : Region) (mem : Memory) (sp base c v : Word) (words : List Word)
    (start : sp = base + word (4 * words.length)) (lo : own.lo ≤ base.toNat) (hi : base.toNat + 4 * words.length ≤ own.hi)
    (at_ : cell.lo = c.toNat) (size : cell.hi = c.toNat + 4) (apart : own.Apart cell) :
    Frame (write32 (pushed mem sp words).1 c v) base words.reverse := by
  have fits := own.fits
  have room := cell.fits
  have frame := pushed_frame base words mem [] (by rw [List.length_nil]; omega) True.intro
  rw [List.append_nil,← start] at frame
  have written := write32_sameOutside (pushed mem sp words).1 c v (by omega)
  refine frame_congr _ _ base words.reverse (by rw [List.length_reverse]; omega) (fun x low high => ?_) frame
  rw [List.length_reverse] at high
  rcases apart with below | above
  · exact written x (by omega)
  · exact written x (by omega)

theorem frame_agree (a : Region) (mem mem' : Memory) (p : Word) (words : List Word) (lo : a.lo ≤ p.toNat)
    (hi : p.toNat + 4 * words.length ≤ a.hi) (agree : a.Agree mem mem') (frame : Frame mem p words) : Frame mem' p words := by
  have fits := a.fits
  exact frame_congr mem mem' p words (by omega) (fun x low high => agree x (by omega) (by omega)) frame

/-- The addresses of `black_esp` of the tasks of a table. -/
structure Cells (T : Type) where
  addr : T → Word
  fits : ∀ t, (addr t).toNat + 4 ≤ 2^32
  apart : ∀ t u, t ≠ u → (addr t).toNat + 4 ≤ (addr u).toNat ∨ (addr u).toNat + 4 ≤ (addr t).toNat

def Cells.region {T : Type} (cells : Cells T) (t : T) : Region := ⟨(cells.addr t).toNat,(cells.addr t).toNat + 4,cells.fits t⟩

/-- `owned` has the stacks of the tasks there are. -/
structure State (T : Type) where
  machine : Machine
  current : T
  owned : T → Option Region

inductive Action (T : Type)
  | run
  | create (t : T) (entry : Word)
  | switch (next : T) (ret : Word)

/-- The action makes the task, or switches to it. -/
def Action.Resumes {T : Type} (t : T) : Action T → Prop
  | .run => False
  | .create u _ => u = t
  | .switch next _ => next = t

section System
variable {T : Type} [DecidableEq T] (cells : Cells T) (exit : Word)

/-- What `black_task_create` does to the stack of the new task and to `black_esp`; `exit` is the address of `black_task_exit`. -/
def blackTaskCreate (mem : Memory) (t : T) (stack size entry : Word) : Memory :=
  let (mem,sp) := pushed mem (stack + size) [exit,entry,0,0,0,0]
  write32 mem (cells.addr t) sp

/-- The running task changes the registers and the memory, but neither the stacks of the others nor what
`black_esp` is; it makes a task with a stack of its own; or it calls `black_context_switch` for another task, with room
on its stack. -/
inductive Next (s : State T) : Action T → State T → Prop
  | run (machine : Machine)
      (others : ∀ t own, t ≠ s.current → s.owned t = some own → own.Agree s.machine.mem machine.mem)
      (kept : ∀ t, (cells.region t).Agree s.machine.mem machine.mem) :
      Next s .run {s with machine := machine}
  | create (t : T) (stack size entry : Word) (own : Region) (other : t ≠ s.current)
      (lo : own.lo = stack.toNat) (hi : own.hi = stack.toNat + size.toNat) (enough : 24 ≤ size.toNat)
      (fresh : ∀ u used, u ≠ t → s.owned u = some used → own.Apart used)
      (apart : ∀ u, own.Apart (cells.region u)) :
      Next s (.create t entry) {s with
        machine := {s.machine with mem := blackTaskCreate cells exit s.machine.mem t stack size entry}
        owned := Function.update s.owned t (some own)}
  | switch (next : T) (ret : Word) (own : Region) (other : next ≠ s.current) (has : s.owned s.current = some own)
      (low : own.lo + 20 ≤ (s.machine.regs .esp).toNat) (high : (s.machine.regs .esp).toNat + 8 ≤ own.hi)
      (old : read32 s.machine.mem (s.machine.regs .esp) = cells.addr s.current)
      (new : read32 s.machine.mem (s.machine.regs .esp + 4) = read32 s.machine.mem (cells.addr next)) :
      Next s (.switch next ret) {s with machine := s.machine.call blackContextSwitch ret,current := next}

/-- The stacks are apart from each other and from the task table. -/
structure Disjoint (s : State T) : Prop where
  owned : ∀ t u a b, t ≠ u → s.owned t = some a → s.owned u = some b → a.Apart b
  cells : ∀ t u a, s.owned t = some a → a.Apart (cells.region u)

variable {cells exit} {s s' : State T} {act : Action T}

/-- The stack pointer of a caller with room on its stack is 20 bytes above where the context ends. -/
theorem base_of (sp : Word) (lo : Nat) (low : lo + 20 ≤ sp.toNat) :
    sp = sp - 20 + word 20 ∧ (sp - 20).toNat + 20 = sp.toNat := by
  refine ⟨(BitVec.sub_add_cancel sp 20).symm,?_⟩
  bv_omega

/-- The end of the stack of a new task, 24 bytes above where its first context ends. -/
theorem base_of_new (stack size : Word) (own : Region) (lo : own.lo = stack.toNat) (hi : own.hi = stack.toNat + size.toNat)
    (enough : 24 ≤ size.toNat) :
    stack + size = stack + size - 24 + word 24 ∧ (stack + size - 24).toNat + 24 = own.hi := by
  refine ⟨(BitVec.sub_add_cancel _ 24).symm,?_⟩
  have fits := own.fits
  bv_omega

theorem step_disjoint (step : Next cells exit s act s') (disjoint : Disjoint cells s) : Disjoint cells s' := by
  cases step with
  | run machine others kept => exact ⟨disjoint.owned,disjoint.cells⟩
  | switch next ret own other has low high old new => exact ⟨disjoint.owned,disjoint.cells⟩
  | create t stack size entry own other lo hi enough fresh apart =>
    refine ⟨fun u v a b distinct first second => ?_,fun u v a has => ?_⟩
    · simp only [Function.update_apply] at first second
      split at first
      next new =>
        cases first
        rw [if_neg fun same => distinct (new.trans same.symm)] at second
        exact fresh v b (fun same => distinct (new.trans same.symm)) second
      next old =>
        split at second
        next new =>
          cases second
          exact (fresh u a old first).symm
        next => exact disjoint.owned u v a b distinct first second
    · simp only [Function.update_apply] at has
      split at has
      · cases has
        exact apart v
      · exact disjoint.cells u v a has

theorem switch_agree (m : Machine) (ret : Word) (a own cell : Region) (low : own.lo + 20 ≤ (m.regs .esp).toNat)
    (high : (m.regs .esp).toNat + 8 ≤ own.hi) (lo : cell.lo = (read32 m.mem (m.regs .esp)).toNat)
    (hi : cell.hi = (read32 m.mem (m.regs .esp)).toNat + 4) (first : a.Apart own) (second : a.Apart cell) :
    a.Agree m.mem (m.call blackContextSwitch ret).mem := by
  have fits := own.fits
  obtain ⟨start,bottom⟩ := base_of (m.regs .esp) own.lo low
  rw [switch_mem m ret _ (by omega) start]
  exact saved_agree a own cell m.mem _ _ _ _ (called m ret).words.reverse start (by omega) (bottom.trans_le (by omega))
    lo hi first second

/-- A step that neither is of a task nor makes it leaves its stack and its stack pointer alone. -/
theorem step_spares (step : Next cells exit s act s') (disjoint : Disjoint cells s) (t : T) (away : s.current ≠ t)
    (other : ¬act.Resumes t) (own : Region) (has : s.owned t = some own) :
    s'.current ≠ t ∧ s'.owned t = some own ∧ own.Agree s.machine.mem s'.machine.mem ∧
      (cells.region t).Agree s.machine.mem s'.machine.mem := by
  cases step with
  | run machine others kept => exact ⟨away,has,others t own away.symm has,kept t⟩
  | create u stack size entry new apart lo hi enough fresh outside =>
    have distinct : t ≠ u := fun same => other same.symm
    obtain ⟨start,bottom⟩ := base_of_new stack size new lo hi enough
    have spares (a : Region) := saved_agree a new (cells.region u) s.machine.mem (stack + size) (stack + size - 24) (cells.addr u)
      (pushed s.machine.mem (stack + size) [exit,entry,0,0,0,0]).2 [exit,entry,0,0,0,0] start (by omega)
      bottom.le rfl rfl
    refine ⟨away,(Function.update_of_ne distinct _ _).trans has,?_,?_⟩
    · exact spares own (fresh t own distinct has).symm (disjoint.cells t u own has)
    · exact spares (cells.region t) (outside t).symm (cells.apart t u distinct)
  | switch next ret mine apart owned low high old new =>
    have agree (a : Region) := switch_agree s.machine ret a mine (cells.region s.current) low high
      (congrArg BitVec.toNat old.symm) (congrArg (BitVec.toNat · + 4) old.symm)
    refine ⟨fun same => other same,has,?_,?_⟩
    · exact agree own (disjoint.owned t s.current own mine away.symm has owned) (disjoint.cells t s.current own has)
    · exact agree (cells.region t) (disjoint.cells s.current t mine owned).symm (cells.apart t s.current away.symm)

/-- The task is suspended: it is not running, and the words are on top of its stack, with its stack pointer in
`black_esp`. -/
structure Frozen (cells : Cells T) (s : State T) (t : T) (p : Word) (words : List Word) (own : Region) : Prop where
  away : s.current ≠ t
  has : s.owned t = some own
  lo : own.lo ≤ p.toNat
  hi : p.toNat + 4 * words.length ≤ own.hi
  frame : Frame s.machine.mem p words
  cell : read32 s.machine.mem (cells.addr t) = p

theorem frozen_step (step : Next cells exit s act s') (disjoint : Disjoint cells s) (t : T) (p : Word) (words : List Word)
    (own : Region) (other : ¬act.Resumes t) (frozen : Frozen cells s t p words own) : Frozen cells s' t p words own := by
  obtain ⟨away,has,stack,cell⟩ := step_spares step disjoint t frozen.away other own frozen.has
  refine ⟨away,has,frozen.lo,frozen.hi,frame_agree own _ _ p words frozen.lo frozen.hi stack frozen.frame,?_⟩
  exact (read32_congr _ _ _ (cells.fits t) cell).trans frozen.cell

theorem frozen_run (t : T) (p : Word) (words : List Word) (own : Region) (acts : List (Action T))
    (run : Steps (Next cells exit) s acts s') (disjoint : Disjoint cells s) (others : ∀ act ∈ acts, ¬act.Resumes t)
    (frozen : Frozen cells s t p words own) : Disjoint cells s' ∧ Frozen cells s' t p words own := by
  induction run with
  | nil => exact ⟨disjoint,frozen⟩
  | snoc acts act middle last before step ih =>
    obtain ⟨apart,still⟩ := ih fun act among => others act (List.mem_append_left _ among)
    exact ⟨step_disjoint step apart,
      frozen_step step apart t p words own (others act (List.mem_append_right acts List.mem_cons_self)) still⟩

/-- The caller of `black_context_switch` is suspended with the context that it has at the call. -/
theorem switch_freezes (next : T) (ret : Word) (step : Next cells exit s (.switch next ret) s') (disjoint : Disjoint cells s) :
    ∃ own, Frozen cells s' s.current (s.machine.regs .esp - 20) (called s.machine ret).words own := by
  cases step with
  | switch next ret own other has low high old new =>
    have fits := own.fits
    obtain ⟨start,bottom⟩ := base_of (s.machine.regs .esp) own.lo low
    have mem := switch_mem s.machine ret _ (by omega) start
    refine ⟨own,other,has,by omega,bottom.trans_le (by omega),?_,?_⟩
    · rw [mem]
      exact saved_frame own (cells.region s.current) s.machine.mem _ _ _ _ (called s.machine ret).words.reverse start
        (by omega) (bottom.trans_le (by omega)) (congrArg BitVec.toNat old.symm) (congrArg (BitVec.toNat · + 4) old.symm)
        (disjoint.cells s.current s.current own has)
    · rw [mem,suspendedMemory,old]
      exact read32_write32 _ _ _

/-- A task that is made is suspended with `black_entry` as the return address, and `black_task_exit` behind it. -/
theorem create_freezes (t : T) (entry : Word) (step : Next cells exit s (.create t entry) s') :
    ∃ p own, Frozen cells s' t p ((⟨0,0,0,0,entry⟩ : Context).words ++ [exit]) own := by
  cases step with
  | create t stack size entry own other lo hi enough fresh apart =>
    obtain ⟨start,bottom⟩ := base_of_new stack size own lo hi enough
    refine ⟨stack + size - 24,own,other.symm,Function.update_self t _ _,by omega,bottom.le,?_,?_⟩
    · exact saved_frame own (cells.region t) s.machine.mem _ _ _ _ [exit,entry,0,0,0,0] start (by omega) bottom.le rfl rfl
        (apart t)
    · refine (read32_write32 _ _ _).trans ?_
      rw [start]
      exact (pushed_base _ [exit,entry,0,0,0,0] s.machine.mem).trans (congrArg (· - 24) start)

/-- A suspended task that is switched to goes on with its context, and with what is behind it on its stack. -/
theorem switch_thaws (t : T) (ret : Word) (step : Next cells exit s (.switch t ret) s') (disjoint : Disjoint cells s)
    (p : Word) (c : Context) (rest : List Word) (own : Region) (frozen : Frozen cells s t p (c.words ++ rest) own) :
    Resumed s'.machine c (p + word 20) ∧ Frame s'.machine.mem (p + word 20) rest := by
  cases step with
  | switch t ret mine other owned low high old new =>
    have agree := switch_agree s.machine ret own mine (cells.region s.current) low high (congrArg BitVec.toNat old.symm)
      (congrArg (BitVec.toNat · + 4) old.symm) (disjoint.owned t s.current own mine other frozen.has owned)
      (disjoint.cells t s.current own frozen.has)
    have kept := frame_agree own _ _ p _ frozen.lo frozen.hi agree frozen.frame
    obtain ⟨top,behind⟩ := (frame_append _ p c.words rest).mp kept
    have fits := mine.fits
    obtain ⟨start,bottom⟩ := base_of (s.machine.regs .esp) mine.lo low
    rw [switch_mem s.machine ret _ (by omega) start] at top
    rw [frozen.cell] at new
    have exec := switch_exec s.machine ret _ (by omega) start c (new ▸ top)
    exact ⟨new ▸ exec.1,behind⟩

/-- A task that is switched back to has the registers, the stack pointer and the return address of its call, and a
new task starts at its entry. -/
theorem switches_transparent (start : State T) (disjoint : Disjoint cells start) (before : List (Action T)) (s : State T)
    (reached : Steps (Next cells exit) start before s) :
    (∀ next ret s₁ between s₂ again s₃, Next cells exit s (.switch next ret) s₁ → Steps (Next cells exit) s₁ between s₂ →
      (∀ act ∈ between, ¬act.Resumes s.current) → Next cells exit s₂ (.switch s.current again) s₃ →
      Resumed s₃.machine (called s.machine ret) (s.machine.regs .esp)) ∧
    ∀ t entry s₁ between s₂ ret s₃, Next cells exit s (.create t entry) s₁ → Steps (Next cells exit) s₁ between s₂ →
      (∀ act ∈ between, ¬act.Resumes t) → Next cells exit s₂ (.switch t ret) s₃ →
      s₃.machine.eip = entry ∧ read32 s₃.machine.mem (s₃.machine.regs .esp) = exit := by
  have apart := reached.invariant (Disjoint cells) disjoint fun s act s' held step => step_disjoint step held
  refine ⟨fun next ret s₁ between s₂ again s₃ away run others back => ?_,
    fun t entry s₁ between s₂ ret s₃ made run others first => ?_⟩
  · obtain ⟨own,frozen⟩ := switch_freezes next ret away apart
    obtain ⟨still,kept⟩ := frozen_run s.current _ _ own between run (step_disjoint away apart) others frozen
    have resumed := (switch_thaws s.current again back still _ (called s.machine ret) [] own (by rwa [List.append_nil])).1
    have sp : s.machine.regs .esp - 20 + word 20 = s.machine.regs .esp := BitVec.sub_add_cancel _ 20
    rwa [sp] at resumed
  · obtain ⟨p,own,frozen⟩ := create_freezes t entry made
    obtain ⟨still,kept⟩ := frozen_run t p _ own between run (step_disjoint made apart) others frozen
    obtain ⟨resumed,behind⟩ := switch_thaws t ret first still p ⟨0,0,0,0,entry⟩ [exit] own kept
    refine ⟨resumed.eip,?_⟩
    rw [resumed.esp]
    exact behind.1

end System

/-- Two tasks, with the arguments of their calls on their stacks. -/
def pairCells : Cells Bool where
  addr t := if t then 0x104 else 0x100
  fits := by decide
  apart := by decide

def pairMemory : Memory :=
  write32 (write32 (write32 (write32 (fun _ => 0) 0x1080 0x100) 0x1084 0x20E8) 0x2080 0x104) 0x2084 0x106C

def pairStart : State Bool where
  machine := ⟨fun r => if r = .esp then 0x1080 else if r = .ebx then 7 else 0,0,pairMemory⟩
  current := false
  owned t := if t then none else some ⟨0x1000,0x1100,by decide⟩

def pairMade : State Bool :=
  {pairStart with
    machine := {pairStart.machine with mem := blackTaskCreate pairCells 0x3000 pairMemory true 0x2000 0x100 0x4000}
    owned := Function.update pairStart.owned true (some ⟨0x2000,0x2100,by decide⟩)}

def pairAway : State Bool := {pairMade with machine := pairMade.machine.call blackContextSwitch 0x5000,current := true}

def pairRun : State Bool := {pairAway with machine := pairAway.machine.set .esp 0x2080}

def pairBack : State Bool := {pairRun with machine := pairRun.machine.call blackContextSwitch 0x5000,current := false}

theorem pair_disjoint : Disjoint pairCells pairStart where
  owned t u a b distinct first second := by
    cases t with
    | true => cases first
    | false =>
      cases u with
      | true => cases second
      | false => exact absurd rfl distinct
  cells t u a has := by
    cases t with
    | true => cases has
    | false =>
      cases has
      cases u with
      | true => exact .inr (by decide)
      | false => exact .inr (by decide)

theorem pair_made : Next pairCells 0x3000 pairStart (.create true 0x4000) pairMade := by
  refine .create true 0x2000 0x100 0x4000 _ (by decide) rfl rfl (by decide) (fun u used other has => ?_) fun u => ?_
  · cases u with
    | true => exact absurd rfl other
    | false =>
      cases has
      exact .inr (by decide)
  · cases u with
    | true => exact .inr (by decide)
    | false => exact .inr (by decide)

theorem switches_transparent_pair : Resumed pairBack.machine (called pairMade.machine 0x5000) 0x1080 ∧
    pairAway.machine.eip = 0x4000 ∧ read32 pairAway.machine.mem (pairAway.machine.regs .esp) = 0x3000 := by
  have away : Next pairCells 0x3000 pairMade (.switch true 0x5000) pairAway :=
    .switch true 0x5000 ⟨0x1000,0x1100,by decide⟩ (by decide) rfl (by decide) (by decide) (by decide) (by decide)
  have run : Next pairCells 0x3000 pairAway .run pairRun :=
    .run _ (fun _ _ _ _ _ _ _ => rfl) fun _ _ _ _ => rfl
  have back : Next pairCells 0x3000 pairRun (.switch false 0x5000) pairBack :=
    .switch false 0x5000 ⟨0x2000,0x2100,by decide⟩ (by decide) rfl (by decide) (by decide) (by decide) (by decide)
  have made := Steps.snoc [] (Action.create true 0x4000) pairStart pairMade Steps.nil pair_made
  have turn := Steps.snoc [] Action.run pairAway pairRun Steps.nil run
  refine ⟨?_,?_⟩
  · exact (switches_transparent pairStart pair_disjoint _ pairMade made).1 true 0x5000 pairAway _ pairRun 0x5000 pairBack away
      turn (List.forall_mem_singleton.mpr id) back
  · exact (switches_transparent pairStart pair_disjoint [] pairStart Steps.nil).2 true 0x4000 pairMade [] pairMade 0x5000
      pairAway pair_made Steps.nil nofun away

end BlackOS.ContextSwitch
