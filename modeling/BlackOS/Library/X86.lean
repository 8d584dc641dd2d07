import BlackOS.Library.Ram
import Mathlib.Logic.Function.Basic

/-! Straight-line code of the 32-bit x86 over flat memory, and the words that it pushes on a stack and pops. -/
namespace BlackOS.Library.X86
open BlackOS.Library.Ram

inductive Reg
  | eax
  | ebx
  | ecx
  | edx
  | esi
  | edi
  | ebp
  | esp
  deriving DecidableEq

/-- `eip` is where the execution goes on when the code is left. -/
structure Machine where
  regs : Reg → Word
  eip : Word
  mem : Memory

def Machine.set (m : Machine) (r : Reg) (v : Word) : Machine := {m with regs := Function.update m.regs r v}

theorem Machine.set_same (m : Machine) (r : Reg) (v : Word) : (m.set r v).regs r = v := by
  rw [Machine.set]
  exact Function.update_self r v m.regs

theorem Machine.set_other (m : Machine) (r q : Reg) (v : Word) (other : q ≠ r) : (m.set r v).regs q = m.regs q := by
  rw [Machine.set]
  exact Function.update_of_ne other v m.regs

inductive Instr
  | mov (dst src : Reg)
  | load (dst base : Reg) (offset : Word)
  | store (base src : Reg)
  | push (src : Reg)
  | pop (dst : Reg)
  | ret

def Machine.push (m : Machine) (v : Word) : Machine :=
  let sp := m.regs .esp - 4
  {m.set .esp sp with mem := write32 m.mem sp v}

theorem Machine.push_sp (m : Machine) (v : Word) : (m.push v).regs .esp = m.regs .esp - 4 := m.set_same .esp _

theorem Machine.push_other (m : Machine) (v : Word) (r : Reg) (other : r ≠ .esp) : (m.push v).regs r = m.regs r :=
  m.set_other .esp r _ other

def exec (m : Machine) : Instr → Machine
  | .mov dst src => m.set dst (m.regs src)
  | .load dst base offset => m.set dst (read32 m.mem (m.regs base + offset))
  | .store base src => {m with mem := write32 m.mem (m.regs base) (m.regs src)}
  | .push src => m.push (m.regs src)
  | .pop dst => (m.set .esp (m.regs .esp + 4)).set dst (read32 m.mem (m.regs .esp))
  | .ret => {m.set .esp (m.regs .esp + 4) with eip := read32 m.mem (m.regs .esp)}

def execs (m : Machine) (code : List Instr) : Machine := code.foldl exec m

/-- A call of the code, with the address of the instruction behind it. -/
def Machine.call (m : Machine) (code : List Instr) (next : Word) : Machine := execs (m.push next) code

/-- The memory and the stack pointer after words are pushed. -/
def pushed : Memory → Word → List Word → Memory × Word
  | mem,sp,[] => (mem,sp)
  | mem,sp,v::words => pushed (write32 mem (sp - 4) v) (sp - 4) words

/-- The words lie one behind the other from the address on. -/
def Frame (mem : Memory) : Word → List Word → Prop
  | _,[] => True
  | p,v::words => read32 mem p = v ∧ Frame mem (p + 4) words

theorem pushed_cons (mem : Memory) (sp v : Word) (words : List Word) :
    pushed mem sp (v::words) = pushed (write32 mem (sp - 4) v) (sp - 4) words := rfl

theorem execs_append (m : Machine) (first second : List Instr) : execs m (first ++ second) = execs (execs m first) second :=
  List.foldl_append

section Frames
variable (mem mem' : Memory) (p : Word) (words rest : List Word)

theorem frame_congr (room : p.toNat + 4 * words.length ≤ 2^32)
    (same : ∀ x : Word, p.toNat ≤ x.toNat → x.toNat < p.toNat + 4 * words.length → mem' x = mem x)
    (frame : Frame mem p words) : Frame mem' p words := by
  induction words generalizing p with
  | nil => exact True.intro
  | cons v words ih =>
    obtain ⟨first,behind⟩ := frame
    rw [List.length_cons] at room same
    have next : (p + 4).toNat = (p.toNat + 4) % 2^32 := BitVec.toNat_add p 4
    refine ⟨(read32_congr mem mem' p (by omega) fun x low high => same x low (by omega)).trans first,?_⟩
    exact ih (p + 4) (by omega) (fun x low high => same x (by omega) (by omega)) behind

theorem frame_append : Frame mem p (words ++ rest) ↔ Frame mem p words ∧ Frame mem (p + word (4 * words.length)) rest := by
  induction words generalizing p with
  | nil =>
    have here : p + word 0 = p := BitVec.add_zero p
    rw [List.nil_append,List.length_nil,Nat.mul_zero,here]
    exact (and_iff_right True.intro).symm
  | cons v words ih =>
    have shift : p + 4 + word (4 * words.length) = p + word (4 * (v::words).length) := by
      rw [BitVec.add_assoc,List.length_cons,Nat.mul_succ,Nat.add_comm,← word_add]
      rfl
    rw [List.cons_append,Frame,Frame,ih,shift,and_assoc]

theorem frame_push (v : Word) (room : p.toNat + 4 * (words.length + 1) ≤ 2^32) (frame : Frame mem (p + 4) words) :
    Frame (write32 mem p v) p (v::words) := by
  have next : (p + 4).toNat = (p.toNat + 4) % 2^32 := BitVec.toNat_add p 4
  refine ⟨read32_write32 mem p v,frame_congr mem _ (p + 4) words (by omega) (fun x low high => ?_) frame⟩
  exact write32_sameOutside mem p v (by omega) x (by omega)

end Frames

section Pushes
variable (base : Word) (words : List Word)

/-- The stack pointer before so many words are pushed down to the base. -/
theorem push_below (n : Nat) : base + word (4 * (n + 1)) - 4 = base + word (4 * n) := by
  have split : word (4 * (n + 1)) = word (4 * n) + 4 := (word_add (4 * n) 4).symm
  rw [split,← BitVec.add_assoc]
  exact BitVec.add_sub_cancel _ 4

theorem pushed_base (mem : Memory) : (pushed mem (base + word (4 * words.length)) words).2 = base := by
  induction words generalizing mem with
  | nil => exact BitVec.add_zero base
  | cons v words ih =>
    rw [pushed_cons,List.length_cons,push_below]
    exact ih _

/-- The word that is pushed last lies first. -/
theorem pushed_frame (mem : Memory) (rest : List Word) (room : base.toNat + 4 * (words.length + rest.length) ≤ 2^32)
    (frame : Frame mem (base + word (4 * words.length)) rest) :
    Frame (pushed mem (base + word (4 * words.length)) words).1 base (words.reverse ++ rest) := by
  induction words generalizing mem rest with
  | nil =>
    have here : base + word 0 = base := BitVec.add_zero base
    rw [← here]
    exact frame
  | cons v words ih =>
    rw [List.length_cons] at room frame
    have here : (base + word (4 * words.length)).toNat = base.toNat + 4 * words.length := by
      rw [BitVec.toNat_add,word_toNat _ (by omega)]
      exact Nat.mod_eq_of_lt (by omega)
    have above : base + word (4 * words.length) + 4 = base + word (4 * (words.length + 1)) := by
      rw [← push_below,BitVec.sub_add_cancel]
    rw [pushed_cons,List.length_cons,push_below,List.reverse_cons,List.append_assoc]
    refine ih _ (v::rest) (by rw [List.length_cons]; omega) ?_
    exact frame_push mem _ rest v (by omega) (above ▸ frame)

theorem pushed_sameOutside (mem : Memory) (room : base.toNat + 4 * words.length ≤ 2^32) :
    SameOutside base.toNat (base.toNat + 4 * words.length) mem (pushed mem (base + word (4 * words.length)) words).1 := by
  induction words generalizing mem with
  | nil => exact SameOutside.refl _ _ mem
  | cons v words ih =>
    rw [List.length_cons] at room
    have here : (base + word (4 * words.length)).toNat = base.toNat + 4 * words.length := by
      rw [BitVec.toNat_add,word_toNat _ (by omega)]
      exact Nat.mod_eq_of_lt (by omega)
    rw [pushed_cons,List.length_cons,push_below]
    have first := write32_sameOutside mem (base + word (4 * words.length)) v (by omega)
    exact (first.widen (by omega) (by omega)).trans ((ih _ (by omega)).widen (Nat.le_refl _) (by omega))

end Pushes

section Code
variable (m : Machine) (regs : List Reg) (apart : .esp ∉ regs)
include apart

theorem execs_push : execs m (regs.map .push) =
    {m.set .esp (pushed m.mem (m.regs .esp) (regs.map m.regs)).2 with
      mem := (pushed m.mem (m.regs .esp) (regs.map m.regs)).1} := by
  induction regs generalizing m with
  | nil =>
    have same : Function.update m.regs .esp (m.regs .esp) = m.regs := Function.update_eq_self _ _
    rw [List.map_nil,List.map_nil,pushed,Machine.set,same]
    rfl
  | cons r regs ih =>
    have other : regs.map (m.push (m.regs r)).regs = regs.map m.regs := by
      refine List.map_congr_left fun q among => m.push_other _ q fun same => apart ?_
      exact same ▸ List.mem_cons_of_mem r among
    have step : execs m ((r::regs).map .push) = execs (m.push (m.regs r)) (regs.map .push) := rfl
    rw [step,ih _ fun among => apart (List.mem_cons_of_mem r among),other,Machine.push_sp,List.map_cons,pushed_cons]
    simp only [Machine.set,Machine.push,Function.update_idem]

structure Popped (m m' : Machine) (regs : List Reg) (words : List Word) : Prop where
  mem : m'.mem = m.mem
  sp : m'.regs .esp = m.regs .esp + word (4 * words.length)
  popped : regs.map m'.regs = words
  others : ∀ r, r ∉ regs → r ≠ .esp → m'.regs r = m.regs r

theorem execs_pop (words : List Word) (distinct : regs.Nodup) (many : regs.length = words.length)
    (frame : Frame m.mem (m.regs .esp) words) : Popped m (execs m (regs.map .pop)) regs words := by
  induction regs generalizing m words with
  | nil =>
    rw [List.length_eq_zero_iff.mp many.symm]
    exact ⟨rfl,(BitVec.add_zero _).symm,rfl,fun _ _ _ => rfl⟩
  | cons r regs ih =>
    match words with
    | [] => cases many
    | v::words =>
      obtain ⟨rfl,behind⟩ := frame
      obtain ⟨fresh,distinct⟩ := List.nodup_cons.mp distinct
      have own : r ≠ .esp := fun same => apart (same ▸ List.mem_cons_self)
      let next := (m.set .esp (m.regs .esp + 4)).set r (read32 m.mem (m.regs .esp))
      have step : execs m ((r::regs).map .pop) = execs next (regs.map .pop) := rfl
      have sp : next.regs .esp = m.regs .esp + 4 :=
        (Machine.set_other _ r .esp _ own.symm).trans (m.set_same .esp _)
      have rest := ih next (fun among => apart (List.mem_cons_of_mem r among)) words distinct
        (Nat.succ.inj many) (sp ▸ behind)
      rw [step]
      refine ⟨rest.mem,?_,?_,fun q absent other => ?_⟩
      · rw [rest.sp,sp,BitVec.add_assoc,List.length_cons,Nat.mul_succ,Nat.add_comm,← word_add]
        rfl
      · rw [List.map_cons,rest.popped,rest.others r fresh own]
        exact congrArg (List.cons · words) (Machine.set_same _ r _)
      · rw [rest.others q (fun among => absent (List.mem_cons_of_mem r among)) other]
        have apart : q ≠ r := fun same => absent (same ▸ List.mem_cons_self)
        exact (Machine.set_other _ r q _ apart).trans (m.set_other .esp q _ other)

end Code

end BlackOS.Library.X86
