import BlackOS.Library.Ram
import BlackOS.Library.Run
import Mathlib.Logic.Function.Basic
import Mathlib.Data.Fin.Basic

/-! The shared-memory segments of `kernel/ipc/ipc.c`, with the references to them that are
outstanding. The count of the code is an `int` that wraps around. -/
namespace BlackOS.SharedMemory
open BlackOS.Library.Ram BlackOS.Library.Run

abbrev Slot := Fin 16

/-- `black_shm_t`. -/
structure Segment where
  key : Word
  addr : Word
  size : Word
  refCount : Word
  active : Bool

abbrev Table := Slot → Segment

/-- The segments as `black_ipc_init` leaves them. -/
def blackIpcInit : Table := fun _ => ⟨0,0,0,0,false⟩

variable (t : Table)

/-- `black_shm_create`; `mem` is what `kcalloc` returns. -/
def blackShmCreate (key sz mem : Word) : Table × Int :=
  match (List.finRange 16).find? fun i => !(t i).active with
  | none => (t,-1)
  | some i => if mem = 0 then (t,-1) else (Function.update t i ⟨key,mem,sz,1,true⟩,i.val)

theorem slot_inside (id : Int) (inside : 0 ≤ id ∧ id < 16) : id.toNat < 16 := by omega

def slot (id : Int) : Option Slot := if inside : 0 ≤ id ∧ id < 16 then some ⟨id.toNat,slot_inside id inside⟩ else none

/-- The check of `black_shm_attach` and `black_shm_detach`. -/
def valid (id : Int) : Option Slot := (slot id).filter fun i => (t i).active

def blackShmAttach (id : Int) : Table × Word :=
  match valid t id with
  | none => (t,0)
  | some i => (Function.update t i {t i with refCount := (t i).refCount + 1},(t i).addr)

/-- `black_shm_detach`, with the address that it gives to `kfree`. -/
def blackShmDetach (id : Int) : Table × Option Word :=
  match valid t id with
  | none => (t,none)
  | some i =>
    let count := (t i).refCount - 1
    if count.toInt ≤ 0 then
      (Function.update t i {t i with refCount := count,active := false},some (t i).addr)
    else (Function.update t i {t i with refCount := count},none)

/-- The segments, and for each slot the references to its segment that are outstanding, the memory
that the segment was made with and its number; the segments whose memory was freed. -/
structure World where
  segments : Table
  held : Slot → Nat
  block : Slot → Word
  serial : Slot → Nat
  made : Nat
  freed : List Nat

def boot : World := ⟨blackIpcInit,fun _ => 0,fun _ => 0,fun _ => 0,0,[]⟩

inductive Call
  | create (key sz mem : Word)
  | attach (id : Int)
  | detach (id : Int)

/-- A reference is gained by a create or attach that succeeds, and given up by a detach. -/
def step (w : World) : Call → World
  | .create key sz mem =>
    let (segments,id) := blackShmCreate w.segments key sz mem
    match slot id with
    | none => {w with segments := segments}
    | some i =>
      {w with
        segments := segments
        held := Function.update w.held i 1
        block := Function.update w.block i mem
        serial := Function.update w.serial i w.made
        made := w.made + 1}
  | .attach id =>
    let (segments,addr) := blackShmAttach w.segments id
    match slot id with
    | none => {w with segments := segments}
    | some i =>
      {w with segments := segments,held := if addr = 0 then w.held else Function.update w.held i (w.held i + 1)}
  | .detach id =>
    let (segments,free) := blackShmDetach w.segments id
    match slot id with
    | none => {w with segments := segments}
    | some i =>
      {w with
        segments := segments
        held := Function.update w.held i (w.held i - 1)
        freed := if free = none then w.freed else w.serial i :: w.freed}

/-- A segment with references is not made anew, an attach to it returns its memory, and a detach frees
its memory, for the first time, where it gives up the last reference. -/
def Lawful (w : World) : Call → Prop
  | .create key sz mem => ∀ i, slot (blackShmCreate w.segments key sz mem).2 = some i → w.held i = 0
  | .attach id => ∀ i, slot id = some i → 0 < w.held i → (blackShmAttach w.segments id).2 = w.block i
  | .detach id =>
    (slot id = none → (blackShmDetach w.segments id).2 = none) ∧
    ∀ i, slot id = some i →
      (blackShmDetach w.segments id).2 = (if w.held i = 1 then some (w.block i) else none) ∧
      (w.held i = 1 → w.serial i ∉ w.freed)

/-- The count less one is positive as an `int` unless the reference is the last one. -/
def Bounded (w : World) : Call → Prop
  | .detach id => ∀ i, slot id = some i → 1 < w.held i → 0 < (w.held i - 1) % 2^32 ∧ (w.held i - 1) % 2^32 < 2^31
  | _ => True

/-- What the code keeps of a segment with so many references. -/
structure Fits (segment : Segment) (held : Nat) (block : Word) : Prop where
  active : segment.active = true ↔ 0 < held
  count : 0 < held → segment.refCount = word held
  addr : 0 < held → segment.addr = block ∧ block ≠ 0

structure Inv (w : World) : Prop where
  fits : ∀ i, Fits (w.segments i) (w.held i) (w.block i)
  serial : ∀ i, 0 < w.held i → w.serial i < w.made ∧ w.serial i ∉ w.freed
  apart : ∀ i j, 0 < w.held i → 0 < w.held j → w.serial i = w.serial j → i = j
  old : ∀ n ∈ w.freed, n < w.made

theorem boot_inv : Inv boot :=
  ⟨fun _ => ⟨iff_of_false Bool.false_ne_true (Nat.lt_irrefl 0),nofun,nofun⟩,nofun,nofun,nofun⟩

theorem slot_val (i : Slot) : slot i.val = some i := by
  have below := i.isLt
  rw [slot,dif_pos ⟨by omega,by omega⟩]
  rfl

/-- The call acts on a slot with references, or on none. -/
theorem valid_iff (w : World) (inv : Inv w) (id : Int) (i : Slot) :
    valid w.segments id = some i ↔ slot id = some i ∧ 0 < w.held i := by
  rw [valid,Option.filter_eq_some_iff,(inv.fits i).active]

theorem valid_none (w : World) (inv : Inv w) (id : Int) (idle : ∀ i, slot id = some i → w.held i = 0) :
    valid w.segments id = none := by
  rw [Option.eq_none_iff_forall_ne_some]
  intro i found
  obtain ⟨here,held⟩ := (valid_iff w inv id i).mp found
  rw [idle i here] at held
  exact Nat.lt_irrefl 0 held

theorem create_cases (key sz mem : Word) :
    blackShmCreate t key sz mem = (t,-1) ∨ ∃ i, (t i).active = false ∧ mem ≠ 0 ∧
      blackShmCreate t key sz mem = (Function.update t i ⟨key,mem,sz,1,true⟩,(i.val : Int)) := by
  rw [blackShmCreate]
  split
  · exact Or.inl rfl
  · rename_i i found
    have free := List.find?_some found
    rw [Bool.not_eq_true'] at free
    by_cases null : mem = 0
    · rw [if_pos null]
      exact Or.inl rfl
    · rw [if_neg null]
      exact Or.inr ⟨i,free,null,rfl⟩

theorem word_pred (n : Nat) (positive : 0 < n) : word n - 1 = word (n - 1) := by
  obtain ⟨m,rfl⟩ := Nat.exists_eq_add_of_lt positive
  rw [Nat.zero_add,Nat.add_sub_cancel,← word_add]
  exact BitVec.add_sub_cancel (word m) 1

theorem word_positive (n : Nat) : 0 < (word n).toInt ↔ 0 < n % 2^32 ∧ n % 2^32 < 2^31 := by
  rw [BitVec.toInt_eq_toNat_cond,word,BitVec.toNat_ofNat]
  split
  · omega
  · omega

section Steps
variable (w : World) (inv : Inv w)
include inv

theorem attach_idle (id : Int) (idle : ∀ i, slot id = some i → w.held i = 0) : step w (.attach id) = w := by
  rw [step,blackShmAttach,valid_none w inv id idle]
  dsimp only
  split
  · rfl
  · rw [if_pos rfl]

theorem detach_idle (id : Int) (idle : ∀ i, slot id = some i → w.held i = 0) : step w (.detach id) = w := by
  rw [step,blackShmDetach,valid_none w inv id idle]
  dsimp only
  split
  · rfl
  · rename_i i here
    have same : w.held i - 1 = w.held i := by rw [idle i here]
    rw [if_pos rfl,same,Function.update_eq_self]

theorem attach_held (id : Int) (i : Slot) (here : slot id = some i) (held : 0 < w.held i) :
    blackShmAttach w.segments id =
      (Function.update w.segments i {w.segments i with refCount := word (w.held i + 1)},w.block i) := by
  rw [blackShmAttach,(valid_iff w inv id i).mpr ⟨here,held⟩]
  dsimp only
  rw [(inv.fits i).count held,((inv.fits i).addr held).1,← word_add]
  rfl

theorem attach_references (id : Int) (i : Slot) (here : slot id = some i) (held : 0 < w.held i) :
    (step w (.attach id)).held i = w.held i + 1 ∧ (step w (.attach id)).block = w.block := by
  rw [step,attach_held w inv id i here held]
  dsimp only
  rw [here]
  dsimp only
  rw [if_neg ((inv.fits i).addr held).2,Function.update_self]
  exact ⟨rfl,rfl⟩

theorem detach_held (id : Int) (i : Slot) (here : slot id = some i) (held : 0 < w.held i) :
    blackShmDetach w.segments id =
      if 0 < (word (w.held i - 1)).toInt then
        (Function.update w.segments i {w.segments i with refCount := word (w.held i - 1)},none)
      else
        (Function.update w.segments i {w.segments i with refCount := word (w.held i - 1),active := false},
          some (w.block i)) := by
  rw [blackShmDetach,(valid_iff w inv id i).mpr ⟨here,held⟩]
  dsimp only
  rw [(inv.fits i).count held,((inv.fits i).addr held).1,word_pred (w.held i) held]
  by_cases more : 0 < (word (w.held i - 1)).toInt
  · rw [if_pos more,if_neg (Int.not_le.mpr more)]
  · rw [if_neg more,if_pos (Int.not_lt.mp more)]

/-- One segment changes, and is freed where it has no reference left. -/
theorem Inv.change (i : Slot) (segment : Segment) (n : Nat) (held : 0 < w.held i)
    (fits : Fits segment n (w.block i)) (freed : List Nat)
    (gone : freed = w.freed ∨ n = 0 ∧ freed = w.serial i::w.freed) :
    Inv ⟨Function.update w.segments i segment,Function.update w.held i n,w.block,w.serial,w.made,freed⟩ := by
  have before (j : Slot) (positive : 0 < Function.update w.held i n j) : 0 < w.held j := by
    by_cases same : j = i
    · rw [same]
      exact held
    · rwa [Function.update_of_ne same] at positive
  refine ⟨fun j => ?_,fun j positive => ⟨(inv.serial j (before j positive)).1,?_⟩,
    fun j k first second => inv.apart j k (before j first) (before k second),?_⟩
  · dsimp only
    by_cases same : j = i
    · rw [same,Function.update_self,Function.update_self]
      exact fits
    · rw [Function.update_of_ne same,Function.update_of_ne same]
      exact inv.fits j
  · have kept := (inv.serial j (before j positive)).2
    rcases gone with same | last
    · rw [same]
      exact kept
    · rw [last.2,List.mem_cons]
      intro member
      rcases member with mine | old
      · rw [inv.apart j i (before j positive) held mine] at positive
        dsimp only at positive
        rw [Function.update_self,last.1] at positive
        exact Nat.lt_irrefl 0 positive
      · exact kept old
  · intro k member
    rcases gone with same | last
    · exact inv.old k (same ▸ member)
    · rw [last.2,List.mem_cons] at member
      rcases member with mine | old
      · rw [mine]
        exact (inv.serial i held).1
      · exact inv.old k old

/-- A segment is made in a slot without references, under a number that no segment has. -/
theorem Inv.make (i : Slot) (segment : Segment) (mem : Word) (fits : Fits segment 1 mem) :
    Inv ⟨Function.update w.segments i segment,Function.update w.held i 1,Function.update w.block i mem,
      Function.update w.serial i w.made,w.made + 1,w.freed⟩ := by
  have fresh : w.made ∉ w.freed := fun member => Nat.lt_irrefl _ (inv.old _ member)
  have other (j : Slot) (apart : j ≠ i) (positive : 0 < Function.update w.held i 1 j) :
      0 < w.held j ∧ Function.update w.serial i w.made j = w.serial j := by
    rw [Function.update_of_ne apart] at positive
    exact ⟨positive,Function.update_of_ne apart _ _⟩
  refine ⟨fun j => ?_,fun j positive => ?_,fun j k first second same => ?_,
    fun n member => Nat.lt_succ_of_lt (inv.old n member)⟩
  · dsimp only
    by_cases same : j = i
    · rw [same,Function.update_self,Function.update_self,Function.update_self]
      exact fits
    · rw [Function.update_of_ne same,Function.update_of_ne same,Function.update_of_ne same]
      exact inv.fits j
  · dsimp only at positive ⊢
    by_cases same : j = i
    · rw [same,Function.update_self]
      exact ⟨Nat.lt_succ_self _,fresh⟩
    · obtain ⟨held,number⟩ := other j same positive
      rw [number]
      exact ⟨Nat.lt_succ_of_lt (inv.serial j held).1,(inv.serial j held).2⟩
  · dsimp only at first second same
    have aside (j : Slot) (apart : j ≠ i) (positive : 0 < Function.update w.held i 1 j) :
        Function.update w.serial i w.made j ≠ w.made := by
      obtain ⟨held,number⟩ := other j apart positive
      rw [number]
      exact Nat.ne_of_lt (inv.serial j held).1
    by_cases left : j = i
    · by_cases right : k = i
      · rw [left,right]
      · rw [left,Function.update_self] at same
        exact absurd same.symm (aside k right second)
    · by_cases right : k = i
      · rw [right,Function.update_self] at same
        exact absurd same (aside j left first)
      · obtain ⟨held,number⟩ := other j left first
        obtain ⟨held',number'⟩ := other k right second
        rw [number,number'] at same
        exact inv.apart j k held held' same

theorem create_step (key sz mem : Word) :
    Lawful w (.create key sz mem) ∧ Inv (step w (.create key sz mem)) := by
  rw [Lawful,step]
  rcases create_cases w.segments key sz mem with refused | made
  · rw [refused]
    exact ⟨fun i here => (nomatch here),inv⟩
  · obtain ⟨i,free,mapped,made⟩ := made
    have idle : w.held i = 0 := by
      rw [← Nat.le_zero,← Nat.not_lt,← (inv.fits i).active,free]
      exact Bool.false_ne_true
    rw [made]
    dsimp only
    rw [slot_val]
    refine ⟨fun j same => by rw [← Option.some.inj same,idle],?_⟩
    exact inv.make w i _ mem ⟨iff_of_true rfl Nat.one_pos,fun _ => rfl,fun _ => ⟨rfl,mapped⟩⟩

theorem attach_step (id : Int) : Lawful w (.attach id) ∧ Inv (step w (.attach id)) := by
  by_cases idle : ∀ i, slot id = some i → w.held i = 0
  · rw [attach_idle w inv id idle]
    exact ⟨fun i here held => absurd (idle i here) (Nat.ne_of_gt held),inv⟩
  · simp only [not_forall,← Nat.pos_iff_ne_zero] at idle
    obtain ⟨i,here,held⟩ := idle
    have fits := inv.fits i
    rw [Lawful,step,attach_held w inv id i here held]
    dsimp only
    rw [here]
    refine ⟨fun j same _ => by rw [Option.some.inj same],?_⟩
    dsimp only
    rw [if_neg (fits.addr held).2]
    refine inv.change w i {w.segments i with refCount := word (w.held i + 1)} (w.held i + 1) held
      ⟨?_,fun _ => rfl,fun _ => fits.addr held⟩ w.freed (Or.inl rfl)
    exact iff_of_true (fits.active.mpr held) (Nat.succ_pos _)

/-- A detach that gives up a reference is lawful where the code sees whether it was the last. -/
theorem detach_lawful (id : Int) (i : Slot) (here : slot id = some i) (held : 0 < w.held i) :
    Lawful w (.detach id) ↔ (0 < (word (w.held i - 1)).toInt ↔ w.held i ≠ 1) := by
  have number := (inv.serial i held).2
  rw [Lawful,detach_held w inv id i here held,here]
  constructor
  · intro lawful
    have result := (lawful.2 i rfl).1
    by_cases more : 0 < (word (w.held i - 1)).toInt
    · rw [if_pos more] at result
      refine iff_of_true more fun last => ?_
      rw [if_pos last] at result
      exact nomatch result
    · rw [if_neg more] at result
      refine iff_of_false more fun rest => ?_
      rw [if_neg rest] at result
      exact nomatch result
  · intro agree
    refine ⟨nofun,fun j same => ?_⟩
    rw [← Option.some.inj same]
    refine ⟨?_,fun _ => number⟩
    by_cases last : w.held i = 1
    · rw [if_pos last,if_neg fun more => agree.mp more last]
    · rw [if_neg last,if_pos (agree.mpr last)]

theorem detach_agree (id : Int) : Lawful w (.detach id) ↔ Bounded w (.detach id) := by
  by_cases idle : ∀ i, slot id = some i → w.held i = 0
  · rw [Lawful,Bounded,blackShmDetach,valid_none w inv id idle]
    refine iff_of_true ⟨fun _ => rfl,fun i here => ?_⟩ fun i here more => ?_
    · rw [idle i here]
      exact ⟨rfl,nofun⟩
    · rw [idle i here] at more
      exact absurd more (by decide)
  · simp only [not_forall,← Nat.pos_iff_ne_zero] at idle
    obtain ⟨i,here,held⟩ := idle
    rw [detach_lawful w inv id i here held,word_positive,Bounded]
    constructor
    · intro agree j same more
      rw [← Option.some.inj (here.symm.trans same)] at more ⊢
      exact agree.mpr (Nat.ne_of_gt more)
    · intro bounded
      constructor
      · intro positive last
        rw [last] at positive
        exact absurd positive.1 (by decide)
      · intro rest
        exact bounded i here (by omega)

theorem detach_kept (id : Int) (bounded : Bounded w (.detach id)) : Inv (step w (.detach id)) := by
  have lawful := (detach_agree w inv id).mpr bounded
  by_cases idle : ∀ i, slot id = some i → w.held i = 0
  · rw [detach_idle w inv id idle]
    exact inv
  · simp only [not_forall,← Nat.pos_iff_ne_zero] at idle
    obtain ⟨i,here,held⟩ := idle
    have fits := inv.fits i
    have agree := (detach_lawful w inv id i here held).mp lawful
    rw [step,detach_held w inv id i here held]
    by_cases last : w.held i = 1
    · rw [if_neg fun more => agree.mp more last]
      dsimp only
      rw [here]
      dsimp only
      rw [if_neg nofun,last]
      refine inv.change w i {w.segments i with refCount := word 0,active := false} 0 held
        ⟨?_,nofun,nofun⟩ _ (Or.inr ⟨rfl,rfl⟩)
      exact iff_of_false Bool.false_ne_true (Nat.lt_irrefl 0)
    · rw [if_pos (agree.mpr last)]
      dsimp only
      rw [here]
      dsimp only
      rw [if_pos rfl]
      refine inv.change w i {w.segments i with refCount := word (w.held i - 1)} (w.held i - 1) held
        ⟨?_,fun _ => rfl,fun _ => fits.addr held⟩ w.freed (Or.inl rfl)
      exact iff_of_true (fits.active.mpr held) (by omega)

theorem step_agree (call : Call) : Lawful w call ↔ Bounded w call := by
  cases call with
  | create key sz mem => exact iff_of_true (create_step w inv key sz mem).1 True.intro
  | attach id => exact iff_of_true (attach_step w inv id).1 True.intro
  | detach id => exact detach_agree w inv id

theorem step_inv (call : Call) (bounded : Bounded w call) : Inv (step w call) := by
  cases call with
  | create key sz mem => exact (create_step w inv key sz mem).2
  | attach id => exact (attach_step w inv id).2
  | detach id => exact detach_kept w inv id bounded

end Steps

theorem attaches_references (id : Int) (i : Slot) (here : slot id = some i) (n : Nat) (w : World) (inv : Inv w)
    (held : 0 < w.held i) :
    let w' := (List.replicate n (Call.attach id)).foldl step w
    Inv w' ∧ w'.held i = w.held i + n ∧ w'.block = w.block := by
  induction n generalizing w with
  | zero => exact ⟨inv,rfl,rfl⟩
  | succ n ih =>
    obtain ⟨more,kept⟩ := attach_references w inv id i here held
    obtain ⟨last,count,blocks⟩ := ih (step w (.attach id)) (step_inv w inv (.attach id) True.intro) (by omega)
    rw [List.replicate_succ,List.foldl_cons]
    exact ⟨last,by rw [count,more]; omega,blocks.trans kept⟩

/-- The memory of every segment lives as long as its references, in every run in which the count of
the code tells the last reference from the others. -/
theorem shm_lifetime_iff (calls : List Call) :
    Throughout step Lawful boot calls ↔ Throughout step Bounded boot calls :=
  throughout_iff step Lawful Bounded Inv (fun w call inv => step_agree w inv call)
    (fun w call inv => step_inv w inv call) boot boot_inv calls

theorem attached_freed (n : Nat) (attached : 0 < n) (negative : ¬0 < (word n).toInt) :
    let calls := .create 1 64 0xD0000010::List.replicate n (Call.attach 0)
    let w := calls.foldl step boot
    w.held 0 = n + 1 ∧ (blackShmDetach w.segments 0).2 = some 0xD0000010 ∧
      ¬Throughout step Lawful boot (calls ++ [.detach 0]) := by
  intro calls w
  have inv : Inv (step boot (.create 1 64 0xD0000010)) := step_inv boot boot_inv _ True.intro
  obtain ⟨last,count,blocks⟩ := attaches_references 0 0 rfl n _ inv Nat.one_pos
  have held : w.held 0 = n + 1 := count.trans (Nat.add_comm 1 n)
  have freed : (blackShmDetach w.segments 0).2 = some 0xD0000010 := by
    rw [detach_held w last 0 0 rfl (by omega),held,Nat.add_sub_cancel,if_neg negative]
    exact congrArg Option.some (congrFun blocks 0)
  refine ⟨held,freed,fun lawful => ?_⟩
  have final := (throughout_append step Lawful boot calls [.detach 0]).mp lawful
  have kept := (final.2.1.2 0 rfl).1
  rw [freed,if_neg (show ¬w.held 0 = 1 by omega)] at kept
  exact nomatch kept

/-- After `2^31` attaches the count is negative, and the first detach frees the segment. -/
theorem shm_freed_early :
    let calls := .create 1 64 0xD0000010::List.replicate (2^31) (Call.attach 0)
    let w := calls.foldl step boot
    w.held 0 = 2^31 + 1 ∧ (blackShmDetach w.segments 0).2 = some 0xD0000010 ∧
      ¬Throughout step Lawful boot (calls ++ [.detach 0]) :=
  attached_freed (2^31) (by decide) (by decide)

end BlackOS.SharedMemory
