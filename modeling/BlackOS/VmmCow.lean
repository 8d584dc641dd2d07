import BlackOS.VmmQueries
import BlackOS.Library.Run

/-! Copy on write over runs of mappings, unmappings and page faults from `black_vmm_init`.
No call but the page fault's copy itself counts the pages that share a frame, so that the
counts stay 0 and the handler never copies. -/
namespace BlackOS.Vmm
open BlackOS.Library.Ram BlackOS.Library.Paging BlackOS.Library.Bitmap BlackOS.Library.Run
open BlackOS.Pmm (maxFrames Takes)

/-- What the boot code and `black_pmm_init` leave: two tables that map the first eight
megabytes at `KERNEL_VMA`, and their frames and the directory's taken. -/
structure Booted (s : Machine) (first second : Nat) : Prop where
  root : s.cr3 = word (s.dir * 4096)
  tables : ∀ i < 1024, s.table i =
    if i = 768 then word (first * 4096 + 3) else if i = 769 then word (second * 4096 + 3) else 0
  lower : ∀ j < 1024, entry s.mem first j = word (j * 4096 + 3)
  upper : ∀ j < 1024, entry s.mem second j = word ((1024 + j) * 4096 + 3)
  small : s.dir < 2048 ∧ first < 2048 ∧ second < 2048
  apart : first ≠ second ∧ first ≠ s.dir ∧ second ≠ s.dir
  taken : isSet s.pmm.bitmap 0 = true ∧ isSet s.pmm.bitmap s.dir = true ∧
    isSet s.pmm.bitmap first = true ∧ isSet s.pmm.bitmap second = true

/-- Slots of tables below the window name frames that have a count, and an empty slot is
not marked copy on write. -/
def Counted (s : Machine) : Prop :=
  ∀ p, p / 1024 < 1023 → present (s.table (p / 1024)) = true →
    (present (s.slot p) = true → frame (s.slot p) < maxFrames) ∧
    (present (s.slot p) = false → s.slot p &&& pageCow = 0)

structure Vm.Inv (s : Vm) : Prop where
  order : InOrder s.machine
  counted : Counted s.machine
  none : ∀ f < maxFrames, s.refcount f = 0

theorem linked_counted (s s' : Machine) (p t f : Nat) (linked : Linked s s' p t f) (low : f < maxFrames)
    (counted : Counted s) : Counted s' := by
  intro q below there
  by_cases same : q = p
  · have here := linked_slot_here s s' p t f linked
    rw [same,here.1,here.2]
    exact ⟨fun _ => low,nofun⟩
  · rcases linked_slot_other s s' p t f linked q below same there with ⟨was,slot⟩ | ⟨_,slot⟩
    · rw [slot]
      exact counted q below was
    · rw [slot]
      exact ⟨fun mapped => absurd mapped (by decide),fun _ => by decide⟩

theorem setSlot_counted (s : Machine) (order : InOrder s) (p : Nat) (low : p / 1024 < 1023)
    (mapped : present (s.table (p / 1024)) = true) (e : Word) (counted : Counted s)
    (fits : present e = true → frame e < maxFrames) (plain : present e = false → e &&& pageCow = 0) :
    Counted (s.setSlot p e) := by
  intro q below there
  rw [setSlot_table s order.ordered p low mapped e _ (by omega)] at there
  by_cases same : q = p
  · rw [same,setSlot_here s order.ordered p low mapped e]
    exact ⟨fits,plain⟩
  · rw [setSlot_other s order.ordered p low mapped e q (by omega) there same]
    exact counted q below there

/-- The handler's branch for copy on write is taken. -/
def Breaks (s : Machine) (addr err : Word) : Prop :=
  present (s.table (addr.toNat / 4096 / 1024)) = true ∧ s.slot (addr.toNat / 4096) &&& pageCow ≠ 0 ∧
    err &&& 0x02 ≠ 0

/-- The entry that the handler leaves when it does not copy. -/
def writable (e : Word) : Word :=
  ((e &&& 0xFFFFF000) ||| pagePresent ||| pageWrite ||| pageUser) &&& ~~~pageCow

theorem writable_frame (e : Word) : present (writable e) = true ∧ frame (writable e) = frame e := by
  refine ⟨?_,?_⟩
  · unfold writable present
    rw [BitVec.getLsbD_and,BitVec.getLsbD_or,BitVec.getLsbD_or,BitVec.getLsbD_or]
    have bit : pagePresent.getLsbD 0 = true := by decide
    have rest : (~~~pageCow).getLsbD 0 = true := by decide
    rw [bit,rest,Bool.or_true,Bool.true_or,Bool.true_or,Bool.and_true]
  · rw [writable,frame_and _ _ (by decide),frame_or _ _ (by decide),frame_or _ _ (by decide),
      frame_or _ _ (by decide),frame_masked]

theorem fault_refused (s : Vm) (recursive : Recursive s.machine.mem s.machine.dir) (addr err : Word)
    (whole : ¬ Breaks s.machine addr err) : blackVmmHandlePageFault s addr err = some (s,-1) := by
  have directory := load_pde s.machine recursive addr
  by_cases table : present (s.machine.table (addr.toNat / 4096 / 1024)) = true
  · have visible := present_ne _ table
    have read := load_pte s.machine recursive addr table
    have skipped : ¬ (s.machine.slot (addr.toNat / 4096) &&& pageCow ≠ 0 ∧ err &&& 0x02 ≠ 0) :=
      fun both => whole ⟨table,both⟩
    simp only [blackVmmHandlePageFault,directory,read,Option.bind_eq_bind,Option.bind_some,
      if_neg visible,if_neg skipped]
    rfl
  · have hidden := (absent_iff _).mpr (Bool.eq_false_iff.mpr table)
    simp only [blackVmmHandlePageFault,directory,Option.bind_eq_bind,Option.bind_some,if_pos hidden]
    rfl

theorem count_inside (s : Vm) (f : Nat) (inside : f < maxFrames) : s.count f = some (s.refcount f) := if_pos inside

theorem fault_inPlace (s : Vm) (recursive : Recursive s.machine.mem s.machine.dir) (addr err : Word)
    (breaks : Breaks s.machine addr err) (inside : frame (s.machine.slot (addr.toNat / 4096)) < maxFrames)
    (few : s.refcount (frame (s.machine.slot (addr.toNat / 4096))) ≤ 1) :
    blackVmmHandlePageFault s addr err =
      some (⟨s.machine.setSlot (addr.toNat / 4096) (writable (s.machine.slot (addr.toNat / 4096))),
        s.refcount⟩,0) := by
  obtain ⟨table,both⟩ := breaks
  have directory := load_pde s.machine recursive addr
  have visible := present_ne _ table
  have read := load_pte s.machine recursive addr table
  have store := store_pte s.machine recursive addr table (writable (s.machine.slot (addr.toNat / 4096)))
  have index : ((s.machine.slot (addr.toNat / 4096) &&& 0xFFFFF000) / pageSize).toNat =
      frame (s.machine.slot (addr.toNat / 4096)) := by
    rw [BitVec.toNat_udiv]
    exact frame_masked _
  unfold writable at store
  simp only [blackVmmHandlePageFault,directory,read,Option.bind_eq_bind,Option.bind_some,if_neg visible,
    if_pos both,index,count_inside s _ inside,if_pos few,store]
  rfl

inductive Call
  | map (virt phys flags : Word)
  | unmap (virt : Word)
  | fault (addr err : Word)

/-- The machine, and the address of the last call if it was a page fault that returned 0. -/
structure System where
  vm : Vm
  handled : Option Word

def System.step (s : System) : Call → Option System
  | .map virt phys flags =>
    (blackVmmMapPage s.vm.machine virt phys flags).map fun m => ⟨⟨m,s.vm.refcount⟩,none⟩
  | .unmap virt => (blackVmmUnmapPage s.vm.machine virt).map fun m => ⟨⟨m,s.vm.refcount⟩,none⟩
  | .fault addr err =>
    (blackVmmHandlePageFault s.vm addr err).map fun r => ⟨r.1,if r.2 = 0 then some addr else none⟩

/-- No other page is mapped to the frame of the page. -/
def Alone (s : Machine) (addr : Word) : Prop :=
  ∀ q < 2^20, q ≠ addr.toNat / 4096 → ∀ f, s.frameAt q = some f → s.frameAt (addr.toNat / 4096) ≠ some f

def Isolated (s : System) : Prop := ∀ a, s.handled = some a → Alone s.vm.machine a

/-- Calls below the window on frames that have a count, with a fault on a copy-on-write
page only once no other page shares its frame. -/
def Careful (s : System) : Call → Prop
  | .map virt phys _ => virt.toNat < 0xFFC00000 ∧ frame phys < maxFrames
  | .unmap virt => virt.toNat < 0xFFC00000
  | .fault addr err => addr.toNat < 0xFFC00000 ∧ (Breaks s.vm.machine addr err → Alone s.vm.machine addr)

def CarefulNext (s : System) (c : Call) (s' : System) : Prop := Careful s c ∧ s.step c = some s'

theorem map_inv (s : Vm) (inv : s.Inv) (virt phys flags : Word) (low : virt.toNat < 0xFFC00000)
    (fits : frame phys < maxFrames) (m : Machine)
    (mapped : blackVmmMapPage s.machine virt phys flags = some m) : Vm.Inv ⟨m,s.refcount⟩ := by
  rcases mapPage_inOrder s.machine inv.order virt phys flags low with ⟨same,_⟩ | ⟨s',t,found,linked⟩
  · obtain rfl := Option.some.inj (same.symm.trans mapped)
    exact inv
  · obtain rfl := Option.some.inj (found.symm.trans mapped)
    exact ⟨linked_inOrder _ _ _ t _ inv.order linked,linked_counted _ _ _ t _ linked fits inv.counted,
      inv.none⟩

theorem setSlot_inv (s : Vm) (inv : s.Inv) (p : Nat) (low : p / 1024 < 1023)
    (there : present (s.machine.table (p / 1024)) = true) (e : Word)
    (fits : present e = true → frame e < maxFrames) (plain : present e = false → e &&& pageCow = 0) :
    Vm.Inv ⟨s.machine.setSlot p e,s.refcount⟩ :=
  ⟨setSlot_inOrder s.machine inv.order p low there e,
    setSlot_counted s.machine inv.order p low there e inv.counted fits plain,inv.none⟩

theorem unmap_inv (s : Vm) (inv : s.Inv) (virt : Word) (low : virt.toNat < 0xFFC00000) (m : Machine)
    (unmapped : blackVmmUnmapPage s.machine virt = some m) : Vm.Inv ⟨m,s.refcount⟩ := by
  rw [unmapPage_eq s.machine inv.order.ordered.recursive] at unmapped
  obtain rfl := Option.some.inj unmapped
  by_cases there : present (s.machine.table (virt.toNat / 4096 / 1024)) = true
  · rw [if_pos there]
    exact setSlot_inv s inv _ (by omega) there 0 (fun mapped => absurd mapped (by decide))
      fun _ => by decide
  · rw [if_neg there]
    exact inv

/-- A page fault is refused, or makes the page writable where it is. -/
theorem fault_outcome (s : Vm) (inv : s.Inv) (addr err : Word) (low : addr.toNat < 0xFFC00000) :
    (¬ Breaks s.machine addr err ∧ blackVmmHandlePageFault s addr err = some (s,-1)) ∨
    ∃ s' : Vm, Breaks s.machine addr err ∧ blackVmmHandlePageFault s addr err = some (s',0) ∧ s'.Inv ∧
      ∀ q < 2^20, s'.machine.frameAt q = s.machine.frameAt q := by
  have ordered := inv.order.ordered
  by_cases breaks : Breaks s.machine addr err
  · right
    have there := breaks.1
    obtain ⟨fits,plain⟩ := inv.counted (addr.toNat / 4096) (by omega) there
    have shown : present (s.machine.slot (addr.toNat / 4096)) = true := by
      by_contra hidden
      exact breaks.2.1 (plain (Bool.eq_false_iff.mpr hidden))
    have count := inv.none _ (fits shown)
    have final := writable_frame (s.machine.slot (addr.toNat / 4096))
    have handled := fault_inPlace s ordered.recursive addr err breaks (fits shown) (by rw [count]; decide)
    refine ⟨_,breaks,handled,?_,?_⟩
    · refine setSlot_inv s inv _ (by omega) there _ (fun _ => ?_) fun hidden => ?_
      · rw [final.2]
        exact fits shown
      · rw [final.1] at hidden
        cases hidden
    · intro q inside
      rw [Machine.frameAt,setSlot_pageEntry s.machine ordered _ (by omega) there _ q (by omega)]
      by_cases same : q = addr.toNat / 4096
      · rw [if_pos same,if_pos final.1,same,Machine.frameAt,Machine.pageEntry,if_pos there,if_pos shown,
          Option.map_some,Option.map_some,final.2]
      · rw [if_neg same,Machine.frameAt]
  · exact .inl ⟨breaks,fault_refused s ordered.recursive addr err breaks⟩

theorem alone_same (s s' : Machine) (same : ∀ q < 2^20, s'.frameAt q = s.frameAt q) (addr : Word) :
    Alone s' addr ↔ Alone s addr := by
  have bound := addr.isLt
  unfold Alone
  rw [same (addr.toNat / 4096) (by omega)]
  refine forall_congr' fun q => forall_congr' fun inside => ?_
  rw [same q inside]

theorem careful_step (s : System) (inv : s.vm.Inv) (c : Call) (s' : System)
    (step : CarefulNext s c s') : s'.vm.Inv ∧ Isolated s' := by
  obtain ⟨careful,taken⟩ := step
  cases c with
  | map virt phys flags =>
    obtain ⟨m,mapped,rfl⟩ := Option.map_eq_some_iff.mp taken
    exact ⟨map_inv s.vm inv virt phys flags careful.1 careful.2 m mapped,nofun⟩
  | unmap virt =>
    obtain ⟨m,unmapped,rfl⟩ := Option.map_eq_some_iff.mp taken
    exact ⟨unmap_inv s.vm inv virt careful m unmapped,nofun⟩
  | fault addr err =>
    obtain ⟨r,returned,rfl⟩ := Option.map_eq_some_iff.mp taken
    rcases fault_outcome s.vm inv addr err careful.1 with ⟨_,refused⟩ | ⟨vm',breaks,handled,kept,same⟩
    · obtain rfl := Option.some.inj (refused.symm.trans returned)
      exact ⟨inv,nofun⟩
    · obtain rfl := Option.some.inj (handled.symm.trans returned)
      refine ⟨kept,fun a here => ?_⟩
      obtain rfl := Option.some.inj here
      exact (alone_same s.vm.machine vm'.machine same addr).mpr (careful.2 breaks)

theorem boot_entry (f : Nat) (low : f < 2048) :
    present (word (f * 4096 + 3)) = true ∧ frame (word (f * 4096 + 3)) = f := by
  have value := word_toNat (f * 4096 + 3) (by omega)
  refine ⟨?_,?_⟩
  · have odd : (f * 4096 + 3) % 2 = 1 := by omega
    rw [present,BitVec.getLsbD,value,Nat.testBit_zero,odd]
    rfl
  · rw [frame,value]
    omega

section Init
variable (s : Machine) (first second : Nat) (booted : Booted s first second)
include booted

theorem boot_first : s.table 768 = word (first * 4096 + 3) := booted.tables 768 (by decide)

theorem boot_second : s.table 769 = word (second * 4096 + 3) := booted.tables 769 (by decide)

/-- A frame of the first eight megabytes, seen from the kernel half. -/
theorem boot_translate (f k : Nat) (low : f < 2048) (inside : k < 4096) :
    translate s.mem s.dir (word (0xC0000000 + f * 4096 + k)) = some (address f k) := by
  have value := word_toNat (0xC0000000 + f * 4096 + k) (by omega)
  obtain ⟨_,lowFirst,lowSecond⟩ := booted.small
  have page : (0xC0000000 + f * 4096 + k) / 4096 = 768 * 1024 + f := by omega
  have rest : (0xC0000000 + f * 4096 + k) % 4096 = k := by omega
  rw [translate_page,value,page,rest]
  have shown : s.pageEntry (768 * 1024 + f) = some (word (f * 4096 + 3)) := by
    have here := boot_entry f low
    unfold Machine.pageEntry Machine.slot
    by_cases upper : f < 1024
    · have index : (768 * 1024 + f) / 1024 = 768 := by omega
      have slot : (768 * 1024 + f) % 1024 = f := by omega
      have table := boot_entry first lowFirst
      rw [index,slot,boot_first s first second booted,if_pos table.1,table.2,booted.lower f upper,
        if_pos here.1]
    · have index : (768 * 1024 + f) / 1024 = 769 := by omega
      have slot : (768 * 1024 + f) % 1024 = f - 1024 := by omega
      have place : 1024 + (f - 1024) = f := by omega
      have table := boot_entry second lowSecond
      rw [index,slot,boot_second s first second booted,if_pos table.1,table.2,booted.upper _ (by omega),
        place,if_pos here.1]
  rw [shown,Option.map_some,(boot_entry f low).2]

theorem init_eq (refcount : Nat → Word) : blackVmmInit ⟨s,refcount⟩ s.cr3 =
    some ⟨{s with mem := setEntry s.mem s.dir 1023 (word (s.dir * 4096 + 3))},
      fun i => if i < 256 * 1024 then 0 else refcount i⟩ := by
  have low := booted.small.1
  have target : s.cr3 + Pmm.kernelVma + 1023 * 4 = word (0xC0000000 + s.dir * 4096 + 4 * 1023) := by
    apply BitVec.eq_of_toNat_eq
    rw [booted.root,word_toNat _ (by omega),BitVec.toNat_add,BitVec.toNat_add,word_toNat _ (by omega)]
    have base : Pmm.kernelVma.toNat = 0xC0000000 := by decide
    have last : (1023 * 4 : Word).toNat = 4092 := by decide
    rw [base,last]
    omega
  have value : s.cr3 ||| pagePresent ||| pageWrite = word (s.dir * 4096 + 3) := by
    have flags : pagePresent ||| pageWrite = 3 := by decide
    have shifted : s.dir * 4096 = s.dir <<< 12 := by rw [Nat.shiftLeft_eq]
    apply BitVec.eq_of_toNat_eq
    rw [BitVec.or_assoc,flags,BitVec.toNat_or,booted.root,word_toNat _ (by omega),word_toNat _ (by omega),
      shifted]
    exact (Nat.shiftLeft_add_eq_or_of_lt (by decide) s.dir).symm
  have place := boot_translate s first second booted s.dir (4 * 1023) low (by decide)
  simp only [blackVmmInit,Machine.store32,target,place,value,Option.map_some,Option.bind_eq_bind,
    Option.bind_some]
  rfl

omit booted in
theorem init_table (m : Memory) (set : m = setEntry s.mem s.dir 1023 (word (s.dir * 4096 + 3))) (i : Nat)
    (inside : i < 1024) : Machine.table {s with mem := m} i =
      if i = 1023 then word (s.dir * 4096 + 3) else s.table i := by
  subst set
  by_cases last : i = 1023
  · rw [if_pos last,last]
    exact entry_setEntry _ _ _ _
  · rw [if_neg last]
    exact entry_setEntry_other _ _ _ _ _ _ (frame_lt _) (by decide) (frame_lt _) inside (.inr last)

theorem init_cases (m : Memory) (set : m = setEntry s.mem s.dir 1023 (word (s.dir * 4096 + 3))) (i : Nat)
    (inside : i < 1024) (mapped : present (Machine.table {s with mem := m} i) = true) :
    (i = 768 ∧ frame (Machine.table {s with mem := m} i) = first) ∨
    (i = 769 ∧ frame (Machine.table {s with mem := m} i) = second) ∨
    (i = 1023 ∧ frame (Machine.table {s with mem := m} i) = s.dir) := by
  obtain ⟨lowDir,lowFirst,lowSecond⟩ := booted.small
  rw [init_table s m set i inside] at mapped ⊢
  by_cases last : i = 1023
  · rw [if_pos last]
    exact .inr (.inr ⟨last,(boot_entry _ lowDir).2⟩)
  · rw [if_neg last] at mapped ⊢
    by_cases lower : i = 768
    · rw [lower,boot_first s first second booted]
      exact .inl ⟨rfl,(boot_entry _ lowFirst).2⟩
    · by_cases upper : i = 769
      · rw [upper,boot_second s first second booted]
        exact .inr (.inl ⟨rfl,(boot_entry _ lowSecond).2⟩)
      · rw [booted.tables i inside,if_neg lower,if_neg upper] at mapped
        exact absurd mapped (by decide)

theorem init_inOrder (m : Memory) (set : m = setEntry s.mem s.dir 1023 (word (s.dir * 4096 + 3))) :
    InOrder {s with mem := m} := by
  have cases_ := init_cases s first second booted m set
  obtain ⟨apart,apartFirst,apartSecond⟩ := booted.apart
  obtain ⟨zero,dir,takenFirst,takenSecond⟩ := booted.taken
  refine ⟨⟨?_,?_⟩,?_,zero⟩
  · have last := init_table s m set 1023 (by decide)
    have own := boot_entry s.dir booted.small.1
    rw [if_pos rfl] at last
    refine ⟨?_,?_⟩
    · exact (congrArg present last).trans own.1
    · exact (congrArg frame last).trans own.2
  · intro i inside j inside' here there same
    rcases cases_ i inside here with ⟨one,left⟩ | ⟨one,left⟩ | ⟨one,left⟩
    all_goals
      rcases cases_ j inside' there with ⟨two,right⟩ | ⟨two,right⟩ | ⟨two,right⟩
    all_goals
      have joined := left.symm.trans (same.trans right)
      omega
  · intro k inside mapped low
    rcases cases_ k inside mapped with ⟨_,here⟩ | ⟨_,here⟩ | ⟨_,here⟩
    · rw [here]
      exact takenFirst
    · rw [here]
      exact takenSecond
    · rw [here]
      exact dir

theorem init_slot (m : Memory) (set : m = setEntry s.mem s.dir 1023 (word (s.dir * 4096 + 3))) (p : Nat) (below : p / 1024 < 1023)
    (there : present (Machine.table {s with mem := m} (p / 1024)) = true) :
    ∃ f < 2048, Machine.slot {s with mem := m} p = word (f * 4096 + 3) := by
  obtain ⟨lowDir,lowFirst,lowSecond⟩ := booted.small
  obtain ⟨_,apartFirst,apartSecond⟩ := booted.apart
  have kept : ∀ f < 2048, f ≠ s.dir → ∀ j < 1024, entry m f j = entry s.mem f j := by
    intro f low other j inside
    subst set
    exact entry_setEntry_other _ _ _ _ _ _ (frame_lt _) (by decide) (by omega) inside (.inl other)
  have inside := Nat.mod_lt p (by decide : 0 < 1024)
  unfold Machine.slot
  rcases init_cases s first second booted m set (p / 1024) (by omega) there with
    ⟨_,here⟩ | ⟨_,here⟩ | ⟨last,_⟩
  · refine ⟨p % 1024,by omega,?_⟩
    rw [here]
    exact (kept first lowFirst apartFirst _ inside).trans (booted.lower _ inside)
  · refine ⟨1024 + p % 1024,by omega,?_⟩
    rw [here]
    exact (kept second lowSecond apartSecond _ inside).trans (booted.upper _ inside)
  · omega

theorem init_counted (m : Memory) (set : m = setEntry s.mem s.dir 1023 (word (s.dir * 4096 + 3))) :
    Counted {s with mem := m} := by
  have most : maxFrames = 262144 := rfl
  intro p below there
  obtain ⟨f,low,slot⟩ := init_slot s first second booted m set p (by omega) there
  have entry := boot_entry f low
  rw [slot,entry.1,entry.2]
  exact ⟨fun _ => by omega,nofun⟩

/-- The kernel's pages and those of the window are mapped to frames of the first 8 MiB. -/
theorem init_frameAt (m : Memory) (set : m = setEntry s.mem s.dir 1023 (word (s.dir * 4096 + 3))) (q : Nat) (inside : q < 2^20)
    (f : Nat) (mapped : Machine.frameAt {s with mem := m} q = some f) : f < 2048 := by
  have order := init_inOrder s first second booted m set
  rw [Machine.frameAt,Machine.pageEntry] at mapped
  split_ifs at mapped with there here
  · obtain rfl := Option.some.inj mapped
    by_cases below : q / 1024 < 1023
    · obtain ⟨g,low,slot⟩ := init_slot s first second booted m set q below there
      rw [slot,(boot_entry g low).2]
      exact low
    · have last : q / 1024 = 1023 := by omega
      have table : Machine.slot {s with mem := m} q = Machine.table {s with mem := m} (q % 1024) := by
        have own : frame (Machine.table {s with mem := m} 1023) = s.dir := order.ordered.recursive.2
        rw [Machine.slot,last,own]
        rfl
      have small := booted.small
      rw [table] at here ⊢
      rcases init_cases s first second booted m set (q % 1024) (by omega) here with ⟨_,frame⟩ | ⟨_,frame⟩ | ⟨_,frame⟩
      all_goals
        rw [frame]
        omega
  · cases mapped
  · cases mapped

theorem init_inv (refcount : Nat → Word) (vm : Vm) (init : blackVmmInit ⟨s,refcount⟩ s.cr3 = some vm) :
    vm.Inv := by
  rw [init_eq s first second booted refcount] at init
  obtain rfl := Option.some.inj init
  exact ⟨init_inOrder s first second booted _ rfl,init_counted s first second booted _ rfl,
    fun f low => if_pos low⟩

end Init

theorem step_map (s : System) (virt phys flags : Word) (m : Machine)
    (mapped : blackVmmMapPage s.vm.machine virt phys flags = some m) :
    s.step (.map virt phys flags) = some ⟨⟨m,s.vm.refcount⟩,none⟩ := by
  rw [System.step,mapped,Option.map_some]

theorem step_fault (s : System) (addr err : Word) (vm : Vm)
    (handled : blackVmmHandlePageFault s.vm addr err = some (vm,0)) :
    s.step (.fault addr err) = some ⟨vm,some addr⟩ := by
  rw [System.step,handled,Option.map_some,if_pos rfl]

theorem ensureTable_kept (s : Machine) (recursive : Recursive s.mem s.dir) (v flags : Word)
    (there : present (s.table (v.toNat / 4096 / 1024)) = true) (kernel : flags &&& pageUser = 0) :
    ensureTable s ((v >>> 22) &&& 0x3FF) flags = some (s,true) := by
  have read := load_pde s recursive v
  have visible := present_ne _ there
  simp only [ensureTable,read,Option.bind_eq_bind,Option.bind_some,if_neg visible,
    if_neg (not_not_intro kernel)]
  rfl

/-- Behind a table that is there, a mapping that is not the user's sets the slot only. -/
theorem mapPage_setSlot (s : Machine) (recursive : Recursive s.mem s.dir) (v phys flags : Word)
    (there : present (s.table (v.toNat / 4096 / 1024)) = true) (kernel : flags &&& pageUser = 0) :
    blackVmmMapPage s v phys flags = some (s.setSlot (v.toNat / 4096)
      ((phys &&& 0xFFFFF000) ||| (flags &&& 0xFFF) ||| pagePresent)) := by
  have ready := ensureTable_kept s recursive v flags there kernel
  simp only [blackVmmMapPage,ready,Option.bind_eq_bind,Option.bind_some]
  exact store_pte s recursive v there _

/-- In a run of careful calls from `black_vmm_init` no other page is mapped to the frame of
a page that the handler has made writable, and in every state of such a run a fault below
the window separates no page from its frame. -/
theorem cow_isolated (s : Machine) (first second : Nat) (booted : Booted s first second)
    (refcount : Nat → Word) : ∃ vm, blackVmmInit ⟨s,refcount⟩ s.cr3 = some vm ∧
      ∀ calls s', Steps CarefulNext ⟨vm,none⟩ calls s' → Isolated s' ∧
        ∀ addr err s'', addr.toNat < 0xFFC00000 → s'.step (.fault addr err) = some s'' →
          s''.handled = some addr → (Isolated s'' ↔ Alone s'.vm.machine addr) := by
  obtain ⟨vm,init⟩ : ∃ vm, blackVmmInit ⟨s,refcount⟩ s.cr3 = some vm :=
    ⟨_,init_eq s first second booted refcount⟩
  refine ⟨vm,init,fun calls s' run => ?_⟩
  obtain ⟨inv,isolated⟩ := run.invariant (fun s => s.vm.Inv ∧ Isolated s)
    ⟨init_inv s first second booted refcount vm init,fun a here => by cases here⟩
    fun s c s' held step => careful_step s held.1 c s' step
  refine ⟨isolated,fun addr err s'' low step handled => ?_⟩
  obtain ⟨r,returned,rfl⟩ := Option.map_eq_some_iff.mp step
  rcases fault_outcome s'.vm inv addr err low with ⟨_,refused⟩ | ⟨vm',_,done,_,same⟩
  · obtain rfl := Option.some.inj (refused.symm.trans returned)
    cases handled
  · obtain rfl := Option.some.inj (done.symm.trans returned)
    have alone := alone_same s'.vm.machine vm'.machine same addr
    refine ⟨fun isolated => alone.mp (isolated addr rfl),fun before a here => ?_⟩
    obtain rfl := Option.some.inj here
    exact alone.mpr before

/-- A machine as the boot code leaves it, with the directory in frame 1. -/
def bootedMachine : Machine where
  mem := ofEntries fun f i =>
    if f = 1 then if i = 768 then 0x2003 else if i = 769 then 0x3003 else 0
    else if f = 2 then word (i * 4096 + 3)
    else if f = 3 then word ((1024 + i) * 4096 + 3) else 0
  cr3 := 0x1000
  pmm := ⟨fun i => if i = 0 then 0xF else 0,0x8000,4,0x8000000⟩

theorem bootedMachine_booted : Booted bootedMachine 2 3 := by
  have root : bootedMachine.dir = 1 := by decide
  refine ⟨by rw [root]; decide,?_,?_,?_,by rw [root]; decide,by rw [root]; decide,by rw [root]; decide⟩
  · intro i inside
    rw [Machine.table,root]
    refine (entry_ofEntries _ 1 i (by decide) inside).trans ?_
    rw [if_pos rfl]
    rfl
  · intro j inside
    refine (entry_ofEntries _ 2 j (by decide) inside).trans ?_
    rfl
  · intro j inside
    refine (entry_ofEntries _ 3 j (by decide) inside).trans ?_
    rfl

/-- A page that is mapped copy on write, and the write fault there. -/
theorem cow_isolated_booted : Booted bootedMachine 2 3 ∧ ∃ vm s', blackVmmInit ⟨bootedMachine,fun _ => 0⟩ bootedMachine.cr3 = some vm ∧
    Steps CarefulNext ⟨vm,none⟩ [.map 0xC0100000 0x1000000 pageCow,.fault 0xC0100000 2] s' ∧ s'.handled = some 0xC0100000 ∧
      Isolated s' := by
  obtain ⟨vm,init,runs⟩ := cow_isolated bootedMachine 2 3 bootedMachine_booted fun _ => 0
  have inv := init_inv bootedMachine 2 3 bootedMachine_booted _ _ init
  obtain rfl := Option.some.inj ((init_eq bootedMachine 2 3 bootedMachine_booted _).symm.trans init)
  let vm : Vm := ⟨{bootedMachine with mem := setEntry bootedMachine.mem bootedMachine.dir 1023 (word (bootedMachine.dir * 4096 + 3))},
    fun i => if i < 256 * 1024 then 0 else 0⟩
  let e : Word := (0x1000000 &&& 0xFFFFF000) ||| (pageCow &&& 0xFFF) ||| pagePresent
  have there : present (vm.machine.table 768) = true := by
    have first := init_table bootedMachine _ rfl 768 (by decide)
    rw [if_neg (by decide),boot_first bootedMachine 2 3 bootedMachine_booted] at first
    exact (congrArg present first).trans (by decide)
  have mapped := mapPage_setSlot vm.machine inv.order.ordered.recursive 0xC0100000 0x1000000 pageCow there (by decide)
  have after := map_inv vm inv 0xC0100000 0x1000000 pageCow (by decide) (by decide) _ mapped
  have marked := setSlot_here vm.machine inv.order.ordered 0xC0100 (by decide) there e
  have table := setSlot_table vm.machine inv.order.ordered 0xC0100 (by decide) there e 768 (by decide)
  have entries := setSlot_pageEntry vm.machine inv.order.ordered 0xC0100 (by decide) there e
  have alone : Alone (vm.machine.setSlot 0xC0100 e) 0xC0100000 := by
    intro q inside other f shown own
    have old := (congrArg (Option.map frame) ((entries q (by omega)).trans (if_neg other))).symm.trans shown
    have low := init_frameAt bootedMachine 2 3 bootedMachine_booted _ rfl q inside f old
    have new := (congrArg (Option.map frame) ((entries 0xC0100 (by decide)).trans (if_pos rfl))).symm.trans own
    have target : Option.map frame (if present e then some e else none) = some 0x1000 := by decide
    have same := Option.some.inj (target.symm.trans new)
    omega
  obtain ⟨vm',_,handled,_⟩ := (fault_outcome _ after 0xC0100000 2 (by decide)).resolve_left fun refused => by
    refine refused.1 ⟨(congrArg present table).trans there,?_,by decide⟩
    have bit : e &&& pageCow ≠ 0 := by decide
    exact fun zero => bit ((congrArg (· &&& pageCow) marked).symm.trans zero)
  have run : Steps CarefulNext ⟨vm,none⟩ [.map 0xC0100000 0x1000000 pageCow,.fault 0xC0100000 2] ⟨vm',some 0xC0100000⟩ :=
    .snoc [_] _ _ _ (.snoc [] _ _ _ .nil ⟨⟨by decide,by decide⟩,step_map ⟨vm,none⟩ _ _ _ _ mapped⟩)
      ⟨⟨by decide,fun _ => alone⟩,step_fault ⟨_,none⟩ _ _ _ handled⟩
  exact ⟨bootedMachine_booted,vm,_,init,run,rfl,(runs _ _ run).1⟩

/-- Two pages are mapped copy on write to one frame, and a write fault on the second
returns 0 while the first still shows that frame. -/
theorem cow_shared : ∃ vm s', blackVmmInit ⟨bootedMachine,fun _ => 0⟩ bootedMachine.cr3 = some vm ∧
    Steps (fun s c s' => s.step c = some s') ⟨vm,none⟩ [.map 0x400000 0x1000000 pageCow,
      .map 0x401000 0x1000000 pageCow,.fault 0x401000 2] s' ∧
    s'.handled = some 0x401000 ∧ ¬ Isolated s' := by
  obtain ⟨vm,init,frames⟩ : ∃ vm, blackVmmInit ⟨bootedMachine,fun _ => 0⟩ bootedMachine.cr3 = some vm ∧
      vm.machine.pmm = bootedMachine.pmm :=
    ⟨_,init_eq bootedMachine 2 3 bootedMachine_booted _,rfl⟩
  have inv := init_inv bootedMachine 2 3 bootedMachine_booted _ _ init
  have free : isSet vm.machine.pmm.bitmap 4 = false := by
    rw [frames]
    decide
  obtain ⟨s₁,t,first,linked⟩ := (mapPage_inOrder _ inv.order 0x400000 0x1000000 pageCow
    (by decide)).resolve_left fun short => by
      have on := short.2.2 4 (by decide)
      rw [free] at on
      cases on
  have kept := map_inv vm inv 0x400000 0x1000000 pageCow (by decide) (by decide) s₁ first
  have there := (linked_table_here _ _ _ _ _ linked).1
  have second := mapPage_setSlot s₁ kept.order.ordered.recursive 0x401000 0x1000000 pageCow there
    (by decide)
  have both := map_inv ⟨s₁,vm.refcount⟩ kept 0x401000 0x1000000 pageCow (by decide) (by decide) _ second
  have marked := setSlot_here s₁ kept.order.ordered 0x401 (by decide) there
    ((0x1000000 &&& 0xFFFFF000) ||| (pageCow &&& 0xFFF) ||| pagePresent)
  have table := setSlot_table s₁ kept.order.ordered 0x401 (by decide) there
    ((0x1000000 &&& 0xFFFFF000) ||| (pageCow &&& 0xFFF) ||| pagePresent) 1 (by decide)
  have entries := setSlot_pageEntry s₁ kept.order.ordered 0x401 (by decide) there
    ((0x1000000 &&& 0xFFFFF000) ||| (pageCow &&& 0xFFF) ||| pagePresent)
  obtain ⟨vm',_,handled,_,same⟩ := (fault_outcome _ both 0x401000 2 (by decide)).resolve_left
    fun refused => by
      refine refused.1 ⟨(congrArg present table).trans there,?_,by decide⟩
      have bit : ((0x1000000 &&& 0xFFFFF000) ||| (pageCow &&& 0xFFF) ||| pagePresent) &&& pageCow ≠ 0 := by
        decide
      exact fun zero => bit ((congrArg (· &&& pageCow) marked).symm.trans zero)
  refine ⟨vm,⟨vm',some 0x401000⟩,init,?_,rfl,?_⟩
  · have one := step_map ⟨vm,none⟩ _ _ _ _ first
    have two := step_map ⟨⟨s₁,vm.refcount⟩,none⟩ _ _ _ _ second
    have three := step_fault ⟨_,none⟩ _ _ _ handled
    exact .snoc [_,_] _ _ _ (.snoc [_] _ _ _ (.snoc [] _ _ _ .nil one) two) three
  · intro isolated
    have before : s₁.frameAt 0x400 = some 0x1000 := linked_frameAt _ _ _ _ _ linked 0x400 (by decide)
    refine isolated 0x401000 rfl 0x400 (by decide) (by decide) 0x1000 ?_ ?_
    · refine (same 0x400 (by decide)).trans ?_
      exact (congrArg (Option.map frame) (entries 0x400 (by decide))).trans before
    · refine (same 0x401 (by decide)).trans ?_
      refine (congrArg (Option.map frame) (entries 0x401 (by decide))).trans ?_
      rw [if_pos rfl]
      decide

end BlackOS.Vmm
