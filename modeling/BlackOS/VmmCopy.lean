import BlackOS.VmmCow

/-! The copy of a copy-on-write fault. The handler opens a window at the last page but one of the
address space, which is a slot of the directory, copies the page through it byte by byte, closes it
and links the copy in. -/
namespace BlackOS.Vmm
open BlackOS.Library.Ram BlackOS.Library.Paging BlackOS.Library.Bitmap
open BlackOS.Pmm (maxFrames Takes)

/-- Memory after the first `n` bytes of frame `g` have gone to frame `f`. -/
def copied (m : Memory) (f g n : Nat) : Memory :=
  fun a => if a.toNat / 4096 = f ∧ a.toNat % 4096 < n then m (address g (a.toNat % 4096)) else m a

theorem copied_none (m : Memory) (f g : Nat) : copied m f g 0 = m := by
  funext a
  exact if_neg (by omega)

theorem copied_elsewhere (m : Memory) (f g n : Nat) (a : Word) (apart : a.toNat / 4096 ≠ f) :
    copied m f g n a = m a :=
  if_neg fun both => apart both.1

theorem copied_here (m : Memory) (f g k : Nat) (low : f < 2^20) (inside : k < 4096) :
    copied m f g 4096 (address f k) = m (address g k) := by
  have place := address_toNat f k low inside
  have offset : (f * 4096 + k) % 4096 = k := by omega
  rw [copied,place,offset,if_pos ⟨by omega,inside⟩]

/-- The byte that is next has not been written yet, also when the frame is copied to itself. -/
theorem copied_next (m : Memory) (f g n : Nat) (low : g < 2^20) (inside : n < 4096) :
    copied m f g n (address g n) = m (address g n) := by
  have place := address_toNat g n low inside
  exact if_neg (by omega)

theorem copied_step (m : Memory) (f g n : Nat) (low : f < 2^20) (inside : n < 4096) :
    write8 (copied m f g n) (address f n) (m (address g n)) = copied m f g (n + 1) := by
  have place := address_toNat f n low inside
  funext a
  unfold write8 copied
  by_cases here : a = address f n
  · have value : a.toNat % 4096 = n := by
      rw [here,place]
      omega
    rw [if_pos here,value,if_pos ⟨by rw [here,place]; omega,by omega⟩]
  · have other : a.toNat ≠ f * 4096 + n := by
      intro same
      exact here (BitVec.eq_of_toNat_eq (same.trans place.symm))
    rw [if_neg here]
    by_cases done : a.toNat / 4096 = f ∧ a.toNat % 4096 < n
    · rw [if_pos done,if_pos ⟨done.1,by omega⟩]
    · rw [if_neg done,if_neg (by omega)]

/-- Translation reads the directory and one table only. -/
theorem translate_spared (m m' : Memory) (dir f : Nat) (v : Word) (low : dir < 2^20)
    (same : ∀ a : Word, a.toNat / 4096 ≠ f → m' a = m a) (apart : dir ≠ f)
    (table : present (entry m dir (v.toNat / 2^22)) = true → frame (entry m dir (v.toNat / 2^22)) ≠ f) :
    translate m' dir v = translate m dir v := by
  have bound := v.isLt
  have pde : entry m' dir (v.toNat / 2^22) = entry m dir (v.toNat / 2^22) :=
    entry_congr _ _ _ _ low (by omega) fun a here => same a (by rw [here]; exact apart)
  unfold Library.Paging.translate
  simp only [pde]
  by_cases there : present (entry m dir (v.toNat / 2^22)) = true
  · have pte : entry m' (frame (entry m dir (v.toNat / 2^22))) (v.toNat / 4096 % 1024) =
        entry m (frame (entry m dir (v.toNat / 2^22))) (v.toNat / 4096 % 1024) :=
      entry_congr _ _ _ _ (frame_lt _) (Nat.mod_lt _ (by decide)) fun a here =>
        same a (by rw [here]; exact table there)
    rw [if_pos there,if_pos there,pte]
  · rw [if_neg there,if_neg there]

/-- The virtual page of the window. -/
def tmpVirt : Word := 0xFFFFF000 - pageSize

section Copying
variable (s : Machine) (f g p : Nat) (lowPage : p < 2^20) (apart : s.dir ≠ f) (lowTo : f < 2^20)
  (window : ∀ n < 4096, translate s.mem s.dir (word (0xFFFFE000 + n)) = some (address f n))
  (named : frame (entry s.mem s.dir 1023) ≠ f)
  (source : ∀ n < 4096, translate s.mem s.dir (word (p * 4096 + n)) = some (address g n))
  (spared : present (entry s.mem s.dir (p / 1024)) = true → frame (entry s.mem s.dir (p / 1024)) ≠ f)
  (lowFrom : g < 2^20)
include lowPage apart lowTo window named source spared lowFrom

theorem copy_byte (n : Nat) (inside : n < 4096) :
    Machine.load8 {s with mem := copied s.mem f g n} (word (p * 4096 + n)) = some (s.mem (address g n)) ∧
    Machine.store8 {s with mem := copied s.mem f g n} (word (0xFFFFE000 + n)) (s.mem (address g n)) =
      some {s with mem := copied s.mem f g (n + 1)} := by
  have kept := copied_elsewhere s.mem f g n
  have from_ : translate (copied s.mem f g n) s.dir (word (p * 4096 + n)) = some (address g n) := by
    have value := word_toNat (p * 4096 + n) (by omega)
    have index : (p * 4096 + n) / 2^22 = p / 1024 := by omega
    rw [translate_spared s.mem _ s.dir f _ (frame_lt _) kept apart (by rw [value,index]; exact spared)]
    exact source n inside
  have to_ : translate (copied s.mem f g n) s.dir (word (0xFFFFE000 + n)) = some (address f n) := by
    have value := word_toNat (0xFFFFE000 + n) (by omega)
    have index : (0xFFFFE000 + n) / 2^22 = 1023 := by omega
    rw [translate_spared s.mem _ s.dir f _ (frame_lt _) kept apart (by rw [value,index]; exact fun _ => named)]
    exact window n inside
  constructor
  · change (translate (copied s.mem f g n) s.dir _).map (copied s.mem f g n) = _
    rw [from_,Option.map_some,copied_next s.mem f g n lowFrom inside]
  · change (translate (copied s.mem f g n) s.dir _).map _ = _
    rw [to_,Option.map_some,copied_step s.mem f g n lowTo inside]

theorem copy_loop (left : Nat) : ∀ n, left + n = 4096 →
    memcpyLoop left {s with mem := copied s.mem f g n} (word (0xFFFFE000 + n)) (word (p * 4096 + n)) =
      some {s with mem := copied s.mem f g 4096} := by
  induction left with
  | zero =>
    intro n total
    rw [← total,Nat.zero_add]
    rfl
  | succ left ih =>
    intro n total
    obtain ⟨read,written⟩ :=
      copy_byte s f g p lowPage apart lowTo window named source spared lowFrom n (by omega)
    have next (a : Nat) : word (a + n) + 1 = word (a + (n + 1)) :=
      (word_add (a + n) 1).trans (congrArg word (Nat.add_assoc a n 1))
    rw [memcpyLoop,read,Option.bind_eq_bind,Option.bind_some,written,Option.bind_eq_bind,Option.bind_some,next,next]
    exact ih (n + 1) (by omega)

theorem copy_page : memcpy s tmpVirt (word (p * 4096)) pageSize = some {s with mem := copied s.mem f g 4096} := by
  have whole := copy_loop s f g p lowPage apart lowTo window named source spared lowFrom 4096 0 rfl
  have start : word (0xFFFFE000 + 0) = tmpVirt := by decide
  rw [copied_none,start,Nat.add_zero] at whole
  exact whole

end Copying

/-- The frame that the allocator hands out next. -/
def Machine.nextFrame (s : Machine) : Nat := frame (Pmm.blackPmmAllocFrame s.pmm).2

/-- The entry of a page of the kernel, as that of the window. -/
def kernelEntry (phys : Word) : Word :=
  (phys &&& 0xFFFFF000) ||| ((pagePresent ||| pageWrite) &&& 0xFFF) ||| pagePresent

/-- The machine with the window open on a new frame: the window's slot is one of the directory. -/
def Machine.opened (s : Machine) : Machine :=
  ⟨setEntry s.mem s.dir 1022 (kernelEntry (Pmm.blackPmmAllocFrame s.pmm).2),s.cr3,
    (Pmm.blackPmmAllocFrame s.pmm).1⟩

theorem kernelEntry_frame (phys : Word) :
    present (kernelEntry phys) = true ∧ frame (kernelEntry phys) = frame phys := by
  have bit : present pagePresent = true := by decide
  refine ⟨?_,?_⟩
  · rw [kernelEntry,present_or,bit,Bool.or_true]
  · rw [kernelEntry,frame_or _ _ (by decide),frame_or _ _ (and_small _ _ (by decide)),frame_masked]

/-- The frames of a served request, as the handler uses its address. -/
theorem nextFrame_spec (s : Machine) (served : (Pmm.blackPmmAllocFrame s.pmm).2 ≠ 0) :
    (Pmm.blackPmmAllocFrame s.pmm).2 = word s.nextFrame * Pmm.blackPageSize ∧ s.nextFrame < maxFrames ∧
      isSet s.pmm.bitmap s.nextFrame = false ∧ Takes s.pmm (Pmm.blackPmmAllocFrame s.pmm).1 s.nextFrame 1 := by
  rcases Pmm.allocFrame_spec s.pmm with ⟨failed,_⟩ | ⟨f,pmm,got,low,free,takes⟩
  · rw [failed] at served
    exact absurd rfl served
  · have same : s.nextFrame = f := by
      rw [Machine.nextFrame,got]
      exact frame_address f low
    rw [same,got]
    exact ⟨rfl,low,free,takes⟩

/-- A request that fails leaves the allocator as it was, as long as it does not hand out frame 0. -/
theorem starved_same (pmm : Pmm.State) (zero : isSet pmm.bitmap 0 = true)
    (failed : (Pmm.blackPmmAllocFrame pmm).2 = 0) : (Pmm.blackPmmAllocFrame pmm).1 = pmm := by
  rcases Pmm.allocFrame_spec pmm with ⟨same,_⟩ | ⟨f,pmm',got,low,free,_⟩
  · rw [same]
  · have positive : f ≠ 0 := by
      intro first
      rw [first,zero] at free
      cases free
    rw [got] at failed
    exact absurd failed (frame_address_ne f low positive)

section Opened
variable (s : Machine)

theorem opened_table (k : Nat) (inside : k < 1024) (other : k ≠ 1022) : s.opened.table k = s.table k :=
  entry_setEntry_other _ _ _ _ _ _ (frame_lt _) (by decide) (frame_lt _) inside (.inr other)

/-- Opening the window leaves the slots of all tables but the directory's own, and of that all but the window's. -/
theorem opened_slot (p : Nat) (inside : p / 1024 < 1024) (other : p / 1024 ≠ 1022)
    (apart : frame (s.table (p / 1024)) ≠ s.dir ∨ p % 1024 ≠ 1022) : s.opened.slot p = s.slot p := by
  rw [Machine.slot,opened_table s (p / 1024) inside other]
  exact entry_setEntry_other _ _ _ _ _ _ (frame_lt _) (by decide) (frame_lt _) (Nat.mod_lt _ (by decide)) apart

theorem opened_window : s.opened.table 1022 = kernelEntry (Pmm.blackPmmAllocFrame s.pmm).2 :=
  entry_setEntry _ _ _ _

/-- Closing the window empties the slot of the directory. -/
theorem unmapPage_closes (m : Memory) (pmm : Pmm.State) (kept : Recursive m s.dir) :
    blackVmmUnmapPage ⟨m,s.cr3,pmm⟩ tmpVirt = some ⟨setEntry m s.dir 1022 0,s.cr3,pmm⟩ := by
  have table : present (Machine.table ⟨m,s.cr3,pmm⟩ (tmpVirt.toNat / 4096 / 1024)) = true := kept.1
  have dir : frame (Machine.table ⟨m,s.cr3,pmm⟩ (tmpVirt.toNat / 4096 / 1024)) = s.dir := kept.2
  rw [unmapPage_eq ⟨m,s.cr3,pmm⟩ kept tmpVirt,if_pos table,Machine.setSlot,dir]
  rfl

variable (recursive : Recursive s.mem s.dir)
include recursive

theorem opened_recursive : Recursive s.opened.mem s.opened.dir :=
  recursive.kept rfl (opened_table s 1023 (by decide) (by decide))

theorem mapPage_opens : blackVmmMapPage {s with pmm := (Pmm.blackPmmAllocFrame s.pmm).1} tmpVirt
    (Pmm.blackPmmAllocFrame s.pmm).2 (pagePresent ||| pageWrite) = some s.opened := by
  have mapped := mapPage_setSlot {s with pmm := (Pmm.blackPmmAllocFrame s.pmm).1} recursive tmpVirt
    (Pmm.blackPmmAllocFrame s.pmm).2 (pagePresent ||| pageWrite) recursive.1 (by decide)
  have dir : frame (Machine.table {s with pmm := (Pmm.blackPmmAllocFrame s.pmm).1} (tmpVirt.toNat / 4096 / 1024)) =
      s.dir := recursive.2
  rw [mapped,Machine.setSlot,dir]
  rfl

theorem window_translate (n : Nat) (inside : n < 4096) :
    translate s.opened.mem s.opened.dir (word (0xFFFFE000 + n)) = some (address s.nextFrame n) := by
  have there := kernelEntry_frame (Pmm.blackPmmAllocFrame s.pmm).2
  rw [← opened_window s] at there
  have shown := translate_window s.opened.mem s.opened.dir 1022 n (opened_recursive s recursive) (by decide)
    there.1 inside
  have start : 0xFFC00000 + 1022 * 4096 + n = 0xFFFFE000 + n := by omega
  rw [start] at shown
  exact shown.trans (congrArg (fun f => some (address f n)) there.2)

end Opened

/-- The frame that the handler copies from: that of the page, unless opening the window has changed the
page's own entry. -/
def Machine.copiedFrame (s : Machine) (addr : Word) : Nat := frame (s.opened.slot (addr.toNat / 4096))

/-- The machine after the copy, with the window closed. -/
def Machine.closed (s : Machine) (addr : Word) : Machine :=
  ⟨setEntry (copied s.opened.mem s.nextFrame (s.copiedFrame addr) 4096) s.dir 1022 0,s.cr3,
    (Pmm.blackPmmAllocFrame s.pmm).1⟩

def Machine.newEntry (s : Machine) : Word :=
  (Pmm.blackPmmAllocFrame s.pmm).2 ||| pagePresent ||| pageWrite ||| pageUser

section Closed
variable (s : Machine) (addr : Word) (recursive : Recursive s.mem s.dir) (apart : s.dir ≠ s.nextFrame)
include apart

theorem copied_table (k : Nat) (inside : k < 1024) :
    entry (copied s.opened.mem s.nextFrame (s.copiedFrame addr) 4096) s.dir k = s.opened.table k :=
  entry_congr _ _ _ _ (frame_lt _) inside fun a within =>
    copied_elsewhere _ _ _ _ a (by rw [within]; exact apart)

theorem closed_table (k : Nat) (inside : k < 1024) (other : k ≠ 1022) : (s.closed addr).table k = s.table k := by
  refine (entry_setEntry_other _ s.dir _ s.dir _ _ (frame_lt _) (by decide) (frame_lt _) inside
    (.inr other)).trans ?_
  rw [copied_table s addr apart k inside,opened_table s k inside other]

include recursive

theorem copied_recursive :
    Recursive (copied s.opened.mem s.nextFrame (s.copiedFrame addr) 4096) s.dir :=
  (opened_recursive s recursive).kept rfl (copied_table s addr apart 1023 (by decide))

theorem closed_recursive : Recursive (s.closed addr).mem (s.closed addr).dir :=
  recursive.kept rfl (closed_table s addr apart 1023 (by decide) (by decide))

end Closed

/-- The counts after a copy. -/
def shared (refcount : Nat → Word) (old new : Nat) : Nat → Word :=
  Function.update (Function.update refcount old (refcount old - 1)) new 1

section Handler
variable (s : Vm) (recursive : Recursive s.machine.mem s.machine.dir) (addr err : Word)
  (breaks : Breaks s.machine addr err) (inside : frame (s.machine.slot (addr.toNat / 4096)) < maxFrames)
  (many : ¬s.refcount (frame (s.machine.slot (addr.toNat / 4096))) ≤ 1)
include recursive breaks inside many

/-- With no frame for a copy the fault is refused. -/
theorem fault_starved (failed : (Pmm.blackPmmAllocFrame s.machine.pmm).2 = 0) :
    blackVmmHandlePageFault s addr err =
      some (⟨{s.machine with pmm := (Pmm.blackPmmAllocFrame s.machine.pmm).1},s.refcount⟩,-1) := by
  obtain ⟨table,both⟩ := breaks
  have directory := load_pde s.machine recursive addr
  have read := load_pte s.machine recursive addr table
  have index : ((s.machine.slot (addr.toNat / 4096) &&& 0xFFFFF000) / pageSize).toNat =
      frame (s.machine.slot (addr.toNat / 4096)) := by
    rw [BitVec.toNat_udiv]
    exact frame_masked _
  simp only [blackVmmHandlePageFault,directory,read,Option.bind_eq_bind,Option.bind_some,
    if_neg (present_ne _ table),if_pos both,index,count_inside s _ inside,if_neg many,if_pos failed]
  rfl

theorem fault_copies (served : (Pmm.blackPmmAllocFrame s.machine.pmm).2 ≠ 0) :
    blackVmmHandlePageFault s addr err =
      (memcpy s.machine.opened tmpVirt (addr &&& 0xFFFFF000) pageSize).bind fun m =>
        (blackVmmUnmapPage m tmpVirt).bind fun m =>
          (m.store32 (blackGetPt ((addr >>> 22) &&& 0x3FF) + ((addr >>> 12) &&& 0x3FF) * 4)
            ((Pmm.blackPmmAllocFrame s.machine.pmm).2 ||| pagePresent ||| pageWrite ||| pageUser)).map fun m =>
              (⟨m,shared s.refcount (frame (s.machine.slot (addr.toNat / 4096))) s.machine.nextFrame⟩,0) := by
  obtain ⟨table,both⟩ := breaks
  have directory := load_pde s.machine recursive addr
  have read := load_pte s.machine recursive addr table
  have index (e : Word) : (e / pageSize).toNat = frame e := BitVec.toNat_udiv
  have opens := mapPage_opens s.machine recursive
  have window : 0xFFFFF000 - pageSize = tmpVirt := rfl
  simp only [blackVmmHandlePageFault,directory,read,Option.bind_eq_bind,Option.bind_some,
    if_neg (present_ne _ table),if_pos both,index,frame_masked,count_inside s _ inside,if_neg many,if_neg served,window,opens]
  cases memcpy s.machine.opened tmpVirt (addr &&& 0xFFFFF000) pageSize with
  | none => rfl
  | some m =>
    simp only [Option.bind_some]
    cases blackVmmUnmapPage m tmpVirt with
    | none => rfl
    | some m =>
      simp only [Option.bind_some]
      cases m.store32 (blackGetPt ((addr >>> 22) &&& 0x3FF) + ((addr >>> 12) &&& 0x3FF) * 4)
        ((Pmm.blackPmmAllocFrame s.machine.pmm).2 ||| pagePresent ||| pageWrite ||| pageUser) with
      | none => rfl
      | some m => rfl

/-- A fault below the window's table that gets a frame which no table has copies the page. -/
theorem fault_copied (served : (Pmm.blackPmmAllocFrame s.machine.pmm).2 ≠ 0)
    (low : addr.toNat / 4096 / 1024 < 1022)
    (unnamed : ∀ k < 1024, present (s.machine.table k) = true → frame (s.machine.table k) ≠ s.machine.nextFrame)
    (shown : present (s.machine.opened.slot (addr.toNat / 4096)) = true) :
    blackVmmHandlePageFault s addr err =
      some (⟨(s.machine.closed addr).setSlot (addr.toNat / 4096) s.machine.newEntry,
        shared s.refcount (frame (s.machine.slot (addr.toNat / 4096))) s.machine.nextFrame⟩,0) := by
  have bound := addr.isLt
  have table := breaks.1
  have last := opened_table s.machine 1023 (by decide) (by decide)
  have here := opened_table s.machine (addr.toNat / 4096 / 1024) (by omega) (by omega)
  have named := unnamed 1023 (by decide) recursive.1
  have apart : s.machine.dir ≠ s.machine.nextFrame := by
    intro same
    exact named (recursive.2.trans same)
  have source (n : Nat) (inside : n < 4096) : translate s.machine.opened.mem s.machine.opened.dir
      (word (addr.toNat / 4096 * 4096 + n)) = some (address (s.machine.copiedFrame addr) n) := by
    have value := word_toNat (addr.toNat / 4096 * 4096 + n) (by omega)
    have page : (addr.toNat / 4096 * 4096 + n) / 4096 = addr.toNat / 4096 := by omega
    have rest : (addr.toNat / 4096 * 4096 + n) % 4096 = n := by omega
    rw [translate_page,value,page,rest,Machine.pageEntry,here,if_pos table,if_pos shown]
    rfl
  have copies := copy_page s.machine.opened s.machine.nextFrame (s.machine.copiedFrame addr) (addr.toNat / 4096)
    (by omega) apart (frame_lt _) (window_translate s.machine recursive)
    (fun same => named ((congrArg frame last).symm.trans same)) source
    (fun there same => unnamed _ (by omega) ((congrArg present here).symm.trans there)
      ((congrArg frame here).symm.trans same)) (frame_lt _)
  have base : addr &&& 0xFFFFF000 = word (addr.toNat / 4096 * 4096) := masked_frame addr
  have closes := unmapPage_closes s.machine _ (Pmm.blackPmmAllocFrame s.machine.pmm).1
    (copied_recursive s.machine addr recursive apart)
  have store := store_pte (s.machine.closed addr) (closed_recursive s.machine addr recursive apart) addr
    ((congrArg present (closed_table s.machine addr apart _ (by omega) (by omega))).trans table)
    s.machine.newEntry
  rw [fault_copies s recursive addr err breaks inside many served,base,copies,Option.bind_some]
  change (blackVmmUnmapPage ⟨_,s.machine.cr3,(Pmm.blackPmmAllocFrame s.machine.pmm).1⟩ tmpVirt).bind _ = _
  rw [closes,Option.bind_some]
  exact congrArg (Option.map _) store

end Handler

theorem writable_bits (e : Word) : writable e &&& pageWrite ≠ 0 ∧ writable e &&& pageCow = 0 := by
  have clear : ~~~pageCow &&& pageCow = 0 := by decide
  have kept : ~~~pageCow &&& pageWrite = pageWrite := by decide
  have write : pageWrite = BitVec.twoPow 32 1 := by decide
  have bit : pageWrite.getLsbD 1 = true := by decide
  refine ⟨?_,?_⟩
  · rw [writable,BitVec.and_assoc,kept,write,BitVec.and_twoPow,← write,BitVec.getLsbD_or,BitVec.getLsbD_or,bit,
      Bool.or_true,Bool.true_or,if_pos rfl]
    decide
  · rw [writable,BitVec.and_assoc,clear]
    exact BitVec.and_zero

/-- The entry for a copy is the one that a page gets that is not copied. -/
theorem newEntry_writable (s : Machine) (served : (Pmm.blackPmmAllocFrame s.pmm).2 ≠ 0) :
    s.newEntry = writable (Pmm.blackPmmAllocFrame s.pmm).2 := by
  obtain ⟨got,low,_⟩ := nextFrame_spec s served
  have whole : word s.nextFrame * Pmm.blackPageSize = word (s.nextFrame * 4096) := by
    apply BitVec.eq_of_toNat_eq
    simp [word,Pmm.blackPageSize]
  have same : (Pmm.blackPmmAllocFrame s.pmm).2 &&& 0xFFFFF000 = (Pmm.blackPmmAllocFrame s.pmm).2 :=
    (masked_frame _).trans (whole.symm.trans got.symm)
  have clear : (0xFFFFF000 : Word) &&& ~~~pageCow = 0xFFFFF000 := by decide
  rw [writable,same,BitVec.and_or_distrib_right,BitVec.and_or_distrib_right,BitVec.and_or_distrib_right,← same,
    BitVec.and_assoc,clear,same]
  rfl

/-- A page shows what its slot is set to, unless the slot is the directory entry of its own table. -/
theorem setSlot_own (s : Machine) (p : Nat) (inside : p / 1024 < 1024) (e : Word)
    (there : present (s.table (p / 1024)) = true) (shown : present e = true)
    (apart : frame (s.table (p / 1024)) ≠ s.dir ∨ p % 1024 ≠ p / 1024) :
    (s.setSlot p e).pageEntry p = some e := by
  have table : (s.setSlot p e).table (p / 1024) = s.table (p / 1024) :=
    entry_setEntry_other s.mem _ _ s.dir _ e (frame_lt _) (Nat.mod_lt _ (by decide)) (frame_lt _) inside
      (apart.imp Ne.symm Ne.symm)
  have slot : (s.setSlot p e).slot p = e := by
    rw [Machine.slot,table]
    exact entry_setEntry _ _ _ _
  rw [Machine.pageEntry,table,slot,if_pos there,if_pos shown]

theorem setSlot_bytes (s : Machine) (p f k : Nat) (e : Word) (low : f < 2^20) (inside : k < 4096)
    (apart : f ≠ frame (s.table (p / 1024))) : (s.setSlot p e).mem (address f k) = s.mem (address f k) := by
  have place := address_toNat f k low inside
  exact setEntry_elsewhere s.mem _ _ e _ (frame_lt _) (Nat.mod_lt _ (by decide)) (by omega)

section Copied
variable (s : Machine) (addr : Word)

/-- No table is in the new frame, and the directory is a table of its own window. -/
theorem directory_apart (recursive : Recursive s.mem s.dir)
    (tables : ∀ k < 1024, present (s.table k) = true → frame (s.table k) ≠ s.nextFrame) : s.dir ≠ s.nextFrame := by
  intro same
  exact tables 1023 (by decide) recursive.1 (recursive.2.trans same)

theorem closed_elsewhere (f k : Nat) (low : f < 2^20) (inside : k < 4096) (apart : f ≠ s.dir) :
    (s.closed addr).mem (address f k) = copied s.opened.mem s.nextFrame (s.copiedFrame addr) 4096 (address f k) := by
  have place := address_toNat f k low inside
  exact setEntry_elsewhere _ s.dir 1022 0 _ (frame_lt _) (by decide) (by omega)

variable (served : (Pmm.blackPmmAllocFrame s.pmm).2 ≠ 0) (low : addr.toNat / 4096 / 1024 < 1022)
  (apart : s.dir ≠ s.nextFrame)

include low apart in
/-- The new frame holds what the handler has copied. -/
theorem closed_bytes (table : frame (s.table (addr.toNat / 4096 / 1024)) ≠ s.nextFrame) (k : Nat)
    (inside : k < 4096) : (Machine.setSlot (s.closed addr) (addr.toNat / 4096) s.newEntry).mem
      (address s.nextFrame k) = s.opened.mem (address (s.copiedFrame addr) k) := by
  have same := closed_table s addr apart (addr.toNat / 4096 / 1024) (by omega) (by omega)
  refine (setSlot_bytes (s.closed addr) _ _ k _ (frame_lt _) inside ?_).trans ?_
  · rw [same]
    exact table.symm
  · refine (closed_elsewhere s addr _ k (frame_lt _) inside apart.symm).trans ?_
    exact copied_here _ _ _ k (frame_lt _) inside

variable (there : present (s.table (addr.toNat / 4096 / 1024)) = true)
  (own : frame (s.table (addr.toNat / 4096 / 1024)) ≠ s.dir ∨ addr.toNat / 4096 % 1024 ≠ addr.toNat / 4096 / 1024)
include served low apart there own

theorem closed_own : (Machine.setSlot (s.closed addr) (addr.toNat / 4096) s.newEntry).pageEntry (addr.toNat / 4096) =
    some s.newEntry := by
  have same := closed_table s addr apart (addr.toNat / 4096 / 1024) (by omega) (by omega)
  have shown := (writable_frame (Pmm.blackPmmAllocFrame s.pmm).2).1
  rw [← newEntry_writable s served] at shown
  exact setSlot_own (s.closed addr) _ (by omega) s.newEntry ((congrArg present same).trans there) shown
    (own.imp_left fun other equal => other ((congrArg frame same).symm.trans equal))

theorem closed_shown : (Machine.setSlot (s.closed addr) (addr.toNat / 4096) s.newEntry).frameAt (addr.toNat / 4096) =
    some s.nextFrame := by
  have named := (writable_frame (Pmm.blackPmmAllocFrame s.pmm).2).2
  rw [← newEntry_writable s served] at named
  rw [Machine.frameAt,closed_own s addr served low apart there own,Option.map_some,named]
  rfl

end Copied

end BlackOS.Vmm
