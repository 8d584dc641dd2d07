import BlackOS.VmmCopy

/-! What a copy-on-write fault leaves: the page, marked writable, in a frame with the bytes it had, and
nothing changed when there is no frame for a copy. -/
namespace BlackOS.Vmm
open BlackOS.Library.Ram BlackOS.Library.Paging BlackOS.Library.Bitmap
open BlackOS.Pmm (maxFrames Takes)

/-- A write fault on a page that is mapped copy on write, with a count for its frame. -/
structure CowFault (s : Machine) (addr err : Word) : Prop where
  low : addr.toNat < 0xFF800000
  breaks : Breaks s addr err
  shown : present (s.slot (addr.toNat / 4096)) = true
  counted : frame (s.slot (addr.toNat / 4096)) < maxFrames

/-- No page is mapped to the frame that the allocator hands out next. -/
def Machine.Unused (s : Machine) : Prop :=
  (Pmm.blackPmmAllocFrame s.pmm).2 ≠ 0 → ∀ p < 2^20, s.frameAt p ≠ some s.nextFrame

/-- The frame `f` of a page is none of the tables that the handler writes to, nor is the page's slot the
window's own. -/
structure Separate (s : Vm) (p f : Nat) : Prop where
  zero : isSet s.machine.pmm.bitmap 0 = true
  table : f ≠ frame (s.machine.table (p / 1024))
  directory : 1 < s.refcount f → f ≠ s.machine.dir
  window : 1 < s.refcount f → frame (s.machine.table (p / 1024)) ≠ s.machine.dir ∨ p % 1024 ≠ 1022

/-- What a fault on page `p` that returns 0 leaves, where the page was in frame `f`. -/
structure Served (s s' : Vm) (p f : Nat) : Prop where
  page : ∃ e, s'.machine.pageEntry p = some e ∧ e &&& pageWrite ≠ 0 ∧ e &&& pageCow = 0
  bytes : ∀ g, s'.machine.frameAt p = some g → ∀ k < 4096, s'.machine.mem (address g k) = s.machine.mem (address f k)
  fresh : 1 < s.refcount f → ∃ g, s'.machine.frameAt p = some g ∧ isSet s.machine.pmm.bitmap g = false ∧
    isSet s'.machine.pmm.bitmap g = true ∧ s'.refcount g = 1
  old : 1 < s.refcount f → s'.refcount f = s.refcount f - 1 ∧
    ∀ k < 4096, s'.machine.mem (address f k) = s.machine.mem (address f k)

/-- A fault on a page that was in frame `f` is served, or is refused and changes nothing. -/
def Exact (s s' : Vm) (r : Int) (p f : Nat) : Prop := (r = 0 ∧ Served s s' p f) ∨ (r = -1 ∧ s' = s)

section Exact
variable (s : Vm) (recursive : Recursive s.machine.mem s.machine.dir) (addr err : Word)
  (fault : CowFault s.machine addr err) (unused : s.machine.Unused)
  (separate : Separate s (addr.toNat / 4096) (frame (s.machine.slot (addr.toNat / 4096))))

include separate in
/-- A page that the directory maps through itself would be in the frame of its own table. -/
theorem own_apart : frame (s.machine.table (addr.toNat / 4096 / 1024)) ≠ s.machine.dir ∨
    addr.toNat / 4096 % 1024 ≠ addr.toNat / 4096 / 1024 := by
  by_contra both
  obtain ⟨table,index⟩ := not_or.mp both
  have slot : s.machine.slot (addr.toNat / 4096) = s.machine.table (addr.toNat / 4096 / 1024) := by
    rw [Machine.slot,not_not.mp table,not_not.mp index]
    rfl
  exact separate.table (congrArg frame slot)

include recursive fault separate

theorem exact_inPlace (few : s.refcount (frame (s.machine.slot (addr.toNat / 4096))) ≤ 1) :
    ∃ s' r, blackVmmHandlePageFault s addr err = some (s',r) ∧
      Exact s s' r (addr.toNat / 4096) (frame (s.machine.slot (addr.toNat / 4096))) := by
  have bound := addr.isLt
  have marks := writable_bits (s.machine.slot (addr.toNat / 4096))
  have keeps := writable_frame (s.machine.slot (addr.toNat / 4096))
  have own := setSlot_own s.machine (addr.toNat / 4096) (by omega) (writable (s.machine.slot (addr.toNat / 4096)))
    fault.breaks.1 keeps.1 (own_apart s addr separate)
  have single (many : 1 < s.refcount (frame (s.machine.slot (addr.toNat / 4096)))) : False :=
    absurd few (BitVec.not_le.mpr many)
  refine ⟨_,0,fault_inPlace s recursive addr err fault.breaks fault.counted few,.inl ⟨rfl,⟨_,own,marks⟩,?_,
    fun many => (single many).elim,fun many => (single many).elim⟩⟩
  intro g here k inside
  have same : some (frame (s.machine.slot (addr.toNat / 4096))) = some g := by
    rw [← here,Machine.frameAt,own,Option.map_some,keeps.2]
  rw [← Option.some.inj same]
  exact setSlot_bytes s.machine _ _ k _ (frame_lt _) inside separate.table

include unused

omit fault separate in
theorem unused_table (served : (Pmm.blackPmmAllocFrame s.machine.pmm).2 ≠ 0) (k : Nat) (inside : k < 1024)
    (there : present (s.machine.table k) = true) : frame (s.machine.table k) ≠ s.machine.nextFrame := by
  have shown : s.machine.frameAt (1023 * 1024 + k) = some (frame (s.machine.table k)) := by
    rw [Machine.frameAt,window_pageEntry s.machine recursive k inside,if_pos there,Option.map_some]
  intro same
  exact unused served _ (by omega) (shown.trans (congrArg some same))

omit recursive separate in
theorem unused_page (served : (Pmm.blackPmmAllocFrame s.machine.pmm).2 ≠ 0) :
    frame (s.machine.slot (addr.toNat / 4096)) ≠ s.machine.nextFrame := by
  have low := fault.low
  have shown : s.machine.frameAt (addr.toNat / 4096) = some (frame (s.machine.slot (addr.toNat / 4096))) := by
    rw [Machine.frameAt,Machine.pageEntry,if_pos fault.breaks.1,if_pos fault.shown,Option.map_some]
  intro same
  exact unused served _ (by omega) (shown.trans (congrArg some same))

theorem exact_copied (many : 1 < s.refcount (frame (s.machine.slot (addr.toNat / 4096))))
    (served : (Pmm.blackPmmAllocFrame s.machine.pmm).2 ≠ 0) :
    ∃ s' r, blackVmmHandlePageFault s addr err = some (s',r) ∧
      Exact s s' r (addr.toNat / 4096) (frame (s.machine.slot (addr.toNat / 4096))) := by
  have low := fault.low
  have there := fault.breaks.1
  have marks := writable_bits (Pmm.blackPmmAllocFrame s.machine.pmm).2
  rw [← newEntry_writable s.machine served] at marks
  have tables := unused_table s recursive unused served
  have other := unused_page s addr err fault unused served
  have slot := opened_slot s.machine (addr.toNat / 4096) (by omega) (by omega) (separate.window many)
  have apart := directory_apart s.machine recursive tables
  have table := closed_table s.machine addr apart (addr.toNat / 4096 / 1024) (by omega) (by omega)
  have own := closed_own s.machine addr served (by omega) apart there (own_apart s addr separate)
  have shown := closed_shown s.machine addr served (by omega) apart there (own_apart s addr separate)
  obtain ⟨_,lowNew,free,takes⟩ := nextFrame_spec s.machine served
  have handled := fault_copied s recursive addr err fault.breaks fault.counted (BitVec.not_le.mpr many) served (by omega) tables
    ((congrArg present slot).trans fault.shown)
  have opened (k : Nat) (inside : k < 4096) :
      s.machine.opened.mem (address (frame (s.machine.slot (addr.toNat / 4096))) k) =
        s.machine.mem (address (frame (s.machine.slot (addr.toNat / 4096))) k) := by
    have place := address_toNat (frame (s.machine.slot (addr.toNat / 4096))) k (frame_lt _) inside
    have directory := separate.directory many
    exact setEntry_elsewhere s.machine.mem s.machine.dir 1022 _ _ (frame_lt _) (by decide) (by omega)
  refine ⟨_,0,handled,.inl ⟨rfl,⟨_,own,marks⟩,?_,?_,?_⟩⟩
  · intro g here k inside
    rw [← Option.some.inj (shown.symm.trans here)]
    refine (closed_bytes s.machine addr (by omega) apart (tables _ (by omega) there) k inside).trans ?_
    rw [Machine.copiedFrame,slot]
    exact opened k inside
  · intro _
    refine ⟨s.machine.nextFrame,shown,free,?_,Function.update_self _ _ _⟩
    have taken := takes.bits s.machine.nextFrame
    rw [decide_eq_true ((Pmm.mem_frames_one _ _).mpr rfl),Bool.or_true] at taken
    exact taken
  · intro _
    refine ⟨(Function.update_of_ne other _ _).trans (Function.update_self _ _ _),fun k inside => ?_⟩
    have place := address_toNat (frame (s.machine.slot (addr.toNat / 4096))) k (frame_lt _) inside
    have apartTable : frame (s.machine.slot (addr.toNat / 4096)) ≠
        frame ((s.machine.closed addr).table (addr.toNat / 4096 / 1024)) := by
      rw [table]
      exact separate.table
    rw [setSlot_bytes (s.machine.closed addr) _ _ k _ (frame_lt _) inside apartTable,
      closed_elsewhere s.machine addr _ k (frame_lt _) inside (separate.directory many),
      copied_elsewhere _ _ _ _ _ (by omega)]
    exact opened k inside

end Exact

/-- A write fault below the window's table on a page that is mapped copy on write is served with the bytes
of the page in a frame of its own, or is refused for want of a frame and changes nothing. -/
theorem fault_exact (s : Vm) (recursive : Recursive s.machine.mem s.machine.dir) (addr err : Word)
    (fault : CowFault s.machine addr err) (unused : s.machine.Unused)
    (separate : Separate s (addr.toNat / 4096) (frame (s.machine.slot (addr.toNat / 4096)))) :
    ∃ s' r, blackVmmHandlePageFault s addr err = some (s',r) ∧
      Exact s s' r (addr.toNat / 4096) (frame (s.machine.slot (addr.toNat / 4096))) := by
  by_cases few : s.refcount (frame (s.machine.slot (addr.toNat / 4096))) ≤ 1
  · exact exact_inPlace s recursive addr err fault separate few
  · have many := BitVec.not_le.mp few
    by_cases served : (Pmm.blackPmmAllocFrame s.machine.pmm).2 = 0
    · refine ⟨_,-1,fault_starved s recursive addr err fault.breaks fault.counted few served,.inr ⟨rfl,?_⟩⟩
      rw [starved_same s.machine.pmm separate.zero served]
    · exact exact_copied s recursive addr err fault unused separate many served

/-- The directory in frame 1, which also has itself as its second table, and a table in frame 2 whose pages
are in that table, in the directory and in frame 6. -/
def tangledWords (f i : Nat) : Word :=
  if f = 1 then
    if i = 0 then 0x2003 else if i = 1 then 0x1003 else if i = 1022 then 0x5201 else if i = 1023 then 0x1003 else 0
  else if f = 2 then if i = 0 then 0x2201 else if i = 1 then 0x1201 else if i = 2 then 0x6201 else 0
  else if f = 5 then if i = 0 then 2 else 0
  else 0

def tangled (bitmap : Word) : Machine where
  mem := ofEntries tangledWords
  cr3 := 0x1000
  pmm := ⟨fun i => if i = 0 then bitmap else 0,0x8000,4,0x8000000⟩

theorem tangled_dir (bitmap : Word) : (tangled bitmap).dir = 1 := (by decide : frame 0x1000 = 1)

theorem tangled_table (bitmap : Word) (k : Nat) (inside : k < 1024) :
    (tangled bitmap).table k = tangledWords 1 k := by
  rw [Machine.table,tangled_dir]
  exact entry_ofEntries tangledWords 1 k (by decide) inside

theorem tangled_slot (bitmap : Word) (p : Nat) (inside : p < 2^20) :
    (tangled bitmap).slot p = tangledWords (frame (tangledWords 1 (p / 1024))) (p % 1024) := by
  rw [Machine.slot,tangled_table bitmap _ (by omega)]
  exact entry_ofEntries tangledWords _ _ (frame_lt _) (Nat.mod_lt _ (by decide))

theorem tangled_recursive (bitmap : Word) : Recursive (tangled bitmap).mem (tangled bitmap).dir := by
  have last := tangled_table bitmap 1023 (by decide)
  refine ⟨(congrArg present last).trans (by decide),(congrArg frame last).trans ?_⟩
  rw [tangled_dir]
  decide

theorem tangled_words (f i : Nat) : present (tangledWords f i) = true → frame (tangledWords f i) ≠ 4 := by
  unfold tangledWords
  split_ifs <;> decide

theorem tangled_unused (bitmap : Word)
    (next : (Pmm.blackPmmAllocFrame (tangled bitmap).pmm).2 ≠ 0 → (tangled bitmap).nextFrame = 4) :
    (tangled bitmap).Unused := by
  intro served p inside here
  rw [next served,Machine.frameAt,Machine.pageEntry] at here
  split_ifs at here with there shown
  · rw [tangled_slot bitmap p inside] at shown here
    exact tangled_words _ _ shown (Option.some.inj here)
  · cases here
  · cases here

theorem tangled_fault (bitmap addr : Word) (low : addr.toNat < 0xFF800000)
    (table : present (tangledWords 1 (addr.toNat / 4096 / 1024)) = true)
    (page : present (tangledWords (frame (tangledWords 1 (addr.toNat / 4096 / 1024))) (addr.toNat / 4096 % 1024)) =
        true ∧ frame (tangledWords (frame (tangledWords 1 (addr.toNat / 4096 / 1024))) (addr.toNat / 4096 % 1024)) <
        maxFrames ∧ tangledWords (frame (tangledWords 1 (addr.toNat / 4096 / 1024))) (addr.toNat / 4096 % 1024) &&&
        pageCow ≠ 0) : CowFault (tangled bitmap) addr 2 := by
  have bound := addr.isLt
  rw [← tangled_slot bitmap _ (by omega)] at page
  rw [← tangled_table bitmap _ (by omega)] at table
  exact ⟨low,⟨table,page.2.2,by decide⟩,page.1,page.2.1⟩

theorem tangled_next : (Pmm.blackPmmAllocFrame (tangled 0xEF).pmm).2 = 0x4000 := by decide

theorem fault_exact_tangled : Recursive (tangled 0xEF).mem (tangled 0xEF).dir ∧
    ∃ s' r, blackVmmHandlePageFault ⟨tangled 0xEF,fun _ => 2⟩ 0x2000 2 = some (s',r) ∧
      Exact ⟨tangled 0xEF,fun _ => 2⟩ s' r 2 6 := by
  have slot : (tangled 0xEF).slot 2 = 0x6201 := (tangled_slot 0xEF 2 (by decide)).trans (by decide)
  have table : (tangled 0xEF).table 0 = 0x2003 := (tangled_table 0xEF 0 (by decide)).trans (by decide)
  have place : frame ((tangled 0xEF).slot 2) = 6 := (congrArg frame slot).trans (by decide)
  have behind : frame ((tangled 0xEF).table 0) = 2 := (congrArg frame table).trans (by decide)
  have exact_ := fault_exact ⟨tangled 0xEF,fun _ => 2⟩ (tangled_recursive 0xEF) 0x2000 2
    (tangled_fault 0xEF 0x2000 (by decide) (by decide) (by decide))
    (tangled_unused 0xEF fun _ => (congrArg frame tangled_next).trans (by decide))
    ⟨by decide,fun same => by
      have apart : frame ((tangled 0xEF).slot 2) ≠ frame ((tangled 0xEF).table 0) := by
        rw [place,behind]
        decide
      exact apart same,
    fun _ same => by
      have apart : frame ((tangled 0xEF).slot 2) ≠ 1 := by
        rw [place]
        decide
      exact apart same,fun _ => .inr (by decide)⟩
  refine ⟨tangled_recursive 0xEF,?_⟩
  obtain ⟨s',r,handled,exact_⟩ := exact_
  refine ⟨s',r,handled,?_⟩
  rw [← place]
  exact exact_

/-- A fault that the handler answers, but not as `Exact` has it. -/
def Inexact (s : Vm) (addr err : Word) : Prop :=
  Recursive s.machine.mem s.machine.dir ∧ CowFault s.machine addr err ∧ s.machine.Unused ∧
    ∃ s' r, blackVmmHandlePageFault s addr err = some (s',r) ∧
      ¬Exact s s' r (addr.toNat / 4096) (frame (s.machine.slot (addr.toNat / 4096)))

theorem inexact_bytes (s s' : Vm) (r : Int) (p f g i : Nat) (inside : i < 1024)
    (served : r = 0) (shown : s'.machine.frameAt p = some g)
    (changed : entry s'.machine.mem g i ≠ entry s.machine.mem f i) : ¬Exact s s' r p f := by
  intro exact_
  rcases exact_ with ⟨_,after⟩ | ⟨refused,_⟩
  · exact changed (entry_copied _ _ _ _ i inside (after.bytes g shown))
  · omega

/-- The page is the table that maps it. -/
theorem inexact_table : Inexact ⟨tangled 0xEF,fun _ => 0⟩ 0 2 := by
  have slot : (tangled 0xEF).slot 0 = 0x2201 := (tangled_slot 0xEF 0 (by decide)).trans (by decide)
  have table : (tangled 0xEF).table 0 = 0x2003 := (tangled_table 0xEF 0 (by decide)).trans (by decide)
  have fault := tangled_fault 0xEF 0 (by decide) (by decide) (by decide)
  have behind : frame ((tangled 0xEF).table 0) = 2 := (congrArg frame table).trans (by decide)
  have own := setSlot_own (tangled 0xEF) 0 (by decide) (writable ((tangled 0xEF).slot 0)) fault.breaks.1
    (writable_frame _).1 (.inl (by rw [behind,tangled_dir]; decide))
  refine ⟨tangled_recursive 0xEF,fault,tangled_unused 0xEF fun _ => (congrArg frame tangled_next).trans (by decide),
    _,0,fault_inPlace ⟨tangled 0xEF,fun _ => 0⟩ (tangled_recursive 0xEF) 0 2 fault.breaks fault.counted (by decide),?_⟩
  refine inexact_bytes _ _ 0 0 _ 2 0 (by decide) rfl ?_ ?_
  · refine (congrArg (Option.map frame) own).trans ?_
    rw [Option.map_some,(writable_frame _).2,slot]
    rfl
  · have before : entry (tangled 0xEF).mem (frame ((tangled 0xEF).slot 0)) 0 = 0x2201 := by
      rw [slot]
      exact (entry_ofEntries tangledWords 2 0 (by decide) (by decide)).trans (by decide)
    have after : entry ((tangled 0xEF).setSlot 0 (writable ((tangled 0xEF).slot 0))).mem 2 0 =
        writable ((tangled 0xEF).slot 0) := by
      rw [Machine.setSlot,behind]
      exact entry_setEntry _ _ _ _
    intro same
    rw [slot] at after
    have values := after.symm.trans (same.trans before)
    exact absurd values (by decide)

/-- What the handler copies is not what the page held. -/
theorem inexact_copy (s : Vm) (recursive : Recursive s.machine.mem s.machine.dir) (addr err : Word)
    (fault : CowFault s.machine addr err) (unused : s.machine.Unused)
    (served : (Pmm.blackPmmAllocFrame s.machine.pmm).2 ≠ 0)
    (many : ¬s.refcount (frame (s.machine.slot (addr.toNat / 4096))) ≤ 1)
    (own : frame (s.machine.table (addr.toNat / 4096 / 1024)) ≠ s.machine.dir ∨
      addr.toNat / 4096 % 1024 ≠ addr.toNat / 4096 / 1024)
    (shown : present (s.machine.opened.slot (addr.toNat / 4096)) = true) (i : Nat) (inside : i < 1024)
    (changed : entry s.machine.opened.mem (s.machine.copiedFrame addr) i ≠
      entry s.machine.mem (frame (s.machine.slot (addr.toNat / 4096))) i) : Inexact s addr err := by
  have low := fault.low
  have tables := unused_table s recursive unused served
  have apart := directory_apart s.machine recursive tables
  have after := closed_shown s.machine addr served (by omega) apart fault.breaks.1 own
  have bytes := closed_bytes s.machine addr (by omega) apart (tables _ (by omega) fault.breaks.1)
  refine ⟨recursive,fault,unused,_,0,
    fault_copied s recursive addr err fault.breaks fault.counted many served (by omega) tables shown,?_⟩
  refine inexact_bytes _ _ 0 _ _ s.machine.nextFrame i inside rfl after ?_
  rw [entry_copied s.machine.opened.mem _ (s.machine.copiedFrame addr) s.machine.nextFrame i inside bytes]
  exact changed

/-- The page is the directory, where the window's own entry is copied. -/
theorem inexact_directory : Inexact ⟨tangled 0xEF,fun _ => 2⟩ 0x1000 2 := by
  have slot : (tangled 0xEF).slot 1 = 0x1201 := (tangled_slot 0xEF 1 (by decide)).trans (by decide)
  have table : (tangled 0xEF).table 0 = 0x2003 := (tangled_table 0xEF 0 (by decide)).trans (by decide)
  have behind : frame ((tangled 0xEF).table 0) = 2 := (congrArg frame table).trans (by decide)
  have same : (tangled 0xEF).opened.slot 1 = 0x1201 :=
    (opened_slot (tangled 0xEF) 1 (by decide) (by decide) (.inr (by decide))).trans slot
  have served : (Pmm.blackPmmAllocFrame (tangled 0xEF).pmm).2 ≠ 0 := by
    rw [tangled_next]
    decide
  refine inexact_copy ⟨tangled 0xEF,fun _ => 2⟩ (tangled_recursive 0xEF) 0x1000 2
    (tangled_fault 0xEF 0x1000 (by decide) (by decide) (by decide))
    (tangled_unused 0xEF fun _ => (congrArg frame tangled_next).trans (by decide)) served (by decide)
    (.inr (by decide)) ((congrArg present same).trans (by decide)) 1022 (by decide) ?_
  have copied_ : (tangled 0xEF).copiedFrame 0x1000 = (tangled 0xEF).dir :=
    (congrArg frame same).trans ((by decide : frame 0x1201 = 1).trans (tangled_dir 0xEF).symm)
  have place : frame ((tangled 0xEF).slot 1) = (tangled 0xEF).dir :=
    (congrArg frame slot).trans ((by decide : frame 0x1201 = 1).trans (tangled_dir 0xEF).symm)
  have window := (opened_window (tangled 0xEF)).trans (congrArg kernelEntry tangled_next)
  have before : (tangled 0xEF).table 1022 = 0x5201 := (tangled_table 0xEF 1022 (by decide)).trans (by decide)
  intro equal
  have values : (tangled 0xEF).opened.table 1022 = (tangled 0xEF).table 1022 := by
    have left := congrArg (fun f => entry (tangled 0xEF).opened.mem f 1022) copied_
    have right := congrArg (fun f => entry (tangled 0xEF).mem f 1022) place
    exact left.symm.trans (equal.trans right)
  rw [window,before] at values
  exact absurd values (by decide)

/-- The page's slot is the window's own, so that the handler copies the new frame to itself. -/
theorem inexact_window : Inexact ⟨tangled 0xEF,fun _ => 2⟩ 0x7FE000 2 := by
  have slot : (tangled 0xEF).slot 2046 = 0x5201 := (tangled_slot 0xEF 2046 (by decide)).trans (by decide)
  have table : (tangled 0xEF).table 1 = 0x1003 := (tangled_table 0xEF 1 (by decide)).trans (by decide)
  have opened : (tangled 0xEF).opened.slot 2046 = 0x4003 := by
    have kept := opened_table (tangled 0xEF) 1 (by decide) (by decide)
    have behind : frame ((tangled 0xEF).table 1) = (tangled 0xEF).dir :=
      (congrArg frame table).trans ((by decide : frame 0x1003 = 1).trans (tangled_dir 0xEF).symm)
    have window := (opened_window (tangled 0xEF)).trans (congrArg kernelEntry tangled_next)
    refine Eq.trans ?_ (window.trans (by decide))
    rw [Machine.slot,kept,behind]
    rfl
  have served : (Pmm.blackPmmAllocFrame (tangled 0xEF).pmm).2 ≠ 0 := by
    rw [tangled_next]
    decide
  refine inexact_copy ⟨tangled 0xEF,fun _ => 2⟩ (tangled_recursive 0xEF) 0x7FE000 2
    (tangled_fault 0xEF 0x7FE000 (by decide) (by decide) (by decide))
    (tangled_unused 0xEF fun _ => (congrArg frame tangled_next).trans (by decide)) served (by decide)
    (.inr (by decide)) ((congrArg present opened).trans (by decide)) 0 (by decide) ?_
  have copied_ : (tangled 0xEF).copiedFrame 0x7FE000 = 4 := (congrArg frame opened).trans (by decide)
  have place : frame ((tangled 0xEF).slot 2046) = 5 := (congrArg frame slot).trans (by decide)
  have after : entry (tangled 0xEF).opened.mem 4 0 = 0 := by
    refine (entry_setEntry_other _ _ _ _ _ _ (frame_lt _) (by decide) (by decide) (by decide) (.inl ?_)).trans ?_
    · exact fun same => absurd (same.trans (tangled_dir 0xEF)) (by decide)
    · exact (entry_ofEntries tangledWords 4 0 (by decide) (by decide)).trans (by decide)
  have before : entry (tangled 0xEF).mem 5 0 = 2 :=
    (entry_ofEntries tangledWords 5 0 (by decide) (by decide)).trans (by decide)
  intro equal
  have left := congrArg (fun f => entry (tangled 0xEF).opened.mem f 0) copied_
  have right := congrArg (fun f => entry (tangled 0xEF).mem f 0) place
  have values := (left.trans after).symm.trans (equal.trans (right.trans before))
  exact absurd values (by decide)

/-- The allocator hands out frame 0, which the handler takes for a failure. -/
theorem inexact_zero : Inexact ⟨tangled 0,fun _ => 2⟩ 0x2000 2 := by
  have failed : (Pmm.blackPmmAllocFrame (tangled 0).pmm).2 = 0 := by decide
  have fault := tangled_fault 0 0x2000 (by decide) (by decide) (by decide)
  refine ⟨tangled_recursive 0,fault,fun served => absurd failed served,_,-1,
    fault_starved ⟨tangled 0,fun _ => 2⟩ (tangled_recursive 0) 0x2000 2 fault.breaks fault.counted (by decide) failed,?_⟩
  intro exact_
  rcases exact_ with ⟨refused,_⟩ | ⟨_,same⟩
  · omega
  · have bits := congrArg (fun s : Vm => isSet s.machine.pmm.bitmap 0) same
    exact absurd bits (by decide)

/-- Each of the conditions of `Separate` is needed. -/
theorem fault_inexact : Inexact ⟨tangled 0xEF,fun _ => 0⟩ 0 2 ∧ Inexact ⟨tangled 0xEF,fun _ => 2⟩ 0x1000 2 ∧
    Inexact ⟨tangled 0xEF,fun _ => 2⟩ 0x7FE000 2 ∧ Inexact ⟨tangled 0,fun _ => 2⟩ 0x2000 2 :=
  ⟨inexact_table,inexact_directory,inexact_window,inexact_zero⟩

end BlackOS.Vmm
