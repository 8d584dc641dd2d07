import BlackOS.VmmExact

/-! What a page fault does to the other pages. The window for the copy lies behind a directory entry of
its own, and closing the window clears that entry. -/
namespace BlackOS.Vmm
open BlackOS.Library.Ram BlackOS.Library.Paging BlackOS.Library.Bitmap
open BlackOS.Pmm (maxFrames)

theorem frameAt_value (s : Machine) (recursive : Recursive s.mem s.dir) (v : Word) :
    blackVmmGetPhysical s v =
      some ((s.frameAt (v.toNat / 4096)).elim 0 fun f => word (f * 4096) ||| (v &&& 0xFFF)) ∧
    blackVmmIsMapped s v = some (if (s.frameAt (v.toNat / 4096)).isSome then 1 else 0) := by
  rw [getPhysical_eq s recursive,isMapped_eq s recursive,Machine.frameAt]
  cases s.pageEntry (v.toNat / 4096) with
  | none => exact ⟨rfl,rfl⟩
  | some e => exact ⟨congrArg (fun m => some (m ||| (v &&& 0xFFF))) (masked_frame e),rfl⟩

theorem frameAt_lt (s : Machine) (p f : Nat) (shown : s.frameAt p = some f) : f < 2^20 := by
  obtain ⟨e,_,rfl⟩ := Option.map_eq_some_iff.mp shown
  exact frame_lt e

/-- The queries tell the frames of all pages below the window. -/
theorem elsewhere_iff (s s' : Machine) (v : Word) (before : Recursive s.mem s.dir)
    (after : Recursive s'.mem s'.dir) :
    Elsewhere s s' v ↔ ∀ q, q / 1024 < 1023 → q ≠ v.toNat / 4096 → s'.frameAt q = s.frameAt q := by
  constructor
  · intro same q below apart
    have value := word_toNat (q * 4096) (by omega)
    have page : (word (q * 4096)).toNat / 4096 = q := by omega
    obtain ⟨physical,mapped⟩ := same (word (q * 4096)) (by omega) (by omega)
    obtain ⟨left,leftMapped⟩ := frameAt_value s' after (word (q * 4096))
    obtain ⟨right,rightMapped⟩ := frameAt_value s before (word (q * 4096))
    have values := Option.some.inj (left.symm.trans (physical.trans right))
    have flags := Option.some.inj (leftMapped.symm.trans (mapped.trans rightMapped))
    have rest : word (q * 4096) &&& 0xFFF = 0 := by
      apply BitVec.eq_of_toNat_eq
      rw [BitVec.toNat_and,value]
      exact (Nat.and_two_pow_sub_one_eq_mod _ 12).trans (by rw [Nat.mul_mod_left]; rfl)
    rw [page] at values flags
    cases here : s'.frameAt q with
    | none =>
      cases there : s.frameAt q with
      | none => rfl
      | some g =>
        rw [here,there] at flags
        exact absurd flags (by simp)
    | some f =>
      cases there : s.frameAt q with
      | none =>
        rw [here,there] at flags
        exact absurd flags (by simp)
      | some g =>
        have lowLeft := frameAt_lt s' q f here
        have lowRight := frameAt_lt s q g there
        have clean (x : Word) : x ||| 0 = x := BitVec.or_zero
        rw [here,there,rest,Option.elim_some,Option.elim_some,clean,clean] at values
        have numbers := word_injective (f * 4096) (g * 4096) (by omega) (by omega) values
        exact congrArg some (by omega)
  · intro same w below apart
    obtain ⟨left,leftMapped⟩ := frameAt_value s' after w
    obtain ⟨right,rightMapped⟩ := frameAt_value s before w
    rw [left,right,leftMapped,rightMapped,same _ (by omega) apart]
    exact ⟨rfl,rfl⟩

/-- The call returns and leaves every other page below the window where it was. -/
def Undisturbed (s : Vm) (addr err : Word) : Prop :=
  ∃ s' r, blackVmmHandlePageFault s addr err = some (s',r) ∧ Elsewhere s.machine s'.machine addr

/-- No other directory entry names the table of entry `i`, and none below the last the directory. -/
def Sole (s : Machine) (i : Nat) : Prop :=
  ∀ k < 1023, present (s.table k) = true →
    frame (s.table k) ≠ s.dir ∧ (k ≠ i → frame (s.table k) ≠ frame (s.table i))

def Single (s : Machine) (i : Nat) : Prop :=
  ∀ k < 1023, present (s.table k) = true → k ≠ i → frame (s.table k) ≠ frame (s.table i)

/-- No other directory entry names the table of the page. Where it is the directory, the page's entry is a directory
entry too, and behind it nothing is mapped. -/
def Lone (s : Machine) (p : Nat) : Prop :=
  Single s (p / 1024) ∧
    (frame (s.table (p / 1024)) = s.dir → ∀ l < 1024, present (entry s.mem (frame (s.slot p)) l) = false)

/-- No page is mapped behind the directory entry that the window takes. -/
def WindowClear (s : Machine) : Prop := ∀ l < 1024, s.frameAt (1022 * 1024 + l) = none

theorem elsewhere_refl (s : Machine) (v : Word) : Elsewhere s s v := fun _ _ _ => ⟨rfl,rfl⟩

/-- Behind a table of its own a slot is the entry of one page. -/
theorem single_frameAt (s : Machine) (p : Nat) (own : frame (s.table (p / 1024)) ≠ s.dir) (single : Single s (p / 1024))
    (e : Word) (q : Nat) (below : q / 1024 < 1023) (apart : q ≠ p) : (s.setSlot p e).frameAt q = s.frameAt q := by
  have table := own_table s p own e (q / 1024) (by omega)
  unfold Machine.frameAt Machine.pageEntry
  rw [table]
  by_cases shown : present (s.table (q / 1024)) = true
  · have slot : (s.setSlot p e).slot q = s.slot q := by
      rw [Machine.slot,table]
      refine entry_setEntry_other _ _ _ _ _ _ (frame_lt _) (Nat.mod_lt _ (by decide)) (frame_lt _)
        (Nat.mod_lt _ (by decide)) ?_
      by_cases same : q / 1024 = p / 1024
      · exact .inr (by omega)
      · exact .inl (single _ below shown same)
    rw [slot]
  · rw [if_neg shown,if_neg shown]

section Through
variable (s : Machine) (p : Nat) (own : frame (s.table (p / 1024)) = s.dir) (e : Word)
include own

/-- A page that the directory maps through itself has a directory entry for its slot. -/
theorem through_slot : s.slot p = s.table (p % 1024) := by
  rw [Machine.slot,own]
  rfl

theorem through_entry (f j : Nat) (low : f < 2^20) (inside : j < 1024) :
    entry (s.setSlot p e).mem f j = if f = s.dir ∧ j = p % 1024 then e else entry s.mem f j := by
  rw [Machine.setSlot,own]
  by_cases here : f = s.dir ∧ j = p % 1024
  · rw [if_pos here,here.1,here.2]
    exact entry_setEntry _ _ _ _
  · rw [if_neg here]
    exact entry_setEntry_other _ _ _ _ _ _ (frame_lt _) (Nat.mod_lt _ (by decide)) low inside (not_and_or.mp here)

theorem through_here : (s.setSlot p e).table (p % 1024) = e := by
  refine (through_entry s p own e s.dir _ (frame_lt _) (Nat.mod_lt _ (by decide))).trans ?_
  exact if_pos ⟨rfl,rfl⟩

theorem through_other (k : Nat) (inside : k < 1024) (other : k ≠ p % 1024) : (s.setSlot p e).table k = s.table k := by
  refine (through_entry s p own e s.dir k (frame_lt _) inside).trans ?_
  exact if_neg fun both => other both.2

variable (there : present (s.table (p / 1024)) = true) (absent : ¬present (s.slot p) = true)
include absent

theorem through_recursive (recursive : Recursive s.mem s.dir) :
    Recursive (s.setSlot p e).mem (s.setSlot p e).dir := by
  refine recursive.kept rfl (through_other s p own e 1023 (by decide) fun last => ?_)
  rw [through_slot s p own,← last] at absent
  exact absent recursive.1

variable (named : frame e = frame (s.slot p))

include named in
/-- A new directory entry shows a table of absent entries, and no other page is mapped through the directory. -/
theorem through_frameAt (recursive : Recursive s.mem s.dir) (single : Single s (p / 1024))
    (blank : ∀ l < 1024, present (entry s.mem (frame (s.slot p)) l) = false) (q : Nat) (below : q / 1024 < 1023)
    (apart : q ≠ p) : (s.setSlot p e).frameAt q = s.frameAt q := by
  have inside := Nat.mod_lt q (by decide : 0 < 1024)
  unfold Machine.frameAt Machine.pageEntry Machine.slot
  by_cases new : q / 1024 = p % 1024
  · have hidden : ¬present (s.table (q / 1024)) = true := by
      rw [new,← through_slot s p own]
      exact absent
    have other : ¬(frame (s.slot p) = s.dir ∧ q % 1024 = p % 1024) := by
      rintro ⟨same,_⟩
      have last := blank 1023 (by decide)
      rw [same,recursive.1] at last
      cases last
    rw [if_neg hidden,new,through_here s p own e,named,through_entry s p own e _ _ (frame_lt _) inside,if_neg other,
      blank _ inside]
    split <;> rfl
  · rw [through_other s p own e (q / 1024) (by omega) new]
    by_cases shown : present (s.table (q / 1024)) = true
    · have other : ¬(frame (s.table (q / 1024)) = s.dir ∧ q % 1024 = p % 1024) := by
        rintro ⟨same,rest⟩
        by_cases table : q / 1024 = p / 1024
        · omega
        · exact single _ below shown table (same.trans own.symm)
      rw [through_entry s p own e _ _ (frame_lt _) inside,if_neg other]
    · rw [if_neg shown,if_neg shown]

variable (kept : ∀ q, q / 1024 < 1023 → q ≠ p → (s.setSlot p e).frameAt q = s.frameAt q) (mapped : present e = true)
include kept mapped

theorem through_single : Single s (p / 1024) := by
  intro k below shown other same
  obtain ⟨index,rest⟩ := twin_place p k
  have new : k ≠ p % 1024 := by
    intro new
    rw [new,← through_slot s p own] at shown
    exact absent shown
  have before := twin_frameAt s p k same shown
  have after : (s.setSlot p e).frameAt (k * 1024 + p % 1024) = some (frame e) := by
    have table := through_other s p own e k (by omega) new
    have slot : (s.setSlot p e).slot (k * 1024 + p % 1024) = e := by
      rw [Machine.slot,index,rest,table,same,own]
      exact through_here s p own e
    rw [Machine.frameAt,Machine.pageEntry,index,table,if_pos shown,slot,if_pos mapped,Option.map_some]
  rw [if_neg absent,← kept _ (by omega) (by omega),after] at before
  cases before

include named there in
theorem through_blank (recursive : Recursive s.mem s.dir) (l : Nat) (inside : l < 1024) :
    present (entry s.mem (frame (s.slot p)) l) = false := by
  have low := Nat.mod_lt p (by decide : 0 < 1024)
  have differs : p / 1024 ≠ p % 1024 := by
    intro same
    rw [through_slot s p own,← same] at absent
    exact absent there
  have last : p % 1024 ≠ 1023 := by
    intro last
    rw [through_slot s p own,last] at absent
    exact absent recursive.1
  have index : (p % 1024 * 1024 + l) / 1024 = p % 1024 := by omega
  have rest : (p % 1024 * 1024 + l) % 1024 = l := by omega
  have before : s.frameAt (p % 1024 * 1024 + l) = none := by
    rw [Machine.frameAt,Machine.pageEntry,index,← through_slot s p own,if_neg absent]
    rfl
  rw [← kept _ (by omega) (by omega),Machine.frameAt,Machine.pageEntry,Machine.slot,index,rest,
    through_here s p own e,if_pos mapped,named,through_entry s p own e _ _ (frame_lt _) inside] at before
  by_contra shown
  have visible : present (if frame (s.slot p) = s.dir ∧ l = p % 1024 then e else entry s.mem (frame (s.slot p)) l) = true := by
    split
    · exact mapped
    · exact Bool.eq_true_of_not_eq_false shown
  rw [if_pos visible] at before
  cases before

end Through

/-- An entry that keeps its frame keeps all translations, also where it stands for several pages. -/
theorem renamed_entry (s : Machine) (f i : Nat) (low : f < 2^20) (inside : i < 1024) (e : Word)
    (shown : present e = present (entry s.mem f i)) (named : frame e = frame (entry s.mem f i)) (g j : Nat)
    (low' : g < 2^20) (inside' : j < 1024) :
    present (entry (setEntry s.mem f i e) g j) = present (entry s.mem g j) ∧
      frame (entry (setEntry s.mem f i e) g j) = frame (entry s.mem g j) := by
  by_cases here : g = f ∧ j = i
  · rw [here.1,here.2,entry_setEntry]
    exact ⟨shown,named⟩
  · rw [entry_setEntry_other _ _ _ _ _ _ low inside low' inside' (not_and_or.mp here)]
    exact ⟨rfl,rfl⟩

theorem renamed_frameAt (s : Machine) (p : Nat) (e : Word) (shown : present e = present (s.slot p))
    (named : frame e = frame (s.slot p)) (q : Nat) (below : q / 1024 < 1024) :
    (s.setSlot p e).frameAt q = s.frameAt q := by
  have kept := renamed_entry s (frame (s.table (p / 1024))) (p % 1024) (frame_lt _) (Nat.mod_lt _ (by decide)) e
    shown named
  obtain ⟨tableShown,tableNamed⟩ := kept s.dir (q / 1024) (frame_lt _) below
  obtain ⟨slotShown,slotNamed⟩ := kept (frame (s.table (q / 1024))) (q % 1024) (frame_lt _) (Nat.mod_lt _ (by decide))
  have table : present ((s.setSlot p e).table (q / 1024)) = present (s.table (q / 1024)) := tableShown
  have behind : frame ((s.setSlot p e).table (q / 1024)) = frame (s.table (q / 1024)) := tableNamed
  have slot : present ((s.setSlot p e).slot q) = present (s.slot q) := by
    rw [Machine.slot,behind]
    exact slotShown
  have place : frame ((s.setSlot p e).slot q) = frame (s.slot q) := by
    rw [Machine.slot,behind]
    exact slotNamed
  unfold Machine.frameAt Machine.pageEntry
  rw [table,slot]
  split_ifs
  · exact congrArg some place
  · rfl
  · rfl

theorem renamed_recursive (s : Machine) (p : Nat) (e : Word) (shown : present e = present (s.slot p))
    (named : frame e = frame (s.slot p)) (recursive : Recursive s.mem s.dir) :
    Recursive (s.setSlot p e).mem (s.setSlot p e).dir := by
  obtain ⟨lastShown,lastNamed⟩ := renamed_entry s (frame (s.table (p / 1024))) (p % 1024) (frame_lt _)
    (Nat.mod_lt _ (by decide)) e shown named s.dir 1023 (frame_lt _) (by decide)
  exact ⟨lastShown.trans recursive.1,lastNamed.trans recursive.2⟩

section Closing
variable (s : Machine) (addr : Word)

theorem closed_window : (s.closed addr).table 1022 = 0 := entry_setEntry _ _ _ _

/-- The tables that no directory entry but the last shows are copied around. -/
theorem closed_entry (f j : Nat) (low : f < 2^20) (inside : j < 1024) (directory : f ≠ s.dir)
    (new : f ≠ s.nextFrame) : entry (s.closed addr).mem f j = entry s.mem f j := by
  refine (entry_setEntry_other _ _ _ _ _ _ (frame_lt _) (by decide) low inside (.inl directory)).trans ?_
  refine (entry_congr _ _ _ _ low inside fun a within => copied_elsewhere _ _ _ _ a (by omega)).trans ?_
  exact entry_setEntry_other _ _ _ _ _ _ (frame_lt _) (by decide) low inside (.inl directory)

variable (apart : s.dir ≠ s.nextFrame)
include apart

theorem closed_sole (i : Nat) (below : i < 1023) (other : i ≠ 1022) (sole : Sole s i) :
    Sole (s.closed addr) i := by
  intro k inside shown
  by_cases window : k = 1022
  · rw [window,closed_window s addr] at shown
    exact absurd shown (by decide)
  · rw [closed_table s addr apart k (by omega) window] at shown ⊢
    rw [closed_table s addr apart i (by omega) other]
    exact sole k inside shown

variable (tables : ∀ k < 1024, present (s.table k) = true → frame (s.table k) ≠ s.nextFrame)
include tables

theorem closed_slot (directory : ∀ k < 1023, present (s.table k) = true → frame (s.table k) ≠ s.dir) (q : Nat)
    (below : q / 1024 < 1023) (other : q / 1024 ≠ 1022) (shown : present (s.table (q / 1024)) = true) :
    (s.closed addr).slot q = s.slot q := by
  rw [Machine.slot,closed_table s addr apart (q / 1024) (by omega) other]
  exact closed_entry s addr _ _ (frame_lt _) (Nat.mod_lt _ (by decide)) (directory _ below shown)
    (tables _ (by omega) shown)

theorem closed_frameAt (directory : ∀ k < 1023, present (s.table k) = true → frame (s.table k) ≠ s.dir)
    (clear : WindowClear s) (q : Nat) (below : q / 1024 < 1023) : (s.closed addr).frameAt q = s.frameAt q := by
  by_cases window : q / 1024 = 1022
  · have none_ := clear (q % 1024) (Nat.mod_lt _ (by decide))
    have place : 1022 * 1024 + q % 1024 = q := by omega
    rw [place] at none_
    rw [none_,Machine.frameAt,Machine.pageEntry,window,closed_window s addr]
    rfl
  · unfold Machine.frameAt Machine.pageEntry
    rw [closed_table s addr apart (q / 1024) (by omega) window]
    by_cases shown : present (s.table (q / 1024)) = true
    · rw [closed_slot s addr apart tables directory q below window shown]
    · rw [if_neg shown,if_neg shown]

end Closing

/-- The condition under which a fault leaves the other pages alone: nothing is written, or the frame has a count and the
entry keeps its frame or stands for one page, or the copy has a window that maps nothing else. -/
def Harmless (s : Vm) (addr err : Word) : Prop :=
  Breaks s.machine addr err → frame (s.machine.slot (addr.toNat / 4096)) < maxFrames ∧
    if s.refcount (frame (s.machine.slot (addr.toNat / 4096))) ≤ 1 then
      present (s.machine.slot (addr.toNat / 4096)) = true ∨ Lone s.machine (addr.toNat / 4096)
    else (Pmm.blackPmmAllocFrame s.machine.pmm).2 = 0 ∨
      (present (s.machine.slot (addr.toNat / 4096)) = true ∧ Sole s.machine (addr.toNat / 4096 / 1024) ∧
        WindowClear s.machine ∧
        ∀ k < 1024, present (s.machine.table k) = true → frame (s.machine.table k) ≠ s.machine.nextFrame)

/-- The handler copies the page. -/
def Copies (s : Vm) (addr err : Word) : Prop :=
  Breaks s.machine addr err ∧ ¬s.refcount (frame (s.machine.slot (addr.toNat / 4096))) ≤ 1 ∧
    (Pmm.blackPmmAllocFrame s.machine.pmm).2 ≠ 0

section Undisturbed
variable (s : Vm) (recursive : Recursive s.machine.mem s.machine.dir) (addr err : Word)
  (low : addr.toNat < 0xFFC00000) (breaks : Breaks s.machine addr err)
  (inside : frame (s.machine.slot (addr.toNat / 4096)) < maxFrames)

section InPlace
include recursive breaks inside

theorem inPlace_undisturbed (few : s.refcount (frame (s.machine.slot (addr.toNat / 4096))) ≤ 1)
    (spared : present (s.machine.slot (addr.toNat / 4096)) = true ∨ Lone s.machine (addr.toNat / 4096)) :
    Undisturbed s addr err := by
  have keeps := writable_frame (s.machine.slot (addr.toNat / 4096))
  refine ⟨_,0,fault_inPlace s recursive addr err breaks inside few,?_⟩
  by_cases shown : present (s.machine.slot (addr.toNat / 4096)) = true
  · have same := keeps.1.trans shown.symm
    refine (elsewhere_iff _ _ addr recursive (renamed_recursive s.machine _ _ same keeps.2 recursive)).mpr ?_
    intro q below _
    exact renamed_frameAt s.machine _ _ same keeps.2 q (by omega)
  · obtain ⟨single,blank⟩ := spared.resolve_left shown
    by_cases own : frame (s.machine.table (addr.toNat / 4096 / 1024)) = s.machine.dir
    · have after := through_recursive s.machine (addr.toNat / 4096) own
        (writable (s.machine.slot (addr.toNat / 4096))) shown recursive
      exact (elsewhere_iff _ _ addr recursive after).mpr
        (through_frameAt s.machine _ own _ shown keeps.2 recursive single (blank own))
    · have after := own_recursive s.machine (addr.toNat / 4096) own
        (writable (s.machine.slot (addr.toNat / 4096))) recursive
      exact (elsewhere_iff _ _ addr recursive after).mpr (single_frameAt s.machine _ own single _)

end InPlace

include recursive low breaks inside

theorem copied_undisturbed (many : ¬s.refcount (frame (s.machine.slot (addr.toNat / 4096))) ≤ 1)
    (served : (Pmm.blackPmmAllocFrame s.machine.pmm).2 ≠ 0)
    (shown : present (s.machine.slot (addr.toNat / 4096)) = true) (sole : Sole s.machine (addr.toNat / 4096 / 1024))
    (clear : WindowClear s.machine)
    (tables : ∀ k < 1024, present (s.machine.table k) = true → frame (s.machine.table k) ≠ s.machine.nextFrame) :
    Undisturbed s addr err := by
  have there := breaks.1
  have apart := directory_apart s.machine recursive tables
  have directory := fun k below mapped => (sole k below mapped).1
  have other : addr.toNat / 4096 / 1024 ≠ 1022 := by
    intro window
    have none_ := clear (addr.toNat / 4096 % 1024) (Nat.mod_lt _ (by decide))
    have place : 1022 * 1024 + addr.toNat / 4096 % 1024 = addr.toNat / 4096 := by omega
    rw [place,Machine.frameAt,Machine.pageEntry,if_pos there,if_pos shown] at none_
    cases none_
  have slot := opened_slot s.machine (addr.toNat / 4096) (by omega) other (.inl (directory _ (by omega) there))
  have handled := fault_copied s recursive addr err breaks inside many served (by omega) tables
    ((congrArg present slot).trans shown)
  have closed := closed_recursive s.machine addr recursive apart
  have behind := closed_sole s.machine addr apart _ (by omega) other sole
  have mapped := (congrArg present (closed_table s.machine addr apart _ (by omega) other)).trans there
  have after := own_recursive (s.machine.closed addr) _ (behind _ (by omega) mapped).1 s.machine.newEntry closed
  refine ⟨_,0,handled,(elsewhere_iff _ _ addr recursive after).mpr fun q below away => ?_⟩
  rw [single_frameAt (s.machine.closed addr) _ (behind _ (by omega) mapped).1
    (fun k inside shown => (behind k inside shown).2) s.machine.newEntry q below away]
  exact closed_frameAt s.machine addr apart tables directory clear q below

omit breaks inside in
theorem harmless_undisturbed (harmless : Harmless s addr err) : Undisturbed s addr err := by
  by_cases breaks : Breaks s.machine addr err
  · obtain ⟨inside,condition⟩ := harmless breaks
    split_ifs at condition with few
    · exact inPlace_undisturbed s recursive addr err breaks inside few condition
    · by_cases served : (Pmm.blackPmmAllocFrame s.machine.pmm).2 = 0
      · refine ⟨_,-1,fault_starved s recursive addr err breaks inside few served,?_⟩
        exact (elsewhere_iff _ _ addr recursive recursive).mpr fun _ _ _ => rfl
      · obtain ⟨shown,sole,clear,tables⟩ := condition.resolve_left served
        exact copied_undisturbed s recursive addr err low breaks inside few served shown sole clear tables
  · exact ⟨s,-1,fault_refused s recursive addr err breaks,elsewhere_refl _ _⟩

end Undisturbed

/-- Whatever the copy reads, it writes to the frame behind the window only. -/
theorem copy_keeps (f left : Nat) : ∀ (m : Machine) (n : Nat) (src : Word) (m' : Machine), n + left ≤ 4096 →
    Recursive m.mem m.dir → present (m.table 1022) = true → frame (m.table 1022) = f → f ≠ m.dir →
    memcpyLoop left m (word (0xFFFFE000 + n)) src = some m' →
    m'.cr3 = m.cr3 ∧ ∀ k < 1024, m'.table k = m.table k := by
  induction left with
  | zero =>
    intro m n src m' _ _ _ _ _ done
    obtain rfl := Option.some.inj done
    exact ⟨rfl,fun _ _ => rfl⟩
  | succ left ih =>
    intro m n src m' room recursive shown named apart done
    rw [memcpyLoop,Option.bind_eq_bind] at done
    obtain ⟨x,_,done⟩ := Option.bind_eq_some_iff.mp done
    rw [Option.bind_eq_bind] at done
    obtain ⟨m₁,stored,done⟩ := Option.bind_eq_some_iff.mp done
    have place := translate_window m.mem m.dir 1022 n recursive (by decide) shown (by omega)
    have start : 0xFFC00000 + 1022 * 4096 + n = 0xFFFFE000 + n := by omega
    have behind : frame (entry m.mem m.dir 1022) = f := named
    rw [start,behind] at place
    have first : m₁ = {m with mem := write8 m.mem (address f n) x} := by
      rw [Machine.store8,place,Option.map_some] at stored
      exact (Option.some.inj stored).symm
    have low : f < 2^20 := by
      rw [← named]
      exact frame_lt _
    have where_ := address_toNat f n low (by omega)
    have tables (k : Nat) (inside : k < 1024) : m₁.table k = m.table k := by
      rw [first]
      refine entry_congr m.mem _ m.dir k (frame_lt _) inside fun a within => if_neg fun same => apart ?_
      rw [same,where_] at within
      omega
    have dir : m₁.dir = m.dir := by
      rw [first]
      rfl
    have next : word (0xFFFFE000 + n) + 1 = word (0xFFFFE000 + (n + 1)) :=
      (word_add (0xFFFFE000 + n) 1).trans (congrArg word (Nat.add_assoc _ n 1))
    rw [next] at done
    obtain ⟨root,same⟩ := ih m₁ (n + 1) _ m' (by omega) (recursive.kept dir (tables 1023 (by decide)))
      ((congrArg present (tables 1022 (by decide))).trans shown)
      ((congrArg frame (tables 1022 (by decide))).trans named) (by rw [dir]; exact apart) done
    refine ⟨root.trans (by rw [first]),fun k inside => (same k inside).trans (tables k inside)⟩

/-- The slots of a missing table cannot be reached. -/
theorem translate_hidden (s : Machine) (recursive : Recursive s.mem s.dir) (v : Word)
    (absent : present (s.table (v.toNat / 4096 / 1024)) = false) :
    translate s.mem s.dir (blackGetPt ((v >>> 22) &&& 0x3FF) + ((v >>> 12) &&& 0x3FF) * 4) = none := by
  have bound := v.isLt
  have index := directory_index v
  have slot := table_index v
  have directory : v.toNat / 2^22 = v.toNat / 4096 / 1024 := by omega
  have value := word_toNat (0xFFC00000 + v.toNat / 4096 / 1024 * 4096 + 4 * (v.toNat / 4096 % 1024)) (by omega)
  have page : (0xFFC00000 + v.toNat / 4096 / 1024 * 4096 + 4 * (v.toNat / 4096 % 1024)) / 4096 =
      1023 * 1024 + v.toNat / 4096 / 1024 := by omega
  rw [window_address _ _ (by omega) (by omega),index,slot,directory,translate_page,value,page,
    window_pageEntry s recursive _ (by omega),absent]
  rfl

section Rewritten
variable (s : Machine) (addr : Word) (p : Nat) (apart : s.dir ≠ s.nextFrame) (below : p / 1024 < 1023)
  (other : p / 1024 ≠ 1022) (own : frame (s.table (p / 1024)) ≠ s.dir)
include apart below other own

theorem closed_apart : frame ((s.closed addr).table (p / 1024)) ≠ (s.closed addr).dir := by
  rw [closed_table s addr apart _ (by omega) other]
  exact own

theorem rewritten_recursive (recursive : Recursive s.mem s.dir) :
    Recursive ((s.closed addr).setSlot p s.newEntry).mem ((s.closed addr).setSlot p s.newEntry).dir :=
  own_recursive _ p (closed_apart s addr p apart below other own) _ (closed_recursive s addr recursive apart)

theorem rewritten_window (l : Nat) (inside : l < 1024) :
    ((s.closed addr).setSlot p s.newEntry).pageEntry (1022 * 1024 + l) = none := by
  have index : (1022 * 1024 + l) / 1024 = 1022 := by omega
  have gone := own_table (s.closed addr) p (closed_apart s addr p apart below other own) s.newEntry 1022 (by decide)
  rw [closed_window] at gone
  rw [Machine.pageEntry,index,gone]
  rfl

variable (kept : ∀ q, q / 1024 < 1023 → q ≠ p → ((s.closed addr).setSlot p s.newEntry).frameAt q = s.frameAt q)
include kept

theorem rewritten_clear : WindowClear s := by
  intro l inside
  rw [← kept (1022 * 1024 + l) (by omega) (by omega),Machine.frameAt,
    rewritten_window s addr p apart below other own l inside]
  rfl

/-- A second entry for the page's table would show the copy, which is in a frame that no page was in. -/
theorem rewritten_sole (served : (Pmm.blackPmmAllocFrame s.pmm).2 ≠ 0) (unused : s.Unused)
    (shown : present (s.slot p) = true)
    (directory : ∀ k < 1023, present (s.table k) = true → frame (s.table k) ≠ s.dir) (clear : WindowClear s) :
    Sole s (p / 1024) := by
  refine fun k inside there => ⟨directory k inside there,fun differs same => ?_⟩
  have before := twin_frameAt s p k same there
  rw [if_pos shown] at before
  have window : k ≠ 1022 := by
    intro window
    rw [window] at before
    cases before.symm.trans (clear (p % 1024) (Nat.mod_lt _ (by decide)))
  have here := closed_table s addr apart (p / 1024) (by omega) other
  have twin := closed_table s addr apart k (by omega) window
  have copy := writable_frame (Pmm.blackPmmAllocFrame s.pmm).2
  rw [← newEntry_writable s served] at copy
  have now := twin_setSlot (s.closed addr) p k (by rw [twin,here]; exact same)
    (closed_apart s addr p apart below other own) s.newEntry copy.1 (by omega) (by omega) (by rw [twin]; exact there)
  have frames := Option.some.inj (now.symm.trans ((kept _ (by omega) (by omega)).trans before))
  exact unused served (k * 1024 + p % 1024) (by omega) (before.trans (congrArg some (frames.symm.trans copy.2)))

end Rewritten

section Disturbed
variable (s : Vm) (recursive : Recursive s.machine.mem s.machine.dir) (addr err : Word)
  (low : addr.toNat < 0xFFC00000) (breaks : Breaks s.machine addr err)
include recursive breaks

/-- There is no count for a frame past the array. -/
theorem fault_beyond (beyond : ¬frame (s.machine.slot (addr.toNat / 4096)) < maxFrames) :
    blackVmmHandlePageFault s addr err = none := by
  obtain ⟨table,both⟩ := breaks
  have directory := load_pde s.machine recursive addr
  have read := load_pte s.machine recursive addr table
  have index (e : Word) : (e / pageSize).toNat = frame e := BitVec.toNat_udiv
  have count : s.count (frame (s.machine.slot (addr.toNat / 4096))) = none := if_neg beyond
  simp only [blackVmmHandlePageFault,directory,read,Option.bind_eq_bind,Option.bind_some,
    if_neg (present_ne _ table),if_pos both,index,frame_masked,count,Option.bind_none]

theorem undisturbed_counted (undisturbed : Undisturbed s addr err) :
    frame (s.machine.slot (addr.toNat / 4096)) < maxFrames := by
  by_contra beyond
  obtain ⟨s',r,handled,_⟩ := undisturbed
  cases handled.symm.trans (fault_beyond s recursive addr err breaks beyond)

variable (inside : frame (s.machine.slot (addr.toNat / 4096)) < maxFrames)
include inside

/-- A page of the table that the window displaces is lost before its new entry is written. -/
theorem fault_displaced (many : ¬s.refcount (frame (s.machine.slot (addr.toNat / 4096))) ≤ 1)
    (served : (Pmm.blackPmmAllocFrame s.machine.pmm).2 ≠ 0) (window : addr.toNat / 4096 / 1024 = 1022)
    (apart : s.machine.dir ≠ s.machine.nextFrame) : blackVmmHandlePageFault s addr err = none := by
  have bound := addr.isLt
  rw [fault_copies s recursive addr err breaks inside many served]
  cases copy : memcpy s.machine.opened tmpVirt (addr &&& 0xFFFFF000) pageSize with
  | none => rfl
  | some m =>
    have there := kernelEntry_frame (Pmm.blackPmmAllocFrame s.machine.pmm).2
    rw [← opened_window s.machine] at there
    obtain ⟨root,tables⟩ := copy_keeps s.machine.nextFrame 4096 s.machine.opened 0 (addr &&& 0xFFFFF000) m
      (by decide) (opened_recursive s.machine recursive) there.1 there.2 apart.symm copy
    have dir : m.dir = s.machine.dir := congrArg frame root
    have last := (tables 1023 (by decide)).trans (opened_table s.machine 1023 (by decide) (by decide))
    have kept : Recursive m.mem m.dir := recursive.kept dir last
    have closes := unmapPage_closes m m.mem m.pmm kept
    have gone : entry (setEntry m.mem m.dir 1022 0) m.dir 1022 = 0 := entry_setEntry _ _ _ _
    have same : entry (setEntry m.mem m.dir 1022 0) m.dir 1023 = entry m.mem m.dir 1023 :=
      entry_setEntry_other _ _ _ _ _ _ (frame_lt _) (by decide) (frame_lt _) (by decide) (.inr (by decide))
    have hidden := translate_hidden ⟨setEntry m.mem m.dir 1022 0,m.cr3,m.pmm⟩ (kept.kept rfl same) addr
      (by rw [window]; exact congrArg present gone)
    have closed : blackVmmUnmapPage m tmpVirt = some ⟨setEntry m.mem m.dir 1022 0,m.cr3,m.pmm⟩ := closes
    rw [Option.bind_some,closed,Option.bind_some,Machine.store32,hidden]
    rfl

/-- The handler reads the page before anything else. -/
theorem fault_unread (many : ¬s.refcount (frame (s.machine.slot (addr.toNat / 4096))) ≤ 1)
    (served : (Pmm.blackPmmAllocFrame s.machine.pmm).2 ≠ 0)
    (absent : s.machine.opened.frameAt (addr.toNat / 4096) = none) :
    blackVmmHandlePageFault s addr err = none := by
  have bound := addr.isLt
  have value := word_toNat (addr.toNat / 4096 * 4096) (by omega)
  have page : addr.toNat / 4096 * 4096 / 4096 = addr.toNat / 4096 := by omega
  have base : addr &&& 0xFFFFF000 = word (addr.toNat / 4096 * 4096) := masked_frame addr
  have entry_ : s.machine.opened.pageEntry (addr.toNat / 4096) = none := Option.map_eq_none_iff.mp absent
  have read : s.machine.opened.load8 (word (addr.toNat / 4096 * 4096)) = none := by
    rw [Machine.load8,translate_page,value,page,entry_]
    rfl
  have copy : memcpy s.machine.opened tmpVirt (addr &&& 0xFFFFF000) pageSize = none := by
    change memcpyLoop (4095 + 1) _ _ _ = none
    rw [memcpyLoop,base,read]
    rfl
  rw [fault_copies s recursive addr err breaks inside many served,copy]
  rfl

variable (undisturbed : Undisturbed s addr err)
include undisturbed low

/-- A page that shares the slot of an unmapped one is mapped along with it. -/
theorem inPlace_needs (few : s.refcount (frame (s.machine.slot (addr.toNat / 4096))) ≤ 1) :
    present (s.machine.slot (addr.toNat / 4096)) = true ∨ Lone s.machine (addr.toNat / 4096) := by
  refine or_iff_not_imp_left.mpr fun absent => ?_
  obtain ⟨mapped,named⟩ := writable_frame (s.machine.slot (addr.toNat / 4096))
  obtain ⟨s',r,handled,same⟩ := undisturbed
  have result := Option.some.inj (handled.symm.trans (fault_inPlace s recursive addr err breaks inside few))
  obtain ⟨rfl,_⟩ := Prod.mk.inj result
  by_cases own : frame (s.machine.table (addr.toNat / 4096 / 1024)) = s.machine.dir
  · have after := through_recursive s.machine _ own (writable (s.machine.slot (addr.toNat / 4096))) absent recursive
    have kept := (elsewhere_iff _ _ addr recursive after).mp same
    exact ⟨through_single s.machine _ own _ absent kept mapped,fun _ =>
      through_blank s.machine _ own _ breaks.1 absent named kept mapped recursive⟩
  · refine ⟨fun k below there other table => ?_,fun directory => absurd directory own⟩
    have after := own_recursive s.machine _ own (writable (s.machine.slot (addr.toNat / 4096))) recursive
    have kept := (elsewhere_iff _ _ addr recursive after).mp same (k * 1024 + addr.toNat / 4096 % 1024) (by omega)
      (by omega)
    have shown := twin_setSlot s.machine _ k table own (writable (s.machine.slot (addr.toNat / 4096)))
      mapped (by omega) (by omega) there
    have before := twin_frameAt s.machine _ k table there
    rw [if_neg absent] at before
    rw [before] at kept
    cases shown.symm.trans kept

variable (directory : ∀ k < 1023, present (s.machine.table k) = true → frame (s.machine.table k) ≠ s.machine.dir)
include directory

/-- A copy that returns was of a mapped page, whose table the window does not displace. -/
theorem copied_returns (many : ¬s.refcount (frame (s.machine.slot (addr.toNat / 4096))) ≤ 1)
    (served : (Pmm.blackPmmAllocFrame s.machine.pmm).2 ≠ 0) (unused : s.machine.Unused) :
    addr.toNat / 4096 / 1024 ≠ 1022 ∧ present (s.machine.slot (addr.toNat / 4096)) = true ∧
      Elsewhere s.machine ((s.machine.closed addr).setSlot (addr.toNat / 4096) s.machine.newEntry) addr := by
  have tables := unused_table s recursive unused served
  have apart := directory_apart s.machine recursive tables
  obtain ⟨s',r,handled,same⟩ := undisturbed
  have other : addr.toNat / 4096 / 1024 ≠ 1022 := by
    intro window
    cases handled.symm.trans (fault_displaced s recursive addr err breaks inside many served window apart)
  have slot := opened_slot s.machine (addr.toNat / 4096) (by omega) other (.inl (directory _ (by omega) breaks.1))
  have shown : present (s.machine.slot (addr.toNat / 4096)) = true := by
    by_contra absent
    have hidden : s.machine.opened.frameAt (addr.toNat / 4096) = none := by
      rw [Machine.frameAt,Machine.pageEntry,slot,if_neg absent,ite_self]
      rfl
    cases handled.symm.trans (fault_unread s recursive addr err breaks inside many served hidden)
  have result := Option.some.inj (handled.symm.trans (fault_copied s recursive addr err breaks inside many served (by omega)
    tables ((congrArg present slot).trans shown)))
  obtain ⟨rfl,_⟩ := Prod.mk.inj result
  exact ⟨other,shown,same⟩

/-- A copy that leaves the other pages alone was of a mapped page, through a window that maps nothing. -/
theorem copied_needs (many : ¬s.refcount (frame (s.machine.slot (addr.toNat / 4096))) ≤ 1)
    (served : (Pmm.blackPmmAllocFrame s.machine.pmm).2 ≠ 0) (unused : s.machine.Unused) :
    present (s.machine.slot (addr.toNat / 4096)) = true ∧ Sole s.machine (addr.toNat / 4096 / 1024) ∧
      WindowClear s.machine := by
  obtain ⟨other,shown,same⟩ := copied_returns s recursive addr err low breaks inside undisturbed directory many served unused
  have own := directory _ (by omega) breaks.1
  have apart := directory_apart s.machine recursive (unused_table s recursive unused served)
  have after := rewritten_recursive s.machine addr _ apart (by omega) other own recursive
  have kept := (elsewhere_iff _ _ addr recursive after).mp same
  have clear := rewritten_clear s.machine addr _ apart (by omega) other own kept
  exact ⟨shown,rewritten_sole s.machine addr _ apart (by omega) other own kept served unused shown directory clear,
    clear⟩

end Disturbed

/-- The directory is a table of its last entry only, and no page is in the frame that the allocator hands out
next. -/
structure Plain (s : Machine) : Prop where
  directory : ∀ k < 1023, present (s.table k) = true → frame (s.table k) ≠ s.dir
  unused : s.Unused

/-- A page fault leaves the other pages below the window alone if it is harmless, and only then unless it copies a page
on page tables that are not plain. -/
theorem fault_undisturbed (s : Vm) (recursive : Recursive s.machine.mem s.machine.dir) (addr err : Word)
    (low : addr.toNat < 0xFFC00000) : (Harmless s addr err → Undisturbed s addr err) ∧
      ((Copies s addr err → Plain s.machine) → Undisturbed s addr err → Harmless s addr err) := by
  refine ⟨harmless_undisturbed s recursive addr err low,fun copying undisturbed breaks => ?_⟩
  have inside := undisturbed_counted s recursive addr err breaks undisturbed
  refine ⟨inside,?_⟩
  split_ifs with few
  · exact inPlace_needs s recursive addr err low breaks inside undisturbed few
  · refine or_iff_not_imp_left.mpr fun served => ?_
    have plain := copying ⟨breaks,few,served⟩
    obtain ⟨shown,sole,clear⟩ := copied_needs s recursive addr err low breaks inside undisturbed plain.directory few served
      plain.unused
    exact ⟨shown,sole,clear,unused_table s recursive plain.unused served⟩

/-- A directory in frame 1 whose first page is in frame 6, with `window` in the entry that the handler uses for
its window, and a table in frame 5 that maps its first page. -/
def crowdedWords (window : Word) (f i : Nat) : Word :=
  if f = 1 then if i = 0 then 0x2003 else if i = 1022 then window else if i = 1023 then 0x1003 else 0
  else if f = 2 then if i = 0 then 0x6201 else 0
  else if f = 5 then if i = 0 then 0x7003 else 0
  else 0

def crowded (window : Word) : Machine where
  mem := ofEntries (crowdedWords window)
  cr3 := 0x1000
  pmm := ⟨fun i => if i = 0 then 0xFF else 0,0x8000,8,0x8000000⟩

section Crowded
variable (window : Word)

theorem crowded_words : crowdedWords window 1 0 = 0x2003 ∧ crowdedWords window 1 1022 = window ∧
    crowdedWords window 1 1023 = 0x1003 ∧ crowdedWords window 2 0 = 0x6201 ∧ crowdedWords window 5 0 = 0x7003 := by
  simp [crowdedWords]

theorem crowded_dir : (crowded window).dir = 1 := (by decide : frame 0x1000 = 1)

theorem crowded_table (k : Nat) (inside : k < 1024) : (crowded window).table k = crowdedWords window 1 k := by
  rw [Machine.table,crowded_dir]
  exact entry_ofEntries (crowdedWords window) 1 k (by decide) inside

theorem crowded_slot (p : Nat) (inside : p < 2^20) :
    (crowded window).slot p = crowdedWords window (frame (crowdedWords window 1 (p / 1024))) (p % 1024) := by
  rw [Machine.slot,crowded_table window _ (by omega)]
  exact entry_ofEntries (crowdedWords window) _ _ (frame_lt _) (Nat.mod_lt _ (by decide))

theorem crowded_recursive : Recursive (crowded window).mem (crowded window).dir := by
  have last := (crowded_table window 1023 (by decide)).trans (crowded_words window).2.2.1
  refine ⟨(congrArg present last).trans (by decide),(congrArg frame last).trans ?_⟩
  rw [crowded_dir]
  decide

theorem crowded_next : (Pmm.blackPmmAllocFrame (crowded window).pmm).2 = 0x8000 :=
  (by decide : (Pmm.blackPmmAllocFrame (crowded 0).pmm).2 = 0x8000)

theorem crowded_served : (Pmm.blackPmmAllocFrame (crowded window).pmm).2 ≠ 0 := by
  rw [crowded_next]
  decide

theorem crowded_fault : Breaks (crowded window) 0 2 ∧ (crowded window).slot 0 = 0x6201 := by
  obtain ⟨first,_,_,page,_⟩ := crowded_words window
  have table := (crowded_table window 0 (by decide)).trans first
  have behind : frame (crowdedWords window 1 (0 / 1024)) = 2 := (congrArg frame first).trans (by decide)
  have slot : (crowded window).slot 0 = 0x6201 := by
    rw [crowded_slot window 0 (by decide),behind]
    exact page
  refine ⟨⟨(congrArg present table).trans (by decide),fun zero => ?_,by decide⟩,slot⟩
  have bits : (crowded window).slot 0 &&& pageCow = 0 := zero
  rw [slot] at bits
  exact absurd bits (by decide)

variable (apart : present window = true → frame window ≠ 8 ∧ frame window ≠ 1)
include apart

theorem crowded_frames (f i : Nat) (shown : present (crowdedWords window f i) = true) :
    frame (crowdedWords window f i) ≠ 8 := by
  unfold crowdedWords at shown ⊢
  split_ifs at shown ⊢
  · decide
  · exact (apart shown).1
  · decide
  · decide
  · decide
  · decide
  · decide
  · decide
  · decide

theorem crowded_plain : Plain (crowded window) := by
  constructor
  · intro k below shown
    rw [crowded_table window k (by omega)] at shown ⊢
    rw [crowded_dir]
    unfold crowdedWords at shown ⊢
    rw [if_pos rfl] at shown ⊢
    split_ifs at shown ⊢
    · decide
    · exact (apart shown).2
    · omega
    · exact absurd shown (by decide)
  · intro _ p inside here
    have next : (crowded window).nextFrame = 8 := (congrArg frame (crowded_next window)).trans (by decide)
    rw [next,Machine.frameAt,Machine.pageEntry] at here
    split_ifs at here with there shown
    · rw [crowded_slot window p inside] at shown here
      exact crowded_frames window apart _ _ shown (Option.some.inj here)
    · cases here
    · cases here

end Crowded

/-- With nothing mapped behind the window's entry the page is copied and no other page changes. -/
theorem fault_undisturbed_crowded : Breaks (crowded 0) 0 2 ∧ Plain (crowded 0) ∧
    Undisturbed ⟨crowded 0,fun _ => 2⟩ 0 2 := by
  have plain := crowded_plain 0 fun shown => absurd shown (by decide)
  obtain ⟨breaks,slot⟩ := crowded_fault 0
  have shown : present ((crowded 0).slot 0) = true := (congrArg present slot).trans (by decide)
  refine ⟨breaks,plain,(fault_undisturbed ⟨crowded 0,fun _ => 2⟩ (crowded_recursive 0) 0 2 (by decide)).1 fun _ => ?_⟩
  have inside : frame ((crowded 0).slot 0) < maxFrames := by
    rw [slot]
    decide
  refine ⟨inside,?_⟩
  rw [if_neg (by decide)]
  refine .inr ⟨shown,fun k below there => ⟨plain.directory k below there,fun other => ?_⟩,fun l inside => ?_,
    unused_table ⟨crowded 0,fun _ => 2⟩ (crowded_recursive 0) plain.unused (crowded_served 0)⟩
  · have there : present ((crowded 0).table k) = true := there
    have later : k ≠ 0 := other
    rw [crowded_table 0 k (by omega),crowdedWords,if_pos rfl,if_neg later,if_neg (by omega : ¬k = 1023),ite_self]
      at there
    exact absurd there (by decide)
  · have index : (1022 * 1024 + l) / 1024 = 1022 := by omega
    have absent : (crowded 0).table 1022 = 0 := (crowded_table 0 1022 (by decide)).trans (crowded_words 0).2.1
    rw [Machine.frameAt,Machine.pageEntry,index,absent]
    rfl

/-- A page that was mapped behind the window's entry is lost when another page is copied. -/
theorem fault_disturbs : Recursive (crowded 0x5003).mem (crowded 0x5003).dir ∧ Plain (crowded 0x5003) ∧
    blackVmmIsMapped (crowded 0x5003) 0xFF800000 = some 1 ∧
    (∃ s', blackVmmHandlePageFault ⟨crowded 0x5003,fun _ => 2⟩ 0 2 = some (s',0) ∧
      blackVmmIsMapped s'.machine 0xFF800000 = some 0) ∧ ¬Undisturbed ⟨crowded 0x5003,fun _ => 2⟩ 0 2 := by
  have recursive := crowded_recursive 0x5003
  have plain := crowded_plain 0x5003 fun _ => by decide
  obtain ⟨breaks,slot⟩ := crowded_fault 0x5003
  obtain ⟨_,window,_,_,page⟩ := crowded_words 0x5003
  have table : (crowded 0x5003).table 1022 = 0x5003 := (crowded_table 0x5003 1022 (by decide)).trans window
  have before : (crowded 0x5003).pageEntry (1022 * 1024) = some 0x7003 := by
    have index : 1022 * 1024 / 1024 = 1022 := by decide
    have behind : frame (crowdedWords 0x5003 1 1022) = 5 := (congrArg frame window).trans (by decide)
    have entry_ : (crowded 0x5003).slot (1022 * 1024) = 0x7003 := by
      rw [crowded_slot 0x5003 _ (by decide),index,behind]
      exact page
    rw [Machine.pageEntry,index,table,entry_]
    decide
  have mapped : blackVmmIsMapped (crowded 0x5003) 0xFF800000 = some 1 := by
    rw [isMapped_eq _ recursive,show (0xFF800000 : Word).toNat / 4096 = 1022 * 1024 from rfl,before]
    rfl
  have many : ¬(2 : Word) ≤ 1 := by decide
  have served := crowded_served 0x5003
  have tables := unused_table ⟨crowded 0x5003,fun _ => 2⟩ recursive plain.unused served
  have apart := directory_apart (crowded 0x5003) recursive tables
  have own := plain.directory 0 (by decide) breaks.1
  have opened := (opened_slot (crowded 0x5003) 0 (by decide) (by decide) (.inl own)).trans slot
  have inside : frame ((crowded 0x5003).slot 0) < maxFrames := by
    rw [slot]
    decide
  have handled := fault_copied ⟨crowded 0x5003,fun _ => 2⟩ recursive 0 2 breaks inside many served (by decide) tables
    ((congrArg present opened).trans (by decide))
  have after := rewritten_recursive (crowded 0x5003) 0 0 apart (by decide) (by decide) own recursive
  refine ⟨recursive,plain,mapped,⟨_,handled,?_⟩,fun undisturbed => ?_⟩
  · have index : (0xFF800000 : Word).toNat / 4096 = 1022 * 1024 + 0 := by decide
    refine (isMapped_eq _ after 0xFF800000).trans ?_
    rw [index]
    exact congrArg (fun e => some (if Option.isSome e then 1 else 0))
      (rewritten_window (crowded 0x5003) 0 0 apart (by decide) (by decide) own 0 (by decide))
  · have needs := copied_needs ⟨crowded 0x5003,fun _ => 2⟩ recursive 0 2 (by decide) breaks inside undisturbed plain.directory
      many served plain.unused
    have none_ := needs.2.2 0 (by decide)
    have shown : (crowded 0x5003).frameAt (1022 * 1024) = some (frame 0x7003) := congrArg (Option.map frame) before
    cases shown.symm.trans none_

end BlackOS.Vmm
