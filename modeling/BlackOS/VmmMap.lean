import BlackOS.VmmTables

/-! The page tables as a map from pages to entries. Below the window of the tables,
linking a frame in and setting a slot change the map at one page. -/
namespace BlackOS.Vmm
open BlackOS.Library.Ram BlackOS.Library.Paging BlackOS.Library.Bitmap
open BlackOS.Pmm (maxFrames Takes)

/-- The first page of the window. -/
def windowPage : Nat := 1023 * 1024

def Machine.table (s : Machine) (i : Nat) : Word := entry s.mem s.dir i

/-- The slot for a page, in the table behind its directory entry. -/
def Machine.slot (s : Machine) (p : Nat) : Word := entry s.mem (frame (s.table (p / 1024))) (p % 1024)

/-- The entry that maps a page, if the page is mapped. -/
def Machine.pageEntry (s : Machine) (p : Nat) : Option Word :=
  if present (s.table (p / 1024)) then if present (s.slot p) then some (s.slot p) else none else none

def Machine.frameAt (s : Machine) (p : Nat) : Option Nat := (s.pageEntry p).map frame

theorem translate_page (s : Machine) (v : Word) :
    translate s.mem s.dir v =
      (s.pageEntry (v.toNat / 4096)).map fun e => address (frame e) (v.toNat % 4096) := by
  have index : v.toNat / 2^22 = v.toNat / 4096 / 1024 := by omega
  unfold Library.Paging.translate Machine.pageEntry Machine.slot Machine.table
  rw [index]
  dsimp only
  split
  · split
    · rfl
    · rfl
  · rfl

/-- The tables are pages of the window. -/
theorem window_pageEntry (s : Machine) (recursive : Recursive s.mem s.dir) (k : Nat) (inside : k < 1024) :
    s.pageEntry (1023 * 1024 + k) = if present (s.table k) then some (s.table k) else none := by
  have index : (1023 * 1024 + k) / 1024 = 1023 := by omega
  have rest : (1023 * 1024 + k) % 1024 = k := by omega
  have slot : s.slot (1023 * 1024 + k) = s.table k := by
    rw [Machine.slot,index,rest]
    exact congrArg (fun f => entry s.mem f k) recursive.2
  have last : present (s.table 1023) = true := recursive.1
  rw [Machine.pageEntry,index,slot,if_pos last]

/-- The directory names itself in its last slot, and no two of its entries name one frame. -/
structure Ordered (s : Machine) : Prop where
  recursive : Recursive s.mem s.dir
  distinct : ∀ i < 1024, ∀ j < 1024, present (s.table i) = true → present (s.table j) = true →
    frame (s.table i) = frame (s.table j) → i = j

theorem table_apart (s : Machine) (ordered : Ordered s) (i : Nat) (low : i < 1023)
    (mapped : present (s.table i) = true) : frame (s.table i) ≠ s.dir := by
  intro same
  have last := ordered.recursive
  have equal := ordered.distinct i (by omega) 1023 (by decide) mapped last.1
    (same.trans last.2.symm)
  omega

section Setting
variable (s : Machine) (ordered : Ordered s) (p : Nat) (low : p / 1024 < 1023)
  (mapped : present (s.table (p / 1024)) = true) (e : Word)

/-- The machine with another entry in the slot for a page. -/
def Machine.setSlot (s : Machine) (p : Nat) (e : Word) : Machine :=
  {s with mem := setEntry s.mem (frame (s.table (p / 1024))) (p % 1024) e}

include ordered low mapped

theorem setSlot_table (i : Nat) (inside : i < 1024) : (s.setSlot p e).table i = s.table i :=
  entry_setEntry_other _ _ _ _ _ _ (frame_lt _) (Nat.mod_lt _ (by decide)) (frame_lt _) inside
    (.inl (table_apart s ordered _ low mapped).symm)

theorem setSlot_ordered : Ordered (s.setSlot p e) := by
  have tables := setSlot_table s ordered p low mapped e
  refine ⟨?_,?_⟩
  · exact ordered.recursive.kept rfl (tables 1023 (by decide))
  · intro i inside j inside' here there
    rw [tables i inside] at here ⊢
    rw [tables j inside'] at there ⊢
    exact ordered.distinct i inside j inside' here there

theorem setSlot_here : (s.setSlot p e).slot p = e := by
  rw [Machine.slot,setSlot_table s ordered p low mapped e _ (by omega)]
  exact entry_setEntry _ _ _ _

theorem setSlot_other (q : Nat) (below : q / 1024 < 1024) (there : present (s.table (q / 1024)) = true)
    (other : q ≠ p) : (s.setSlot p e).slot q = s.slot q := by
  rw [Machine.slot,setSlot_table s ordered p low mapped e _ below]
  refine entry_setEntry_other _ _ _ _ _ _ (frame_lt _) (Nat.mod_lt _ (by decide)) (frame_lt _)
    (Nat.mod_lt _ (by decide)) ?_
  by_cases same : q / 1024 = p / 1024
  · exact .inr (by omega)
  · exact .inl fun equal => same (ordered.distinct _ below _ (by omega) there mapped equal)

/-- The map changes at the page alone, in the window too. -/
theorem setSlot_pageEntry (q : Nat) (below : q / 1024 < 1024) :
    (s.setSlot p e).pageEntry q =
      if q = p then if present e then some e else none else s.pageEntry q := by
  unfold Machine.pageEntry
  rw [setSlot_table s ordered p low mapped e _ below]
  by_cases same : q = p
  · rw [if_pos same,same,if_pos mapped,setSlot_here s ordered p low mapped e]
  · rw [if_neg same]
    by_cases there : present (s.table (q / 1024)) = true
    · rw [if_pos there,if_pos there,setSlot_other s ordered p low mapped e q below there same]
    · rw [if_neg there,if_neg there]

end Setting

section Own
variable (s : Machine) (p : Nat) (apart : frame (s.table (p / 1024)) ≠ s.dir) (e : Word)
include apart

theorem own_table (k : Nat) (inside : k < 1024) : (s.setSlot p e).table k = s.table k :=
  entry_setEntry_other _ _ _ _ _ _ (frame_lt _) (Nat.mod_lt _ (by decide)) (frame_lt _) inside (.inl apart.symm)

theorem own_recursive (recursive : Recursive s.mem s.dir) : Recursive (s.setSlot p e).mem (s.setSlot p e).dir :=
  recursive.kept rfl (own_table s p apart e 1023 (by decide))

end Own

section Twin
variable (s : Machine) (p k : Nat)

theorem twin_place : (k * 1024 + p % 1024) / 1024 = k ∧ (k * 1024 + p % 1024) % 1024 = p % 1024 := by
  omega

variable (same : frame (s.table k) = frame (s.table (p / 1024)))
include same

/-- Directory entries of one table show the same slots. -/
theorem twin_slot : s.slot (k * 1024 + p % 1024) = s.slot p := by
  obtain ⟨index,rest⟩ := twin_place p k
  rw [Machine.slot,index,rest,same]
  rfl

theorem twin_frameAt (there : present (s.table k) = true) :
    s.frameAt (k * 1024 + p % 1024) = if present (s.slot p) then some (frame (s.slot p)) else none := by
  rw [Machine.frameAt,Machine.pageEntry,twin_slot s p k same,(twin_place p k).1,if_pos there]
  by_cases shown : present (s.slot p) = true
  · rw [if_pos shown,if_pos shown,Option.map_some]
  · rw [if_neg shown,if_neg shown,Option.map_none]

/-- A new entry is written for all pages of its slot. -/
theorem twin_setSlot (apart : frame (s.table (p / 1024)) ≠ s.dir) (e : Word) (shown : present e = true)
    (inside : k < 1024) (inside' : p / 1024 < 1024) (there : present (s.table k) = true) :
    (s.setSlot p e).frameAt (k * 1024 + p % 1024) = some (frame e) := by
  have tables := own_table s p apart e
  have slot : (s.setSlot p e).slot p = e := by
    rw [Machine.slot,tables _ inside']
    exact entry_setEntry _ _ _ _
  have shows := twin_frameAt (s.setSlot p e) p k (by rw [tables k inside,tables _ inside']; exact same)
    (by rw [tables k inside]; exact there)
  rw [slot,if_pos shown] at shows
  exact shows

end Twin

/-- A frame is linked in at a page below the window, behind a table that no other directory
entry names. -/
structure Linked (s s' : Machine) (p t f : Nat) : Prop where
  ordered : Ordered s
  low : p / 1024 < 1023
  links : Links s s' (p / 1024) (p % 1024) t f
  fresh : present (s.table (p / 1024)) = false → ∀ k < 1024, present (s.table k) = true →
    frame (s.table k) ≠ t

section Linked
variable (s s' : Machine) (p t f : Nat) (linked : Linked s s' p t f)
include linked

theorem linked_spared (k : Nat) (inside : k < 1024) (other : k ≠ p / 1024)
    (there : present (s.table k) = true) : frame (s.table k) ≠ t := by
  rcases linked.links.origin with ⟨was,same,_,_⟩ | ⟨absent,_⟩
  · intro equal
    have low := linked.low
    exact other (linked.ordered.distinct k inside _ (by omega) there was (equal.trans same.symm))
  · exact linked.fresh absent k inside there

theorem linked_dir : s'.dir = s.dir := congrArg frame linked.links.cr3

theorem linked_table_here : present (s'.table (p / 1024)) = true ∧ frame (s'.table (p / 1024)) = t := by
  unfold Machine.table
  rw [linked_dir s s' p t f linked]
  exact linked.links.directory

theorem linked_table_other (k : Nat) (inside : k < 1024) (other : k ≠ p / 1024) :
    s'.table k = s.table k := by
  unfold Machine.table
  rw [linked_dir s s' p t f linked]
  exact linked.links.otherTables k inside other

theorem linked_ordered : Ordered s' := by
  have here := linked_table_here s s' p t f linked
  have others := linked_table_other s s' p t f linked
  have spared := linked_spared s s' p t f linked
  have low := linked.low
  refine ⟨?_,?_⟩
  · rw [linked_dir s s' p t f linked]
    exact linked.ordered.recursive.kept rfl (linked.links.otherTables 1023 (by decide) (by omega))
  · intro i inside j inside' first second same
    by_cases left : i = p / 1024
    · by_cases right : j = p / 1024
      · exact left.trans right.symm
      · rw [others j inside' right] at second same
        rw [left,here.2] at same
        exact absurd same.symm (spared j inside' right second)
    · rw [others i inside left] at first same
      by_cases right : j = p / 1024
      · rw [right,here.2] at same
        exact absurd same (spared i inside left first)
      · rw [others j inside' right] at second same
        exact linked.ordered.distinct i inside j inside' first second same

theorem linked_slot_here : present (s'.slot p) = true ∧ frame (s'.slot p) = f := by
  rw [Machine.slot,(linked_table_here s s' p t f linked).2]
  exact linked.links.slot

/-- Another slot behind a table that was there is as before, and one behind a new table
is empty. -/
theorem linked_slot_other (q : Nat) (below : q / 1024 < 1023) (other : q ≠ p)
    (there : present (s'.table (q / 1024)) = true) :
    (present (s.table (q / 1024)) = true ∧ s'.slot q = s.slot q) ∨
      (present (s.table (q / 1024)) = false ∧ s'.slot q = 0) := by
  have inside := Nat.mod_lt q (by decide : 0 < 1024)
  by_cases same : q / 1024 = p / 1024
  · have slot : q % 1024 ≠ p % 1024 := by omega
    rcases linked.links.origin with ⟨was,here,_,kept⟩ | ⟨was,_,_,_,empty⟩
    · left
      refine ⟨by rw [same]; exact was,?_⟩
      have before : frame (s.table (p / 1024)) = t := here
      rw [Machine.slot,Machine.slot,same,(linked_table_here s s' p t f linked).2,before]
      exact kept _ inside slot
    · right
      refine ⟨by rw [same]; exact was,?_⟩
      rw [Machine.slot,same,(linked_table_here s s' p t f linked).2]
      exact empty _ inside slot
  · left
    have table := linked_table_other s s' p t f linked (q / 1024) (by omega) same
    rw [table] at there
    refine ⟨there,?_⟩
    have notDir := table_apart s linked.ordered _ below there
    have notTable := linked_spared s s' p t f linked _ (by omega) same there
    rw [Machine.slot,table]
    refine entry_congr _ _ _ _ (frame_lt _) inside fun a within => ?_
    exact linked.links.elsewhere a (by rw [within]; exact notDir) (by rw [within]; exact notTable)

theorem linked_pageEntry (q : Nat) (below : q / 1024 < 1023) (other : q ≠ p) :
    s'.pageEntry q = s.pageEntry q := by
  unfold Machine.pageEntry
  by_cases there : present (s'.table (q / 1024)) = true
  · rw [if_pos there]
    rcases linked_slot_other s s' p t f linked q below other there with ⟨was,same⟩ | ⟨absent,empty⟩
    · rw [if_pos was,same]
    · rw [absent,empty]
      rfl
  · rw [if_neg there]
    have apart : q / 1024 ≠ p / 1024 := by
      intro same
      rw [same] at there
      exact there (linked_table_here s s' p t f linked).1
    rw [linked_table_other s s' p t f linked _ (by omega) apart] at there
    rw [if_neg there]

theorem linked_frameAt (q : Nat) (below : q / 1024 < 1023) :
    s'.frameAt q = if q = p then some f else s.frameAt q := by
  by_cases same : q = p
  · have here := linked_slot_here s s' p t f linked
    rw [if_pos same,same,Machine.frameAt,Machine.pageEntry,
      if_pos (linked_table_here s s' p t f linked).1,if_pos here.1,Option.map_some,here.2]
  · rw [if_neg same,Machine.frameAt,linked_pageEntry s s' p t f linked q below same,Machine.frameAt]

end Linked

end BlackOS.Vmm
