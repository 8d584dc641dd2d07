import BlackOS.VmmMap

/-! The calls of `kernel/mm/vmm.c` on the map from pages to entries: what the two queries
read from it, and what mapping and unmapping a page do to it. -/
namespace BlackOS.Vmm
open BlackOS.Library.Ram BlackOS.Library.Paging BlackOS.Library.Bitmap
open BlackOS.Pmm (maxFrames Takes)

theorem masked_frame (e : Word) : e &&& 0xFFFFF000 = word (frame e * 4096) := by
  have bound := e.isLt
  have low := frame_lt e
  have multiple : (e &&& 0xFFFFF000).toNat % 4096 = 0 := by
    have zero : (e.toNat &&& 0xFFFFF000) % 2^12 = 0 := by
      rw [Nat.and_mod_two_pow]
      exact Nat.and_zero _
    rw [BitVec.toNat_and]
    exact zero
  have masked := frame_masked e
  apply BitVec.eq_of_toNat_eq
  rw [word_toNat _ (by omega)]
  unfold frame at masked ⊢
  omega

section Reading
variable (s : Machine) (recursive : Recursive s.mem s.dir) (v : Word)
include recursive

theorem load_pde : s.load32 (blackGetPd + ((v >>> 22) &&& 0x3FF) * 4) =
    some (s.table (v.toNat / 4096 / 1024)) := by
  have bound := v.isLt
  have index := directory_index v
  have read := load_directory s recursive ((v >>> 22) &&& 0x3FF) (by omega)
  have page : v.toNat / 2^22 = v.toNat / 4096 / 1024 := by omega
  rw [index,page] at read
  exact read

variable (mapped : present (s.table (v.toNat / 4096 / 1024)) = true)
include mapped

theorem translate_slot :
    translate s.mem s.dir (blackGetPt ((v >>> 22) &&& 0x3FF) + ((v >>> 12) &&& 0x3FF) * 4) =
      some (address (frame (s.table (v.toNat / 4096 / 1024))) (4 * (v.toNat / 4096 % 1024))) := by
  have bound := v.isLt
  have index := directory_index v
  have slot := table_index v
  have page : v.toNat / 2^22 = v.toNat / 4096 / 1024 := by omega
  rw [window_address _ _ (by omega) (by omega),index,slot,page]
  exact translate_window s.mem s.dir _ _ recursive (by omega) mapped (by omega)

theorem load_pte : s.load32 (blackGetPt ((v >>> 22) &&& 0x3FF) + ((v >>> 12) &&& 0x3FF) * 4) =
    some (s.slot (v.toNat / 4096)) := by
  rw [Machine.load32,translate_slot s recursive v mapped]
  rfl

theorem store_pte (e : Word) :
    s.store32 (blackGetPt ((v >>> 22) &&& 0x3FF) + ((v >>> 12) &&& 0x3FF) * 4) e =
      some (s.setSlot (v.toNat / 4096) e) := by
  rw [Machine.store32,translate_slot s recursive v mapped]
  rfl

end Reading

section Queries
variable (s : Machine) (recursive : Recursive s.mem s.dir) (v : Word)
include recursive

theorem getPhysical_eq : blackVmmGetPhysical s v =
    some ((s.pageEntry (v.toNat / 4096)).elim 0 fun e => (e &&& 0xFFFFF000) ||| (v &&& 0xFFF)) := by
  have directory := load_pde s recursive v
  unfold Machine.pageEntry
  by_cases table : present (s.table (v.toNat / 4096 / 1024)) = true
  · have visible := present_ne _ table
    have read := load_pte s recursive v table
    rw [if_pos table]
    simp only [blackVmmGetPhysical,directory,read,Option.bind_eq_bind,Option.bind_some,if_neg visible]
    by_cases page : present (s.slot (v.toNat / 4096)) = true
    · rw [if_pos page,if_neg (present_ne _ page)]
      rfl
    · rw [if_neg page,if_pos ((absent_iff _).mpr (Bool.eq_false_iff.mpr page))]
      rfl
  · have hidden := (absent_iff _).mpr (Bool.eq_false_iff.mpr table)
    rw [if_neg table]
    simp only [blackVmmGetPhysical,directory,Option.bind_eq_bind,Option.bind_some,if_pos hidden]
    rfl

theorem isMapped_eq : blackVmmIsMapped s v =
    some (if (s.pageEntry (v.toNat / 4096)).isSome then 1 else 0) := by
  have directory := load_pde s recursive v
  unfold Machine.pageEntry
  by_cases table : present (s.table (v.toNat / 4096 / 1024)) = true
  · have visible := present_ne _ table
    have read := load_pte s recursive v table
    rw [if_pos table]
    simp only [blackVmmIsMapped,directory,read,Option.bind_eq_bind,Option.bind_some,if_neg visible]
    by_cases page : present (s.slot (v.toNat / 4096)) = true
    · rw [if_pos page,if_pos (present_ne _ page)]
      rfl
    · have unseen := (absent_iff _).mpr (Bool.eq_false_iff.mpr page)
      rw [if_neg page,if_neg (not_not_intro unseen)]
      rfl
  · have hidden := (absent_iff _).mpr (Bool.eq_false_iff.mpr table)
    rw [if_neg table]
    simp only [blackVmmIsMapped,directory,Option.bind_eq_bind,Option.bind_some,if_pos hidden]
    rfl

theorem unmapPage_eq : blackVmmUnmapPage s v =
    some (if present (s.table (v.toNat / 4096 / 1024)) = true then s.setSlot (v.toNat / 4096) 0 else s) := by
  have directory := load_pde s recursive v
  by_cases table : present (s.table (v.toNat / 4096 / 1024)) = true
  · have visible := present_ne _ table
    rw [if_pos table]
    simp only [blackVmmUnmapPage,directory,Option.bind_eq_bind,Option.bind_some,if_neg visible]
    exact store_pte s recursive v table 0
  · have hidden := (absent_iff _).mpr (Bool.eq_false_iff.mpr table)
    rw [if_neg table]
    simp only [blackVmmUnmapPage,directory,Option.bind_eq_bind,Option.bind_some,if_pos hidden]
    rfl

end Queries

/-- The allocator yields a frame that no directory entry names. -/
def Machine.Fresh (s : Machine) : Prop :=
  (Pmm.blackPmmAllocFrame s.pmm).2 ≠ 0 ∧ ∀ k < 1024, present (s.table k) = true →
    frame (s.table k) ≠ frame (Pmm.blackPmmAllocFrame s.pmm).2

theorem ensureTable_fails (s : Machine) (recursive : Recursive s.mem s.dir) (i flags : Word)
    (low : i.toNat < 1024) (absent : present (s.table i.toNat) = false)
    (failed : (Pmm.blackPmmAllocFrame s.pmm).2 = 0) :
    ensureTable s i flags = some ({s with pmm := (Pmm.blackPmmAllocFrame s.pmm).1},false) := by
  have read := load_directory s recursive i low
  have hidden : entry s.mem s.dir i.toNat &&& pagePresent = 0 := (absent_iff _).mpr absent
  simp only [ensureTable,read,Option.bind_eq_bind,Option.bind_some,if_pos hidden,if_pos failed]
  rfl

theorem mapPage_fails (s : Machine) (recursive : Recursive s.mem s.dir) (v phys flags : Word)
    (absent : present (s.table (v.toNat / 4096 / 1024)) = false)
    (failed : (Pmm.blackPmmAllocFrame s.pmm).2 = 0) :
    blackVmmMapPage s v phys flags = some {s with pmm := (Pmm.blackPmmAllocFrame s.pmm).1} := by
  have bound := v.isLt
  have index := directory_index v
  have page : v.toNat / 2^22 = v.toNat / 4096 / 1024 := by omega
  have short := ensureTable_fails s recursive ((v >>> 22) &&& 0x3FF) flags (by omega)
    (by rw [index,page]; exact absent) failed
  simp only [blackVmmMapPage,short,Option.bind_eq_bind,Option.bind_some]
  rfl

section Mapping
variable (s : Machine) (ordered : Ordered s) (v phys flags : Word) (low : v.toNat < 0xFFC00000)
include ordered low

theorem mapPage_present (there : present (s.table (v.toNat / 4096 / 1024)) = true) :
    ∃ s' t, blackVmmMapPage s v phys flags = some s' ∧ Linked s s' (v.toNat / 4096) t (frame phys) := by
  have index := directory_index v
  have page : v.toNat / 2^22 = v.toNat / 4096 / 1024 := by omega
  have apart := table_apart s ordered _ (by omega) there
  rw [← page] at there apart
  obtain ⟨s₁,ready,tabled⟩ := ensureTable_present s ordered.recursive ((v >>> 22) &&& 0x3FF) flags (by omega)
    (by rw [index]; exact there) (by rw [index]; exact apart)
  rw [index] at tabled
  obtain ⟨s',mapped,links⟩ := mapPage_tabled s s₁ ordered.recursive v phys flags _ (by omega) ready apart
    tabled
  rw [page] at links
  refine ⟨s',_,mapped,ordered,by omega,links,?_⟩
  · intro absent
    rw [← page,there] at absent
    cases absent

theorem mapPage_fresh (absent : present (s.table (v.toNat / 4096 / 1024)) = false) (fresh : s.Fresh) :
    ∃ s' t, blackVmmMapPage s v phys flags = some s' ∧ Linked s s' (v.toNat / 4096) t (frame phys) := by
  have index := directory_index v
  have page : v.toNat / 2^22 = v.toNat / 4096 / 1024 := by omega
  obtain ⟨found,unnamed⟩ := fresh
  rcases Pmm.allocFrame_spec s.pmm with ⟨failed,_⟩ | ⟨t,pmm,got,lowFrame,free,takes⟩
  · rw [failed] at found
    exact absurd rfl found
  · rw [got] at found unnamed
    have positive : t ≠ 0 := by
      intro zero
      have none : word 0 * Pmm.blackPageSize = 0 := by decide
      rw [zero] at found
      exact found none
    rw [frame_address t lowFrame] at unnamed
    have apart : t ≠ s.dir := by
      have last := ordered.recursive
      intro same
      exact unnamed 1023 (by decide) last.1 (last.2.trans same.symm)
    obtain ⟨s₁,ready,tabled⟩ := ensureTable_fresh s ordered.recursive ((v >>> 22) &&& 0x3FF) flags
      (by omega) (by rw [index,page]; exact absent) t pmm got lowFrame free takes positive apart
    rw [index] at tabled
    obtain ⟨s',mapped,links⟩ := mapPage_tabled s s₁ ordered.recursive v phys flags t (by omega) ready apart
      tabled
    refine ⟨s',t,mapped,ordered,by omega,?_,fun _ => unnamed⟩
    rw [← page]
    exact links

end Mapping

/-- Tables in order whose frames, like frame 0, the allocator holds as taken. -/
structure InOrder (s : Machine) : Prop where
  ordered : Ordered s
  taken : ∀ k < 1024, present (s.table k) = true → frame (s.table k) < maxFrames →
    isSet s.pmm.bitmap (frame (s.table k)) = true
  zero : isSet s.pmm.bitmap 0 = true

theorem linked_grows (s s' : Machine) (p t f : Nat) (linked : Linked s s' p t f) (g : Nat)
    (on : isSet s.pmm.bitmap g = true) : isSet s'.pmm.bitmap g = true := by
  rcases linked.links.origin with ⟨_,_,same,_⟩ | ⟨_,_,_,takes,_⟩
  · rw [same]
    exact on
  · rw [takes.bits,on,Bool.true_or]

theorem linked_inOrder (s s' : Machine) (p t f : Nat) (order : InOrder s) (linked : Linked s s' p t f) :
    InOrder s' := by
  have grows := linked_grows s s' p t f linked
  refine ⟨linked_ordered s s' p t f linked,?_,grows 0 order.zero⟩
  intro k inside mapped low
  by_cases same : k = p / 1024
  · have here := linked_table_here s s' p t f linked
    rw [same,here.2] at low ⊢
    rcases linked.links.origin with ⟨was,before,_,_⟩ | ⟨_,_,_,takes,_⟩
    · have named : frame (s.table (p / 1024)) = t := before
      have old := order.taken (p / 1024) (by omega) was
      rw [named] at old
      exact grows t (old low)
    · rw [takes.bits]
      simp [Pmm.mem_frames_one]
  · rw [linked_table_other s s' p t f linked k inside same] at mapped low ⊢
    exact grows _ (order.taken k inside mapped low)

/-- Mapping a page links the frame in, or finds no frame for a missing table. -/
theorem mapPage_inOrder (s : Machine) (order : InOrder s) (v phys flags : Word)
    (low : v.toNat < 0xFFC00000) :
    (blackVmmMapPage s v phys flags = some s ∧ present (s.table (v.toNat / 4096 / 1024)) = false ∧
      ∀ f, f < maxFrames → isSet s.pmm.bitmap f = true) ∨
    ∃ s' t, blackVmmMapPage s v phys flags = some s' ∧ Linked s s' (v.toNat / 4096) t (frame phys) := by
  by_cases there : present (s.table (v.toNat / 4096 / 1024)) = true
  · exact .inr (mapPage_present s order.ordered v phys flags low there)
  · have absent := Bool.eq_false_iff.mpr there
    rcases Pmm.allocFrame_spec s.pmm with ⟨failed,full⟩ | ⟨t,pmm,got,lowFrame,free,takes⟩
    · left
      refine ⟨?_,absent,full⟩
      rw [mapPage_fails s order.ordered.recursive v phys flags absent (by rw [failed]),failed]
    · right
      have differs : ∀ f, isSet s.pmm.bitmap f = true → f ≠ t := by
        intro f on same
        rw [same,free] at on
        cases on
      refine mapPage_fresh s order.ordered v phys flags low absent ⟨?_,?_⟩
      · rw [got]
        exact frame_address_ne t lowFrame (differs 0 order.zero).symm
      · intro k inside mapped
        rw [got,frame_address t lowFrame]
        intro same
        exact differs _ (order.taken k inside mapped (by omega)) same

theorem setSlot_inOrder (s : Machine) (order : InOrder s) (p : Nat) (low : p / 1024 < 1023)
    (mapped : present (s.table (p / 1024)) = true) (e : Word) : InOrder (s.setSlot p e) := by
  refine ⟨setSlot_ordered s order.ordered p low mapped e,?_,order.zero⟩
  intro k inside there below
  rw [setSlot_table s order.ordered p low mapped e k inside] at there below ⊢
  exact order.taken k inside there below

/-- On every page below the window but that of `v` the queries answer as before. -/
def Elsewhere (s s' : Machine) (v : Word) : Prop :=
  ∀ w : Word, w.toNat < 0xFFC00000 → w.toNat / 4096 ≠ v.toNat / 4096 →
    blackVmmGetPhysical s' w = blackVmmGetPhysical s w ∧ blackVmmIsMapped s' w = blackVmmIsMapped s w

theorem elsewhere_map (s s' : Machine) (v : Word) (before : Ordered s) (after : Ordered s')
    (others : ∀ q, q / 1024 < 1023 → q ≠ v.toNat / 4096 → s'.pageEntry q = s.pageEntry q) :
    Elsewhere s s' v := by
  intro w below apart
  have same := others (w.toNat / 4096) (by omega) apart
  rw [getPhysical_eq s' after.recursive,getPhysical_eq s before.recursive,isMapped_eq s' after.recursive,
    isMapped_eq s before.recursive,same]
  exact ⟨rfl,rfl⟩

/-- The calls implement a map from pages to frames: mapping sets it at one page, unmapping
clears it there, and a mapping that finds no frame for a table leaves the tables alone. -/
theorem queries_map (s : Machine) (ordered : Ordered s) (v : Word) (low : v.toNat < 0xFFC00000) :
    (∀ p flags, present (s.table (v.toNat / 4096 / 1024)) = true ∨ s.Fresh →
      ∃ s', blackVmmMapPage s v p flags = some s' ∧ Elsewhere s s' v ∧
        ∀ w : Word, w.toNat / 4096 = v.toNat / 4096 →
          blackVmmGetPhysical s' w = some ((p &&& 0xFFFFF000) ||| (w &&& 0xFFF)) ∧
          blackVmmIsMapped s' w = some 1) ∧
    (∃ s', blackVmmUnmapPage s v = some s' ∧ Elsewhere s s' v ∧
      ∀ w : Word, w.toNat / 4096 = v.toNat / 4096 →
        blackVmmGetPhysical s' w = some 0 ∧ blackVmmIsMapped s' w = some 0) ∧
    ∀ p flags, present (s.table (v.toNat / 4096 / 1024)) = false →
      (Pmm.blackPmmAllocFrame s.pmm).2 = 0 →
      ∃ s', blackVmmMapPage s v p flags = some s' ∧ s'.mem = s.mem ∧ s'.cr3 = s.cr3 := by
  refine ⟨fun p flags ready => ?_,?_,fun p flags absent failed => ?_⟩
  · obtain ⟨s',t,mapped,linked⟩ : ∃ s' t, blackVmmMapPage s v p flags = some s' ∧
        Linked s s' (v.toNat / 4096) t (frame p) := by
      by_cases there : present (s.table (v.toNat / 4096 / 1024)) = true
      · exact mapPage_present s ordered v p flags low there
      · exact mapPage_fresh s ordered v p flags low (Bool.eq_false_iff.mpr there)
          (ready.resolve_left there)
    have after := linked_ordered s s' _ t _ linked
    refine ⟨s',mapped,elsewhere_map s s' v ordered after (linked_pageEntry s s' _ t _ linked),?_⟩
    intro w same
    have table := linked_table_here s s' _ t _ linked
    have slot := linked_slot_here s s' _ t _ linked
    rw [getPhysical_eq s' after.recursive,isMapped_eq s' after.recursive,same,Machine.pageEntry,
      if_pos table.1,if_pos slot.1]
    refine ⟨?_,rfl⟩
    rw [Option.elim_some,masked_frame,slot.2,← masked_frame]
  · rw [unmapPage_eq s ordered.recursive]
    refine ⟨_,rfl,?_⟩
    by_cases there : present (s.table (v.toNat / 4096 / 1024)) = true
    · rw [if_pos there]
      have after := setSlot_ordered s ordered _ (by omega) there 0
      have set := setSlot_pageEntry s ordered _ (by omega) there 0
      refine ⟨elsewhere_map s _ v ordered after fun q below other => ?_,fun w same => ?_⟩
      · rw [set q (by omega),if_neg other]
      · rw [getPhysical_eq _ after.recursive,isMapped_eq _ after.recursive,same,set _ (by omega),if_pos rfl]
        exact ⟨rfl,rfl⟩
    · rw [if_neg there]
      refine ⟨fun w below apart => ⟨rfl,rfl⟩,fun w same => ?_⟩
      rw [getPhysical_eq s ordered.recursive,isMapped_eq s ordered.recursive,same,Machine.pageEntry,
        if_neg there]
      exact ⟨rfl,rfl⟩
  · exact ⟨_,mapPage_fails s ordered.recursive v p flags absent failed,rfl,rfl⟩

/-- A machine whose directory, in frame 1, holds its own entry only. -/
def bare : Machine where
  mem := ofEntries fun f i => if f = 1 ∧ i = 1023 then 0x1003 else 0
  cr3 := 0x1000
  pmm := ⟨fun i => if i = 0 then 0x3 else 0,0x8000,2,0x8000000⟩

theorem bare_table (i : Nat) (inside : i < 1024) : bare.table i = if i = 1023 then 0x1003 else 0 := by
  have root : bare.dir = 1 := by decide
  rw [Machine.table,root]
  refine (entry_ofEntries _ 1 i (by decide) inside).trans ?_
  by_cases last : i = 1023
  · rw [if_pos last,if_pos ⟨rfl,last⟩]
  · rw [if_neg last,if_neg fun both => last both.2]

theorem bare_absent (i : Nat) (low : i < 1023) : present (bare.table i) = false := by
  rw [bare_table i (by omega),if_neg (by omega)]
  decide

theorem bare_ordered : Ordered bare := by
  have last := bare_table 1023 (by decide)
  have only : ∀ i < 1024, present (bare.table i) = true → i = 1023 := by
    intro i inside mapped
    by_contra other
    rw [bare_absent i (by omega)] at mapped
    cases mapped
  refine ⟨?_,?_⟩
  · unfold Recursive
    rw [show entry bare.mem bare.dir 1023 = 0x1003 from last]
    decide
  · intro i inside j inside' first second _
    exact (only i inside first).trans (only j inside' second).symm

theorem bare_fresh : bare.Fresh := by
  have second : (Pmm.blackPmmAllocFrame bare.pmm).2 = 0x2000 := by decide
  refine ⟨by rw [second]; decide,fun k inside mapped same => ?_⟩
  rw [second] at same
  by_cases last : k = 1023
  · rw [bare_table k inside,if_pos last] at same
    exact absurd same (by decide)
  · rw [bare_absent k (by omega)] at mapped
    cases mapped

theorem queries_map_bare : Ordered bare ∧ bare.Fresh ∧ ∃ s',
    blackVmmMapPage bare 0x400000 0x5000 pageWrite = some s' ∧ Elsewhere bare s' 0x400000 ∧
    blackVmmGetPhysical s' 0x400123 = some 0x5123 := by
  have fresh := bare_fresh
  obtain ⟨map,_,_⟩ := queries_map bare bare_ordered 0x400000 (by decide)
  obtain ⟨s',mapped,elsewhere,here⟩ := map 0x5000 pageWrite (.inr fresh)
  exact ⟨bare_ordered,fresh,s',mapped,elsewhere,(here 0x400123 (by decide)).1⟩

end BlackOS.Vmm
