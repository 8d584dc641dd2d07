import BlackOS.Mmap
import BlackOS.Library.Run

/-! Runs of `black_mmap` and `black_munmap`, beside the frames that the mappings were given
and the pages that are live. Nothing gives a frame back. -/
namespace BlackOS.Mmap
open BlackOS.Library.Ram BlackOS.Library.Paging BlackOS.Library.Bitmap BlackOS.Library.Run BlackOS.Vmm
open BlackOS.Pmm (maxFrames)
open BlackOS.Elf (pageOf Enough freeFrames missing)

inductive Call
  | mmap (addr size flags : Word)
  | munmap (addr size : Word)

/-- The frames that `black_mmap` has been given, the pages of the live mappings, and the
ranges that it has returned. -/
structure Arena where
  machine : Machine
  given : Set Nat
  live : Set Nat
  returned : List (Word × Word)

/-- The pages of a range. -/
def span (addr size : Word) : Set Nat :=
  {q | pageOf addr ≤ q ∧ q < pageOf addr + (size.toNat + 0xFFF) / 0x1000}

def Arena.step (s : Arena) : Call → Option Arena
  | .mmap addr size flags => (blackMmap s.machine addr size flags).map fun r =>
    ⟨r.1,s.given ∪ {f | ∃ x ∈ r.2.2, x ≠ 0 ∧ frame x = f},s.live ∪ span r.2.1 size,
      (r.2.1,size) :: s.returned⟩
  | .munmap addr size =>
    if (addr,size) ∈ s.returned then
      (blackMunmap s.machine addr size).map fun r => ⟨r.1,s.given,s.live \ span addr size,s.returned⟩
    else none

/-- Every live page has a frame of its own that it was given, and there is no other frame
that was given and is still taken. -/
structure Conserved (s : Arena) : Prop where
  backed : ∀ p ∈ s.live, ∃ f, s.machine.frameAt p = some f ∧ f ≠ 0 ∧ f ∈ s.given ∧
    isSet s.machine.pmm.bitmap f = true
  apart : ∀ p ∈ s.live, ∀ q ∈ s.live, s.machine.frameAt p = s.machine.frameAt q → p = q
  balanced : ∀ f, (f ∈ s.given ∧ isSet s.machine.pmm.bitmap f = true) ↔
    ∃ p ∈ s.live, s.machine.frameAt p = some f

/-- A range whose rounded size is a 32-bit number and that ends below the window. -/
structure Inside (addr size : Word) : Prop where
  small : size.toNat + 0xFFF < 2^32
  below : pageOf addr + (size.toNat + 0xFFF) / 0x1000 ≤ windowPage

/-- Such a range, with a frame for each of its pages and for each missing table. -/
structure Room (s : Machine) (addr size : Word) : Prop where
  inside : Inside addr size
  enough : Enough s (List.range' (pageOf addr) ((size.toNat + 0xFFF) / 0x1000))

structure Arena.Inv (s : Arena) : Prop where
  order : InOrder s.machine
  low : ∀ p ∈ s.live, p / 1024 < 1023
  inside : ∀ r ∈ s.returned, Inside r.1 r.2
  taken : ∀ f ∈ s.given, isSet s.machine.pmm.bitmap f = true

theorem span_low (addr size : Word) (inside : Inside addr size) (q : Nat) (member : q ∈ span addr size) :
    q / 1024 < 1023 := by
  have window : windowPage = 1023 * 1024 := rfl
  have below := inside.below
  obtain ⟨_,under⟩ := member
  omega

/-- What a mapping does with room. -/
theorem mmap_backed (s : Machine) (order : InOrder s) (addr size flags : Word)
    (room : Room s (virtOf addr) size) : ∃ s' g,
      blackMmap s addr size flags = some (s',virtOf addr,
        (List.range' (pageOf (virtOf addr)) ((size.toNat + 0xFFF) / 0x1000)).map fun q =>
          word (g q) * Pmm.blackPageSize) ∧
      Backed s s' (pageOf (virtOf addr)) ((size.toNat + 0xFFF) / 0x1000) g := by
  have count := pagesOf_toNat size room.inside.small
  obtain ⟨s',g,run,backed⟩ := mmapLoop_backed (virtOf addr) flags ((size.toNat + 0xFFF) / 0x1000) 0 s
    room.inside.below order room.enough
  rw [Nat.add_zero] at run backed
  have zero : word 0 = 0 := rfl
  rw [zero] at run
  refine ⟨s',g,?_,backed⟩
  simp only [blackMmap,count,run,Option.bind_eq_bind,Option.bind_some]
  rfl

theorem munmap_spec (s : Machine) (order : InOrder s) (addr size : Word) (inside : Inside addr size) :
    ∃ s', blackMunmap s addr size = some (s',0) ∧ InOrder s' ∧ s'.pmm = s.pmm ∧
      ∀ q, q / 1024 < 1023 →
        (q ∈ span addr size → s'.frameAt q = none) ∧ (q ∉ span addr size → s'.frameAt q = s.frameAt q) := by
  have count := pagesOf_toNat size inside.small
  obtain ⟨s',run,kept,pmm,frames⟩ := munmapLoop_spec addr ((size.toNat + 0xFFF) / 0x1000) 0 s inside.below order
  have zero : word 0 = 0 := rfl
  rw [zero] at run
  refine ⟨s',?_,kept,pmm,fun q low => ⟨fun member => ?_,fun outside => ?_⟩⟩
  · simp only [blackMunmap,count,run,Option.bind_eq_bind,Option.bind_some]
    rfl
  · rw [frames q low]
    exact if_pos member
  · rw [frames q low]
    exact if_neg outside

theorem given_frames (first n : Nat) (g : Nat → Nat) (own : ∀ q, first ≤ q → q < first + n →
      g q < maxFrames ∧ g q ≠ 0) (f : Nat) :
    (∃ x ∈ (List.range' first n).map (fun q => word (g q) * Pmm.blackPageSize), x ≠ 0 ∧ frame x = f) ↔
      ∃ q, (first ≤ q ∧ q < first + n) ∧ g q = f := by
  refine ⟨fun found => ?_,fun found => ?_⟩
  · obtain ⟨x,listed,_,same⟩ := found
    obtain ⟨q,member,rfl⟩ := List.mem_map.mp listed
    have range := List.mem_range'_1.mp member
    refine ⟨q,range,?_⟩
    rw [← same,frame_address _ (own q range.1 range.2).1]
  · obtain ⟨q,range,rfl⟩ := found
    obtain ⟨low,positive⟩ := own q range.1 range.2
    refine ⟨_,List.mem_map.mpr ⟨q,List.mem_range'_1.mpr range,rfl⟩,frame_address_ne _ low positive,?_⟩
    exact frame_address _ low

section Account
variable (s s' : Arena) (inv : s.Inv) (conserved : Conserved s) (addr size : Word) (inside : Inside addr size)
  (g : Nat → Nat) (backed : Backed s.machine s'.machine (pageOf addr) ((size.toNat + 0xFFF) / 0x1000) g)
  (given : ∀ f, f ∈ s'.given ↔ f ∈ s.given ∨ ∃ q ∈ span addr size, g q = f)
  (live : s'.live = s.live ∪ span addr size)

include inside backed in
theorem frameAt_new (p : Nat) (within : p ∈ span addr size) : s'.machine.frameAt p = some (g p) := by
  rw [backed.frames p (span_low _ _ inside p within)]
  exact if_pos within

include inv backed in
theorem frameAt_old (p : Nat) (was : p ∈ s.live) (outside : p ∉ span addr size) :
    s'.machine.frameAt p = s.machine.frameAt p := by
  rw [backed.frames p (inv.low p was)]
  exact if_neg outside

include inv backed in
/-- A frame that was given before is not among the new ones. -/
theorem given_before (f : Nat) (was : f ∈ s.given) (q : Nat) (within : q ∈ span addr size) : g q ≠ f := by
  intro same
  have off := (backed.own q within.1 within.2).2.2.1
  rw [same,inv.taken f was] at off
  cases off

include inv conserved inside backed given live

/-- A live page that is mapped again leaves its frame without a page. -/
theorem account_apart (after : Conserved s') : Disjoint (span addr size) s.live := by
  rw [Set.disjoint_left]
  intro p within was
  obtain ⟨f,here,_,mine,on⟩ := conserved.backed p was
  obtain ⟨q,liveQ,there⟩ := (after.balanced f).mp ⟨(given f).mpr (.inl mine),backed.grows f on⟩
  rw [live] at liveQ
  by_cases new : q ∈ span addr size
  · rw [frameAt_new s s' addr size inside g backed q new] at there
    exact given_before s s' inv addr size g backed f mine q new (Option.some.inj there)
  · have wasQ := liveQ.resolve_right new
    rw [frameAt_old s s' inv addr size g backed q wasQ new] at there
    rw [conserved.apart q wasQ p was (there.trans here.symm)] at new
    exact new within

variable (disjoint : Disjoint (span addr size) s.live)
include disjoint

omit conserved inside given live in
theorem frameAt_kept (p : Nat) (was : p ∈ s.live) : s'.machine.frameAt p = s.machine.frameAt p :=
  frameAt_old s s' inv addr size g backed p was fun within => Set.disjoint_left.mp disjoint within was

omit given live in
theorem frames_crossed (p : Nat) (was : p ∈ s.live) (q : Nat) (within : q ∈ span addr size) :
    s'.machine.frameAt p ≠ s'.machine.frameAt q := by
  intro equal
  obtain ⟨f,here,_,mine,_⟩ := conserved.backed p was
  rw [frameAt_kept s s' inv addr size g backed disjoint p was,here,
    frameAt_new s s' addr size inside g backed q within] at equal
  exact given_before s s' inv addr size g backed f mine q within (Option.some.inj equal).symm

theorem account_kept : Conserved s' := by
  have kept := frameAt_kept s s' inv addr size g backed disjoint
  have new := frameAt_new s s' addr size inside g backed
  have crossed := frames_crossed s s' inv conserved addr size inside g backed disjoint
  refine ⟨fun p member => ?_,fun p member q member' same => ?_,fun f => ⟨fun both => ?_,fun found => ?_⟩⟩
  · rw [live] at member
    rcases member with was | within
    · obtain ⟨f,here,positive,mine,on⟩ := conserved.backed p was
      exact ⟨f,(kept p was).trans here,positive,(given f).mpr (.inl mine),backed.grows f on⟩
    · obtain ⟨_,positive,_,on⟩ := backed.own p within.1 within.2
      exact ⟨g p,new p within,positive,(given _).mpr (.inr ⟨p,within,rfl⟩),on⟩
  · rw [live] at member member'
    rcases member with was | within
    · rcases member' with was' | within'
      · rw [kept p was,kept q was'] at same
        exact conserved.apart p was q was' same
      · exact absurd same (crossed p was q within')
    · rcases member' with was' | within'
      · exact absurd same.symm (crossed q was' p within)
      · rw [new p within,new q within'] at same
        exact backed.apart p q within.1 within.2 within'.1 within'.2 (Option.some.inj same)
  · rcases (given f).mp both.1 with was | ⟨q,within,rfl⟩
    · obtain ⟨p,member,here⟩ := (conserved.balanced f).mp ⟨was,inv.taken f was⟩
      refine ⟨p,?_,(kept p member).trans here⟩
      rw [live]
      exact .inl member
    · refine ⟨q,?_,new q within⟩
      rw [live]
      exact .inr within
  · obtain ⟨p,member,here⟩ := found
    rw [live] at member
    rcases member with was | within
    · rw [kept p was] at here
      have both := (conserved.balanced f).mpr ⟨p,was,here⟩
      exact ⟨(given f).mpr (.inl both.1),backed.grows f both.2⟩
    · rw [new p within] at here
      rw [← Option.some.inj here]
      exact ⟨(given _).mpr (.inr ⟨p,within,rfl⟩),(backed.own p within.1 within.2).2.2.2⟩

end Account

section Mapping
variable (s : Arena) (inv : s.Inv) (conserved : Conserved s) (addr size flags : Word)
  (room : Room s.machine (virtOf addr) size) (s' : Arena) (step : s.step (.mmap addr size flags) = some s')
include inv room step

theorem mmap_step : ∃ g, Backed s.machine s'.machine (pageOf (virtOf addr)) ((size.toNat + 0xFFF) / 0x1000) g ∧
    (∀ f, f ∈ s'.given ↔ f ∈ s.given ∨ ∃ q ∈ span (virtOf addr) size, g q = f) ∧
    s'.live = s.live ∪ span (virtOf addr) size ∧ s'.returned = (virtOf addr,size) :: s.returned := by
  obtain ⟨m,g,mapped,backed⟩ := mmap_backed s.machine inv.order addr size flags room
  obtain ⟨r,returned,rfl⟩ := Option.map_eq_some_iff.mp step
  obtain rfl := Option.some.inj (mapped.symm.trans returned)
  have own : ∀ q, pageOf (virtOf addr) ≤ q → q < pageOf (virtOf addr) + (size.toNat + 0xFFF) / 0x1000 →
      g q < maxFrames ∧ g q ≠ 0 := fun q above under =>
    ⟨(backed.own q above under).1,(backed.own q above under).2.1⟩
  refine ⟨g,backed,fun f => or_congr Iff.rfl ?_,rfl,rfl⟩
  exact given_frames _ _ g own f

theorem mmap_inv : s'.Inv := by
  obtain ⟨g,backed,given,live,returned⟩ := mmap_step s inv addr size flags room s' step
  refine ⟨backed.order,fun p member => ?_,fun r listed => ?_,fun f member => ?_⟩
  · rw [live] at member
    rcases member with old | new
    · exact inv.low p old
    · exact span_low _ _ room.inside p new
  · rw [returned] at listed
    rcases List.mem_cons.mp listed with new | old
    · rw [new]
      exact room.inside
    · exact inv.inside r old
  · rcases (given f).mp member with old | ⟨q,⟨above,under⟩,same⟩
    · exact backed.grows f (inv.taken f old)
    · rw [← same]
      exact (backed.own q above under).2.2.2

include conserved

/-- A mapping with room keeps the account exactly when none of its pages is live. -/
theorem mmap_conserved : Conserved s' ↔ Disjoint (span (virtOf addr) size) s.live := by
  obtain ⟨g,backed,given,live,_⟩ := mmap_step s inv addr size flags room s' step
  constructor
  · exact account_apart s s' inv conserved _ size room.inside g backed given live
  · exact account_kept s s' inv conserved _ size room.inside g backed given live

end Mapping

section Unmapping
variable (s : Arena) (inv : s.Inv) (conserved : Conserved s) (addr size : Word) (s' : Arena)
  (step : s.step (.munmap addr size) = some s')
include inv step

theorem munmap_step : s'.given = s.given ∧ s'.live = s.live \ span addr size ∧ s'.returned = s.returned ∧
    InOrder s'.machine ∧ s'.machine.pmm = s.machine.pmm ∧ Inside addr size ∧
    ∀ q, q / 1024 < 1023 → q ∉ span addr size → s'.machine.frameAt q = s.machine.frameAt q := by
  obtain ⟨listed,done⟩ := Option.ite_none_right_eq_some.mp step
  obtain ⟨r,returned,rfl⟩ := Option.map_eq_some_iff.mp done
  have inside := inv.inside (addr,size) listed
  obtain ⟨m,unmapped,order,pmm,frames⟩ := munmap_spec s.machine inv.order addr size inside
  obtain rfl := Option.some.inj (unmapped.symm.trans returned)
  exact ⟨rfl,rfl,rfl,order,pmm,inside,fun q low outside => (frames q low).2 outside⟩

theorem munmap_inv : s'.Inv := by
  obtain ⟨given,live,returned,order,pmm,_,_⟩ := munmap_step s inv addr size s' step
  refine ⟨order,fun p member => ?_,fun r listed => ?_,fun f member => ?_⟩
  · rw [live] at member
    exact inv.low p member.1
  · rw [returned] at listed
    exact inv.inside r listed
  · rw [given] at member
    rw [pmm]
    exact inv.taken f member

include conserved

/-- An unmapping keeps the account exactly when it covers no live page. -/
theorem munmap_conserved : Conserved s' ↔ Disjoint (span addr size) s.live := by
  obtain ⟨given,live,_,_,pmm,_,frames⟩ := munmap_step s inv addr size s' step
  refine ⟨fun after => ?_,fun disjoint => ?_⟩
  · rw [Set.disjoint_left]
    intro p within member
    -- the frame of a page that is gone is still taken
    obtain ⟨f,here,_,was,on⟩ := conserved.backed p member
    obtain ⟨q,liveQ,there⟩ := (after.balanced f).mp (by rw [given,pmm]; exact ⟨was,on⟩)
    rw [live] at liveQ
    rw [frames q (inv.low q liveQ.1) liveQ.2] at there
    rw [conserved.apart q liveQ.1 p member (there.trans here.symm)] at liveQ
    exact liveQ.2 within
  · have apart : ∀ p ∈ s.live, p ∉ span addr size := fun p member within =>
      Set.disjoint_left.mp disjoint within member
    have same : s'.live = s.live := by
      rw [live]
      exact disjoint.symm.sdiff_eq_left
    have kept : ∀ p ∈ s.live, s'.machine.frameAt p = s.machine.frameAt p := fun p member =>
      frames p (inv.low p member) (apart p member)
    refine ⟨fun p member => ?_,fun p member q member' equal => ?_,fun f => ?_⟩
    · rw [same] at member
      rw [given,pmm,kept p member]
      exact conserved.backed p member
    · rw [same] at member member'
      rw [kept p member,kept q member'] at equal
      exact conserved.apart p member q member' equal
    · rw [given,pmm,same,conserved.balanced f]
      refine exists_congr fun p => and_congr_right fun member => ?_
      rw [kept p member]

end Unmapping

/-- Mappings with room on pages that are not live, and unmappings that cover no live page. -/
def Careful (s : Arena) : Call → Prop
  | .mmap addr size _ => Room s.machine (virtOf addr) size ∧ Disjoint (span (virtOf addr) size) s.live
  | .munmap addr size => Disjoint (span addr size) s.live

def CarefulNext (s : Arena) (c : Call) (s' : Arena) : Prop := Careful s c ∧ s.step c = some s'

theorem careful_step (s : Arena) (inv : s.Inv) (conserved : Conserved s) (c : Call) (s' : Arena)
    (next : CarefulNext s c s') : s'.Inv ∧ Conserved s' := by
  obtain ⟨careful,step⟩ := next
  cases c with
  | mmap addr size flags =>
    exact ⟨mmap_inv s inv addr size flags careful.1 s' step,
      (mmap_conserved s inv conserved addr size flags careful.1 s' step).mpr careful.2⟩
  | munmap addr size =>
    exact ⟨munmap_inv s inv addr size s' step,(munmap_conserved s inv conserved addr size s' step).mpr careful⟩

def Arena.start (m : Machine) : Arena := ⟨m,∅,∅,[]⟩

theorem start_inv (m : Machine) (order : InOrder m) : (Arena.start m).Inv :=
  ⟨order,nofun,nofun,nofun⟩

theorem start_conserved (m : Machine) : Conserved (Arena.start m) := by
  refine ⟨nofun,nofun,fun f => ⟨fun both => absurd both.1 (Set.notMem_empty f),fun found => ?_⟩⟩
  obtain ⟨p,member,_⟩ := found
  exact absurd member (Set.notMem_empty p)

/-- Over every run of careful calls the frames given and still taken are those of the live
pages, one for each; and in every state of such a run a mapping with room keeps it so
exactly when its pages are not live, and an unmapping exactly when it covers no live page. -/
theorem mmap_conserves (m : Machine) (order : InOrder m) (calls : List Call) (s : Arena)
    (run : Steps CarefulNext (Arena.start m) calls s) :
    Conserved s ∧
    (∀ addr size flags s', Room s.machine (virtOf addr) size → s.step (.mmap addr size flags) = some s' →
      (Conserved s' ↔ Disjoint (span (virtOf addr) size) s.live)) ∧
    ∀ addr size s', s.step (.munmap addr size) = some s' →
      (Conserved s' ↔ Disjoint (span addr size) s.live) := by
  obtain ⟨inv,conserved⟩ := run.invariant (fun s => s.Inv ∧ Conserved s)
    ⟨start_inv m order,start_conserved m⟩ fun s c s' held next => careful_step s held.1 held.2 c s' next
  exact ⟨conserved,fun addr size flags s' room step => mmap_conserved s inv conserved addr size flags room s' step,
    fun addr size s' step => munmap_conserved s inv conserved addr size s' step⟩

theorem bare_inOrder : InOrder bare := by
  refine ⟨bare_ordered,fun k inside mapped _ => ?_,by decide⟩
  by_cases last : k = 1023
  · rw [bare_table k inside,if_pos last]
    decide
  · rw [bare_absent k (by omega)] at mapped
    cases mapped

theorem bare_room : Room bare 0xB0000000 0x1000 := by
  have two : 2 ≤ freeFrames bare := by
    have some_ : ({2,3} : Finset Nat) ⊆ clearBits maxFrames bare.pmm.bitmap := by
      intro f member
      rw [clearBits,Finset.mem_filter,Finset.mem_range]
      rcases Finset.mem_insert.mp member with rfl | last
      · decide
      · rw [Finset.mem_singleton.mp last]
        decide
    exact Finset.card_le_card some_
  refine ⟨⟨by decide,by decide⟩,?_⟩
  have tables := Finset.card_filter_le (List.map (· / 1024) (List.range' 0xB0000 1)).toFinset
    fun i => present (entry bare.mem bare.dir i) = false
  have one : (List.map (· / 1024) (List.range' 0xB0000 1)).toFinset.card = 1 := by decide
  have pages : List.range' (pageOf 0xB0000000) ((BitVec.toNat (0x1000 : Word) + 0xFFF) / 0x1000) =
    List.range' 0xB0000 1 := by decide
  rw [pages,Enough,missing,List.length_range']
  omega

theorem bare_mmap : ∃ s, CarefulNext (Arena.start bare) (.mmap 0 0x1000 0) s := by
  obtain ⟨m,g,mapped,_⟩ := mmap_backed bare bare_inOrder 0 0x1000 0 bare_room
  obtain ⟨s,step⟩ : ∃ s, (Arena.start bare).step (.mmap 0 0x1000 0) = some s := by
    rw [Arena.step,Arena.start,mapped,Option.map_some]
    exact ⟨_,rfl⟩
  exact ⟨s,⟨bare_room,Set.disjoint_empty _⟩,step⟩

theorem mmap_conserves_bare : InOrder bare ∧ ∃ s,
    Steps CarefulNext (Arena.start bare) [.mmap 0 0x1000 0] s ∧ Conserved s := by
  obtain ⟨s,next⟩ := bare_mmap
  have run : Steps CarefulNext (Arena.start bare) [.mmap 0 0x1000 0] s := .snoc [] _ _ _ .nil next
  exact ⟨bare_inOrder,s,run,(mmap_conserves bare bare_inOrder _ s run).1⟩

/-- One page is mapped and unmapped, and its frame stays taken. -/
theorem munmap_leaks : InOrder bare ∧ ∃ s,
    Steps (fun s c s' => s.step c = some s') (Arena.start bare)
      [.mmap 0 0x1000 0,.munmap 0xB0000000 0x1000] s ∧ ¬ Conserved s := by
  obtain ⟨s,next⟩ := bare_mmap
  have first := next.2
  have inv := start_inv bare bare_inOrder
  have conserved := careful_step _ inv (start_conserved bare) _ s next
  obtain ⟨g,backed,given,live,returned⟩ := mmap_step _ inv 0 0x1000 0 bare_room s first
  have listed : ((0xB0000000 : Word),(0x1000 : Word)) ∈ s.returned := by
    rw [returned]
    exact List.mem_cons_self
  obtain ⟨m,unmapped,_⟩ := munmap_spec s.machine conserved.1.order 0xB0000000 0x1000 bare_room.inside
  obtain ⟨s',second⟩ : ∃ s', s.step (.munmap 0xB0000000 0x1000) = some s' := by
    rw [Arena.step,if_pos listed,unmapped,Option.map_some]
    exact ⟨_,rfl⟩
  refine ⟨bare_inOrder,s',.snoc [_] _ _ _ (.snoc [] _ _ _ .nil first) second,fun after => ?_⟩
  have disjoint := (munmap_conserved s conserved.1 conserved.2 0xB0000000 0x1000 s' second).mp after
  have within : 0xB0000 ∈ span 0xB0000000 0x1000 := ⟨by decide,by decide⟩
  refine Set.disjoint_left.mp disjoint within ?_
  rw [live]
  exact .inr within

end BlackOS.Mmap
