import BlackOS.ElfLoad

/-! Which images are in memory as they should be once the loader returns, whatever the
free frames held before. -/
namespace BlackOS.Elf
open BlackOS.Library.Ram BlackOS.Library.Paging BlackOS.Library.Bitmap
open BlackOS.Library.Overlay BlackOS.Library.Run BlackOS.Vmm
open BlackOS.Pmm (maxFrames)

/-- The machine with other leftovers in its free frames. -/
def refill (s : Machine) (fill : Memory) : Machine :=
  {s with mem := fun a => if a.toNat / 4096 < maxFrames ∧ isSet s.pmm.bitmap (a.toNat / 4096) = false
    then fill a else s.mem a}

theorem refill_leftover (s : Machine) (fill : Memory) (y : Byte) (left : Leftover (refill s fill) y) :
    ∃ a, y = fill a := by
  obtain ⟨a,low,off,byte⟩ := left
  refine ⟨a,byte.symm.trans ?_⟩
  exact if_pos ⟨low,off⟩

section Refill
variable (own : Nat → Owner) (s : Machine) (space : Space own s) (fill : Memory)
include space

theorem refill_spared (a : Word) (owned : own (a.toNat / 4096) ≠ .free) :
    (refill s fill).mem a = s.mem a := by
  refine if_neg fun free => owned ?_
  exact space.free _ free.1 free.2

theorem refill_space : Space own (refill s fill) :=
  change_space own s space _ _ (refill_spared own s space fill) nofun nofun

theorem refill_kernel (a : Word) (x : Byte) (kernel : Kernel own s a x) : Kernel own (refill s fill) a x :=
  change_kernel own s space _ _ (refill_spared own s space fill) nofun nofun a x kernel

theorem refill_view : view (refill s fill) = view s := by
  have spared := refill_spared own s space fill
  funext a
  unfold view
  by_cases user : a.toNat < 0xC0000000
  · rw [if_pos user,if_pos user]
    refine change_load own s space _ _ spared nofun nofun a user fun mapped linked => ?_
    have owner := space.page a user mapped linked
    exact change_byte own s _ _ spared a (by rw [owner]; nofun)
  · rw [if_neg user,if_neg user]

theorem refill_enough (pages : List Nat) (low : ∀ p ∈ pages, p / 1024 < 1024) (enough : Enough s pages) :
    Enough (refill s fill) pages :=
  enough_same s (refill s fill) pages low rfl
    (change_directory own s space _ _ (refill_spared own s space fill) nofun) enough

end Refill

theorem refill_ready (own : Nat → Owner) (s : Machine) (data size : Word) (img : Image)
    (ready : Ready own s data size img) (sound : img.Sound size) (fill : Memory) :
    Ready own (refill s fill) data size img := by
  have space := ready.space
  have lies : Lies own (refill s fill) data size img :=
    fun i inside => refill_kernel own s space fill _ _ (ready.lies i inside)
  refine ⟨refill_space own s space fill,lies,?_,?_⟩
  · rw [validate_image own _ data size img sound.header lies,
      ← validate_image own s data size img sound.header ready.lies]
    exact ready.valid
  · exact refill_enough own s space fill _ (visits_low size _ sound.fits) ready.enough

def Image.Disjoint (img : Image) : Prop :=
  img.segments.Pairwise fun x y => ∀ a, x.Holds a → ¬ y.Holds a

/-- Every address of a segment is on a page that was mapped before, or that the loop of
the segment or of an earlier one maps. -/
def Image.Reachable (img : Image) (s : Machine) : Prop :=
  ∀ before x after, img.segments = before ++ x::after → ∀ a, x.Holds a →
    view s a ≠ none ∨ ∃ y ∈ before ++ [x], pageOf a ∈ y.visits

/-- The loop of a segment maps no page that holds a byte of an earlier segment. -/
def Image.Unshared (img : Image) : Prop :=
  img.segments.Pairwise fun x y => ∀ a, x.Holds a → pageOf a ∉ y.visits

def Image.Loaded (img : Image) (s : Machine) : Prop :=
  ∀ x ∈ img.segments, ∀ i < x.memsz.toNat, s.load8 (x.vaddr + Library.Ram.word i) = some (x.byte img i)

section Pieces
variable (img : Image)

theorem pieces_apart (disjoint : img.Disjoint) : (pieces img img.segments).Pairwise Apart := by
  rw [pieces,List.pairwise_map]
  refine disjoint.imp fun apart a b value => ?_
  exact piece_outside _ img a (apart a (piece_holds _ img a b value))

theorem pieces_spared (unshared : img.Unshared) : (pieces img img.segments).Pairwise (Spares pageOf) := by
  rw [pieces,List.pairwise_map]
  refine unshared.imp fun spared a b value => ?_
  exact spared a (piece_holds _ img a b value)

theorem pieces_reached (s : Machine) :
    Reached pageOf (view s) (pieces img img.segments) ↔ img.Reachable s := by
  constructor
  · intro reached before x after split a held
    have laid : pieces img img.segments =
        before.map (·.piece img) ++ x.piece img::after.map (·.piece img) := by
      rw [pieces,split,List.map_append,List.map_cons]
    rcases reached _ _ _ laid a _ (piece_inside x img a held) with old | ⟨y,member,taken⟩
    · exact .inl old
    · right
      have mapped : y ∈ (before ++ [x]).map (·.piece img) := by
        rw [List.map_append,List.map_singleton]
        exact member
      obtain ⟨z,within,rfl⟩ := List.mem_map.mp mapped
      exact ⟨z,within,taken⟩
  · intro reachable before x after split a b value
    obtain ⟨front,back,same,rfl,rest⟩ := List.map_eq_append_iff.mp split
    obtain ⟨y,tail,rfl,rfl,rfl⟩ := List.map_eq_cons_iff.mp rest
    rcases reachable front y tail same a (piece_holds y img a b value) with old | ⟨z,member,visited⟩
    · exact .inl old
    · refine .inr ⟨z.piece img,?_,visited⟩
      have mapped := List.mem_map_of_mem (f := (·.piece img)) member
      rw [List.map_append,List.map_singleton] at mapped
      exact mapped

theorem holds_place (x : Segment) (size : Word) (fits : x.Fits size) (i : Nat) (inside : i < x.memsz.toNat) :
    x.Holds (x.vaddr + word i) ∧ (x.vaddr + word i).toNat - x.vaddr.toNat = i := by
  have user := fits.user
  have index := word_toNat i (by omega)
  have place : (x.vaddr + word i).toNat = x.vaddr.toNat + i := by
    rw [BitVec.toNat_add,index]
    exact Nat.mod_eq_of_lt (by omega)
  refine ⟨⟨?_,?_⟩,?_⟩
  · omega
  · omega
  · omega

theorem loaded_pieces (size : Word) (fits : ∀ x ∈ img.segments, x.Fits size) (s : Machine) :
    img.Loaded s ↔ ∀ x ∈ img.segments, ∀ a b, (x.piece img).bytes a = some b → view s a = some b := by
  constructor
  · intro loaded x member a b value
    have held := piece_holds x img a b value
    have user := (fits x member).user
    obtain ⟨low,high⟩ := held
    have place : x.vaddr + word (a.toNat - x.vaddr.toNat) = a := by
      apply BitVec.eq_of_toNat_eq
      rw [BitVec.toNat_add,word_toNat _ (by omega)]
      omega
    have found := loaded x member (a.toNat - x.vaddr.toNat) (by omega)
    rw [piece_inside x img a ⟨low,high⟩] at value
    rw [place,value] at found
    rw [view,if_pos (by omega)]
    exact found
  · intro laid x member i inside
    obtain ⟨held,index⟩ := holds_place x size (fits x member) i inside
    have user := (fits x member).user
    have found := laid x member _ _ (piece_inside x img _ held)
    obtain ⟨low,high⟩ := held
    rw [view,if_pos (by omega),index] at found
    exact found

end Pieces

section Outcome
variable (own : Nat → Owner) (s : Machine) (data size : Word) (img : Image)
  (ready : Ready own s data size img) (sound : img.Sound size)
include ready sound

theorem load_returns : blackElfLoad s data size ≠ none ↔ img.Reachable s := by
  rw [← pieces_reached]
  rcases load_lays own s data size img ready sound with ⟨s',loaded,run⟩ | ⟨fault,unreached⟩
  · rw [loaded]
    exact iff_of_true (Option.some_ne_none _) (run_reached run)
  · rw [fault]
    exact iff_of_false (not_not_intro rfl) unreached

/-- A load that returns gives the entry, and has laid the segments. -/
theorem load_run (s' : Machine) (e : Word) (loaded : blackElfLoad s data size = some (s',e)) :
    e = img.entry ∧ Steps (Lays pageOf (Leftover s)) (view s) (pieces img img.segments) (view s') := by
  rcases load_lays own s data size img ready sound with ⟨last,found,run⟩ | ⟨fault,_⟩
  · obtain ⟨rfl,rfl⟩ := Prod.mk.inj (Option.some.inj (found.symm.trans loaded))
    exact ⟨rfl,run⟩
  · rw [fault] at loaded
    cases loaded

theorem load_unshared (disjoint : img.Disjoint) (unshared : img.Unshared) (s' : Machine) (e : Word)
    (loaded : blackElfLoad s data size = some (s',e)) : img.Loaded s' := by
  obtain ⟨_,run⟩ := load_run own s data size img ready sound s' e loaded
  rw [loaded_pieces img size sound.fits]
  intro x member a b value
  exact run_faithful run (pieces_apart img disjoint) (pieces_spared img unshared) _
    (List.mem_map_of_mem member) a b value

/-- Where a later segment takes the page of an earlier one, a byte of the earlier one
becomes what a free frame held. -/
theorem load_shared (disjoint : img.Disjoint) (x y : Segment) (order : [x,y].Sublist img.segments)
    (a : Word) (held : x.Holds a) (visited : pageOf a ∈ y.visits) (s' : Machine) (e : Word)
    (loaded : blackElfLoad s data size = some (s',e)) (whole : img.Loaded s') :
    Leftover s (x.byte img (a.toNat - x.vaddr.toNat)) := by
  obtain ⟨_,run⟩ := load_run own s data size img ready sound s' e loaded
  have here := piece_inside x img a held
  obtain ⟨c,left,found⟩ := run_lost run (pieces_apart img disjoint) (x.piece img) (y.piece img)
    (order.map fun z : Segment => z.piece img) a _ here visited
  have member : x ∈ img.segments := order.subset List.mem_cons_self
  have wanted := (loaded_pieces img size sound.fits s').mp whole x member a _ here
  rw [wanted] at found
  rw [Option.some.inj found]
  exact left

end Outcome

theorem refill_reachable (own : Nat → Owner) (s : Machine) (space : Space own s) (img : Image)
    (fill : Memory) : img.Reachable (refill s fill) ↔ img.Reachable s := by
  rw [← pieces_reached,refill_view own s space fill,pieces_reached]

/-- With some leftovers an image whose segments share a page is not loaded. -/
theorem shared_lost (own : Nat → Owner) (s : Machine) (data size : Word) (img : Image)
    (ready : Ready own s data size img) (sound : img.Sound size) (disjoint : img.Disjoint)
    (reachable : img.Reachable s) (shared : ¬ img.Unshared) :
    ∃ fill s', blackElfLoad (refill s fill) data size = some (s',img.entry) ∧ ¬ img.Loaded s' := by
  obtain ⟨x,y,order,a,held,visited⟩ : ∃ x y, [x,y].Sublist img.segments ∧
      ∃ a, x.Holds a ∧ pageOf a ∈ y.visits := by
    by_contra none
    refine shared (List.pairwise_iff_forall_sublist.mpr fun {x y} order a held visited => ?_)
    exact none ⟨x,y,order,a,held,visited⟩
  -- Any byte will do that is not the one that belongs there.
  obtain ⟨c,other⟩ : ∃ c, x.byte img (a.toNat - x.vaddr.toNat) ≠ c :=
    ⟨x.byte img (a.toNat - x.vaddr.toNat) + 1,by bv_omega⟩
  have ready' := refill_ready own s data size img ready sound fun _ => c
  have returns := (load_returns own _ data size img ready' sound).mpr
    ((refill_reachable own s ready.space img _).mpr reachable)
  obtain ⟨⟨s',e⟩,loaded⟩ := Option.ne_none_iff_exists'.mp returns
  obtain ⟨rfl,_⟩ := load_run own _ data size img ready' sound s' e loaded
  refine ⟨_,s',loaded,fun whole => ?_⟩
  have left := load_shared own _ data size img ready' sound disjoint x y order a held visited s' _ loaded
    whole
  obtain ⟨_,stale⟩ := refill_leftover s _ _ left
  exact other stale

/-- Whatever the free frames hold, the loader returns if every segment can be reached, and
an image that it returns from with an entry is in memory if no segment maps a page that
holds a byte of an earlier one. Neither can be left out. -/
theorem load_faithful (own : Nat → Owner) (s : Machine) (data size : Word) (img : Image)
    (ready : Ready own s data size img) (sound : img.Sound size) (disjoint : img.Disjoint) :
    (∀ fill, blackElfLoad (refill s fill) data size ≠ none ↔ img.Reachable s) ∧
    ((∀ fill s' e, blackElfLoad (refill s fill) data size = some (s',e) → e ≠ 0 → img.Loaded s') ↔
      (img.entry ≠ 0 → img.Reachable s → img.Unshared)) := by
  have returns : ∀ fill, blackElfLoad (refill s fill) data size ≠ none ↔ img.Reachable s := by
    intro fill
    rw [load_returns own _ data size img (refill_ready own s data size img ready sound fill) sound]
    exact refill_reachable own s ready.space img fill
  refine ⟨returns,fun faithful entry reachable => ?_,fun condition fill s' e loaded entry => ?_⟩
  · by_contra shared
    obtain ⟨fill,s',loaded,lost⟩ := shared_lost own s data size img ready sound disjoint reachable shared
    exact lost (faithful fill s' img.entry loaded entry)
  · have ready' := refill_ready own s data size img ready sound fill
    have reachable := (returns fill).mp (by
      rw [loaded]
      exact Option.some_ne_none _)
    obtain ⟨rfl,_⟩ := load_run own _ data size img ready' sound s' e loaded
    exact load_unshared own _ data size img ready' sound disjoint (condition entry reachable) s' _ loaded

/-- A directory in frame 1, one table in frame 2 and an image in frame 3. -/
def bootMemory (img : Image) : Memory :=
  setEntry (setEntry (setEntry (fun a => if a.toNat / 4096 = 3 then img (a.toNat % 4096) else 0)
    1 1023 0x1003) 1 768 0x2003) 2 0 0x3003

/-- A machine with an image at the start of kernel memory. The frames from 4 on are free. -/
def boot (img : Image) : Machine where
  mem := bootMemory img
  cr3 := 0x1000
  pmm := ⟨fun i => if i = 0 then 0xF else 0,0x8000,4,0x8000000⟩

def bootOwner (f : Nat) : Owner :=
  if f = 1 then .directory else if f < 4 then .kernel else .free

section Boot
variable (img : Image)

theorem boot_directory (i : Nat) (inside : i < 1024) : entry (bootMemory img) 1 i =
    if i = 768 then 0x2003 else if i = 1023 then 0x1003 else 0 := by
  rw [bootMemory,entry_setEntry_other _ _ _ _ _ _ (by decide) (by decide) (by decide) inside
    (.inl (by decide))]
  by_cases kernel : i = 768
  · rw [if_pos kernel,kernel]
    exact entry_setEntry _ _ _ _
  · rw [if_neg kernel,entry_setEntry_other _ _ _ _ _ _ (by decide) (by decide) (by decide) inside
      (.inr kernel)]
    by_cases itself : i = 1023
    · rw [if_pos itself,itself]
      exact entry_setEntry _ _ _ _
    · rw [if_neg itself,entry_setEntry_other _ _ _ _ _ _ (by decide) (by decide) (by decide) inside
        (.inr itself)]
      exact entry_zero _ _ _ (by decide) inside fun a within => if_neg (by omega)

theorem boot_table : entry (bootMemory img) 2 0 = 0x3003 := entry_setEntry _ _ _ _

theorem boot_elsewhere (a : Word) (apart : a.toNat / 4096 ≠ 1 ∧ a.toNat / 4096 ≠ 2) :
    bootMemory img a = if a.toNat / 4096 = 3 then img (a.toNat % 4096) else 0 := by
  rw [bootMemory,setEntry_elsewhere _ _ _ _ _ (by decide) (by decide) apart.2,
    setEntry_elsewhere _ _ _ _ _ (by decide) (by decide) apart.1,
    setEntry_elsewhere _ _ _ _ _ (by decide) (by decide) apart.1]

theorem boot_bits (f : Nat) : isSet (boot img).pmm.bitmap f = decide (f < 4) := by
  have within : ∀ k < 32, (0xF : Word).getLsbD k = decide (k < 4) := by decide
  have bits : isSet (boot img).pmm.bitmap f = (if f / 32 = 0 then (0xF : Word) else 0).getLsbD (f % 32) := rfl
  rw [bits]
  by_cases first : f / 32 = 0
  · rw [if_pos first,within _ (Nat.mod_lt _ (by decide)),Nat.mod_eq_of_lt (by omega)]
  · rw [if_neg first,decide_eq_false (by omega)]
    exact BitVec.getLsbD_zero

theorem boot_dir : (boot img).dir = 1 := by
  have root : frame 0x1000 = 1 := by decide
  exact root

theorem boot_pde (a : Word) : (boot img).pde a =
    if a.toNat / 2^22 = 768 then 0x2003 else if a.toNat / 2^22 = 1023 then 0x1003 else 0 := by
  have bound := a.isLt
  rw [Machine.pde,boot_dir]
  exact boot_directory img _ (by omega)

theorem boot_unmapped (a : Word) (user : User a) : present ((boot img).pde a) = false := by
  unfold User at user
  rw [boot_pde,if_neg (by omega),if_neg (by omega)]
  decide

theorem boot_space : Space bootOwner (boot img) where
  recursive := by
    rw [boot_dir]
    have itself := boot_directory img 1023 (by decide)
    refine ⟨?_,?_⟩
    · rw [show entry (boot img).mem 1 1023 = 0x1003 from itself]
      decide
    · rw [show entry (boot img).mem 1 1023 = 0x1003 from itself]
      decide
  directory := by rw [boot_dir,bootOwner,if_pos rfl]
  zero := boot_bits img 0
  table := by
    intro a user mapped
    rw [boot_unmapped img a user] at mapped
    cases mapped
  page := by
    intro a user mapped
    rw [boot_unmapped img a user] at mapped
    cases mapped
  free := by
    intro f low off
    rw [boot_bits] at off
    have large := of_decide_eq_false off
    rw [bootOwner,if_neg (by omega),if_neg large]

theorem boot_lies (size : Word) (small : size.toNat ≤ 4096) :
    Lies bootOwner (boot img) 0xC0000000 size img := by
  intro i inside
  have start : (0xC0000000 : Word).toNat = 0xC0000000 := by decide
  have value : (0xC0000000 + word i : Word).toNat = 0xC0000000 + i := by
    rw [BitVec.toNat_add,word_toNat i (by omega),start]
    exact Nat.mod_eq_of_lt (by omega)
  have table : (boot img).pde (0xC0000000 + word i) = 0x2003 := by
    rw [boot_pde,value,if_pos (by omega)]
  have second : frame 0x2003 = 2 := by decide
  have third : frame 0x3003 = 3 := by decide
  have slot : (boot img).pte (0xC0000000 + word i) = 0x3003 := by
    have first : (0xC0000000 + i) / 4096 % 1024 = 0 := by omega
    rw [Machine.pte,table,value,second,first]
    exact boot_table img
  refine ⟨?_,?_,?_,?_,?_,?_⟩
  · unfold User
    omega
  · rw [table]
    decide
  · rw [table]
    decide
  · rw [slot]
    decide
  · rw [slot]
    decide
  · have low : (0xC0000000 + i) % 4096 = i := by omega
    have place := address_toNat 3 i (by decide) (by omega)
    rw [Machine.place,slot,value,third,low]
    refine (boot_elsewhere img (address 3 i) (by omega)).trans ?_
    rw [if_pos (by omega),place]
    refine congrArg img ?_
    omega

theorem boot_leftover (x : Byte) (left : Leftover (boot img) x) : x = 0 := by
  obtain ⟨a,low,off,byte⟩ := left
  rw [boot_bits] at off
  have large := of_decide_eq_false off
  rw [← byte]
  refine (boot_elsewhere img a (by omega)).trans ?_
  exact if_neg (by omega)

theorem boot_free : maxFrames - 4 ≤ freeFrames (boot img) := by
  have free : Finset.Ico 4 maxFrames ⊆ clearBits maxFrames (boot img).pmm.bitmap := by
    intro f member
    obtain ⟨low,high⟩ := Finset.mem_Ico.mp member
    refine Finset.mem_filter.mpr ⟨Finset.mem_range.mpr high,?_⟩
    rw [boot_bits]
    exact decide_eq_false (by omega)
  have counted := Finset.card_le_card free
  rw [Nat.card_Ico] at counted
  exact counted

end Boot

/-- An image of two segments on one page: four bytes at `0x08048000`, and eight at
`0x08048100` of which four are in the file. -/
def sharing : Image := fun i => List.getD [
  0x7F,0x45,0x4C,0x46,1,1,1,0,0,0,0,0,0,0,0,0,2,0,3,0,1,0,0,0,0x00,0x80,0x04,0x08,52,0,0,0,
  0,0,0,0,0,0,0,0,52,0,32,0,2,0,0,0,0,0,0,0,
  1,0,0,0,116,0,0,0,0x00,0x80,0x04,0x08,0x00,0x80,0x04,0x08,4,0,0,0,4,0,0,0,5,0,0,0,1,0,0,0,
  1,0,0,0,120,0,0,0,0x00,0x81,0x04,0x08,0x00,0x81,0x04,0x08,4,0,0,0,8,0,0,0,6,0,0,0,1,0,0,0,
  0x90,0x90,0xF4,0xC3,1,2,3,4] i 0

theorem sharing_segments : sharing.segments =
    [⟨0x08048000,4,4,116,5⟩,⟨0x08048100,8,4,120,6⟩] := by
  rfl

theorem sharing_sound : sharing.Sound 124 where
  header := by decide
  table := by decide
  fits := by
    rw [sharing_segments]
    intro x member
    simp only [List.mem_cons,List.not_mem_nil,or_false] at member
    rcases member with rfl | rfl
    · exact ⟨by decide,by decide,by decide⟩
    · exact ⟨by decide,by decide,by decide⟩

theorem sharing_disjoint : sharing.Disjoint := by
  rw [Image.Disjoint,sharing_segments,List.pairwise_pair]
  intro a first second
  have low : a.toNat < 0x08048000 + 4 := first.2
  have high : 0x08048100 ≤ a.toNat := second.1
  omega

theorem sharing_reachable : sharing.Reachable (boot sharing) := by
  intro before x after split a held
  have member : x ∈ sharing.segments := by
    rw [split]
    simp
  refine .inr ⟨x,by simp,?_⟩
  rw [sharing_segments] at member
  simp only [List.mem_cons,List.not_mem_nil,or_false] at member
  obtain ⟨low,high⟩ := held
  have page : pageOf a = 0x8048 := by
    unfold pageOf
    rcases member with rfl | rfl
    · have above : 0x08048000 ≤ a.toNat := low
      have below : a.toNat < 0x08048000 + 4 := high
      omega
    · have above : 0x08048100 ≤ a.toNat := low
      have below : a.toNat < 0x08048100 + 8 := high
      omega
  rw [page]
  rcases member with rfl | rfl
  · decide
  · decide

theorem sharing_ready : Ready bootOwner (boot sharing) 0xC0000000 124 sharing where
  space := boot_space sharing
  lies := boot_lies sharing 124 (by decide)
  valid := by
    rw [validate_image bootOwner _ _ 124 sharing (by decide) (boot_lies sharing 124 (by decide))]
    decide
  enough := by
    have pages : visitsOf sharing.segments = [0x8048,0x8048] := by
      rw [sharing_segments]
      decide
    have frames := boot_free sharing
    have most : maxFrames = 262144 := rfl
    have tables := Finset.card_filter_le (List.map (· / 1024) [0x8048,0x8048]).toFinset
      fun i => present (entry (boot sharing).mem (boot sharing).dir i) = false
    have one : (List.map (· / 1024) [0x8048,0x8048]).toFinset.card = 1 := by decide
    rw [pages,Enough,missing,List.length_cons,List.length_singleton]
    omega

/-- The loader returns the entry of a valid image whose disjoint segments fit, with frames to
spare, and the first segment is not in memory. -/
theorem load_unfaithful : Ready bootOwner (boot sharing) 0xC0000000 124 sharing ∧ sharing.Sound 124 ∧
    sharing.Disjoint ∧ ∃ s' e, blackElfLoad (boot sharing) 0xC0000000 124 = some (s',e) ∧ e ≠ 0 ∧
      ¬ sharing.Loaded s' := by
  have ready := sharing_ready
  refine ⟨ready,sharing_sound,sharing_disjoint,?_⟩
  have returns := (load_returns _ _ _ _ _ ready sharing_sound).mpr sharing_reachable
  obtain ⟨⟨s',e⟩,loaded⟩ := Option.ne_none_iff_exists'.mp returns
  obtain ⟨rfl,_⟩ := load_run _ _ _ _ _ ready sharing_sound s' e loaded
  refine ⟨s',_,loaded,by decide,fun whole => ?_⟩
  have left := load_shared _ _ _ _ _ ready sharing_sound sharing_disjoint _ _
    (by rw [sharing_segments]) 0x08048000 (by decide) (by decide) s' _ loaded whole
  have zero := boot_leftover sharing _ left
  exact absurd zero (by decide)

theorem load_faithful_sharing : Ready bootOwner (boot sharing) 0xC0000000 124 sharing ∧
    sharing.Sound 124 ∧ sharing.Disjoint ∧
    (∀ fill, blackElfLoad (refill (boot sharing) fill) 0xC0000000 124 ≠ none ↔
      sharing.Reachable (boot sharing)) ∧
    ((∀ fill s' e, blackElfLoad (refill (boot sharing) fill) 0xC0000000 124 = some (s',e) → e ≠ 0 →
      sharing.Loaded s') ↔ (sharing.entry ≠ 0 → sharing.Reachable (boot sharing) → sharing.Unshared)) :=
  ⟨sharing_ready,sharing_sound,sharing_disjoint,
    load_faithful bootOwner (boot sharing) 0xC0000000 124 sharing sharing_ready sharing_sound
      sharing_disjoint⟩

end BlackOS.Elf
