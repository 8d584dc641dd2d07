import BlackOS.VmmQueries
import BlackOS.ElfSegment
import Mathlib.Order.CompletePartialOrder

/-! `kernel/mm/mmap.c`: pages backed by frames of the allocator. The mapping of a page whose
frame could not be allocated goes to frame 0, and unmapping gives no frame back. -/
namespace BlackOS.Mmap
open BlackOS.Library.Ram BlackOS.Library.Paging BlackOS.Library.Bitmap BlackOS.Vmm
open BlackOS.Pmm (maxFrames Takes)
open BlackOS.Elf (pageOf Enough alloc_free enough_some enough_taken enough_linked enough_table)

/-- The loop of `black_mmap`, with what its calls of `black_pmm_alloc_frame` return. -/
def mmapLoop (virt flags : Word) : Nat → Word → Machine → Option (Machine × List Word)
  | 0,_,s => some (s,[])
  | n+1,i,s => do
    let (pmm,phys) := Pmm.blackPmmAllocFrame s.pmm
    let s ← blackVmmMapPage {s with pmm := pmm} (virt + i * 0x1000) phys (flags ||| pagePresent ||| pageWrite)
    let (s,frames) ← mmapLoop virt flags n (i + 1) s
    return (s,phys :: frames)

def pagesOf (size : Word) : Word := (size + 0xFFF) / 0x1000

/-- Where a mapping goes: to the address asked for, or to one fixed place. -/
def virtOf (addr : Word) : Word := if addr ≠ 0 then addr else 0xB0000000

def blackMmap (s : Machine) (addr size flags : Word) : Option (Machine × Word × List Word) := do
  let virt := virtOf addr
  let (s,frames) ← mmapLoop virt flags (pagesOf size).toNat 0 s
  return (s,virt,frames)

def munmapLoop (addr : Word) : Nat → Word → Machine → Option Machine
  | 0,_,s => some s
  | n+1,i,s => do
    let s ← blackVmmUnmapPage s (addr + i * 0x1000)
    munmapLoop addr n (i + 1) s

def blackMunmap (s : Machine) (addr size : Word) : Option (Machine × Int) := do
  let s ← munmapLoop addr (pagesOf size).toNat 0 s
  return (s,0)

theorem pagesOf_toNat (size : Word) (small : size.toNat + 0xFFF < 2^32) :
    (pagesOf size).toNat = (size.toNat + 0xFFF) / 0x1000 := by
  have round : (0xFFF : Word).toNat = 0xFFF := rfl
  have page : (0x1000 : Word).toNat = 0x1000 := rfl
  rw [pagesOf,BitVec.toNat_udiv,BitVec.toNat_add_of_lt (by rw [round]; exact small),round,page]

/-- The address of a round of either loop. -/
theorem round_page (virt : Word) (k : Nat) (low : pageOf virt + k < windowPage) :
    (virt + word k * 0x1000).toNat < 0xFFC00000 ∧ pageOf (virt + word k * 0x1000) = pageOf virt + k := by
  have first : windowPage = 1023 * 1024 := rfl
  have page : (0x1000 : Word).toNat = 0x1000 := rfl
  unfold pageOf at low ⊢
  have value : (virt + word k * 0x1000).toNat = virt.toNat + k * 0x1000 := by
    rw [BitVec.toNat_add,BitVec.toNat_mul,word_toNat k (by omega),page]
    omega
  rw [value]
  omega

theorem alloc_inOrder (s : Machine) (order : InOrder s) (pmm : Pmm.State)
    (grows : ∀ f, isSet s.pmm.bitmap f = true → isSet pmm.bitmap f = true) : InOrder {s with pmm := pmm} :=
  ⟨⟨order.ordered.recursive,order.ordered.distinct⟩,
    fun k inside mapped low => grows _ (order.taken k inside mapped low),grows 0 order.zero⟩

theorem takes_grows (s s' : Pmm.State) (a n : Nat) (takes : Takes s s' a n) (f : Nat)
    (on : isSet s.bitmap f = true) : isSet s'.bitmap f = true := by
  rw [takes.bits,on,Bool.true_or]

/-- A round of `black_mmap` below the window returns with the tables in order. -/
theorem round_inOrder (s : Machine) (order : InOrder s) (v flags : Word) (low : v.toNat < 0xFFC00000) :
    ∃ s', blackVmmMapPage {s with pmm := (Pmm.blackPmmAllocFrame s.pmm).1} v
      (Pmm.blackPmmAllocFrame s.pmm).2 flags = some s' ∧ InOrder s' := by
  have kept : InOrder {s with pmm := (Pmm.blackPmmAllocFrame s.pmm).1} := by
    rcases Pmm.allocFrame_spec s.pmm with ⟨failed,_⟩ | ⟨f,pmm,got,_,_,takes⟩
    · rw [failed]
      exact order
    · rw [got]
      exact alloc_inOrder s order pmm (takes_grows _ _ f 1 takes)
  rcases mapPage_inOrder _ kept v (Pmm.blackPmmAllocFrame s.pmm).2 flags low with ⟨same,_⟩ | ⟨s',t,mapped,linked⟩
  · exact ⟨_,same,kept⟩
  · exact ⟨s',mapped,linked_inOrder _ _ _ t _ kept linked⟩

theorem mmapLoop_inOrder (virt flags : Word) (n : Nat) :
    ∀ (k : Nat) (s : Machine), pageOf virt + k + n ≤ windowPage → InOrder s →
      ∃ s' frames, mmapLoop virt flags n (word k) s = some (s',frames) ∧ InOrder s' := by
  induction n with
  | zero => exact fun k s _ order => ⟨s,[],rfl,order⟩
  | succ n ih =>
    intro k s below order
    obtain ⟨s₁,mapped,kept⟩ := round_inOrder s order (virt + word k * 0x1000)
      (flags ||| pagePresent ||| pageWrite) (round_page virt k (by omega)).1
    obtain ⟨s',frames,rest,last⟩ := ih (k + 1) s₁ (by omega) kept
    have next : word k + 1 = word (k + 1) := word_add k 1
    refine ⟨s',(Pmm.blackPmmAllocFrame s.pmm).2 :: frames,?_,last⟩
    simp only [mmapLoop,mapped,next,rest,Option.bind_eq_bind,Option.bind_some]
    rfl

/-- The pages from `first` on are backed by frames that were free, each by its own. -/
structure Backed (s s' : Machine) (first n : Nat) (g : Nat → Nat) : Prop where
  order : InOrder s'
  frames : ∀ q, q / 1024 < 1023 → s'.frameAt q =
    if first ≤ q ∧ q < first + n then some (g q) else s.frameAt q
  own : ∀ q, first ≤ q → q < first + n → g q < maxFrames ∧ g q ≠ 0 ∧ isSet s.pmm.bitmap (g q) = false ∧
    isSet s'.pmm.bitmap (g q) = true
  apart : ∀ q r, first ≤ q → q < first + n → first ≤ r → r < first + n → g q = g r → q = r
  grows : ∀ f, isSet s.pmm.bitmap f = true → isSet s'.pmm.bitmap f = true

/-- A round with a frame for the page and for a missing table. -/
theorem round_backed (s : Machine) (order : InOrder s) (v flags : Word) (low : v.toNat < 0xFFC00000)
    (rest : List Nat) (inside : ∀ p ∈ rest, p / 1024 < 1024) (enough : Enough s (pageOf v :: rest)) :
    ∃ f s', (Pmm.blackPmmAllocFrame s.pmm).2 = word f * Pmm.blackPageSize ∧
      blackVmmMapPage {s with pmm := (Pmm.blackPmmAllocFrame s.pmm).1} v
        (Pmm.blackPmmAllocFrame s.pmm).2 flags = some s' ∧
      Backed s s' (pageOf v) 1 (fun _ => f) ∧ Enough s' rest := by
  have index : v.toNat / 4096 / 1024 = v.toNat / 2^22 := by omega
  obtain ⟨f,pmm,got,lowFrame,positive,off,takes⟩ := alloc_free s order.zero (enough_some s _ rest enough)
  have grows := takes_grows s.pmm pmm f 1 takes
  have kept := alloc_inOrder s order pmm grows
  have left := enough_taken s v rest enough f pmm lowFrame off takes
  have on : isSet pmm.bitmap f = true := by
    rw [takes.bits]
    simp [Pmm.mem_frames_one]
  rw [got]
  rcases mapPage_inOrder {s with pmm := pmm} kept v (word f * Pmm.blackPageSize) flags low with
    ⟨_,absent,full⟩ | ⟨s',t,mapped,linked⟩
  · rw [index] at absent
    exact absurd full (enough_table {s with pmm := pmm} v rest left absent)
  · rw [frame_address f lowFrame] at linked
    have links := linked.links
    rw [index] at links
    refine ⟨f,s',rfl,mapped,?_,enough_linked {s with pmm := pmm} s' v t f rest links inside left⟩
    have later := linked_grows _ _ _ t f linked
    refine ⟨linked_inOrder _ _ _ t f kept linked,fun q below => ?_,?_,?_,fun g was => later g (grows g was)⟩
    · rw [linked_frameAt _ _ _ t f linked q below]
      by_cases same : q = v.toNat / 4096
      · rw [if_pos same,if_pos (by unfold pageOf; omega)]
      · rw [if_neg same,if_neg (by unfold pageOf; omega)]
        rfl
    · exact fun q _ _ => ⟨lowFrame,positive,off,later f on⟩
    · intro q r above under above' under' _
      omega

section Next
variable (s s₁ s' : Machine) (p n f : Nat) (g : Nat → Nat) (here : Backed s s₁ p 1 fun _ => f)
  (later : Backed s₁ s' (p + 1) n g)
include here later

/-- The frame of a page is taken when the later ones are allocated. -/
theorem backed_differs (q : Nat) (above : p + 1 ≤ q) (under : q < p + 1 + n) : f ≠ g q := by
  intro equal
  have off := (later.own q above under).2.2.1
  rw [← equal,(here.own p (by omega) (by omega)).2.2.2] at off
  cases off

theorem backed_next : Backed s s' p (n + 1) fun q => if q = p then f else g q where
  order := later.order
  frames := by
    intro q low
    rw [later.frames q low,here.frames q low]
    by_cases same : q = p
    · rw [if_neg (by omega),if_pos (by omega),if_pos (by omega),if_pos same]
    · rw [if_neg same]
      by_cases after : p + 1 ≤ q ∧ q < p + 1 + n
      · rw [if_pos after,if_pos (by omega)]
      · rw [if_neg after,if_neg (by omega),if_neg (by omega)]
  own := by
    intro q above under
    by_cases same : q = p
    · obtain ⟨low,positive,off,on⟩ := here.own p (by omega) (by omega)
      rw [if_pos same]
      exact ⟨low,positive,off,later.grows f on⟩
    · rw [if_neg same]
      obtain ⟨low,positive,off,on⟩ := later.own q (by omega) (by omega)
      refine ⟨low,positive,?_,on⟩
      by_contra was
      rw [here.grows _ (Bool.eq_true_of_not_eq_false was)] at off
      cases off
  apart := by
    intro q r above under above' under' same
    have differs := backed_differs s s₁ s' p n f g here later
    by_cases left : q = p
    · by_cases right : r = p
      · rw [left,right]
      · rw [if_pos left,if_neg right] at same
        exact absurd same (differs r (by omega) (by omega))
    · by_cases right : r = p
      · rw [if_neg left,if_pos right] at same
        exact absurd same.symm (differs q (by omega) (by omega))
      · rw [if_neg left,if_neg right] at same
        exact later.apart q r (by omega) (by omega) (by omega) (by omega) same
  grows := fun x on => later.grows x (here.grows x on)

end Next

theorem mmapLoop_backed (virt flags : Word) (n : Nat) :
    ∀ (k : Nat) (s : Machine), pageOf virt + k + n ≤ windowPage → InOrder s →
      Enough s (List.range' (pageOf virt + k) n) →
      ∃ s' g, mmapLoop virt flags n (word k) s =
          some (s',(List.range' (pageOf virt + k) n).map fun q => word (g q) * Pmm.blackPageSize) ∧
        Backed s s' (pageOf virt + k) n g := by
  have window : windowPage = 1023 * 1024 := rfl
  induction n with
  | zero =>
    intro k s _ order _
    refine ⟨s,fun _ => 0,rfl,order,fun q _ => ?_,fun q above under => ?_,fun q r above under => ?_,fun _ on => on⟩
    · rw [if_neg (by omega)]
    · omega
    · omega
  | succ n ih =>
    intro k s below order enough
    obtain ⟨low,page⟩ := round_page virt k (by omega)
    rw [List.range'_succ,← page] at enough
    obtain ⟨f,s₁,phys,mapped,first,left⟩ := round_backed s order (virt + word k * 0x1000)
      (flags ||| pagePresent ||| pageWrite) low _
      (by
        intro p member
        have range := List.mem_range'_1.mp member
        omega)
      enough
    rw [page] at first left
    obtain ⟨s',g,rest,later⟩ := ih (k + 1) s₁ (by omega) first.order left
    have next : word k + 1 = word (k + 1) := word_add k 1
    refine ⟨s',fun q => if q = pageOf virt + k then f else g q,?_,
      backed_next s s₁ s' (pageOf virt + k) n f g first later⟩
    have tail : (List.range' (pageOf virt + (k + 1)) n).map
          (fun q => word (if q = pageOf virt + k then f else g q) * Pmm.blackPageSize) =
        (List.range' (pageOf virt + (k + 1)) n).map fun q => word (g q) * Pmm.blackPageSize := by
      refine List.map_congr_left fun q member => ?_
      have range := List.mem_range'_1.mp member
      rw [if_neg (by omega)]
    simp only [mmapLoop,mapped,next,rest,Option.bind_eq_bind,Option.bind_some]
    rw [List.range'_succ,List.map_cons,if_pos rfl,Nat.add_assoc,tail,phys]
    rfl

theorem round_unmapped (s : Machine) (order : InOrder s) (v : Word) (low : v.toNat < 0xFFC00000) :
    ∃ s', blackVmmUnmapPage s v = some s' ∧ InOrder s' ∧ s'.pmm = s.pmm ∧
      ∀ q, q / 1024 < 1023 → s'.frameAt q = if q = pageOf v then none else s.frameAt q := by
  have unmapped := unmapPage_eq s order.ordered.recursive v
  by_cases there : present (s.table (v.toNat / 4096 / 1024)) = true
  · rw [if_pos there] at unmapped
    refine ⟨_,unmapped,setSlot_inOrder s order _ (by omega) there 0,rfl,fun q below => ?_⟩
    rw [Machine.frameAt,setSlot_pageEntry s order.ordered _ (by omega) there 0 q (by omega)]
    by_cases same : q = pageOf v
    · rw [if_pos (by unfold pageOf at same; exact same),if_pos same,if_neg (by decide)]
      rfl
    · rw [if_neg (by unfold pageOf at same; exact same),if_neg same,Machine.frameAt]
  · rw [if_neg there] at unmapped
    refine ⟨s,unmapped,order,rfl,fun q below => ?_⟩
    by_cases same : q = pageOf v
    · rw [if_pos same,same,Machine.frameAt,Machine.pageEntry,pageOf,if_neg there]
      rfl
    · rw [if_neg same]

theorem munmapLoop_spec (addr : Word) (n : Nat) :
    ∀ (k : Nat) (s : Machine), pageOf addr + k + n ≤ windowPage → InOrder s →
      ∃ s', munmapLoop addr n (word k) s = some s' ∧ InOrder s' ∧ s'.pmm = s.pmm ∧
        ∀ q, q / 1024 < 1023 → s'.frameAt q =
          if pageOf addr + k ≤ q ∧ q < pageOf addr + k + n then none else s.frameAt q := by
  induction n with
  | zero =>
    intro k s _ order
    refine ⟨s,rfl,order,rfl,fun q _ => ?_⟩
    rw [if_neg (by omega)]
  | succ n ih =>
    intro k s below order
    obtain ⟨low,page⟩ := round_page addr k (by omega)
    obtain ⟨s₁,unmapped,order₁,pmm₁,first⟩ := round_unmapped s order (addr + word k * 0x1000) low
    obtain ⟨s',rest,order',pmm',later⟩ := ih (k + 1) s₁ (by omega) order₁
    have next : word k + 1 = word (k + 1) := word_add k 1
    refine ⟨s',?_,order',pmm'.trans pmm₁,fun q lowQ => ?_⟩
    · simp only [munmapLoop,unmapped,next,rest,Option.bind_eq_bind,Option.bind_some]
    · rw [later q lowQ,first q lowQ,page]
      by_cases same : q = pageOf addr + k
      · rw [if_neg (by omega),if_pos same,if_pos (by omega)]
      · rw [if_neg same]
        by_cases after : pageOf addr + (k + 1) ≤ q ∧ q < pageOf addr + (k + 1) + n
        · rw [if_pos after,if_pos (by omega)]
        · rw [if_neg after,if_neg (by omega)]

end BlackOS.Mmap
