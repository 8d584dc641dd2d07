import BlackOS.HeapInside
import BlackOS.MmapRun

/-! The heap on the page tables. `black_heap_init` backs its pages by frames of the allocator, and from there on the
machine runs the calls as the model over a flat memory does, without a page fault. -/
namespace BlackOS.HeapAccess
open BlackOS.Library.Ram BlackOS.Library.Access BlackOS.Library.Run BlackOS.Library.Paging BlackOS.Library.Bitmap
open BlackOS.Vmm
open BlackOS.Pmm (maxFrames Takes)
open BlackOS.Elf (pageOf Enough)
open BlackOS.Mmap (Backed)
open BlackOS.Heap (blackHeapMagic headerSize Op Next Allowed Booted)

/-- The loop of `black_heap_init` that maps the pages up to the end. -/
def mapHeap (heapEnd : Word) : Nat → Machine → Word → Option Machine
  | 0,_,_ => none
  | fuel+1,s,addr =>
    if addr < heapEnd then do
      let (pmm,phys) := Pmm.blackPmmAllocFrame s.pmm
      let s := {s with pmm := pmm}
      let s ← if phys ≠ 0 then blackVmmMapPage s addr phys (pagePresent ||| pageWrite) else some s
      mapHeap heapEnd fuel s (addr + 0x1000)
    else some s

/-- The first block. -/
def firstBlock (start size : Word) : Code Unit := do
  setMagic start blackHeapMagic
  setSize start (size - headerSize)
  setFree start 1
  setNext start 0
  setPrev start 0

def blackHeapInit (s : Machine) (start size : Word) : Option Machine := do
  let s ← mapHeap (start + size) (2^20 + 1) s start
  let done ← exec Machine.load8 Machine.store8 (firstBlock start size) s
  return done.2

/-- The kernel with the first block's address and its clients' live pointers. -/
structure Kernel where
  machine : Machine
  head : Word
  live : Finset Word

/-- A call. There is no next state when it faults or never returns. -/
def Kernel.step (k : Kernel) (op : Op) : Option Kernel := do
  let done ← exec Machine.load8 Machine.store8 (opCode k.head op) k.machine
  let new ← done.1
  return ⟨done.2,k.head,liveAfter k.live new op⟩

/-- The pages from `first` on go to the frames `g`, which are no page tables and hold the bytes of the flat memory.
All other pages go where they went when the heap was set up. -/
structure Paged (base : Machine) (first n : Nat) (g : Nat → Nat) (s : Machine) (m : Memory) : Prop where
  below : first + n ≤ windowPage
  recursive : Recursive s.mem s.dir
  kept : ∀ q, q / 1024 < 1024 → s.frameAt q = base.frameAt q
  mapped : ∀ q, first ≤ q → q < first + n → base.frameAt q = some (g q)
  low : ∀ q, first ≤ q → q < first + n → g q < 2^20
  apart : ∀ q r, first ≤ q → q < first + n → first ≤ r → r < first + n → g q = g r → q = r
  spared : ∀ k < 1024, present (s.table k) = true → ∀ q, first ≤ q → q < first + n → frame (s.table k) ≠ g q
  bytes : ∀ a : Word, first ≤ pageOf a → pageOf a < first + n → s.mem (address (g (pageOf a)) (a.toNat % 4096)) = m a

section Put
variable (s : Machine) (recursive : Recursive s.mem s.dir) (f : Nat)
  (spared : ∀ k < 1024, present (s.table k) = true → frame (s.table k) ≠ f) (a : Word) (place : a.toNat / 4096 = f)
  (v : Byte)
include spared place

theorem put_entry (k i : Nat) (inside : k < 1024) (inside' : i < 1024) (there : present (s.table k) = true) :
    entry (write8 s.mem a v) (frame (s.table k)) i = entry s.mem (frame (s.table k)) i := by
  refine entry_congr _ _ _ _ (frame_lt _) inside' fun x within => if_neg fun same => ?_
  rw [same,place] at within
  exact spared k inside there within.symm

include recursive

/-- A byte outside the page tables leaves them alone. -/
theorem put_table (k : Nat) (inside : k < 1024) : Machine.table {s with mem := write8 s.mem a v} k = s.table k := by
  have own := put_entry s f spared a place v 1023 k (by decide) inside recursive.1
  have root : frame (s.table 1023) = s.dir := recursive.2
  rw [root] at own
  exact own

theorem put_frameAt (q : Nat) (inside : q / 1024 < 1024) :
    Machine.frameAt {s with mem := write8 s.mem a v} q = s.frameAt q := by
  have tables := put_table s recursive f spared a place v (q / 1024) inside
  unfold Machine.frameAt Machine.pageEntry Machine.slot
  rw [tables]
  by_cases there : present (s.table (q / 1024)) = true
  · rw [if_pos there,if_pos there,put_entry s f spared a place v _ (q % 1024) inside (Nat.mod_lt _ (by decide)) there]
  · rw [if_neg there,if_neg there]

end Put

section Accesses
variable (base : Machine) (first n : Nat) (g : Nat → Nat) (s : Machine) (m : Memory)
  (paged : Paged base first n g s m) (a : Word) (above : first ≤ pageOf a) (under : pageOf a < first + n)
include paged above under

theorem paged_translate : translate s.mem s.dir a = some (address (g (pageOf a)) (a.toNat % 4096)) := by
  have window : windowPage = 1023 * 1024 := rfl
  have below := paged.below
  have shown := (paged.kept (pageOf a) (by omega)).trans (paged.mapped _ above under)
  obtain ⟨e,found,named⟩ := Option.map_eq_some_iff.mp shown
  rw [translate_page,show a.toNat / 4096 = pageOf a from rfl,found,Option.map_some,named]

theorem paged_load : s.load8 a = some (m a) := by
  rw [Machine.load8,paged_translate base first n g s m paged a above under,Option.map_some,paged.bytes a above under]

theorem paged_store (v : Byte) :
    ∃ s', s.store8 a v = some s' ∧ Paged base first n g s' (Function.update m a v) := by
  have inside : a.toNat % 4096 < 4096 := Nat.mod_lt _ (by decide)
  have low := paged.low _ above under
  have value := address_toNat (g (pageOf a)) (a.toNat % 4096) low inside
  have place : (address (g (pageOf a)) (a.toNat % 4096)).toNat / 4096 = g (pageOf a) := by omega
  have spared := fun k inside there => paged.spared k inside there (pageOf a) above under
  have tables := put_table s paged.recursive _ spared _ place v
  refine ⟨{s with mem := write8 s.mem (address (g (pageOf a)) (a.toNat % 4096)) v},?_,paged.below,?_,?_,paged.mapped,paged.low,
    paged.apart,?_,?_⟩
  · rw [Machine.store8,paged_translate base first n g s m paged a above under,Option.map_some]
  · exact paged.recursive.kept rfl (tables 1023 (by decide))
  · exact fun q inside => (put_frameAt s paged.recursive _ spared _ place v q inside).trans (paged.kept q inside)
  · intro k inside there q
    rw [tables k inside] at there ⊢
    exact paged.spared k inside there q
  · intro b above' under'
    have inside' : b.toNat % 4096 < 4096 := Nat.mod_lt _ (by decide)
    have old := paged.bytes b above' under'
    by_cases same : b = a
    · rw [same,Function.update_self]
      exact if_pos rfl
    · rw [Function.update_of_ne same,← old]
      refine if_neg fun equal => same ?_
      obtain ⟨frames,offsets⟩ := address_inj _ _ _ _ (paged.low _ above' under') inside' low inside equal
      have pages := paged.apart _ _ above' under' above under frames
      unfold pageOf at pages
      exact BitVec.eq_of_toNat_eq (by omega)

end Accesses

/-- Machines with the heap's pages mapped stand for flat memories. -/
theorem paged_backs (base : Machine) (first n lo hi : Nat) (g : Nat → Nat) (left : first * 4096 ≤ lo)
    (right : hi ≤ (first + n) * 4096) :
    Backs Machine.load8 Machine.store8 (Inside lo hi) (Paged base first n g) where
  load := fun s m a paged inside =>
    paged_load base first n g s m paged a (by unfold pageOf; have := inside.1; omega)
      (by unfold pageOf; have := inside.2; omega)
  store := fun s m a v paged inside =>
    paged_store base first n g s m paged a (by unfold pageOf; have := inside.1; omega)
      (by unfold pageOf; have := inside.2; omega) v

/-- What mapping pages does to the directory: a table that was not there is a frame that was free, and none is a frame of
the pages. -/
structure Spared (s s' : Machine) (first n : Nat) (g : Nat → Nat) : Prop where
  origin : ∀ k < 1024, present (s'.table k) = true →
    (present (s.table k) = true ∧ frame (s'.table k) = frame (s.table k)) ∨ isSet s.pmm.bitmap (frame (s'.table k)) = false
  apart : ∀ k < 1024, present (s'.table k) = true → ∀ q, first ≤ q → q < first + n → frame (s'.table k) ≠ g q

/-- A round of the loop with a frame for the page and for a missing table. -/
theorem round_spared (s s' : Machine) (order : InOrder s) (v flags : Word) (low : v.toNat < 0xFFC00000) (f : Nat)
    (phys : (Pmm.blackPmmAllocFrame s.pmm).2 = word f * Pmm.blackPageSize)
    (mapped : blackVmmMapPage {s with pmm := (Pmm.blackPmmAllocFrame s.pmm).1} v (Pmm.blackPmmAllocFrame s.pmm).2 flags = some s')
    (backed : Backed s s' (pageOf v) 1 fun _ => f) : Spared s s' (pageOf v) 1 fun _ => f := by
  obtain ⟨lowFrame,positive,off,_⟩ := backed.own (pageOf v) (Nat.le_refl _) (Nat.lt_succ_self _)
  rcases Pmm.allocFrame_spec s.pmm with ⟨failed,_⟩ | ⟨a,pmm,got,lowA,_,takes⟩
  -- no frame was found, but that of the page is not frame 0
  · rw [failed] at phys
    exact absurd phys.symm (frame_address_ne f lowFrame positive)
  · rw [got] at phys mapped
    have named : word a * Pmm.blackPageSize = word f * Pmm.blackPageSize := phys
    have same : a = f := by rw [← frame_address a lowA,named,frame_address f lowFrame]
    subst same
    have on : isSet pmm.bitmap a = true := by
      rw [takes.bits]
      simp [Pmm.mem_frames_one]
    have grows := Mmap.takes_grows s.pmm pmm a 1 takes
    have order' := Mmap.alloc_inOrder s order pmm grows
    have old (k : Nat) (inside : k < 1024) (there : present (s.table k) = true) : frame (s.table k) ≠ a := by
      intro equal
      have taken := order.taken k inside there (equal ▸ lowFrame)
      rw [equal,off] at taken
      cases taken
    have page : v.toNat / 4096 / 1024 < 1023 := by omega
    rcases mapPage_inOrder {s with pmm := pmm} order' v (word a * Pmm.blackPageSize) flags low with
      ⟨still,absent,_⟩ | ⟨s'',t,mapped',linked⟩
    -- no frame was found for the table, but the page is mapped
    · rw [still] at mapped
      obtain rfl := Option.some.inj mapped
      have shown := backed.frames (pageOf v) page
      rw [if_pos ⟨Nat.le_refl _,Nat.lt_succ_self _⟩,Machine.frameAt,Machine.pageEntry,pageOf,absent] at shown
      cases shown
    · obtain rfl := Option.some.inj (mapped.symm.trans mapped')
      have here := linked_table_here _ _ _ t _ linked
      have others := linked_table_other _ _ _ t _ linked
      have table (k : Nat) (inside : k < 1024) (there : present (s'.table k) = true) :
          (present (s.table k) = true ∧ frame (s'.table k) = frame (s.table k)) ∨
            isSet pmm.bitmap (frame (s'.table k)) = false := by
        by_cases same : k = v.toNat / 4096 / 1024
        · rw [same,here.2]
          rcases linked.links.origin with ⟨was,named,_⟩ | ⟨_,_,free,_⟩
          · exact .inl ⟨was,named.symm⟩
          · exact .inr free
        · have kept : s'.table k = s.table k := others k inside same
          rw [kept] at there ⊢
          exact .inl ⟨there,rfl⟩
      refine ⟨fun k inside there => ?_,fun k inside there q _ _ => ?_⟩
      · rcases table k inside there with was | free
        · exact .inl was
        · right
          by_contra taken
          rw [grows _ (Bool.eq_true_of_not_eq_false taken)] at free
          cases free
      · rcases table k inside there with ⟨was,named⟩ | free
        · rw [named]
          exact old k inside was
        · intro equal
          rw [equal,on] at free
          cases free

theorem spared_next (s s₁ s' : Machine) (p n f : Nat) (g : Nat → Nat) (here : Backed s s₁ p 1 fun _ => f)
    (first : Spared s s₁ p 1 fun _ => f) (later : Spared s₁ s' (p + 1) n g) :
    Spared s s' p (n + 1) fun q => if q = p then f else g q := by
  have on := (here.own p (Nat.le_refl _) (Nat.lt_succ_self _)).2.2.2
  refine ⟨fun k inside there => ?_,fun k inside there q above under => ?_⟩
  · rcases later.origin k inside there with ⟨was,named⟩ | free
    · rw [named]
      exact first.origin k inside was
    · right
      by_contra taken
      rw [here.grows _ (Bool.eq_true_of_not_eq_false taken)] at free
      cases free
  · by_cases same : q = p
    · rw [if_pos same]
      rcases later.origin k inside there with ⟨was,named⟩ | free
      · rw [named]
        exact first.apart k inside was p (Nat.le_refl _) (Nat.lt_succ_self _)
      · intro equal
        rw [equal,on] at free
        cases free
    · rw [if_neg same]
      exact later.apart k inside there q (by omega) (by omega)

theorem mapHeap_backed (heapEnd : Word) (low : heapEnd.toNat ≤ 0xFFC00000) (n : Nat) :
    ∀ (fuel : Nat) (addr : Word) (s : Machine), n < fuel → addr.toNat % 4096 = 0 →
      heapEnd.toNat ≤ addr.toNat + n * 4096 → addr.toNat + n * 4096 < heapEnd.toNat + 4096 → InOrder s →
      Enough s (List.range' (pageOf addr) n) →
      ∃ s' g, mapHeap heapEnd fuel s addr = some s' ∧ Backed s s' (pageOf addr) n g ∧ Spared s s' (pageOf addr) n g := by
  induction n with
  | zero =>
    intro fuel addr s some_ _ reached _ order _
    obtain ⟨fuel,rfl⟩ := Nat.exists_eq_succ_of_ne_zero (Nat.ne_of_gt some_)
    have past : ¬ addr < heapEnd := by rw [BitVec.lt_def]; omega
    refine ⟨s,fun _ => 0,by rw [mapHeap,if_neg past],
      ⟨order,fun q _ => ?_,fun q above under => ?_,fun q r above under => ?_,fun _ on => on⟩,
      fun k _ there => .inl ⟨there,rfl⟩,fun k _ _ q above under => ?_⟩
    · rw [if_neg (by omega)]
    · omega
    · omega
    · omega
  | succ n ih =>
    intro fuel addr s some_ aligned reaches least order enough
    obtain ⟨fuel,rfl⟩ := Nat.exists_eq_succ_of_ne_zero (Nat.ne_of_gt (Nat.lt_of_le_of_lt (Nat.zero_le _) some_))
    have before : addr.toNat < heapEnd.toNat := by omega
    have next : (addr + 0x1000).toNat = addr.toNat + 4096 := BitVec.toNat_add_of_lt (by simp only [BitVec.reduceToNat]; omega)
    have page : pageOf (addr + 0x1000) = pageOf addr + 1 := by unfold pageOf; omega
    rw [List.range'_succ] at enough
    obtain ⟨f,s₁,phys,mapped,first,left⟩ := Mmap.round_backed s order addr (pagePresent ||| pageWrite) (by omega) _
      (by
        intro p member
        have range := List.mem_range'_1.mp member
        unfold pageOf at range
        omega)
      enough
    obtain ⟨lowFrame,positive,_⟩ := first.own (pageOf addr) (Nat.le_refl _) (Nat.lt_succ_self _)
    have spared := round_spared s s₁ order addr _ (by omega) f phys mapped first
    rw [← page] at left
    obtain ⟨s',g,rest,later,spared'⟩ := ih fuel (addr + 0x1000) s₁ (by omega) (by omega) (by omega) (by omega)
      first.order left
    rw [page] at later spared'
    refine ⟨s',fun q => if q = pageOf addr then f else g q,?_,Mmap.backed_next s s₁ s' (pageOf addr) n f g first later,
      spared_next s s₁ s' (pageOf addr) n f g first spared spared'⟩
    have found : (Pmm.blackPmmAllocFrame s.pmm).2 ≠ 0 := by
      rw [phys]
      exact frame_address_ne f lowFrame positive
    simp only [mapHeap,BitVec.lt_def,if_pos before,if_pos found,mapped,Option.bind_eq_bind,Option.bind_some,rest]

/-- The bytes that the pages show. -/
def shown (s : Machine) (g : Nat → Nat) : Memory := fun a => s.mem (address (g (pageOf a)) (a.toNat % 4096))

theorem backed_paged (s s' : Machine) (first n : Nat) (g : Nat → Nat) (below : first + n ≤ windowPage)
    (backed : Backed s s' first n g) (spared : Spared s s' first n g) : Paged s' first n g s' (shown s' g) where
  below := below
  recursive := backed.order.ordered.recursive
  kept := fun _ _ => rfl
  mapped := by
    intro q above under
    have window : windowPage = 1023 * 1024 := rfl
    rw [backed.frames q (by omega),if_pos ⟨above,under⟩]
  low := by
    intro q above under
    have most : maxFrames = 262144 := rfl
    have own := (backed.own q above under).1
    omega
  apart := backed.apart
  spared := spared.apart
  bytes := fun _ _ _ => rfl

@[simp] theorem eval_firstBlock (start size : Word) (m : Memory) :
    eval (firstBlock start size) m = ((),(Heap.firstHeap start size m).mem) := by
  simp only [firstBlock,eval_bind,eval_setMagic,eval_setSize,eval_setFree,eval_setNext,eval_setPrev,Heap.firstHeap]

theorem within_firstBlock (lo hi : Nat) (small : hi < 2^32) (start size : Word) (room : Room lo hi start) (m : Memory) :
    Within (Inside lo hi) (firstBlock start size) m := by
  simp only [firstBlock,within_bind,eval_setMagic,eval_setSize,eval_setFree,eval_setNext]
  exact ⟨within_setMagic small _ _ room _,within_setSize small _ _ room _,within_setFree small _ _ room _,
    within_setNext small _ _ room _,within_setPrev small _ _ room _⟩

theorem mapPages_still (heapEnd : Word) (fuel : Nat) (m m' : Memory) (addr : Word)
    (returned : Heap.mapPages (fun m _ => m) heapEnd fuel m addr = some m') : m' = m := by
  induction fuel generalizing addr with
  | zero => cases returned
  | succ fuel ih =>
    rw [Heap.mapPages] at returned
    split at returned
    · exact ih _ returned
    · exact (Option.some.inj returned).symm

/-- Any memory is one that a heap may start in. -/
theorem booted_over (start size : Word) (room : 20 < size.toNat) (low : start.toNat + size.toNat + 4096 ≤ 2^32) (m : Memory) :
    Booted start size (Heap.firstHeap start size m) := by
  have limit : (start + size).toNat = start.toNat + size.toNat := BitVec.toNat_add_of_lt (by omega)
  obtain ⟨m',mapped⟩ := Heap.mapPages_returns (fun m _ => m) (start + size) (by omega) (2^20) m start (by omega)
  refine ⟨room,by omega,fun m _ => m,m,?_⟩
  rw [Heap.blackHeapInit_eq,mapped,mapPages_still _ _ _ _ _ mapped]
  rfl

/-- The pages of the heap. -/
def heapPages (start size : Word) : List Nat := List.range' (pageOf start) ((size.toNat + 0xFFF) / 0x1000)

/-- Where the kernel may put its heap: from a page boundary, with a block's room, below the window of the page tables, and
with frames for its pages and their tables. -/
structure Site (s : Machine) (start size : Word) : Prop where
  order : InOrder s
  nonnull : start ≠ 0
  aligned : start.toNat % 4096 = 0
  room : 20 < size.toNat
  low : start.toNat + size.toNat ≤ 0xFFC00000
  enough : Enough s (heapPages start size)

/-- The machine of a kernel stands for the heap of a system. -/
structure Stands (base : Machine) (start size : Word) (g : Nat → Nat) (k : Kernel) (t : Heap.System) : Prop where
  head : k.head = t.heap.head
  live : k.live = t.live
  paged : Paged base (pageOf start) ((size.toNat + 0xFFF) / 0x1000) g k.machine t.heap.mem

section Kernel
variable (base : Machine) (start size : Word) (aligned : start.toNat % 4096 = 0) (g : Nat → Nat)
include aligned

theorem heap_backs : Backs Machine.load8 Machine.store8 (Inside start.toNat (start.toNat + size.toNat))
    (Paged base (pageOf start) ((size.toNat + 0xFFF) / 0x1000) g) :=
  paged_backs base _ _ _ _ g (by unfold pageOf; omega) (by unfold pageOf; omega)

/-- A call within the contract does on the machine what it does on the flat memory. -/
theorem step_stands (placed : Heap.Placed start.toNat (start.toNat + size.toNat)) (k : Kernel) (t t' : Heap.System)
    (stands : Stands base start size g k t)
    (arena : BlackOS.Library.Tiling.Arena 20 start.toNat (start.toNat + size.toNat)) (inv : Heap.Inv t arena) (op : Op)
    (next : Next t op t') : ∃ k', k.step op = some k' ∧ Stands base start size g k' t' := by
  obtain ⟨allowed,returned⟩ := next
  obtain ⟨new,ran,head,live⟩ := eval_step t t' op returned
  obtain ⟨m,done,paged⟩ := (heap_backs base start size aligned g).exec_eval (opCode t.heap.head op) k.machine t.heap.mem
    stands.paged (within_op placed arena t inv op allowed)
  rw [ran] at done paged
  refine ⟨⟨m,k.head,liveAfter k.live new op⟩,?_,stands.head.trans head.symm,?_,paged⟩
  · simp only [Kernel.step,stands.head,done,Option.bind_eq_bind,Option.bind_some]
    rfl
  · rw [stands.live,live]

theorem run_stands (h : Heap.State) (booted : Booted start size h) (nonnull : start ≠ 0) (k : Kernel)
    (stands : Stands base start size g k ⟨h,∅⟩) (ops : List Op) (t : Heap.System) (run : Steps Next ⟨h,∅⟩ ops t) :
    ∃ k', Steps (fun k op k' => k.step op = some k') k ops k' ∧ Stands base start size g k' t := by
  induction run with
  | nil => exact ⟨k,.nil,stands⟩
  | snoc ops op t t' before next ih =>
    obtain ⟨k₁,ran,stands₁⟩ := ih
    obtain ⟨arena,inv⟩ := Heap.run_inv booted nonnull ops t before
    obtain ⟨k',returned,stands'⟩ := step_stands base start size aligned g (Heap.booted_placed booted nonnull) k₁ t t'
      stands₁ arena inv op next
    exact ⟨k',.snoc ops op k₁ k' ran returned,stands'⟩

end Kernel

theorem init_stands (s : Machine) (start size : Word) (site : Site s start size) :
    ∃ base s' g h, Backed s base (pageOf start) ((size.toNat + 0xFFF) / 0x1000) g ∧
      blackHeapInit s start size = some s' ∧ Booted start size h ∧ Stands base start size g ⟨s',start,∅⟩ ⟨h,∅⟩ := by
  have room := site.room
  have low := site.low
  have aligned := site.aligned
  have window : windowPage = 1023 * 1024 := rfl
  have limit : (start + size).toNat = start.toNat + size.toNat := BitVec.toNat_add_of_lt (by omega)
  obtain ⟨base,g,mapped,backed,spared⟩ := mapHeap_backed (start + size) (by omega) ((size.toNat + 0xFFF) / 0x1000)
    (2^20 + 1) start s (by omega) site.aligned (by omega) (by omega) site.order site.enough
  have paged := backed_paged s base _ _ g (by unfold pageOf; omega) backed spared
  obtain ⟨s',done,paged'⟩ := (heap_backs base start size aligned g).exec_eval (firstBlock start size) base (shown base g)
    paged (within_firstBlock _ _ (by omega) start size ⟨Nat.le_refl _,by omega⟩ _)
  rw [eval_firstBlock] at done paged'
  refine ⟨base,s',g,Heap.firstHeap start size (shown base g),backed,?_,booted_over start size room (by omega) _,rfl,rfl,
    paged'⟩
  simp only [blackHeapInit,mapped,done,Option.bind_eq_bind,Option.bind_some]
  rfl

/-- `black_heap_init` backs the heap's pages by frames that were free, and from there on every run of careful calls that the
flat model has is a run of the machine, with the same pointers, without a page fault and with every page where it was. Each
further call within the contract returns too. -/
theorem heap_paged (s : Machine) (start size : Word) (site : Site s start size) :
    ∃ base s' g h, Backed s base (pageOf start) ((size.toNat + 0xFFF) / 0x1000) g ∧
      blackHeapInit s start size = some s' ∧ Booted start size h ∧
      ∀ ops t, Steps Next ⟨h,∅⟩ ops t →
        ∃ k, Steps (fun k op k' => k.step op = some k') ⟨s',start,∅⟩ ops k ∧ Stands base start size g k t ∧
          ∀ op, Allowed t op → ∃ k', k.step op = some k' := by
  obtain ⟨base,s',g,h,backed,done,booted,stands⟩ := init_stands s start size site
  refine ⟨base,s',g,h,backed,done,booted,fun ops t run => ?_⟩
  obtain ⟨k,ran,stands'⟩ := run_stands base start size site.aligned g h booted site.nonnull _ stands ops t run
  refine ⟨k,ran,stands',fun op allowed => ?_⟩
  obtain ⟨arena,inv⟩ := Heap.run_inv booted site.nonnull ops t run
  obtain ⟨t',returned,_⟩ := Heap.run_extends booted site.nonnull ops t run op allowed
  obtain ⟨k',next,_⟩ := step_stands base start size site.aligned g (Heap.booted_placed booted site.nonnull) k t t' stands'
    arena inv op ⟨allowed,returned⟩
  exact ⟨k',next⟩

/-- One page of heap on a machine with nothing mapped. -/
theorem heap_paged_bare : Site bare 0xB0000000 0x1000 ∧
    ∃ base s' g h, Backed bare base 0xB0000 1 g ∧ blackHeapInit bare 0xB0000000 0x1000 = some s' ∧
      Booted 0xB0000000 0x1000 h ∧
      ∃ k, Steps (fun (k : Kernel) op k' => k.step op = some k') ⟨s',0xB0000000,∅⟩ [.alloc 64] k := by
  have site : Site bare 0xB0000000 0x1000 :=
    ⟨Mmap.bare_inOrder,by decide,by decide,by decide,by decide,Mmap.bare_room.enough⟩
  obtain ⟨base,s',g,h,backed,done,booted,runs⟩ := heap_paged bare 0xB0000000 0x1000 site
  have allowed : Allowed ⟨h,∅⟩ (.alloc 64) := by simp [Allowed]
  obtain ⟨t,_,run⟩ := Heap.run_extends booted (by decide) [] ⟨h,∅⟩ .nil (.alloc 64) allowed
  obtain ⟨k,ran,_⟩ := runs [.alloc 64] t run
  exact ⟨site,base,s',g,h,backed,done,booted,k,ran⟩

end BlackOS.HeapAccess
