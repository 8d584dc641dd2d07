import BlackOS.HeapSystem

/-! Runs of the heap from `black_heap_init`: its mapping loop, the first block, the
invariant over every run, and what the invariant says about the blocks in memory.
Address 0 is NULL, so a heap placed there has an empty block list and hands out
nothing. -/
namespace BlackOS.Heap
open BlackOS.Library.Ram BlackOS.Library.Run BlackOS.Library.Tiling

/-- The mapping loop never ends when every address it visits is below the end. -/
theorem mapPages_stuck (mapPage : Memory → Word → Memory) (heapEnd : Word) (fuel : Nat) (m : Memory)
    (addr : Word) (below : ∀ x : Word, x.toNat % 4096 = addr.toNat % 4096 → x < heapEnd) :
    mapPages mapPage heapEnd fuel m addr = none := by
  induction fuel generalizing m addr with
  | zero => rfl
  | succ fuel ih =>
    rw [mapPages,if_pos (below addr rfl)]
    apply ih
    intro x same
    apply below x
    rw [same,BitVec.toNat_add]
    simp only [blackPageSize,BitVec.reduceToNat]
    omega

theorem mapPages_returns (mapPage : Memory → Word → Memory) (heapEnd : Word)
    (low : heapEnd.toNat + 4096 ≤ 2^32) (fuel : Nat) (m : Memory) (addr : Word)
    (enough : heapEnd.toNat ≤ addr.toNat + 4096 * fuel) :
    ∃ m', mapPages mapPage heapEnd (fuel+1) m addr = some m' := by
  induction fuel generalizing m addr with
  | zero =>
    have past : ¬addr < heapEnd := by rw [BitVec.lt_def]; omega
    exact ⟨m,by rw [mapPages,if_neg past]⟩
  | succ fuel ih =>
    rw [mapPages]
    split
    · rename_i below
      rw [BitVec.lt_def] at below
      have next : (addr + blackPageSize).toNat = addr.toNat + 4096 := by
        rw [BitVec.toNat_add]
        simp only [blackPageSize,BitVec.reduceToNat]
        omega
      exact ih _ _ (by omega)
    · exact ⟨m,rfl⟩

def firstHeap (start size : Word) (m : Memory) : State :=
  ⟨setPrev (setNext (setFree (setSize (setMagic m start blackHeapMagic) start (size - headerSize)) start 1)
    start 0) start 0,start,start,start + size,start + size⟩

theorem blackHeapInit_eq (mapPage : Memory → Word → Memory) (m : Memory) (start size : Word) :
    blackHeapInit mapPage m start size =
      (mapPages mapPage (start + size) (2^20 + 1) m start).map (firstHeap start size) := by
  simp only [blackHeapInit]
  cases mapPages mapPage (start + size) (2^20 + 1) m start <;> rfl

/-- The heap that `black_heap_init(start, size)` leaves when it returns, over any
memory and any effect of the page mappings. -/
structure Booted (start size : Word) (h : State) : Prop where
  room : 20 < size.toNat
  fits : start.toNat + size.toNat < 2^32
  init : ∃ mapPage m, blackHeapInit mapPage m start size = some h

theorem booted_exists (start size : Word) (room : 20 < size.toNat)
    (low : start.toNat + size.toNat + 4096 ≤ 2^32) : ∃ h, Booted start size h := by
  have limit : (start + size).toNat = start.toNat + size.toNat := by
    rw [BitVec.toNat_add]
    omega
  obtain ⟨m,mapped⟩ := mapPages_returns (fun m _ => m) (start + size) (by omega) (2^20) (fun _ => 0) start
    (by omega)
  refine ⟨firstHeap start size m,room,by omega,fun m _ => m,fun _ => 0,?_⟩
  rw [blackHeapInit_eq,mapped]
  rfl

section
variable {start size : Word} {h : State} (booted : Booted start size h)
include booted

theorem booted_first : ∃ m, h = firstHeap start size m := by
  obtain ⟨mapPage,m,init⟩ := booted.init
  rw [blackHeapInit_eq] at init
  obtain ⟨mapped,_,same⟩ := Option.map_eq_some_iff.mp init
  exact ⟨mapped,same.symm⟩

theorem booted_head : h.head = start := by
  obtain ⟨m,rfl⟩ := booted_first booted
  rfl

theorem booted_header : header h.mem start = ⟨blackHeapMagic,size - headerSize,1,0,0⟩ := by
  have room := booted.room
  have fits := booted.fits
  have inside : start.toNat + 20 ≤ 2^32 := by omega
  obtain ⟨m,rfl⟩ := booted_first booted
  have address := toNat_word start
  generalize start.toNat = a at address inside
  subst address
  simp only [firstHeap]
  rw [header_setPrev _ _ _ inside,header_setNext _ _ _ inside,header_setFree _ _ _ inside,
    header_setSize _ _ _ inside,header_setMagic _ _ _ inside]

/-- The mapping loop has ended, so the heap leaves out more than a header's worth of addresses. -/
theorem booted_span : size.toNat + 32 < 2^32 := by
  have fits := booted.fits
  obtain ⟨mapPage,m,init⟩ := booted.init
  by_contra large
  have limit : (start + size).toNat = start.toNat + size.toNat := by
    rw [BitVec.toNat_add]
    omega
  have stuck := mapPages_stuck mapPage (start + size) (2^20 + 1) m start (by
    intro x same
    have bound := x.isLt
    rw [BitVec.lt_def,limit]
    omega)
  rw [blackHeapInit_eq,stuck] at init
  cases init

theorem booted_payload : word (start.toNat + size.toNat - start.toNat - 20) = size - headerSize := by
  have room := booted.room
  rw [Nat.add_sub_cancel_left,← pointer_block (size.toNat - 20),Nat.sub_add_cancel (by omega),toNat_word]

theorem booted_placed (nonnull : start ≠ 0) : Placed start.toNat (start.toNat + size.toNat) := by
  have room := booted.room
  have span := booted_span booted
  refine ⟨?_,by omega,booted.fits,by omega⟩
  exact Nat.pos_of_ne_zero (fun zero => nonnull (BitVec.eq_of_toNat_eq zero))

theorem booted_inv : Inv ⟨h,∅⟩
    (Arena.whole (by have room := booted.room; omega) : Arena 20 start.toNat (start.toNat + size.toNat)) := by
  refine ⟨⟨?_,?_⟩,?_⟩
  · rw [booted_head booted,toNat_word]
  · refine ⟨?_,trivial⟩
    simp only [HeaderAt,toNat_word,booted_payload booted,firstAddr]
    exact booted_header booted
  · intro p
    simp [Arena.whole]

theorem next_inv (nonnull : start ≠ 0) (s s' : System) (op : Op)
    (arena : Arena 20 start.toNat (start.toNat + size.toNat)) (inv : Inv s arena) (next : Next s op s') :
    ∃ arena' : Arena 20 start.toNat (start.toNat + size.toNat), Inv s' arena' := by
  obtain ⟨allowed,done⟩ := next
  obtain ⟨t,arena',returned,inv',_⟩ := step_kept arena (booted_placed booted nonnull) s inv op allowed
  cases done.symm.trans returned
  exact ⟨arena',inv'⟩

/-- Steps that keep some arena keep one on whole runs. -/
theorem arena_run (next : System → Op → System → Prop)
    (kept : ∀ s op s', ∀ arena : Arena 20 start.toNat (start.toNat + size.toNat), Inv s arena → next s op s' →
      ∃ arena' : Arena 20 start.toNat (start.toNat + size.toNat), Inv s' arena')
    (ops : List Op) (s : System) (run : Steps next ⟨h,∅⟩ ops s) :
    ∃ arena : Arena 20 start.toNat (start.toNat + size.toNat), Inv s arena := by
  refine Steps.invariant (fun s => ∃ arena : Arena 20 start.toNat (start.toNat + size.toNat), Inv s arena)
    ⟨_,booted_inv booted⟩ ?_ run
  intro s op s' held step
  obtain ⟨arena,inv⟩ := held
  exact kept s op s' arena inv step

theorem run_inv (nonnull : start ≠ 0) (ops : List Op) (s : System) (run : Steps Next ⟨h,∅⟩ ops s) :
    ∃ arena : Arena 20 start.toNat (start.toNat + size.toNat), Inv s arena :=
  arena_run booted Next (fun s op s' => next_inv booted nonnull s s' op) ops s run

theorem run_extends (nonnull : start ≠ 0) (ops : List Op) (s : System) (run : Steps Next ⟨h,∅⟩ ops s)
    (op : Op) (allowed : Allowed s op) :
    ∃ s', step s op = some s' ∧ Steps Next ⟨h,∅⟩ (ops ++ [op]) s' := by
  obtain ⟨arena,inv⟩ := run_inv booted nonnull ops s run
  obtain ⟨s',_,returned,_⟩ := step_kept arena (booted_placed booted nonnull) s inv op allowed
  exact ⟨s',returned,.snoc ops op s s' run ⟨allowed,returned⟩⟩

theorem first_alloc (nonnull : start ≠ 0) (n : Word) (nonzero : n ≠ 0)
    (fits : blackAlign n 16 ≤ size - headerSize) :
    ∃ h', blackHeapAlloc h n = some (h',start + headerSize) := by
  have best : findBest h.mem (blackAlign n 16) addressCount 0 start = some start := by
    have ends : findBest h.mem (blackAlign n 16) (2^32 - 1) start 0 = some start := if_pos rfl
    change findBest h.mem (blackAlign n 16) (2^32 - 1 + 1) 0 start = some start
    rw [findBest,if_neg nonnull,booted_header booted,if_neg (by simp),if_pos ⟨by simp,fits⟩]
    simp only [true_or,if_true,ends,ite_self]
  refine ⟨{h with mem := setFree (blackHeapSplit h.mem start (blackAlign n 16)) start 0},?_⟩
  simp only [blackHeapAlloc,nonzero,if_false,booted_head booted,best,bind,Option.bind,nonnull,pure]

end

theorem null_alloc (h : State) (null : h.head = 0) (n : Word) : blackHeapAlloc h n = some (h,0) := by
  by_cases zero : n = 0
  · simp [blackHeapAlloc,zero]
  · simp [blackHeapAlloc,null,addressCount,findBest]

/-- A heap at address 0 hands out nothing and no call changes it. -/
theorem null_step (s : System) (null : s.heap.head = 0) (empty : s.live = ∅) (op : Op)
    (allowed : Allowed s op) : step s op = some s := by
  have nothing := null_alloc s.heap null
  cases op with
  | alloc size => simp [step,nothing,grant]
  | calloc count size => simp [step,blackHeapCalloc,nothing,grant]
  | realloc ptr size =>
    obtain ⟨held,_⟩ := allowed
    have isNull : ptr = 0 := by simpa [empty] using held
    simp [step,isNull,blackHeapRealloc,nothing]
  | free ptr =>
    have isNull : ptr = 0 := by simpa [Allowed,empty] using allowed
    subst isNull
    have unchanged : blackHeapFree s.heap 0 = s.heap := if_pos rfl
    simp only [step,unchanged,empty,Finset.erase_empty]
    rw [← empty]
  | write ptr offset value => simp [Allowed,empty] at allowed

theorem null_blockList {size : Word} {h : State} (booted : Booted 0 size h) : blockList h = some [] := by
  simp [blockList,booted_head booted,addressCount,blockChain]

theorem null_run {size : Word} {h : State} (booted : Booted 0 size h) (ops : List Op) (s : System)
    (run : Steps Next ⟨h,∅⟩ ops s) : s = ⟨h,∅⟩ := by
  refine Steps.invariant (fun s => s = ⟨h,∅⟩) rfl ?_ run
  intro s op s' same next
  obtain ⟨allowed,done⟩ := next
  subst same
  rw [null_step ⟨h,∅⟩ (booted_head booted) rfl op allowed] at done
  cases done
  rfl

end BlackOS.Heap
