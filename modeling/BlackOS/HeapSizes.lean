import BlackOS.HeapContract

/-! The size of what the heap hands out. Requests are products and roundings in 32 bits, so a
request that wraps is served as the small one it has become: the block is then too small, unless
the call fails. Clients keep to their pointers here and may ask for any size. -/
namespace BlackOS.Heap
open BlackOS.Library.Ram BlackOS.Library.Run BlackOS.Library.Tiling BlackOS.LibcString

/-- The calls of a client that passes live pointers or NULL and stores inside payloads. -/
def Called (s : System) : Op → Prop
  | .alloc _ => True
  | .calloc _ _ => True
  | .realloc ptr _ => ptr = 0 ∨ ptr ∈ s.live
  | .free ptr => ptr = 0 ∨ ptr ∈ s.live
  | .write ptr offset _ => ptr ∈ s.live ∧ offset < (header s.heap.mem (ptr - headerSize)).size

/-- The call returns, with NULL or with a pointer to a block of at least `n` bytes. -/
def Holds (result : Option (State × Word)) (n : Nat) : Prop :=
  ∃ h ptr, result = some (h,ptr) ∧ (ptr ≠ 0 → n ≤ (header h.mem (ptr - headerSize)).size.toNat)

/-- What the call asks for, the exact product for `black_heap_calloc`, is what its result holds. -/
def LargeEnough (s : System) : Op → Prop
  | .alloc n => Holds (blackHeapAlloc s.heap n) n.toNat
  | .calloc count size => Holds (blackHeapCalloc s.heap count size) (count.toNat * size.toNat)
  | .realloc ptr n => Holds (blackHeapRealloc s.heap ptr n) n.toNat
  | .free _ => True
  | .write _ _ _ => True

/-- No free block of the list has `n` bytes. -/
def Exhausted (h : State) (n : Word) : Prop :=
  ∃ bs, blockList h = some bs ∧ ∀ b ∈ bs, (header h.mem b).free ≠ 0 → (header h.mem b).size < n

/-- The request can be rounded in 32 bits, or the word it becomes there is zero or more than any
free block has. -/
def Fits (h : State) (n : Nat) : Prop :=
  n ≤ 0xFFFFFFF0 ∨ word n = 0 ∨ Exhausted h (blackAlign (word n) 16)

def Sized (s : System) : Op → Prop
  | .alloc n => Fits s.heap n.toNat
  | .calloc count size => Fits s.heap (count.toNat * size.toNat)
  | .realloc ptr n => (ptr ≠ 0 ∧ n ≤ (header s.heap.mem (ptr - headerSize)).size) ∨ Fits s.heap n.toNat
  | .free _ => True
  | .write _ _ _ => True

/-- A `black_heap_realloc` of a block, which may copy it elsewhere. -/
def Moves : Op → Prop
  | .realloc ptr _ => ptr ≠ 0
  | _ => False

def NextSized (s : System) (op : Op) (s' : System) : Prop :=
  Called s op ∧ Sized s op ∧ step s op = some s'

theorem word_mul (a b : Word) : word (a.toNat * b.toNat) = a * b := by
  apply BitVec.eq_of_toNat_eq
  simp [word]

theorem memsetLoop_zero_le (n : Nat) (m : Memory) (d x : Word) :
    (memsetLoop 0 n m d x).toNat ≤ (m x).toNat := by
  induction n generalizing m d with
  | zero => exact Nat.le_refl _
  | succ n ih =>
    have rest := ih (write8 m d 0) (d + 1)
    refine Nat.le_trans rest ?_
    rw [write8]
    split
    · exact Nat.zero_le _
    · exact Nat.le_refl _

theorem read32_memset_zero_le (m : Memory) (d n a : Word) :
    (read32 (memset m d 0 n) a).toNat ≤ (read32 m a).toNat := by
  have cleared (x : Word) : (memset m d 0 n x).toNat ≤ (m x).toNat := memsetLoop_zero_le n.toNat m d x
  have first := cleared a
  have second := cleared (a+1)
  have third := cleared (a+2)
  have fourth := cleared (a+3)
  have bound0 := (m a).isLt
  have bound1 := (m (a+1)).isLt
  have bound2 := (m (a+2)).isLt
  have bound3 := (m (a+3)).isLt
  simp only [read32,BitVec.toNat_ofNat]
  omega

/-- Clearing memory makes no block larger, wherever the cleared bytes lie. -/
theorem size_memset_zero_le (m : Memory) (d n b : Word) :
    (header (memset m d 0 n) b).size.toNat ≤ (header m b).size.toNat :=
  read32_memset_zero_le m d n (b + 4)

theorem not_holds (result : Option (State × Word)) (h' : State) (ptr : Word) (n : Nat)
    (returned : result = some (h',ptr)) (present : ptr ≠ 0)
    (small : (header h'.mem (ptr - headerSize)).size.toNat ≤ 0xFFFFFFF0) (wide : ¬n ≤ 0xFFFFFFF0) :
    ¬Holds result n := by
  intro holds
  obtain ⟨_,_,result,large⟩ := holds
  cases returned.symm.trans result
  have enough := large present
  omega

section
variable {lo hi : Nat} (placed : Placed lo hi) (h : State) (arena : Arena 20 lo hi)
  (rep : Represents h arena)
include placed

theorem block_small (b : Block) (member : b ∈ arena.blocks) : b.size ≤ 0xFFFFFFF0 := by
  have bounds := tiles_bounds 20 lo hi _ arena.tiles b member
  have span := placed.span
  simp only [Block.limit] at bounds
  omega

include rep

theorem size_block (b : Block) (member : b ∈ arena.blocks) :
    (header h.mem (word (b.addr + 20) - headerSize)).size.toNat = b.size := by
  have small := block_small placed arena b member
  rw [header_size arena h rep b member,word_toNat b.size (by omega)]

theorem exhausted_iff (n : Word) :
    Exhausted h n ↔ ∀ b ∈ arena.blocks, b.free = true → b.size < n.toNat := by
  have blocks := rep_blockList placed h arena rep
  have lessIff (b : Block) (member : b ∈ arena.blocks) :
      (header h.mem (word b.addr)).size < n ↔ b.size < n.toNat := by
    have size := size_block placed h arena rep b member
    rw [pointer_block] at size
    rw [BitVec.lt_def,size]
  constructor
  · intro exhausted b member free
    obtain ⟨bs,listed,none⟩ := exhausted
    cases listed.symm.trans blocks
    have less := none (word b.addr) (List.mem_map.mpr ⟨b,member,rfl⟩)
      ((rep_free_flag h arena rep b member).mpr free)
    exact (lessIff b member).mp less
  · intro none
    refine ⟨_,blocks,?_⟩
    intro p listed free
    obtain ⟨b,member,rfl⟩ := List.mem_map.mp listed
    exact (lessIff b member).mpr (none b member ((rep_free_flag h arena rep b member).mp free))

theorem alloc_fails (n : Word) (none : n = 0 ∨ Exhausted h (blackAlign n 16)) :
    blackHeapAlloc h n = some (h,0) := by
  rcases none with zero | exhausted
  · simp [blackHeapAlloc,zero]
  · have none := (exhausted_iff placed h arena rep _).mp exhausted
    obtain ⟨h',ptr,returned,⟨null,same,_⟩ | ⟨_,_,_,_,_,_,b,member,free,room⟩⟩ :=
      alloc_takes arena placed h rep n
    · rw [returned,null,same]
    · have less := none b member free
      omega

/-- A request that finds a block gets one below the largest size that can be rounded, whatever
it was before it wrapped. -/
theorem alloc_succeeds (n : Word) (nonzero : n ≠ 0) (room : ¬Exhausted h (blackAlign n 16)) :
    ∃ h' ptr, blackHeapAlloc h n = some (h',ptr) ∧ ptr ≠ 0 ∧
      (header h'.mem (ptr - headerSize)).size.toNat ≤ 0xFFFFFFF0 := by
  obtain ⟨h',ptr,returned,⟨_,_,none⟩ | ⟨arena',t,pointer,granted,rep',_⟩⟩ :=
    alloc_takes arena placed h rep n
  · have exhausted := (exhausted_iff placed h arena rep _).mpr (none.resolve_left nonzero)
    exact absurd exhausted room
  · subst pointer
    refine ⟨h',_,returned,pointer_ne_zero arena' placed.small t granted.member,?_⟩
    rw [size_block placed h' arena' rep' t granted.member]
    exact block_small placed arena' t granted.member

omit rep in
theorem grants_holds (result : Option (State × Word)) (n : Nat) (grants : Grants arena h result n) :
    Holds result n := by
  obtain ⟨h',ptr,returned,⟨null,_⟩ | ⟨arena',t,pointer,granted,rep',_⟩⟩ := grants
  · exact ⟨h',ptr,returned,fun present => absurd null present⟩
  · refine ⟨h',ptr,returned,?_⟩
    intro _
    rw [pointer,size_block placed h' arena' rep' t granted.member]
    exact granted.large

theorem alloc_holds_iff (n : Word) : Holds (blackHeapAlloc h n) n.toNat ↔ Fits h n.toNat := by
  rw [Fits,toNat_word]
  constructor
  · intro holds
    by_contra unfit
    obtain ⟨wide,nonzero,room⟩ : ¬n.toNat ≤ 0xFFFFFFF0 ∧ n ≠ 0 ∧ ¬Exhausted h (blackAlign n 16) := by
      simpa only [not_or] using unfit
    obtain ⟨h',ptr,returned,present,small⟩ := alloc_succeeds placed h arena rep n nonzero room
    exact not_holds _ h' ptr _ returned present small wide holds
  · intro fits
    rcases fits with bounded | none
    · exact grants_holds placed h arena _ _ (alloc_grants arena placed h rep n bounded)
    · exact ⟨h,0,alloc_fails placed h arena rep n none,fun present => absurd rfl present⟩

theorem calloc_fails (count size : Word) (none : count * size = 0 ∨ Exhausted h (blackAlign (count * size) 16)) :
    blackHeapCalloc h count size = some (h,0) := by
  simp [blackHeapCalloc,alloc_fails placed h arena rep (count * size) none]

theorem calloc_holds_iff (count size : Word) :
    Holds (blackHeapCalloc h count size) (count.toNat * size.toNat) ↔ Fits h (count.toNat * size.toNat) := by
  rw [Fits,word_mul]
  constructor
  · intro holds
    by_contra unfit
    obtain ⟨wide,nonzero,room⟩ : ¬count.toNat * size.toNat ≤ 0xFFFFFFF0 ∧ count * size ≠ 0 ∧
        ¬Exhausted h (blackAlign (count * size) 16) := by
      simpa only [not_or] using unfit
    obtain ⟨h',ptr,returned,present,small⟩ := alloc_succeeds placed h arena rep _ nonzero room
    -- the fill may run over the block's own header, which it can only clear
    have cleared := size_memset_zero_le h'.mem ptr (count * size) (ptr - headerSize)
    refine not_holds _ {h' with mem := memset h'.mem ptr 0 (count * size)} ptr _ ?_ present
      (Nat.le_trans cleared small) wide holds
    simp only [blackHeapCalloc,returned,bind,Option.bind,ne_eq,present,not_false_eq_true,if_true,pure]
  · intro fits
    rcases fits with bounded | none
    · have product : (count * size).toNat = count.toNat * size.toNat := by
        rw [BitVec.toNat_mul]
        exact Nat.mod_eq_of_lt (by omega)
      rw [← product] at bounded ⊢
      exact grants_holds placed h arena _ _ (calloc_grants arena placed h rep count size bounded)
    · exact ⟨h,0,calloc_fails placed h arena rep count size none,fun present => absurd rfl present⟩

end

section
variable {lo hi : Nat} (placed : Placed lo hi) (s : System) (arena : Arena 20 lo hi) (inv : Inv s arena)
include placed inv

theorem realloc_fails (b : Block) (member : b ∈ arena.blocks) (n : Word) (wide : ¬n.toNat ≤ 0xFFFFFFF0)
    (none : n = 0 ∨ Exhausted s.heap (blackAlign n 16)) :
    blackHeapRealloc s.heap (word (b.addr + 20)) n = some (s.heap,0) := by
  have present := pointer_ne_zero arena placed.small b member
  have small := block_small placed arena b member
  have size := size_block placed s.heap arena inv.rep b member
  have failed := alloc_fails placed s.heap arena inv.rep n none
  have nonzero : n ≠ 0 := by
    intro zero
    subst zero
    exact wide (by decide)
  have grows : ¬n ≤ (header s.heap.mem (word (b.addr + 20) - headerSize)).size := by
    rw [BitVec.le_def]
    omega
  simp only [blackHeapRealloc,present,nonzero,grows,if_false,failed,bind,Option.bind,if_true,pure]

theorem realloc_holds (ptr n : Word) (held : ptr = 0 ∨ ptr ∈ s.live) (sized : Sized s (.realloc ptr n)) :
    LargeEnough s (.realloc ptr n) := by
  simp only [LargeEnough,Sized] at sized ⊢
  rcases held with null | live
  · subst null
    have fits := sized.resolve_left (fun both => both.1 rfl)
    exact (alloc_holds_iff placed s.heap arena inv.rep n).mpr fits
  · obtain ⟨b,member,used,pointer⟩ := (inv.live ptr).mp live
    subst pointer
    have present := pointer_ne_zero arena placed.small b member
    have current := header_size arena s.heap inv.rep b member
    by_cases zero : n = 0
    · subst zero
      refine ⟨blackHeapFree s.heap (word (b.addr + 20)),0,?_,fun null => absurd rfl null⟩
      simp only [blackHeapRealloc,present,if_false,if_true]
    · by_cases inside : n ≤ word b.size
      · refine ⟨s.heap,word (b.addr + 20),?_,?_⟩
        · simp only [blackHeapRealloc,present,zero,current,inside,if_false,if_true]
        · intro _
          rw [current]
          exact inside
      · have fits := sized.resolve_left (fun both => inside (current ▸ both.2))
        rw [Fits,toNat_word] at fits
        by_cases bounded : n.toNat ≤ 0xFFFFFFF0
        · obtain ⟨h',new,returned,⟨null,_⟩ | ⟨grown,_,t,pointer,granted,_,repFree,_⟩⟩ :=
            realloc_grows arena placed s.heap inv.rep b member used n bounded zero inside
          · exact ⟨h',new,returned,fun given => absurd null given⟩
          · refine ⟨h',new,returned,?_⟩
            intro _
            have other : t.addr ≠ b.addr := (granted.fresh b member used).symm
            have kept := (mem_release_used 20 b.addr _ t granted.used).mpr ⟨granted.member,other⟩
            rw [pointer,size_block placed h' (grown.release b.addr) repFree t kept]
            exact granted.large
        · have failed := realloc_fails placed s arena inv b member n bounded (fits.resolve_left bounded)
          exact ⟨s.heap,0,failed,fun given => absurd rfl given⟩

theorem sized_holds (op : Op) (called : Called s op) (sized : Sized s op) : LargeEnough s op := by
  cases op with
  | alloc n => exact (alloc_holds_iff placed s.heap arena inv.rep n).mpr sized
  | calloc count size => exact (calloc_holds_iff placed s.heap arena inv.rep count size).mpr sized
  | realloc ptr n => exact realloc_holds placed s arena inv ptr n called sized
  | free ptr => trivial
  | write ptr offset value => trivial

theorem holds_sized (op : Op) (stays : ¬Moves op) (holds : LargeEnough s op) : Sized s op := by
  cases op with
  | alloc n => exact (alloc_holds_iff placed s.heap arena inv.rep n).mp holds
  | calloc count size => exact (calloc_holds_iff placed s.heap arena inv.rep count size).mp holds
  | realloc ptr n =>
    have null : ptr = 0 := not_not.mp stays
    subst null
    exact Or.inr ((alloc_holds_iff placed s.heap arena inv.rep n).mp holds)
  | free ptr => trivial
  | write ptr offset value => trivial

/-- A call that meets the condition is one within the heap's contract, or fails and changes nothing. -/
theorem sized_allowed (op : Op) (called : Called s op) (sized : Sized s op) :
    Allowed s op ∨ step s op = some s := by
  cases op with
  | alloc n =>
    simp only [Sized,Fits,toNat_word] at sized
    rcases sized with bounded | none
    · exact Or.inl bounded
    · refine Or.inr ?_
      simp [step,alloc_fails placed s.heap arena inv.rep n none,grant]
  | calloc count size =>
    simp only [Sized,Fits,word_mul] at sized
    rcases sized with bounded | none
    · refine Or.inl ?_
      rw [Allowed,BitVec.le_def,BitVec.toNat_mul]
      exact Nat.le_trans (Nat.mod_le _ _) bounded
    · refine Or.inr ?_
      simp [step,calloc_fails placed s.heap arena inv.rep count size none,grant]
  | realloc ptr n =>
    by_cases bounded : n.toNat ≤ 0xFFFFFFF0
    · exact Or.inl ⟨called,bounded⟩
    · have nonzero : n ≠ 0 := by
        intro zero
        subst zero
        exact bounded (by decide)
      refine Or.inr ?_
      simp only [Sized,Fits,toNat_word] at sized
      rcases called with null | live
      · subst null
        have fits := sized.resolve_left (fun both => both.1 rfl)
        have failed := alloc_fails placed s.heap arena inv.rep n (fits.resolve_left bounded)
        simp [step,blackHeapRealloc,failed]
      · obtain ⟨b,member,used,pointer⟩ := (inv.live ptr).mp live
        subst pointer
        have small := block_small placed arena b member
        have size := size_block placed s.heap arena inv.rep b member
        have outgrown : ¬n ≤ (header s.heap.mem (word (b.addr + 20) - headerSize)).size := by
          rw [BitVec.le_def]
          omega
        have fits := sized.resolve_left (fun both => outgrown both.2)
        have failed := realloc_fails placed s arena inv b member n bounded (fits.resolve_left bounded)
        simp only [step,failed,bind,Option.bind,nonzero,and_false,if_false,if_true,pure]
  | free ptr => exact Or.inl called
  | write ptr offset value => exact Or.inl called

end

section
variable {start size : Word} {h : State} (booted : Booted start size h)
include booted

theorem sized_run_inv (nonnull : start ≠ 0) (ops : List Op) (s : System)
    (run : Steps NextSized ⟨h,∅⟩ ops s) :
    ∃ arena : Arena 20 start.toNat (start.toNat + size.toNat), Inv s arena := by
  refine arena_run booted NextSized ?_ ops s run
  intro s op s' arena inv next
  obtain ⟨called,sized,done⟩ := next
  have placed := booted_placed booted nonnull
  rcases sized_allowed placed s arena inv op called sized with allowed | unchanged
  · exact next_inv booted nonnull s s' op arena inv ⟨allowed,done⟩
  · cases done.symm.trans unchanged
    exact ⟨arena,inv⟩

end

section
variable {size : Word} {h : State} (booted : Booted 0 size h)
include booted

theorem null_fits (n : Nat) : Fits h n := by
  refine Or.inr (Or.inr ⟨[],null_blockList booted,?_⟩)
  simp

theorem null_called (op : Op) (called : Called ⟨h,∅⟩ op) :
    step ⟨h,∅⟩ op = some ⟨h,∅⟩ ∧ Sized ⟨h,∅⟩ op ∧ LargeEnough ⟨h,∅⟩ op := by
  have nothing := null_alloc h (booted_head booted)
  cases op with
  | alloc n =>
    refine ⟨by simp [step,nothing,grant],null_fits booted _,h,0,nothing n,?_⟩
    exact fun present => absurd rfl present
  | calloc count size =>
    have failed : blackHeapCalloc h count size = some (h,0) := by simp [blackHeapCalloc,nothing]
    refine ⟨by simp [step,failed,grant],null_fits booted _,h,0,failed,?_⟩
    exact fun present => absurd rfl present
  | realloc ptr n =>
    have null : ptr = 0 := by simpa [Called] using called
    subst null
    have failed : blackHeapRealloc h 0 n = some (h,0) := nothing n
    refine ⟨by simp [step,blackHeapRealloc,nothing],Or.inr (null_fits booted _),h,0,failed,?_⟩
    exact fun present => absurd rfl present
  | free ptr => exact ⟨null_step ⟨h,∅⟩ (booted_head booted) rfl _ called,trivial,trivial⟩
  | write ptr offset value => exact ⟨null_step ⟨h,∅⟩ (booted_head booted) rfl _ called,trivial,trivial⟩

theorem null_sized_run (ops : List Op) (s : System) (run : Steps NextSized ⟨h,∅⟩ ops s) : s = ⟨h,∅⟩ := by
  refine Steps.invariant (fun s => s = ⟨h,∅⟩) rfl ?_ run
  intro s op s' same next
  obtain ⟨called,_,done⟩ := next
  subst same
  cases done.symm.trans (null_called booted op called).1
  rfl

end

/-- In every run whose calls meet the condition on sizes, the next call that meets it hands out no
block that is too small; one that does not meet it does, unless it moves a live block. -/
theorem allocations_hold (start size : Word) (h : State) (booted : Booted start size h) (ops : List Op)
    (s : System) (run : Steps NextSized ⟨h,∅⟩ ops s) (op : Op) (called : Called s op) :
    (Sized s op → LargeEnough s op) ∧ (¬Moves op → LargeEnough s op → Sized s op) := by
  by_cases nonnull : start = 0
  · subst nonnull
    have still := null_sized_run booted ops s run
    subst still
    obtain ⟨_,sized,holds⟩ := null_called booted op called
    exact ⟨fun _ => holds,fun _ _ => sized⟩
  · have placed := booted_placed booted nonnull
    obtain ⟨arena,inv⟩ := sized_run_inv booted nonnull ops s run
    exact ⟨sized_holds placed s arena inv op called,holds_sized placed s arena inv op⟩

theorem allocations_hold_moved : ∃ h s, Booted 4096 4096 h ∧ Steps NextSized ⟨h,∅⟩ [.alloc 64] s ∧
    4116 ∈ s.live ∧ LargeEnough s (.realloc 4116 128) := by
  obtain ⟨h,booted⟩ := booted_exists 4096 4096 (by decide) (by decide)
  obtain ⟨h',served⟩ := first_alloc booted (by decide) 64 (by decide) (by decide)
  have run : Steps NextSized ⟨h,∅⟩ [.alloc 64] ⟨h',{4116}⟩ := by
    refine .snoc [] _ ⟨h,∅⟩ _ .nil ⟨trivial,Or.inl (by decide),?_⟩
    simp only [step,served,bind,Option.bind,pure]
    rfl
  have live : (4116 : Word) ∈ ({4116} : Finset Word) := by simp
  exact ⟨h,_,booted,run,live,(allocations_hold 4096 4096 h booted _ _ run (.realloc 4116 128)
    (Or.inr live)).1 (Or.inr (Or.inl (by decide)))⟩

/-- The largest size rounds to nothing and every free block has that; a product may wrap as well. -/
theorem allocation_wraps : ∃ h, Booted 4096 4096 h ∧
    (∃ h', blackHeapAlloc h 0xFFFFFFFF = some (h',4116) ∧
      (header h'.mem (4116 - headerSize)).size.toNat < 0xFFFFFFFF) ∧
    ¬LargeEnough ⟨h,∅⟩ (.alloc 0xFFFFFFFF) ∧ ¬LargeEnough ⟨h,∅⟩ (.calloc 0x10000001 16) := by
  obtain ⟨h,booted⟩ := booted_exists 4096 4096 (by decide) (by decide)
  have placed := booted_placed booted (by decide)
  have rep := (booted_inv booted).rep
  have room (n : Word) (fits : (blackAlign n 16).toNat ≤ 4076) : ¬Exhausted h (blackAlign n 16) := by
    intro exhausted
    have less := (exhausted_iff placed h _ rep _).mp exhausted ⟨4096,4076,true⟩ (by simp [Arena.whole]) rfl
    simp only at less
    omega
  obtain ⟨h',served⟩ := first_alloc booted (by decide) 0xFFFFFFFF (by decide) (by decide)
  obtain ⟨_,_,returned,present,small⟩ :=
    alloc_succeeds placed h _ rep 0xFFFFFFFF (by decide) (room _ (by decide))
  cases served.symm.trans returned
  refine ⟨h,booted,⟨h',served,?_⟩,?_,?_⟩
  · exact Nat.lt_of_le_of_lt small (by decide)
  · exact not_holds _ h' _ _ served present small (by decide)
  · intro holds
    rcases (calloc_holds_iff placed h _ rep _ _).mp holds with bounded | zero | exhausted
    · exact absurd bounded (by decide)
    · exact absurd zero (by decide)
    · exact room _ (by decide) exhausted

end BlackOS.Heap
