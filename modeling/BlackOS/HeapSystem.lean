import BlackOS.HeapAllocate
import BlackOS.Library.Run
import Mathlib.Data.Finset.Basic

/-! Clients of the heap: the live pointers, the calls clients may make, and the
invariant that ties a run of them to an arena. Every allowed call returns, keeps
the invariant, and leaves the blocks it is not applied to alone. -/
namespace BlackOS.Heap
open BlackOS.Library.Ram BlackOS.Library.Tiling BlackOS.LibcString

/-- The heap together with the pointers that were handed out and not freed since. -/
structure System where
  heap : State
  live : Finset Word

inductive Op
  | alloc (size : Word)
  | calloc (count size : Word)
  | realloc (ptr size : Word)
  | free (ptr : Word)
  /-- A client stores one byte at an offset into a payload. -/
  | write (ptr offset : Word) (value : Byte)

def grant (live : Finset Word) (ptr : Word) : Finset Word := if ptr = 0 then live else insert ptr live

def step (s : System) : Op → Option System
  | .alloc size => do
    let (heap,ptr) ← blackHeapAlloc s.heap size
    return ⟨heap,grant s.live ptr⟩
  | .calloc count size => do
    let (heap,ptr) ← blackHeapCalloc s.heap count size
    return ⟨heap,grant s.live ptr⟩
  | .realloc ptr size => do
    let (heap,new) ← blackHeapRealloc s.heap ptr size
    if ptr ≠ 0 ∧ size = 0 then return ⟨heap,s.live.erase ptr⟩
    if new = 0 then return ⟨heap,s.live⟩
    return ⟨heap,insert new (s.live.erase ptr)⟩
  | .free ptr => some ⟨blackHeapFree s.heap ptr,s.live.erase ptr⟩
  | .write ptr offset value => some {s with heap := {s.heap with mem := write8 s.heap.mem (ptr + offset) value}}

/-- The calls within the contract: live pointers or NULL, request sizes that do
not wrap when rounded, and stores inside the payload. -/
def Allowed (s : System) : Op → Prop
  | .alloc size => size ≤ 0xFFFFFFF0
  | .calloc count size => count * size ≤ 0xFFFFFFF0
  | .realloc ptr size => (ptr = 0 ∨ ptr ∈ s.live) ∧ size ≤ 0xFFFFFFF0
  | .free ptr => ptr = 0 ∨ ptr ∈ s.live
  | .write ptr offset _ => ptr ∈ s.live ∧ offset < (header s.heap.mem (ptr - headerSize)).size

def Next (s : System) (op : Op) (s' : System) : Prop := Allowed s op ∧ step s op = some s'

def Targets (op : Op) (p : Word) : Prop :=
  match op with
  | .alloc _ => False
  | .calloc _ _ => False
  | .realloc ptr _ => ptr = p
  | .free ptr => ptr = p
  | .write ptr _ _ => ptr = p

/-- The heap holds the arena, and the live pointers are those of its blocks in use. -/
structure Inv {lo hi : Nat} (s : System) (arena : Arena 20 lo hi) : Prop where
  rep : Represents s.heap arena
  live : ∀ p, p ∈ s.live ↔ ∃ b ∈ arena.blocks, b.free = false ∧ p = word (b.addr + 20)

/-- Every block in use except `except` keeps its place in the arena and its payload. -/
def Keeps {lo hi : Nat} (arena arena' : Arena 20 lo hi) (m m' : Memory) (except : Word) : Prop :=
  ∀ q ∈ arena.blocks, q.free = false → word (q.addr + 20) ≠ except →
    q ∈ arena'.blocks ∧ ∀ x : Word, q.addr + 20 ≤ x.toNat → x.toNat < q.limit 20 → m' x = m x

section
variable {lo hi : Nat} (arena : Arena 20 lo hi)

theorem payload_kept (b q : Block) (inB : b ∈ arena.blocks) (inQ : q ∈ arena.blocks) (other : q ≠ b)
    (m m' : Memory) (own : OwnChange arena.blocks b m m') (x : Word) (low : q.addr + 20 ≤ x.toNat)
    (high : x.toNat < q.limit 20) : m' x = m x := by
  apply own x
  · intro c member
    rcases tiles_disjoint 20 lo hi _ arena.tiles q c inQ member with same | apart
    · subst same
      exact Or.inr low
    · simp only [Block.limit] at apart high
      omega
  · have apart := (tiles_disjoint 20 lo hi _ arena.tiles q b inQ inB).resolve_left other
    simp only [Block.limit] at apart high ⊢
    omega

theorem block_unique (b c : Block) (left : b ∈ arena.blocks) (right : c ∈ arena.blocks)
    (same : b.addr = c.addr) : b = c := by
  rcases tiles_disjoint 20 lo hi _ arena.tiles b c left right with equal | apart
  · exact equal
  · simp only [Block.limit] at apart
    omega

theorem pointer_injective (small : hi < 2^32) (b c : Block) (left : b ∈ arena.blocks)
    (right : c ∈ arena.blocks) (same : word (b.addr + 20) = word (c.addr + 20)) : b = c := by
  have boundsB := tiles_bounds 20 lo hi _ arena.tiles b left
  have boundsC := tiles_bounds 20 lo hi _ arena.tiles c right
  simp only [Block.limit] at boundsB boundsC
  have equal := word_injective _ _ (by omega) (by omega) same
  exact block_unique arena b c left right (by omega)

theorem pointer_ne_zero (small : hi < 2^32) (b : Block) (member : b ∈ arena.blocks) :
    word (b.addr + 20) ≠ 0 := by
  have bounds := tiles_bounds 20 lo hi _ arena.tiles b member
  simp only [Block.limit] at bounds
  exact word_ne_zero _ (by omega) (by omega)

theorem payload_store (small : hi < 2^32) (h : State) (rep : Represents h arena) (t : Block)
    (member : t ∈ arena.blocks) (m' : Memory) (same : SameOutside (t.addr + 20) (t.limit 20) h.mem m') :
    Represents {h with mem := m'} arena ∧ Keeps arena arena h.mem m' (word (t.addr + 20)) := by
  refine ⟨⟨rep.head,?_⟩,?_⟩
  · apply chain_congr h.mem m' _ _ _ _ rep.chain
    intro b inList
    have bounds := tiles_bounds 20 lo hi _ arena.tiles b inList
    have apart := tiles_disjoint 20 lo hi _ arena.tiles b t inList member
    simp only [Block.limit] at bounds apart
    apply header_sameOutside same b.addr (by omega)
    rcases apart with equal | left | right
    · exact Or.inl (by rw [equal])
    · exact Or.inl (by omega)
    · exact Or.inr (by simp only [Block.limit]; omega)
  · intro q inList _ other
    refine ⟨inList,?_⟩
    intro x low high
    have distinct : q ≠ t := fun equal => other (by rw [equal])
    have apart := (tiles_disjoint 20 lo hi _ arena.tiles q t inList member).resolve_left distinct
    simp only [Block.limit] at apart high
    exact same x (by simp only [Block.limit]; omega)

theorem header_size (h : State) (rep : Represents h arena) (b : Block) (member : b ∈ arena.blocks) :
    (header h.mem (word (b.addr + 20) - headerSize)).size = word b.size := by
  obtain ⟨prev,next,atB⟩ := chain_member h.mem 0 0 _ rep.chain b member
  rw [pointer_block,atB]

/-- What a successful allocation adds to the arena: one block in use, large
enough, in a place where no block was in use. -/
structure Granted (arena arena' : Arena 20 lo hi) (t : Block) (n : Nat) : Prop where
  member : t ∈ arena'.blocks
  used : t.free = false
  large : n ≤ t.size
  blocks : ∀ c, c.free = false → (c ∈ arena'.blocks ↔ c ∈ arena.blocks ∨ c = t)
  fresh : ∀ q ∈ arena.blocks, q.free = false → q.addr ≠ t.addr

theorem Granted.weaken {arena arena' : Arena 20 lo hi} {t : Block} {n k : Nat}
    (granted : Granted arena arena' t n) (less : k ≤ n) : Granted arena arena' t k :=
  {granted with large := Nat.le_trans less granted.large}

theorem Granted.pointer_ne {arena arena' : Arena 20 lo hi} {t : Block} {n : Nat}
    (granted : Granted arena arena' t n) (small : hi < 2^32) (q : Block) (member : q ∈ arena.blocks)
    (used : q.free = false) : word (q.addr + 20) ≠ word (t.addr + 20) := by
  intro equal
  have kept := (granted.blocks q used).mpr (Or.inl member)
  have block := pointer_injective arena' small q t kept granted.member equal
  exact granted.fresh q member used (by rw [block])

/-- `black_heap_alloc` hands out a block of the rounded size when some free block
has it, and nothing otherwise. -/
theorem alloc_takes (placed : Placed lo hi) (h : State) (rep : Represents h arena) (n : Word) :
    ∃ h' ptr, blackHeapAlloc h n = some (h',ptr) ∧
      ((ptr = 0 ∧ h' = h ∧
          (n = 0 ∨ ∀ b ∈ arena.blocks, b.free = true → b.size < (blackAlign n 16).toNat)) ∨
        ∃ (arena' : Arena 20 lo hi) (t : Block), ptr = word (t.addr + 20) ∧
          Granted arena arena' t (blackAlign n 16).toNat ∧ Represents h' arena' ∧
          Keeps arena arena' h.mem h'.mem 0 ∧
          ∃ b ∈ arena.blocks, b.free = true ∧ (blackAlign n 16).toNat ≤ b.size) := by
  obtain ⟨h',ptr,returned,failed | ⟨b,pre,post,⟨shape,free,room,_,_⟩,pointer,rep',own⟩⟩ :=
    alloc_refines placed h arena rep n
  · exact ⟨h',ptr,returned,Or.inl failed⟩
  · have member : b ∈ arena.blocks := by
      rw [shape]
      simp
    have blocks (c : Block) (used : c.free = false) :
        c ∈ (arena.allocate 32 (blackAlign n 16).toNat b.addr).blocks ↔
          c ∈ arena.blocks ∨ c = taken 20 32 (blackAlign n 16).toNat b := by
      have tiles := arena.tiles
      simp only [Arena.allocate,shape] at tiles ⊢
      exact mem_allocate_used 20 32 _ lo hi pre b post (by omega) tiles free room c used
    have fresh (q : Block) (inList : q ∈ arena.blocks) (used : q.free = false) : q.addr ≠ b.addr := by
      intro same
      have equal := block_unique arena q b inList member same
      rw [equal,free] at used
      cases used
    refine ⟨h',ptr,returned,Or.inr ⟨_,taken 20 32 (blackAlign n 16).toNat b,pointer,?_,rep',?_,
      b,member,free,room⟩⟩
    · refine ⟨(blocks _ rfl).mpr (Or.inr rfl),rfl,?_,blocks,fresh⟩
      simp only [taken]
      split <;> omega
    · intro q inList used _
      refine ⟨(blocks q used).mpr (Or.inl inList),?_⟩
      have other : q ≠ b := fun same => fresh q inList used (by rw [same])
      exact payload_kept arena b q member inList other h.mem h'.mem own

/-- The call returns: with NULL and the heap as it was, or with a block of at least `n` bytes. -/
def Grants (h : State) (result : Option (State × Word)) (n : Nat) : Prop :=
  ∃ h' ptr, result = some (h',ptr) ∧
    ((ptr = 0 ∧ h' = h) ∨ ∃ (arena' : Arena 20 lo hi) (t : Block), ptr = word (t.addr + 20) ∧
      Granted arena arena' t n ∧ Represents h' arena' ∧ Keeps arena arena' h.mem h'.mem 0)

theorem alloc_grants (placed : Placed lo hi) (h : State) (rep : Represents h arena) (n : Word)
    (bounded : n ≤ 0xFFFFFFF0) : Grants arena h (blackHeapAlloc h n) n.toNat := by
  obtain ⟨h',ptr,returned,⟨null,same,_⟩ | ⟨arena',t,pointer,granted,rep',keeps,_⟩⟩ :=
    alloc_takes arena placed h rep n
  · exact ⟨h',ptr,returned,Or.inl ⟨null,same⟩⟩
  · have rounded := blackAlign_toNat n bounded
    exact ⟨h',ptr,returned,Or.inr ⟨arena',t,pointer,granted.weaken (by omega),rep',keeps⟩⟩

theorem live_grant (small : hi < 2^32) (s : System) (inv : Inv s arena) (h' : State)
    (arena' : Arena 20 lo hi) (t : Block) (n : Nat) (granted : Granted arena arena' t n)
    (rep' : Represents h' arena') : Inv ⟨h',grant s.live (word (t.addr + 20))⟩ arena' := by
  refine ⟨rep',?_⟩
  intro p
  simp only [grant,if_neg (pointer_ne_zero arena' small t granted.member),Finset.mem_insert,inv.live]
  constructor
  · intro either
    rcases either with same | ⟨b,member,used,pointer⟩
    · exact ⟨t,granted.member,granted.used,same⟩
    · exact ⟨b,(granted.blocks b used).mpr (Or.inl member),used,pointer⟩
  · intro holder
    obtain ⟨b,member,used,pointer⟩ := holder
    rcases (granted.blocks b used).mp member with old | same
    · exact Or.inr ⟨b,old,used,pointer⟩
    · exact Or.inl (by rw [pointer,same])

/-- The call returns, and the invariant and the blocks in use are kept. -/
def StepKept (s : System) (op : Op) : Prop :=
  ∃ (s' : System) (arena' : Arena 20 lo hi), step s op = some s' ∧ Inv s' arena' ∧
    ∀ p, ¬Targets op p → ∀ q ∈ arena.blocks, q.free = false → p = word (q.addr + 20) →
      q ∈ arena'.blocks ∧
        ∀ x : Word, q.addr + 20 ≤ x.toNat → x.toNat < q.limit 20 → s'.heap.mem x = s.heap.mem x

theorem StepKept.intro (s : System) (op : Op) (except : Word) (s' : System) (arena' : Arena 20 lo hi)
    (done : step s op = some s') (inv' : Inv s' arena')
    (keeps : Keeps arena arena' s.heap.mem s'.heap.mem except)
    (targets : ∀ q ∈ arena.blocks, word (q.addr + 20) = except → Targets op except) :
    StepKept arena s op := by
  refine ⟨s',arena',done,inv',?_⟩
  intro p untouched q member used pointer
  apply keeps q member used
  intro same
  apply untouched
  rw [pointer,same]
  exact targets q member same

theorem keeps_refl (m : Memory) (except : Word) : Keeps arena arena m m except :=
  fun _ member _ _ => ⟨member,fun _ _ _ => rfl⟩

theorem grants_kept (small : hi < 2^32) (s : System) (inv : Inv s arena) (op : Op)
    (result : Option (State × Word)) (n : Nat) (grants : Grants arena s.heap result n)
    (served : ∀ h' ptr, result = some (h',ptr) → step s op = some ⟨h',grant s.live ptr⟩) :
    StepKept arena s op := by
  have noPointer (q : Block) (member : q ∈ arena.blocks) (null : word (q.addr + 20) = 0) : Targets op 0 :=
    absurd null (pointer_ne_zero arena small q member)
  obtain ⟨h',ptr,returned,⟨null,same⟩ | ⟨arena',t,pointer,granted,rep',keeps⟩⟩ := grants
  · subst null same
    exact .intro arena s _ 0 s arena (served _ 0 returned) inv (keeps_refl arena _ _) noPointer
  · subst pointer
    exact .intro arena s _ 0 _ arena' (served h' _ returned)
      (live_grant arena small s inv h' arena' t _ granted rep') keeps noPointer

theorem alloc_kept (placed : Placed lo hi) (s : System) (inv : Inv s arena) (n : Word)
    (bounded : n ≤ 0xFFFFFFF0) : StepKept arena s (.alloc n) := by
  apply grants_kept arena placed.small s inv _ _ _ (alloc_grants arena placed s.heap inv.rep n bounded)
  intro h' ptr returned
  simp only [step,returned,bind,Option.bind,pure]

theorem calloc_grants (placed : Placed lo hi) (h : State) (rep : Represents h arena) (count size : Word)
    (bounded : count * size ≤ 0xFFFFFFF0) :
    Grants arena h (blackHeapCalloc h count size) (count * size).toNat := by
  obtain ⟨h',ptr,returned,⟨null,same⟩ | ⟨arena',t,pointer,granted,rep',keeps⟩⟩ :=
    alloc_grants arena placed h rep (count * size) bounded
  · subst null same
    exact ⟨_,0,by simp [blackHeapCalloc,returned],Or.inl ⟨rfl,rfl⟩⟩
  · subst pointer
    have small := placed.small
    have bounds := tiles_bounds 20 lo hi _ arena'.tiles t granted.member
    have present := pointer_ne_zero arena' small t granted.member
    have large := granted.large
    simp only [Block.limit] at bounds
    have start : (word (t.addr + 20)).toNat = t.addr + 20 := word_toNat _ (by omega)
    have zeroed := (memset_sameOutside h'.mem (word (t.addr + 20)) 0 (count * size) (by omega)).widen
      (by omega : t.addr + 20 ≤ _) (by simp only [Block.limit]; omega : _ ≤ t.limit 20)
    obtain ⟨rep,stored⟩ := payload_store arena' small h' rep' t granted.member _ zeroed
    refine ⟨_,_,?_,Or.inr ⟨arena',t,rfl,granted,rep,?_⟩⟩
    · simp only [blackHeapCalloc,returned,bind,Option.bind,ne_eq,present,not_false_eq_true,if_true,pure]
    · -- the fill lies in the new block, which is none of the old ones in use
      intro q member used _
      obtain ⟨kept,same⟩ := keeps q member used (pointer_ne_zero arena small q member)
      have other : word (q.addr + 20) ≠ word (t.addr + 20) := by
        intro equal
        have block := pointer_injective arena' small q t kept granted.member equal
        exact granted.fresh q member used (by rw [block])
      obtain ⟨_,again⟩ := stored q kept used other
      exact ⟨kept,fun x low high => (again x low high).trans (same x low high)⟩

theorem calloc_kept (placed : Placed lo hi) (s : System) (inv : Inv s arena) (count size : Word)
    (bounded : count * size ≤ 0xFFFFFFF0) : StepKept arena s (.calloc count size) := by
  apply grants_kept arena placed.small s inv _ _ _
    (calloc_grants arena placed s.heap inv.rep count size bounded)
  intro h' ptr returned
  simp only [step,returned,bind,Option.bind,pure]

theorem free_releases (placed : Placed lo hi) (h : State) (rep : Represents h arena) (b : Block)
    (member : b ∈ arena.blocks) :
    Represents (blackHeapFree h (word (b.addr + 20))) (arena.release b.addr) ∧
      Keeps arena (arena.release b.addr) h.mem (blackHeapFree h (word (b.addr + 20))).mem
        (word (b.addr + 20)) := by
  obtain ⟨rep',own,_⟩ := free_block placed.positive placed.small h arena rep b member
  refine ⟨rep',?_⟩
  intro q inList used other
  have distinct : q ≠ b := fun same => other (by rw [same])
  have address : q.addr ≠ b.addr := fun same => distinct (block_unique arena q b inList member same)
  exact ⟨(mem_release_used 20 b.addr _ q used).mpr ⟨inList,address⟩,
    payload_kept arena b q member inList distinct h.mem _ own⟩

theorem live_release (small : hi < 2^32) (s : System) (inv : Inv s arena) (h' : State) (b : Block)
    (member : b ∈ arena.blocks) (rep' : Represents h' (arena.release b.addr)) :
    Inv ⟨h',s.live.erase (word (b.addr + 20))⟩ (arena.release b.addr) := by
  refine ⟨rep',?_⟩
  intro p
  simp only [Finset.mem_erase,inv.live]
  constructor
  · intro both
    obtain ⟨other,c,inList,used,pointer⟩ := both
    refine ⟨c,(mem_release_used 20 b.addr _ c used).mpr ⟨inList,?_⟩,used,pointer⟩
    intro same
    exact other (by rw [pointer,same])
  · intro holder
    obtain ⟨c,inRelease,used,pointer⟩ := holder
    obtain ⟨inList,other⟩ := (mem_release_used 20 b.addr _ c used).mp inRelease
    refine ⟨?_,c,inList,used,pointer⟩
    intro same
    have block := pointer_injective arena small c b inList member (pointer.symm.trans same)
    exact other (by rw [block])

theorem zero_not_live (small : hi < 2^32) (s : System) (inv : Inv s arena) : (0 : Word) ∉ s.live := by
  intro member
  obtain ⟨b,inList,_,pointer⟩ := (inv.live 0).mp member
  exact pointer_ne_zero arena small b inList pointer.symm

theorem free_kept (placed : Placed lo hi) (s : System) (inv : Inv s arena) (ptr : Word)
    (held : ptr = 0 ∨ ptr ∈ s.live) : StepKept arena s (.free ptr) := by
  rcases held with null | member
  · subst null
    have same : (⟨blackHeapFree s.heap 0,s.live.erase 0⟩ : System) = s := by
      rw [Finset.erase_eq_of_notMem (zero_not_live arena placed.small s inv)]
      rfl
    exact .intro arena s _ 0 s arena (congrArg some same) inv (keeps_refl arena _ _) (fun _ _ _ => rfl)
  · obtain ⟨b,inList,_,pointer⟩ := (inv.live ptr).mp member
    subst pointer
    obtain ⟨rep',keeps⟩ := free_releases arena placed s.heap inv.rep b inList
    exact .intro arena s _ _ _ _ rfl (live_release arena placed.small s inv _ b inList rep') keeps
      (fun _ _ _ => rfl)

theorem write_kept (small : hi < 2^32) (s : System) (inv : Inv s arena) (ptr offset : Word) (value : Byte)
    (member : ptr ∈ s.live) (inside : offset < (header s.heap.mem (ptr - headerSize)).size) :
    StepKept arena s (.write ptr offset value) := by
  obtain ⟨b,inList,used,pointer⟩ := (inv.live ptr).mp member
  subst pointer
  have bounds := tiles_bounds 20 lo hi _ arena.tiles b inList
  simp only [Block.limit] at bounds
  rw [header_size arena s.heap inv.rep b inList,BitVec.lt_def,word_toNat b.size (by omega)] at inside
  have place : (word (b.addr + 20) + offset).toNat = b.addr + 20 + offset.toNat := by
    rw [BitVec.toNat_add,word_toNat _ (by omega)]
    omega
  have stored := (write8_sameOutside s.heap.mem (word (b.addr + 20) + offset) value).widen
    (by omega : b.addr + 20 ≤ _) (by simp only [Block.limit]; omega : _ ≤ b.limit 20)
  obtain ⟨rep',keeps⟩ := payload_store arena small s.heap inv.rep b inList _ stored
  exact .intro arena s _ _ _ arena rfl ⟨rep',inv.live⟩ keeps (fun _ _ _ => rfl)

theorem realloc_null_kept (placed : Placed lo hi) (s : System) (inv : Inv s arena) (size : Word)
    (bounded : size ≤ 0xFFFFFFF0) : StepKept arena s (.realloc 0 size) := by
  have erased : s.live.erase 0 = s.live := Finset.erase_eq_of_notMem (zero_not_live arena placed.small s inv)
  apply grants_kept arena placed.small s inv _ _ _ (alloc_grants arena placed s.heap inv.rep size bounded)
  intro h' ptr returned
  simp only [step,blackHeapRealloc,if_true,returned,bind,Option.bind,ne_eq,not_true,false_and,if_false,
    erased,pure,grant]
  split
  · rfl
  · rfl

/-- The heap after `black_heap_realloc` has copied one block's payload to another's. -/
def copyInto (h : State) (t b : Block) : State :=
  {h with mem := memcpy h.mem (word (t.addr + 20)) (word (b.addr + 20)) (word b.size)}

/-- A `black_heap_realloc` beyond the block's size fails and changes nothing, or
takes a second block, copies the first into it and frees the first. -/
theorem realloc_moves (placed : Placed lo hi) (h : State) (rep : Represents h arena) (b : Block)
    (inList : b ∈ arena.blocks) (used : b.free = false) (size : Word) (bounded : size ≤ 0xFFFFFFF0)
    (nonzero : size ≠ 0) (grows : ¬size ≤ word b.size) :
    ∃ h' ptr, blackHeapRealloc h (word (b.addr + 20)) size = some (h',ptr) ∧
      ((ptr = 0 ∧ h' = h) ∨ ∃ (grown : Arena 20 lo hi) (middle : State) (t : Block),
        ptr = word (t.addr + 20) ∧ b.size < t.size ∧ Granted arena grown t size.toNat ∧
        Represents middle grown ∧ Keeps arena grown h.mem middle.mem 0 ∧
        h' = blackHeapFree (copyInto middle t b) (word (b.addr + 20))) := by
  have small := placed.small
  have present := pointer_ne_zero arena small b inList
  have current := header_size arena h rep b inList
  have bounds := tiles_bounds 20 lo hi _ arena.tiles b inList
  simp only [Block.limit] at bounds
  have larger : b.size < size.toNat := by
    rw [BitVec.le_def,word_toNat b.size (by omega)] at grows
    omega
  obtain ⟨h',ptr,returned,⟨null,same⟩ | ⟨arena',t,pointer,granted,rep',keeps⟩⟩ :=
    alloc_grants arena placed h rep size bounded
  · subst null same
    refine ⟨_,0,?_,Or.inl ⟨rfl,rfl⟩⟩
    simp only [blackHeapRealloc,present,nonzero,if_false,current,grows,returned,bind,Option.bind,pure,if_true]
  · subst pointer
    have kept := (granted.blocks b used).mpr (Or.inl inList)
    have fresh := pointer_ne_zero arena' small t granted.member
    have size' := header_size arena' h' rep' b kept
    have large := granted.large
    refine ⟨_,_,?_,Or.inr ⟨arena',h',t,rfl,by omega,granted,rep',keeps,rfl⟩⟩
    simp only [blackHeapRealloc,present,nonzero,if_false,current,grows,returned,bind,Option.bind,pure,fresh,
      size',copyInto]

/-- The copy fills only the second block. -/
theorem copyInto_stored (small : hi < 2^32) (h : State) (rep : Represents h arena) (t b : Block)
    (member : t ∈ arena.blocks) (room : b.size ≤ t.size) :
    Represents (copyInto h t b) arena ∧ Keeps arena arena h.mem (copyInto h t b).mem (word (t.addr + 20)) := by
  have bounds := tiles_bounds 20 lo hi _ arena.tiles t member
  simp only [Block.limit] at bounds
  have start : (word (t.addr + 20)).toNat = t.addr + 20 := word_toNat _ (by omega)
  have length : (word b.size).toNat = b.size := word_toNat _ (by omega)
  have copied := (memcpy_sameOutside h.mem (word (t.addr + 20)) (word (b.addr + 20)) (word b.size)
    (by omega)).widen (by omega : t.addr + 20 ≤ _) (by simp only [Block.limit]; omega : _ ≤ t.limit 20)
  exact payload_store arena small h rep t member _ copied

theorem realloc_grows (placed : Placed lo hi) (h : State) (rep : Represents h arena) (b : Block)
    (inList : b ∈ arena.blocks) (used : b.free = false) (size : Word) (bounded : size ≤ 0xFFFFFFF0)
    (nonzero : size ≠ 0) (grows : ¬size ≤ word b.size) :
    ∃ h' ptr, blackHeapRealloc h (word (b.addr + 20)) size = some (h',ptr) ∧
      ((ptr = 0 ∧ h' = h) ∨ ∃ (grown : Arena 20 lo hi) (middle : State) (t : Block),
        ptr = word (t.addr + 20) ∧ Granted arena grown t size.toNat ∧ Represents middle grown ∧
        Represents h' (grown.release b.addr) ∧
        Keeps arena (grown.release b.addr) h.mem h'.mem (word (b.addr + 20))) := by
  have small := placed.small
  obtain ⟨h',ptr,returned,failed | ⟨grown,middle,t,pointer,larger,granted,rep',keeps,same⟩⟩ :=
    realloc_moves arena placed h rep b inList used size bounded nonzero grows
  · exact ⟨h',ptr,returned,Or.inl failed⟩
  · have kept := (granted.blocks b used).mpr (Or.inl inList)
    obtain ⟨repCopy,keepsCopy⟩ := copyInto_stored grown small middle rep' t b granted.member (by omega)
    obtain ⟨repFree,keepsFree⟩ := free_releases grown placed _ repCopy b kept
    refine ⟨h',ptr,returned,Or.inr ⟨grown,middle,t,pointer,granted,rep',same ▸ repFree,?_⟩⟩
    intro q member inUse other
    obtain ⟨inGrown,first⟩ := keeps q member inUse (pointer_ne_zero arena small q member)
    obtain ⟨_,second⟩ := keepsCopy q inGrown inUse (granted.pointer_ne small q member inUse)
    obtain ⟨inFinal,third⟩ := keepsFree q inGrown inUse other
    rw [same]
    exact ⟨inFinal,fun x low high =>
      ((third x low high).trans (second x low high)).trans (first x low high)⟩

theorem realloc_grow_kept (placed : Placed lo hi) (s : System) (inv : Inv s arena) (b : Block)
    (inList : b ∈ arena.blocks) (used : b.free = false) (size : Word) (bounded : size ≤ 0xFFFFFFF0)
    (nonzero : size ≠ 0) (grows : ¬size ≤ word b.size) :
    StepKept arena s (.realloc (word (b.addr + 20)) size) := by
  have small := placed.small
  have isTarget (q : Block) (_ : q ∈ arena.blocks) (_ : word (q.addr + 20) = word (b.addr + 20)) :
      Targets (.realloc (word (b.addr + 20)) size) (word (b.addr + 20)) := rfl
  obtain ⟨h',ptr,returned,⟨null,same⟩ | ⟨grown,middle,t,pointer,granted,rep,repFree,keeps⟩⟩ :=
    realloc_grows arena placed s.heap inv.rep b inList used size bounded nonzero grows
  · subst null same
    refine .intro arena s _ _ s arena ?_ inv (keeps_refl arena _ _) isTarget
    simp only [step,returned,nonzero,bind,Option.bind,and_false,if_false,pure,if_true]
  · subst pointer
    have kept := (granted.blocks b used).mpr (Or.inl inList)
    have fresh := pointer_ne_zero grown small t granted.member
    have distinct := (granted.pointer_ne small b inList used).symm
    have inv' := live_release grown small _ (live_grant arena small s inv middle grown t _ granted rep)
      _ b kept repFree
    rw [grant,if_neg fresh,Finset.erase_insert_of_ne distinct] at inv'
    refine .intro arena s _ _ _ _ ?_ inv' keeps isTarget
    simp only [step,returned,nonzero,bind,Option.bind,and_false,if_false,pure,fresh]

theorem realloc_kept (placed : Placed lo hi) (s : System) (inv : Inv s arena) (ptr size : Word)
    (held : ptr = 0 ∨ ptr ∈ s.live) (bounded : size ≤ 0xFFFFFFF0) :
    StepKept arena s (.realloc ptr size) := by
  rcases held with null | member
  · subst null
    exact realloc_null_kept arena placed s inv size bounded
  · obtain ⟨b,inList,used,pointer⟩ := (inv.live ptr).mp member
    subst pointer
    have present := pointer_ne_zero arena placed.small b inList
    by_cases zero : size = 0
    · subst zero
      obtain ⟨rep',keeps⟩ := free_releases arena placed s.heap inv.rep b inList
      refine .intro arena s _ _ _ _ ?_ (live_release arena placed.small s inv _ b inList rep') keeps
        (fun _ _ _ => rfl)
      simp only [step,blackHeapRealloc,present,if_false,if_true,bind,Option.bind,ne_eq,not_false_eq_true,
        and_self,pure]
    · have current := header_size arena s.heap inv.rep b inList
      by_cases fits : size ≤ word b.size
      · refine .intro arena s _ (word (b.addr + 20)) s arena ?_ inv (keeps_refl arena _ _) (fun _ _ _ => rfl)
        simp only [step,blackHeapRealloc,present,zero,if_false,current,fits,if_true,bind,Option.bind,
          and_false,pure,Finset.insert_erase member]
      · exact realloc_grow_kept arena placed s inv b inList used size bounded zero fits

/-- Every call within the contract returns, keeps the invariant, and leaves the
blocks it is not applied to alone. -/
theorem step_kept (placed : Placed lo hi) (s : System) (inv : Inv s arena) (op : Op)
    (allowed : Allowed s op) : StepKept arena s op := by
  cases op with
  | alloc size => exact alloc_kept arena placed s inv size allowed
  | calloc count size => exact calloc_kept arena placed s inv count size allowed
  | realloc ptr size => exact realloc_kept arena placed s inv ptr size allowed.1 allowed.2
  | free ptr => exact free_kept arena placed s inv ptr allowed
  | write ptr offset value => exact write_kept arena placed.small s inv ptr offset value allowed.1 allowed.2

end

end BlackOS.Heap
