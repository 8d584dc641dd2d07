import BlackOS.HeapAccess

/-! Where the calls of the heap load and store: on a heap that holds an arena they stay between its ends. -/
namespace BlackOS.HeapAccess
open BlackOS.Library.Ram BlackOS.Library.Access BlackOS.Library.Tiling
open BlackOS.Heap (blackHeapMagic headerSize blackAlign addressCount header Chain firstAddr Placed Represents)

def Inside (lo hi : Nat) (a : Word) : Prop := lo ≤ a.toNat ∧ a.toNat < hi

/-- A header fits. -/
def Room (lo hi : Nat) (b : Word) : Prop := lo ≤ b.toNat ∧ b.toNat + 20 ≤ hi

/-- A best block so far. -/
def Held (lo hi : Nat) (best : Word) : Prop := best = 0 ∨ Room lo hi best

variable {lo hi : Nat} (small : hi < 2^32) (m : Memory)

@[simp] theorem within_ite {α : Type} (region : Word → Prop) (c : Prop) [Decidable c] (p q : Code α) :
    Within region (if c then p else q) m ↔ if c then Within region p m else Within region q m := by
  split <;> rfl

section Fields
variable (b : Word) (room : Room lo hi b)
include small room

theorem field_inside (k j : Word) (field : k.toNat + 4 ≤ 20) (byte : j.toNat < 4) : Inside lo hi (b + k + j) := by
  obtain ⟨low,high⟩ := room
  unfold Inside
  rw [BitVec.toNat_add_of_lt,BitVec.toNat_add_of_lt]
  · omega
  · omega
  · rw [BitVec.toNat_add_of_lt (by omega)]
    omega

theorem within_load32 (k : Word) (field : k.toNat + 4 ≤ 20) : Within (Inside lo hi) (load32 (b + k)) m := by
  have byte := field_inside small b room k
  have first := byte 0 field (by decide)
  rw [show b + k + 0 = b + k from BitVec.add_zero _] at first
  simp only [load32,within_bind,within_load,within_pure,eval_load,and_true]
  exact ⟨first,byte 1 field (by decide),byte 2 field (by decide),byte 3 field (by decide)⟩

theorem within_store32 (k v : Word) (field : k.toNat + 4 ≤ 20) : Within (Inside lo hi) (store32 (b + k) v) m := by
  have byte := field_inside small b room k
  have first := byte 0 field (by decide)
  rw [show b + k + 0 = b + k from BitVec.add_zero _] at first
  simp only [store32,within_bind,within_store,eval_store]
  exact ⟨first,byte 1 field (by decide),byte 2 field (by decide),byte 3 field (by decide)⟩

theorem within_getMagic : Within (Inside lo hi) (getMagic b) m := by
  have whole := within_load32 small m b room 0 (by decide)
  rwa [show b + 0 = b from BitVec.add_zero _] at whole

theorem within_getSize : Within (Inside lo hi) (getSize b) m := within_load32 small m b room 4 (by decide)
theorem within_getFree : Within (Inside lo hi) (getFree b) m := within_load32 small m b room 8 (by decide)
theorem within_getNext : Within (Inside lo hi) (getNext b) m := within_load32 small m b room 12 (by decide)
theorem within_getPrev : Within (Inside lo hi) (getPrev b) m := within_load32 small m b room 16 (by decide)

theorem within_setMagic (v : Word) : Within (Inside lo hi) (setMagic b v) m := by
  have whole := within_store32 small m b room 0 v (by decide)
  rwa [show b + 0 = b from BitVec.add_zero _] at whole

theorem within_setSize (v : Word) : Within (Inside lo hi) (setSize b v) m := within_store32 small m b room 4 v (by decide)
theorem within_setFree (v : Word) : Within (Inside lo hi) (setFree b v) m := within_store32 small m b room 8 v (by decide)
theorem within_setNext (v : Word) : Within (Inside lo hi) (setNext b v) m := within_store32 small m b room 12 v (by decide)
theorem within_setPrev (v : Word) : Within (Inside lo hi) (setPrev b v) m := within_store32 small m b room 16 v (by decide)

end Fields

include small

theorem within_memsetLoop (value : Byte) (n : Nat) (d : Word) (low : lo ≤ d.toNat) (high : d.toNat + n ≤ hi) :
    Within (Inside lo hi) (memsetLoop value n d) m := by
  induction n generalizing m d with
  | zero => exact within_pure m _ ()
  | succ n ih =>
    have next : (d+1).toNat = d.toNat + 1 := BitVec.toNat_add_of_lt (by simp only [BitVec.reduceToNat]; omega)
    simp only [memsetLoop,within_bind,within_store,eval_store]
    exact ⟨⟨low,by omega⟩,ih _ (d+1) (by omega) (by omega)⟩

theorem within_memcpyLoop (n : Nat) (d s : Word) (low : lo ≤ d.toNat) (high : d.toNat + n ≤ hi)
    (lowFrom : lo ≤ s.toNat) (highFrom : s.toNat + n ≤ hi) : Within (Inside lo hi) (memcpyLoop n d s) m := by
  induction n generalizing m d s with
  | zero => exact within_pure m _ ()
  | succ n ih =>
    have next : (d+1).toNat = d.toNat + 1 := BitVec.toNat_add_of_lt (by simp only [BitVec.reduceToNat]; omega)
    have next' : (s+1).toNat = s.toNat + 1 := BitVec.toNat_add_of_lt (by simp only [BitVec.reduceToNat]; omega)
    simp only [memcpyLoop,within_bind,within_store,within_load,eval_load,eval_store]
    exact ⟨⟨lowFrom,by omega⟩,⟨low,by omega⟩,ih _ (d+1) (s+1) (by omega) (by omega) (by omega) (by omega)⟩

omit small in
theorem room_word (a : Nat) (small : a < 2^32) (low : lo ≤ a) (high : a + 20 ≤ hi) : Room lo hi (word a) := by
  unfold Room
  rw [word_toNat a small]
  exact ⟨low,high⟩

section Blocks
variable (prev : Word) (e : Block) (post : List Block) (low : lo ≤ e.addr) (tiles : Tiles 20 e.addr hi (e::post))
  (chain : Chain m prev (e::post) 0)
include low tiles chain

theorem within_merge : Within (Inside lo hi) (blackHeapMerge (word e.addr)) m := by
  have limits (d : Block) (member : d ∈ e::post) := tiles_bounds 20 _ _ _ tiles d member
  have first := limits e (by simp)
  simp only [Block.limit] at first
  have roomE : Room lo hi (word e.addr) := room_word e.addr (by omega) low (by omega)
  have next := Heap.chain_next m prev e post chain
  cases post with
  | nil =>
    have null : (header m (word e.addr)).next = 0 := next
    simp only [blackHeapMerge,within_bind,eval_getNext,null,if_true,within_pure,and_true]
    exact within_getNext small m _ roomE
  | cons c ys =>
    obtain ⟨_,atC,rest⟩ := chain
    have second := limits c (by simp)
    have place := tiles.2.1
    simp only [Block.limit] at second place
    have roomC : Room lo hi (word c.addr) := room_word c.addr (by omega) (by omega) (by omega)
    have link : (header m (word e.addr)).next = word c.addr := next
    have live := Heap.word_ne_zero c.addr (by omega) (by omega)
    have spaceE : e.addr + 20 ≤ 2^32 := by omega
    have spaceC : c.addr + 20 ≤ 2^32 := by omega
    have apart : e.addr + 20 ≤ c.addr := by omega
    have follows : (header m (word c.addr)).next = firstAddr ys 0 := Heap.chain_next m _ c ys ⟨atC,rest⟩
    simp (disch := first | assumption | omega) only [blackHeapMerge,within_bind,within_ite,within_pure,eval_getNext,eval_getFree,
      eval_getMagic,eval_getSize,eval_setSize,eval_setMagic,eval_setNext,within_getNext,within_getFree,within_getMagic,
      within_getSize,within_setSize,within_setMagic,within_setNext,link,live,if_false,true_and,Heap.header_setSize,
      Heap.header_setSize_apart,Heap.header_setMagic,Heap.header_setMagic_apart,Heap.header_setNext,follows]
    split
    · trivial
    · split
      · trivial
      · cases ys with
        | nil => simp only [firstAddr,ne_eq,not_true,if_false]
        | cons d ds =>
          have third := limits d (by simp)
          simp only [Block.limit] at third
          have roomD : Room lo hi (word d.addr) := room_word d.addr (by omega) (by omega) (by omega)
          split
          · exact within_setPrev small _ _ roomD _
          · trivial

theorem within_split (span : hi + 32 < lo + 2^32) (n : Nat) (fits : n ≤ e.size) :
    Within (Inside lo hi) (blackHeapSplit (word e.addr) (word n)) m := by
  have limits (d : Block) (member : d ∈ e::post) := tiles_bounds 20 _ _ _ tiles d member
  have first := limits e (by simp)
  simp only [Block.limit] at first
  have roomE : Room lo hi (word e.addr) := room_word e.addr (by omega) low (by omega)
  have next := Heap.chain_next m prev e post chain
  have own : (header m (word e.addr)).size = word e.size := congrArg Heap.Header.size chain.1
  by_cases whole : word e.size ≤ word n + headerSize + Heap.blackHeapMinBlock
  · simp only [blackHeapSplit,within_bind,eval_getSize,own,if_pos whole,within_pure,and_true]
    exact within_getSize small m _ roomE
  · have large : n + 52 < e.size := by
      have least : Heap.blackHeapMinBlock = word 32 := rfl
      rw [Heap.headerSize_word,least,word_add,word_add,BitVec.le_def,word_toNat _ (by omega),word_toNat _ (by omega)] at whole
      omega
    have place : word e.addr + headerSize + word n = word (e.addr + 20 + n) := by
      rw [Heap.headerSize_word,word_add,word_add]
    have roomNew : Room lo hi (word (e.addr + 20 + n)) := room_word _ (by omega) (by omega) (by omega)
    have spaceE : e.addr + 20 ≤ 2^32 := by omega
    have spaceNew : e.addr + 20 + n + 20 ≤ 2^32 := by omega
    simp (disch := first | assumption | omega) only [blackHeapSplit,within_bind,within_ite,eval_getNext,
      eval_getSize,eval_setSize,eval_setMagic,eval_setFree,eval_setNext,eval_setPrev,within_getNext,within_getSize,
      within_setSize,within_setMagic,within_setFree,within_setNext,within_setPrev,own,whole,place,if_false,true_and,
      Heap.header_setMagic_apart,Heap.header_setSize_apart,Heap.header_setFree_apart,Heap.header_setNext_apart,
      Heap.header_setPrev_apart,next]
    cases post with
    | nil => simp [firstAddr]
    | cons d ds =>
      have third := limits d (by simp)
      simp only [Block.limit] at third
      have roomD : Room lo hi (word d.addr) := room_word d.addr (by omega) (by omega) (by omega)
      split
      · exact ⟨within_setPrev small _ _ roomD _,trivial⟩
      · trivial

end Blocks

theorem within_better (best cur own : Word) (held : Held lo hi best) : Within (Inside lo hi) (better best cur own) m := by
  unfold better
  by_cases first : best = 0
  · simp only [if_pos first,within_pure]
  · simp only [if_neg first,within_bind,within_pure,and_true]
    exact within_getSize small m best (held.resolve_left first)

theorem within_target (prev block : Word) (held : Held lo hi prev) : Within (Inside lo hi) (target prev block) m := by
  unfold target
  by_cases first : prev = 0
  · simp only [if_pos first,within_pure]
  · simp only [if_neg first,within_bind,within_pure,and_true]
    exact within_getFree small m prev (held.resolve_left first)

theorem within_findBest (size : Word) (bs : List Block) (first : Nat) (positive : 0 < first) (low : lo ≤ first)
    (tiles : Tiles 20 first hi bs) (fuel : Nat) (prev : Word) (chain : Chain m prev bs 0) (best : Word)
    (held : Held lo hi best) : Within (Inside lo hi) (findBest size fuel best (firstAddr bs 0)) m := by
  induction bs generalizing first fuel prev best with
  | nil =>
    cases fuel with
    | zero => exact within_pure m _ none
    | succ fuel => simp [findBest,firstAddr]
  | cons b bs ih =>
    cases fuel with
    | zero => exact within_pure m _ none
    | succ fuel =>
      obtain ⟨present,_,later,rest⟩ := Heap.walk_cons hi small b bs first positive tiles
      have bounds := tiles_bounds 20 _ _ _ tiles b (by simp)
      have place := tiles.1
      simp only [Block.limit] at bounds
      have room : Room lo hi (word b.addr) := room_word b.addr (by omega) (by omega) (by omega)
      have next := Heap.chain_next m prev b bs chain
      have on (other : Word) (heldOther : Held lo hi other) :
          Within (Inside lo hi) (findBest size fuel other (firstAddr bs 0)) m :=
        ih (b.limit 20) later (by simp only [Block.limit]; omega) rest fuel _ chain.2 other heldOther
      have visited : Held lo hi
          (if best = 0 ∨ (header m (word b.addr)).size < (header m best).size then word b.addr else best) := by
        split
        · exact Or.inr room
        · exact held
      change Within (Inside lo hi) (findBest size (fuel+1) best (word b.addr)) m
      simp (disch := assumption) only [findBest,if_neg present,within_bind,within_ite,within_pure,eval_getMagic,
        eval_getFree,eval_getSize,eval_getNext,eval_better,within_getMagic,within_getFree,within_getSize,within_getNext,
        within_better,next,on,ite_self,and_self]

section Calls
variable (placed : Placed lo hi) (h : Heap.State) (arena : Arena 20 lo hi) (rep : Represents h arena)
include placed rep
omit small

theorem within_alloc (n : Word) : Within (Inside lo hi) (blackHeapAlloc h.head n) h.mem := by
  have small := placed.small
  have proper := placed.proper
  have positive := placed.positive
  obtain ⟨blocks,tiles,separated⟩ := arena
  obtain ⟨head,chain⟩ := rep
  simp only at chain
  by_cases zero : n = 0
  · simp only [blackHeapAlloc,if_pos zero,within_pure]
  · have start := Heap.firstAddr_tiles lo hi blocks (by omega) tiles
    have searches := within_findBest small h.mem (blackAlign n 16) blocks lo positive (Nat.le_refl _) tiles addressCount 0
      chain 0 (Or.inl rfl)
    obtain ⟨found,search,fits⟩ := Heap.findBest_best h.mem (blackAlign n 16) hi small blocks lo positive
      tiles addressCount (Heap.length_lt_addressCount lo hi blocks small tiles) 0 chain [] none
      ⟨by simp [BestOf],nofun⟩
    rw [start,← head] at searches search
    rw [Heap.candidateAddr] at search
    simp only [blackHeapAlloc,if_neg zero,within_bind,eval_findBest,search,Option.elim_some,within_ite,within_pure]
    refine ⟨searches,?_⟩
    split
    · trivial
    · cases found with
      | none => contradiction
      | some b =>
        obtain ⟨pre,post,best⟩ := fits
        have place : blocks = pre ++ b::post := best.place
        subst place
        obtain ⟨_,here⟩ := tiles_at 20 lo hi pre b post tiles
        obtain ⟨_,chainHere⟩ := (Heap.chain_append h.mem 0 0 pre (b::post)).mp chain
        have bounds := tiles_bounds 20 lo hi _ tiles b (by simp)
        simp only [Block.limit] at bounds
        have room : Room lo hi (word b.addr) := room_word b.addr (by omega) (by omega) (by omega)
        have splits := within_split small h.mem _ b post bounds.1 here chainHere placed.span (blackAlign n 16).toNat best.room
        rw [toNat_word] at splits
        exact ⟨splits,within_setFree small _ _ room 0,trivial⟩

omit placed rep in
/-- The two merges that end `black_heap_free`. -/
theorem within_settle (small : hi < 2^32) (m : Memory) (prev : Word) (pre : List Block) (e : Block) (post : List Block)
    (tiles : Tiles 20 lo hi (pre ++ e::post)) (free : e.free = true) (chain : Chain m prev (pre ++ e::post) 0) :
    Within (Inside lo hi) (do
      blackHeapMerge (word e.addr)
      if (← getNext (word e.addr)) ≠ 0 then blackHeapMerge (word e.addr)) m := by
  obtain ⟨_,here⟩ := tiles_at 20 lo hi pre e post tiles
  obtain ⟨_,chainHere⟩ := (Heap.chain_append m prev 0 pre (e::post)).mp chain
  have bounds := tiles_bounds 20 lo hi _ tiles e (by simp)
  simp only [Block.limit] at bounds
  have room : Room lo hi (word e.addr) := room_word e.addr (by omega) bounds.1 (by omega)
  obtain ⟨first,_⟩ := Heap.merge_glue m _ e post hi small here free chainHere
  obtain ⟨e',post',glued,address,_⟩ := glue_cons 20 e post
  have here' : Tiles 20 e'.addr hi (e'::post') := by
    rw [← glued,address]
    exact tiles_glue 20 _ _ e post here
  rw [glued] at first
  have lowE : lo ≤ e'.addr := address ▸ bounds.1
  have again : Within (Inside lo hi) (blackHeapMerge (word e'.addr)) (Heap.blackHeapMerge m (word e.addr)) :=
    within_merge small _ _ e' post' lowE here' first
  rw [address] at again
  simp only [within_bind,eval_merge,within_ite,eval_getNext]
  refine ⟨within_merge small m _ e post bounds.1 here chainHere,within_getNext small _ _ room,?_⟩
  split
  · exact again
  · trivial

theorem within_free (b : Block) (member : b ∈ arena.blocks) :
    Within (Inside lo hi) (blackHeapFree (word (b.addr + 20))) h.mem := by
  have small := placed.small
  obtain ⟨blocks,tiles,separated⟩ := arena
  obtain ⟨head,chain⟩ := rep
  simp only at member chain
  obtain ⟨pre,post,rfl⟩ := List.append_of_mem member
  have bounds := tiles_bounds 20 lo hi _ tiles b (by simp)
  simp only [Block.limit] at bounds
  have room : Room lo hi (word b.addr) := room_word b.addr (by omega) bounds.1 (by omega)
  have pointer := Heap.word_ne_zero (b.addr + 20) (by omega) (by omega)
  obtain ⟨chainPre,atB,_⟩ := (Heap.chain_append _ 0 0 pre (b::post)).mp chain
  have magic : (header h.mem (word b.addr)).magic = blackHeapMagic := by rw [atB]
  have size : (header (Heap.setFree h.mem (word b.addr) 1) (word b.addr)).size = word b.size := by
    rw [Heap.header_setFree _ _ _ (by omega),atB]
  have fill : LibcString.memset (Heap.setFree h.mem (word b.addr) 1) (word (b.addr + 20)) 0xCC (word b.size) =
      Heap.filled h.mem b := by
    rw [Heap.filled]
  have chain' := Heap.filled_chain small pre b post tiles h.mem chain
  have prev : (header (Heap.filled h.mem b) (word b.addr)).prev = Heap.lastAddr 0 pre := by
    obtain ⟨_,atB',_⟩ := (Heap.chain_append _ 0 0 pre ({b with free := true}::post)).mp chain'
    exact congrArg Heap.Header.prev atB'
  have before : Held lo hi (Heap.lastAddr 0 pre) := by
    rcases List.eq_nil_or_concat' pre with rfl | ⟨xs,a,rfl⟩
    · exact Or.inl rfl
    · have boundsA := tiles_bounds 20 lo hi _ tiles a (by simp)
      simp only [Block.limit] at boundsA
      rw [Heap.lastAddr_append]
      exact Or.inr (room_word a.addr (by omega) boundsA.1 (by omega))
  obtain ⟨ys,e,rest,shape,free,settled,_⟩ :=
    Heap.free_target placed.positive small h.mem pre b post tiles separated chain
  have tiles' : Tiles 20 lo hi (ys ++ e::rest) := by
    rw [shape,← map_mark_at 20 lo hi pre b post (by omega) tiles]
    exact tiles_mark 20 b.addr lo hi _ tiles
  rw [← shape] at chain'
  -- the block before is free: the freed one is merged into it, else they start at the freed one
  have settles := within_settle small (Heap.filled h.mem b) 0 ys e rest tiles' free chain'
  have chosen : (if Heap.lastAddr 0 pre ≠ 0 ∧ (header (Heap.filled h.mem b) (Heap.lastAddr 0 pre)).free ≠ 0
      then Heap.lastAddr 0 pre else word b.addr) = word e.addr := settled
  have length : (word b.size).toNat = b.size := word_toNat _ (by omega)
  have start : (word (b.addr + 20)).toNat = b.addr + 20 := word_toNat _ (by omega)
  have fills : Within (Inside lo hi) (memset (word (b.addr + 20)) 0xCC (word b.size)) (Heap.setFree h.mem (word b.addr) 1) :=
    within_memsetLoop small _ _ (word b.size).toNat _ (by omega) (by omega)
  simp only [blackHeapFree,if_neg pointer,within_bind,within_ite,Heap.pointer_block,eval_getMagic,eval_setFree,eval_getSize,
    eval_memset,eval_getPrev,eval_target,magic,ne_eq,not_true,if_false,size,fill,prev]
  simp only [within_bind,within_ite,ne_eq] at settles
  simp only [ne_eq] at chosen
  rw [chosen]
  exact ⟨within_getMagic small _ _ room,within_setFree small _ _ room 1,within_getSize small _ _ room,fills,
    within_getPrev small _ _ room,within_target small _ _ _ before,settles⟩

theorem within_calloc (count size : Word) (bounded : count * size ≤ 0xFFFFFFF0) :
    Within (Inside lo hi) (blackHeapCalloc h.head count size) h.mem := by
  have small := placed.small
  obtain ⟨h',ptr,returned,granted⟩ := Heap.alloc_grants arena placed h rep (count * size) bounded
  obtain ⟨ran,_⟩ := eval_returned _ h h' ptr ((eval_alloc h (count * size)).trans returned)
  simp only [blackHeapCalloc,within_bind,within_ite,within_pure,ran,Option.getD_some]
  refine ⟨within_alloc placed h arena rep (count * size),?_⟩
  split
  · rename_i present
    rcases granted with ⟨null,_⟩ | ⟨arena',t,pointer,granted,_⟩
    · exact absurd null present
    · have bounds := tiles_bounds 20 lo hi _ arena'.tiles t granted.member
      have large := granted.large
      simp only [Block.limit] at bounds
      have start : ptr.toNat = t.addr + 20 := by rw [pointer,word_toNat _ (by omega)]
      exact ⟨within_memsetLoop small _ _ (count * size).toNat ptr (by omega) (by omega),trivial⟩
  · trivial

theorem within_grow (b : Block) (member : b ∈ arena.blocks) (used : b.free = false) (size : Word)
    (bounded : size ≤ 0xFFFFFFF0) (nonzero : size ≠ 0) (grows : ¬size ≤ word b.size) :
    Within (Inside lo hi) (blackHeapRealloc h.head (word (b.addr + 20)) size) h.mem := by
  have small := placed.small
  have present := Heap.pointer_ne_zero arena small b member
  have current := Heap.header_size arena h rep b member
  have boundsB := tiles_bounds 20 lo hi _ arena.tiles b member
  simp only [Block.limit] at boundsB
  have larger : b.size < size.toNat := by
    rw [BitVec.le_def,word_toNat b.size (by omega)] at grows
    omega
  have room : Room lo hi (word b.addr) := room_word b.addr (by omega) boundsB.1 (by omega)
  obtain ⟨h',ptr,returned,granted⟩ := Heap.alloc_grants arena placed h rep size bounded
  obtain ⟨ran,_⟩ := eval_returned _ h h' ptr ((eval_alloc h size).trans returned)
  simp only [blackHeapRealloc,if_neg present,if_neg nonzero,within_bind,within_ite,within_pure,eval_getSize,current,
    if_neg grows,ran,Option.getD_some]
  rw [Heap.pointer_block]
  refine ⟨within_getSize small _ _ room,within_alloc placed h arena rep size,?_⟩
  split
  · trivial
  · rename_i fresh
    rcases granted with ⟨null,_⟩ | ⟨grown,t,pointer,granted,rep',_⟩
    · exact absurd null fresh
    · have kept := (granted.blocks b used).mpr (Or.inl member)
      have boundsT := tiles_bounds 20 lo hi _ grown.tiles t granted.member
      have large := granted.large
      simp only [Block.limit] at boundsT
      have size' := Heap.header_size grown h' rep' b kept
      rw [Heap.pointer_block] at size'
      -- the old block is found again after the copy, since the copy is written to the new one
      obtain ⟨repCopy,_⟩ := Heap.copyInto_stored grown small h' rep' t b granted.member (by omega)
      have start : ptr.toNat = t.addr + 20 := by rw [pointer,word_toNat _ (by omega)]
      have source : (word (b.addr + 20)).toNat = b.addr + 20 := word_toNat _ (by omega)
      have length : (word b.size).toNat = b.size := word_toNat _ (by omega)
      simp only [size',eval_memcpy]
      refine ⟨within_getSize small _ _ room,?_,?_,trivial⟩
      · exact within_memcpyLoop small _ (word b.size).toNat _ _ (by omega) (by omega) (by omega) (by omega)
      · rw [pointer]
        exact within_free placed _ grown repCopy b kept

omit rep in
theorem within_op (s : Heap.System) (inv : Heap.Inv s arena) (op : Heap.Op) (allowed : Heap.Allowed s op) :
    Within (Inside lo hi) (opCode s.heap.head op) s.heap.mem := by
  have small := placed.small
  have rep := inv.rep
  cases op with
  | alloc size => exact within_alloc placed s.heap arena rep size
  | calloc count size => exact within_calloc placed s.heap arena rep count size allowed
  | realloc ptr size =>
    obtain ⟨held,bounded⟩ := allowed
    simp only [opCode]
    by_cases null : ptr = 0
    · rw [blackHeapRealloc,if_pos null]
      exact within_alloc placed s.heap arena rep size
    · obtain ⟨b,member,used,rfl⟩ := (inv.live ptr).mp (held.resolve_left null)
      by_cases zero : size = 0
      · simp only [blackHeapRealloc,if_neg null,if_pos zero,within_bind,within_pure,and_true]
        exact within_free placed s.heap arena rep b member
      · by_cases grows : size ≤ word b.size
        · have current := Heap.header_size arena s.heap rep b member
          have bounds := tiles_bounds 20 lo hi _ arena.tiles b member
          simp only [Block.limit] at bounds
          simp only [blackHeapRealloc,if_neg null,if_neg zero,within_bind,eval_getSize,current,if_pos grows,within_pure,and_true]
          rw [Heap.pointer_block]
          exact within_getSize small _ _ (room_word b.addr (by omega) bounds.1 (by omega))
        · exact within_grow placed s.heap arena rep b member used size bounded zero grows
  | free ptr =>
    simp only [opCode,within_bind,within_pure,and_true]
    by_cases null : ptr = 0
    · simp only [blackHeapFree,if_pos null,within_pure]
    · obtain ⟨b,member,_,rfl⟩ := (inv.live ptr).mp (allowed.resolve_left null)
      exact within_free placed s.heap arena rep b member
  | write ptr offset value =>
    obtain ⟨member,inside⟩ := allowed
    obtain ⟨b,listed,_,rfl⟩ := (inv.live ptr).mp member
    have bounds := tiles_bounds 20 lo hi _ arena.tiles b listed
    simp only [Block.limit] at bounds
    rw [Heap.header_size arena s.heap rep b listed,BitVec.lt_def,word_toNat b.size (by omega)] at inside
    have start : (word (b.addr + 20)).toNat = b.addr + 20 := word_toNat _ (by omega)
    have place : (word (b.addr + 20) + offset).toNat = b.addr + 20 + offset.toNat := by
      rw [BitVec.toNat_add_of_lt (by omega),start]
    simp only [opCode,within_bind,within_store,within_pure,and_true]
    exact ⟨by omega,by omega⟩

end Calls

end BlackOS.HeapAccess
