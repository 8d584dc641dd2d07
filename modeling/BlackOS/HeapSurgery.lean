import BlackOS.HeapLayout

/-! What `black_heap_split` and `black_heap_merge` do to the block list. Both
rewrite up to three headers in place; the chain lemmas say which list of blocks
memory holds afterwards and which headers were written. -/
namespace BlackOS.Heap
open BlackOS.Library.Ram BlackOS.Library.Tiling

theorem word_ne_zero (a : Nat) (positive : 0 < a) (small : a < 2^32) : word a ≠ 0 := by
  intro null
  have value := congrArg BitVec.toNat null
  rw [word_toNat a small] at value
  simp at value
  omega

def heads (ys : List Block) : List Nat := (ys.take 1).map Block.addr

section Merge
variable (m : Memory) (a c : Nat) (link : (header m (word a)).next = word c)
  (magic : (header m (word c)).magic = blackHeapMagic) (free : (header m (word c)).free ≠ 0)
  (positive : 0 < c) (roomA : a + 20 ≤ 2^32) (roomC : c + 20 ≤ 2^32) (apart : a + 20 ≤ c)
include link magic free positive roomA roomC apart

private theorem merge_last (null : (header m (word c)).next = 0) :
    header (blackHeapMerge m (word a)) (word a) = {header m (word a) with
        size := (header m (word a)).size + (headerSize + (header m (word c)).size),next := 0} ∧
      header (blackHeapMerge m (word a)) (word c) = {header m (word c) with magic := blackHeapDead} ∧
      SameButHeaders [a,c] m (blackHeapMerge m (word a)) := by
  have live := word_ne_zero c positive (by omega)
  have merged : blackHeapMerge m (word a) =
      setNext (setMagic (setSize m (word a)
        ((header m (word a)).size + (headerSize + (header m (word c)).size)))
        (word c) blackHeapDead) (word a) 0 := by
    unfold blackHeapMerge
    simp (disch := omega) only [link,magic,free,null,live,ne_eq,not_false_eq_true,and_self,if_true,
      header_setSize,header_setSize_apart,header_setMagic,header_setMagic_apart,header_setNext,
      not_true,if_false]
  rw [merged]
  refine ⟨?_,?_,?_⟩
  · simp (disch := omega) only [header_setSize,header_setMagic_apart,header_setNext]
  · simp (disch := omega) only [header_setSize_apart,header_setMagic,header_setNext_apart]
  · exact ((setSize_same _ a _ roomA _ (by simp)).trans (setMagic_same _ c _ roomC _ (by simp))).trans
      (setNext_same _ a _ roomA _ (by simp))

private theorem merge_inner (d : Nat) (follows : (header m (word c)).next = word d)
    (roomD : d + 20 ≤ 2^32) (beyond : c + 20 ≤ d) :
    header (blackHeapMerge m (word a)) (word a) = {header m (word a) with
        size := (header m (word a)).size + (headerSize + (header m (word c)).size),next := word d} ∧
      header (blackHeapMerge m (word a)) (word c) = {header m (word c) with magic := blackHeapDead} ∧
      header (blackHeapMerge m (word a)) (word d) = {header m (word d) with prev := word a} ∧
      SameButHeaders [a,c,d] m (blackHeapMerge m (word a)) := by
  have live := word_ne_zero c positive (by omega)
  have more := word_ne_zero d (by omega) (by omega)
  have merged : blackHeapMerge m (word a) =
      setPrev (setNext (setMagic (setSize m (word a)
        ((header m (word a)).size + (headerSize + (header m (word c)).size)))
        (word c) blackHeapDead) (word a) (word d)) (word d) (word a) := by
    unfold blackHeapMerge
    simp (disch := omega) only [link,magic,free,follows,live,more,ne_eq,not_false_eq_true,and_self,if_true,
      header_setSize,header_setSize_apart,header_setMagic,header_setMagic_apart,header_setNext]
  rw [merged]
  refine ⟨?_,?_,?_,?_⟩
  · simp (disch := omega) only [header_setSize,header_setMagic_apart,header_setNext,header_setPrev_apart]
  · simp (disch := omega) only [header_setSize_apart,header_setMagic,header_setNext_apart,header_setPrev_apart]
  · simp (disch := omega) only [header_setSize_apart,header_setMagic_apart,header_setNext_apart,header_setPrev]
  · exact (((setSize_same _ a _ roomA _ (by simp)).trans (setMagic_same _ c _ roomC _ (by simp))).trans
      (setNext_same _ a _ roomA _ (by simp))).trans (setPrev_same _ d _ roomD _ (by simp))

end Merge

theorem merge_stays (m : Memory) (b : Word)
    (blocked : (header m b).next = 0 ∨ (header m (header m b).next).free = 0) :
    blackHeapMerge m b = m := by
  unfold blackHeapMerge
  rcases blocked with null | used
  · simp [null]
  · simp [used]

/-- Merging a block with a free successor absorbs it and marks its header dead. -/
theorem merge_chain (m : Memory) (prev : Word) (b c : Block) (ys : List Block) (hi : Nat)
    (small : hi < 2^32) (tiles : Tiles 20 b.addr hi (b::c::ys)) (free : c.free = true)
    (chain : Chain m prev (b::c::ys) 0) :
    Chain (blackHeapMerge m (word b.addr)) prev (absorb 20 b c :: ys) 0 ∧
      SameButHeaders (b.addr::c.addr::heads ys) m (blackHeapMerge m (word b.addr)) ∧
      (header (blackHeapMerge m (word b.addr)) (word c.addr)).magic = blackHeapDead := by
  obtain ⟨atB,atC,rest⟩ := chain
  have limits (d : Block) (member : d ∈ b::c::ys) := tiles_bounds 20 _ _ _ tiles d member
  have first := limits b (by simp)
  have second := limits c (by simp)
  obtain ⟨_,atLimit,tail⟩ := tiles
  simp only [Block.limit] at first second atLimit
  have link : (header m (word b.addr)).next = word c.addr := by rw [atB]; rfl
  have magic : (header m (word c.addr)).magic = blackHeapMagic := by rw [atC]
  have open_ : (header m (word c.addr)).free ≠ 0 := by
    rw [atC,free]
    exact (by decide : (1 : Word) ≠ 0)
  have size : word b.size + (headerSize + word c.size) = word (b.size + 20 + c.size) := by
    rw [headerSize_word,word_add,word_add,Nat.add_assoc]
  cases ys with
  | nil =>
    obtain ⟨merged,dead,same⟩ := merge_last m b.addr c.addr link magic open_ (by omega) (by omega)
      (by omega) (by omega) (by rw [atC]; rfl)
    refine ⟨⟨?_,trivial⟩,same,by rw [dead]⟩
    change header _ (word b.addr) = _
    rw [merged,atB,atC]
    simp only [size]
    rfl
  | cons d ds =>
    obtain ⟨atD,after⟩ := rest
    have third := limits d (by simp)
    have dAddr := tail.1
    simp only [Block.limit] at third dAddr
    obtain ⟨merged,dead,relinked,same⟩ := merge_inner m b.addr c.addr link magic open_ (by omega) (by omega)
      (by omega) (by omega) d.addr (by rw [atC]; rfl) (by omega) (by omega)
    refine ⟨⟨?_,?_,?_⟩,same,by rw [dead]⟩
    · change header _ (word b.addr) = _
      rw [merged,atB,atC]
      simp only [size]
      rfl
    · change header _ (word d.addr) = _
      rw [relinked,atD]
      rfl
    · apply same.chain _ _ ds tail.2 small _ _ _ after
      simp only [List.mem_cons,List.not_mem_nil,or_false,Block.limit]
      omega

section Split
variable (m : Memory) (a n : Nat)
  (large : ¬(header m (word a)).size ≤ word n + headerSize + blackHeapMinBlock)
  (roomNew : a + 20 + n + 20 ≤ 2^32)
include large roomNew

private theorem split_last (null : (header m (word a)).next = 0) :
    header (blackHeapSplit m (word a) (word n)) (word a) =
        {header m (word a) with size := word n,next := word (a+20+n)} ∧
      header (blackHeapSplit m (word a) (word n)) (word (a+20+n)) =
        ⟨blackHeapMagic,(header m (word a)).size - word n - headerSize,1,0,word a⟩ ∧
      SameButHeaders [a,a+20+n] m (blackHeapSplit m (word a) (word n)) := by
  have place : word a + headerSize + word n = word (a+20+n) := by
    rw [headerSize_word,word_add,word_add]
  have split : blackHeapSplit m (word a) (word n) =
      setSize (setNext (setPrev (setNext (setFree (setSize (setMagic m (word (a+20+n)) blackHeapMagic)
        (word (a+20+n)) ((header m (word a)).size - word n - headerSize)) (word (a+20+n)) 1)
        (word (a+20+n)) 0) (word (a+20+n)) (word a)) (word a) (word (a+20+n))) (word a) (word n) := by
    unfold blackHeapSplit
    simp (disch := omega) only [large,if_false,place,null,header_setMagic_apart,header_setSize_apart,
      header_setFree_apart,header_setNext_apart,header_setPrev_apart,ne_eq,not_true]
  rw [split]
  refine ⟨?_,?_,?_⟩
  · simp (disch := omega) only [header_setMagic_apart,header_setSize_apart,
      header_setFree_apart,header_setNext_apart,header_setPrev_apart,header_setNext,header_setSize]
  · simp (disch := omega) only [header_setMagic,header_setSize,header_setFree,header_setNext,
      header_setPrev,header_setNext_apart,header_setSize_apart]
  · refine ((((((setMagic_same _ (a+20+n) _ roomNew _ ?_).trans (setSize_same _ _ _ roomNew _ ?_)).trans
      (setFree_same _ _ _ roomNew _ ?_)).trans (setNext_same _ _ _ roomNew _ ?_)).trans
      (setPrev_same _ _ _ roomNew _ ?_)).trans (setNext_same _ a _ (by omega) _ ?_)).trans
      (setSize_same _ a _ (by omega) _ ?_) <;> simp

private theorem split_inner (d : Nat) (follows : (header m (word a)).next = word d)
    (roomD : d + 20 ≤ 2^32) (beyond : a + 20 + n + 20 ≤ d) :
    header (blackHeapSplit m (word a) (word n)) (word a) =
        {header m (word a) with size := word n,next := word (a+20+n)} ∧
      header (blackHeapSplit m (word a) (word n)) (word (a+20+n)) =
        ⟨blackHeapMagic,(header m (word a)).size - word n - headerSize,1,word d,word a⟩ ∧
      header (blackHeapSplit m (word a) (word n)) (word d) = {header m (word d) with prev := word (a+20+n)} ∧
      SameButHeaders [a,a+20+n,d] m (blackHeapSplit m (word a) (word n)) := by
  have place : word a + headerSize + word n = word (a+20+n) := by
    rw [headerSize_word,word_add,word_add]
  have more := word_ne_zero d (by omega) (by omega)
  have split : blackHeapSplit m (word a) (word n) =
      setSize (setNext (setPrev (setPrev (setNext (setFree (setSize (setMagic m (word (a+20+n)) blackHeapMagic)
        (word (a+20+n)) ((header m (word a)).size - word n - headerSize)) (word (a+20+n)) 1)
        (word (a+20+n)) (word d)) (word (a+20+n)) (word a)) (word d) (word (a+20+n)))
        (word a) (word (a+20+n))) (word a) (word n) := by
    unfold blackHeapSplit
    simp (disch := omega) only [large,if_false,place,follows,more,header_setMagic_apart,header_setSize_apart,
      header_setFree_apart,header_setNext_apart,header_setPrev_apart,ne_eq,not_false_eq_true,if_true]
  rw [split]
  refine ⟨?_,?_,?_,?_⟩
  · simp (disch := omega) only [header_setMagic_apart,header_setSize_apart,
      header_setFree_apart,header_setNext_apart,header_setPrev_apart,header_setNext,header_setSize]
  · simp (disch := omega) only [header_setMagic,header_setSize,header_setFree,header_setNext,
      header_setPrev,header_setNext_apart,header_setSize_apart,header_setPrev_apart]
  · simp (disch := omega) only [header_setMagic_apart,header_setSize_apart,
      header_setFree_apart,header_setNext_apart,header_setPrev_apart,header_setPrev]
  · refine (((((((setMagic_same _ (a+20+n) _ roomNew _ ?_).trans (setSize_same _ _ _ roomNew _ ?_)).trans
      (setFree_same _ _ _ roomNew _ ?_)).trans (setNext_same _ _ _ roomNew _ ?_)).trans
      (setPrev_same _ _ _ roomNew _ ?_)).trans (setPrev_same _ d _ roomD _ ?_)).trans
      (setNext_same _ a _ (by omega) _ ?_)).trans (setSize_same _ a _ (by omega) _ ?_) <;> simp

end Split

theorem split_stays (m : Memory) (block size : Word)
    (small : (header m block).size ≤ size + headerSize + blackHeapMinBlock) :
    blackHeapSplit m block size = m := if_pos small

/-- Splitting a block that is large enough puts a free block behind its first `n` bytes. -/
theorem split_chain (m : Memory) (prev : Word) (b : Block) (ys : List Block) (n hi : Nat)
    (small : hi < 2^32) (tiles : Tiles 20 b.addr hi (b::ys)) (large : n + 52 < b.size)
    (chain : Chain m prev (b::ys) 0) :
    Chain (blackHeapSplit m (word b.addr) (word n)) prev
        ({b with size := n}::⟨b.addr + 20 + n,b.size - n - 20,true⟩::ys) 0 ∧
      SameButHeaders (b.addr::(b.addr + 20 + n)::heads ys) m (blackHeapSplit m (word b.addr) (word n)) := by
  obtain ⟨atB,rest⟩ := chain
  have limits (d : Block) (member : d ∈ b::ys) := tiles_bounds 20 _ _ _ tiles d member
  have first := limits b (by simp)
  obtain ⟨_,tail⟩ := tiles
  simp only [Block.limit] at first
  have size : (header m (word b.addr)).size = word b.size := by rw [atB]
  have cut : ¬(header m (word b.addr)).size ≤ word n + headerSize + blackHeapMinBlock := by
    have least : blackHeapMinBlock = word 32 := rfl
    rw [size,headerSize_word,least,word_add,word_add,BitVec.le_def,word_toNat _ (by omega),
      word_toNat _ (by omega)]
    omega
  have rem : word b.size - word n - headerSize = word (b.size - n - 20) := by
    apply BitVec.eq_of_toNat_eq
    rw [headerSize_word,BitVec.toNat_sub,BitVec.toNat_sub,word_toNat _ (by omega),word_toNat _ (by omega),
      word_toNat _ (by omega),word_toNat _ (by omega)]
    omega
  cases ys with
  | nil =>
    obtain ⟨kept,fresh,same⟩ := split_last m b.addr n cut (by omega) (by rw [atB]; rfl)
    refine ⟨⟨?_,?_,trivial⟩,same⟩
    · change header _ (word b.addr) = _
      rw [kept,atB]
      rfl
    · change header _ (word (b.addr + 20 + n)) = _
      rw [fresh,size,rem]
      rfl
  | cons d ds =>
    obtain ⟨atD,after⟩ := rest
    have third := limits d (by simp)
    have dAddr := tail.1
    simp only [Block.limit] at third dAddr
    obtain ⟨kept,fresh,relinked,same⟩ := split_inner m b.addr n cut (by omega) d.addr (by rw [atB]; rfl)
      (by omega) (by omega)
    refine ⟨⟨?_,?_,?_,?_⟩,same⟩
    · change header _ (word b.addr) = _
      rw [kept,atB]
      rfl
    · change header _ (word (b.addr + 20 + n)) = _
      rw [fresh,size,rem]
      rfl
    · change header _ (word d.addr) = _
      rw [relinked,atD]
    · apply same.chain _ _ ds tail.2 small _ _ _ after
      simp only [List.mem_cons,List.not_mem_nil,or_false,Block.limit]
      omega

theorem setFree_chain (m : Memory) (prev : Word) (b : Block) (ys : List Block) (hi : Nat) (free : Bool)
    (small : hi < 2^32) (tiles : Tiles 20 b.addr hi (b::ys)) (chain : Chain m prev (b::ys) 0) :
    Chain (setFree m (word b.addr) (flag free)) prev ({b with free := free}::ys) 0 := by
  obtain ⟨atB,rest⟩ := chain
  have first := tiles_bounds 20 _ _ _ tiles b (by simp)
  simp only [Block.limit] at first
  refine ⟨?_,?_⟩
  · change header _ (word b.addr) = _
    rw [header_setFree m b.addr _ (by omega),atB]
  · have same := setFree_same m b.addr (flag free) (by omega) [b.addr] (by simp)
    apply same.chain _ _ ys tiles.2 small _ _ _ rest
    simp only [List.mem_cons,List.not_mem_nil,or_false,Block.limit]
    omega

end BlackOS.Heap
