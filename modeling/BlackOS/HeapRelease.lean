import BlackOS.HeapSurgery

/-! `black_heap_free` refines the release of a block of the arena: the fill, the
step back to a free predecessor and the two merges end in the coalesced list.
A second free of the same pointer finds its header still in the list, marked
dead by a merge, or overwritten by a fill, and changes no block. -/
namespace BlackOS.Heap
open BlackOS.Library.Ram BlackOS.Library.Tiling BlackOS.LibcString

/-- A former header that now lies inside a payload and no longer carries the magic. -/
def Buried (m : Memory) (bs : List Block) (p : Nat) : Prop :=
  (header m (word p)).magic ≠ blackHeapMagic ∧ ∃ e ∈ bs, e.addr + 20 ≤ p ∧ p + 20 ≤ e.limit 20

/-- The address is that of a block in the list, or of one that the list has absorbed. -/
def Known (m : Memory) (bs : List Block) (p : Nat) : Prop :=
  (∃ b ∈ bs, b.addr = p) ∨ Buried m bs p

theorem chain_next (m : Memory) (prev : Word) (e : Block) (post : List Block)
    (chain : Chain m prev (e::post) 0) : (header m (word e.addr)).next = firstAddr post 0 := by
  rw [chain.1]

theorem merge_glue (m : Memory) (prev : Word) (e : Block) (post : List Block) (hi : Nat)
    (small : hi < 2^32) (tiles : Tiles 20 e.addr hi (e::post)) (free : e.free = true)
    (chain : Chain m prev (e::post) 0) :
    Chain (blackHeapMerge m (word e.addr)) prev (glue 20 e post) 0 ∧
      SameButHeaders ((e::post).map Block.addr) m (blackHeapMerge m (word e.addr)) := by
  have next := chain_next m prev e post chain
  cases post with
  | nil =>
    rw [merge_stays m _ (Or.inl next)]
    exact ⟨chain,.refl _ m⟩
  | cons c ys =>
    cases open_ : c.free with
    | false =>
      have used : (header m (header m (word e.addr)).next).free = 0 := by
        rw [next]
        change (header m (word c.addr)).free = 0
        rw [chain.2.1,open_]
        rfl
      rw [merge_stays m _ (Or.inr used),glue_of_next_used 20 e c open_]
      exact ⟨chain,.refl _ m⟩
    | true =>
      obtain ⟨merged,same,_⟩ := merge_chain m prev e c ys hi small tiles open_ chain
      rw [glue_of_free 20 e c free open_]
      refine ⟨merged,same.mono ?_⟩
      intro a member
      cases ys <;> simp_all [heads]
      tauto

/-- A merge keeps track of every known header: the one it absorbs is marked dead. -/
theorem merge_known (m : Memory) (prev : Word) (pre : List Block) (e : Block) (post : List Block)
    (lo hi : Nat) (small : hi < 2^32) (tiles : Tiles 20 lo hi (pre ++ e::post)) (free : e.free = true)
    (chain : Chain m prev (e::post) 0) (p : Nat) (known : Known m (pre ++ e::post) p) :
    Known (blackHeapMerge m (word e.addr)) (pre ++ glue 20 e post) p := by
  obtain ⟨before,here⟩ := tiles_at 20 lo hi pre e post tiles
  obtain ⟨_,same⟩ := merge_glue m prev e post hi small here free chain
  -- every block is covered by a block of the new list, and keeps its address unless absorbed
  have cover (b : Block) (member : b ∈ pre ++ e::post) : ∃ d ∈ pre ++ glue 20 e post,
      d.addr ≤ b.addr ∧ b.limit 20 ≤ d.limit 20 ∧ (d.addr = b.addr ∨
        (header (blackHeapMerge m (word e.addr)) (word b.addr)).magic = blackHeapDead ∧ d.addr + 20 ≤ b.addr) := by
    rcases List.mem_append.mp member with inPre | rest
    · exact ⟨b,by simp [inPre],Nat.le_refl _,Nat.le_refl _,Or.inl rfl⟩
    · cases post with
      | nil => exact ⟨b,by simpa [glue] using Or.inr rest,Nat.le_refl _,Nat.le_refl _,Or.inl rfl⟩
      | cons c ys =>
        rcases glue_cases 20 e c ys with ⟨_,open_,glued⟩ | ⟨_,glued⟩ <;> rw [glued]
        · obtain ⟨_,_,dead⟩ := merge_chain m prev e c ys hi small here open_ chain
          have atLimit := here.2.1
          simp only [Block.limit] at atLimit
          rcases List.mem_cons.mp rest with rfl | later
          · exact ⟨absorb 20 b c,by simp,Nat.le_refl _,by simp only [absorb,Block.limit]; omega,Or.inl rfl⟩
          · rcases List.mem_cons.mp later with rfl | last
            · refine ⟨absorb 20 e b,by simp,?_,?_,Or.inr ⟨dead,?_⟩⟩ <;>
                simp only [absorb,Block.limit] <;> omega
            · exact ⟨b,by simp [last],Nat.le_refl _,Nat.le_refl _,Or.inl rfl⟩
        · exact ⟨b,by simpa using Or.inr rest,Nat.le_refl _,Nat.le_refl _,Or.inl rfl⟩
  rcases known with ⟨b,member,rfl⟩ | ⟨lost,b,member,low,high⟩
  · obtain ⟨d,present,_,ends,same | ⟨dead,apart⟩⟩ := cover b member
    · exact Or.inl ⟨d,present,same⟩
    · refine Or.inr ⟨by rw [dead]; decide,d,present,apart,?_⟩
      simp only [Block.limit] at ends ⊢
      omega
  · obtain ⟨d,present,starts,ends,_⟩ := cover b member
    have limit := (tiles_bounds 20 lo hi _ tiles b member).2
    refine Or.inr ⟨?_,d,present,by omega,by omega⟩
    rw [same.header p (by omega)]
    · exact lost
    · intro a written
      obtain ⟨c,inRest,rfl⟩ := List.mem_map.mp written
      rcases tiles_disjoint 20 lo hi _ tiles b c member (by simp_all) with rfl | apart | apart <;>
        simp only [Block.limit] at * <;> omega

/-- The end of `black_heap_free`: two merges of one block. -/
def settle (m : Memory) (block : Word) : Memory :=
  if (header (blackHeapMerge m block) block).next ≠ 0 then blackHeapMerge (blackHeapMerge m block) block
  else blackHeapMerge m block

theorem glue_addrs (e : Block) (post : List Block) :
    ∀ a ∈ (glue 20 e post).map Block.addr, a ∈ (e::post).map Block.addr := by
  intro a member
  cases post with
  | nil => exact member
  | cons c ys =>
    rcases glue_cases 20 e c ys with ⟨_,_,shape⟩ | ⟨_,shape⟩ <;> rw [shape] at member
    · simp only [List.map_cons,List.mem_cons,absorb] at member ⊢
      tauto
    · exact member

theorem chain_ends (m : Memory) (prev : Word) (e : Block) (post : List Block) (hi : Nat) (small : hi < 2^32)
    (tiles : Tiles 20 e.addr hi (e::post)) (chain : Chain m prev (e::post) 0)
    (last : (header m (word e.addr)).next = 0) : post = [] := by
  rw [chain_next _ _ e post chain] at last
  cases post with
  | nil => rfl
  | cons c cs =>
    have bound := tiles_bounds 20 _ _ _ tiles c (by simp)
    have address := tiles.2.1
    simp only [Block.limit] at bound address
    exact absurd last (word_ne_zero c.addr (by omega) (by omega))

theorem settle_glue (m : Memory) (prev : Word) (pre : List Block) (e : Block) (post : List Block)
    (lo hi : Nat) (small : hi < 2^32) (tiles : Tiles 20 lo hi (pre ++ e::post)) (free : e.free = true)
    (chain : Chain m prev (pre ++ e::post) 0) :
    ∃ e' post', glue 20 e post = e'::post' ∧
      Chain (settle m (word e.addr)) prev (pre ++ glue 20 e' post') 0 ∧
      SameButHeaders ((pre ++ e::post).map Block.addr) m (settle m (word e.addr)) ∧
      ∀ p, Known m (pre ++ e::post) p → Known (settle m (word e.addr)) (pre ++ glue 20 e' post') p := by
  obtain ⟨before,here⟩ := tiles_at 20 lo hi pre e post tiles
  obtain ⟨chainPre,chainHere⟩ := (chain_append m prev 0 pre (e::post)).mp chain
  obtain ⟨first,same⟩ := merge_glue m _ e post hi small here free chainHere
  obtain ⟨e',post',glued,address,free'⟩ := glue_cons 20 e post
  have known := merge_known m _ pre e post lo hi small tiles free chainHere
  have here' : Tiles 20 e'.addr hi (e'::post') := by
    rw [← glued,address]
    exact tiles_glue 20 _ _ e post here
  have tiles' : Tiles 20 lo hi (pre ++ e'::post') :=
    (tiles_append 20 lo hi pre (e'::post')).mpr ⟨_,before,address ▸ here'⟩
  rw [glued] at first known
  rw [← address] at first same known ⊢
  -- the blocks after the first merge are among the ones before it
  have among : ∀ a ∈ (e'::post').map Block.addr, a ∈ (e::post).map Block.addr := by
    rw [← glued]
    exact glue_addrs e post
  have keepsPre (m' : Memory) (kept : SameButHeaders ((e::post).map Block.addr) m m') :
      Chain m' prev pre (word e'.addr) := by
    rw [address]
    apply kept.chain lo e.addr pre before (by have := tiles_le 20 _ _ _ here; omega) _ _ _ chainPre
    intro a member
    obtain ⟨c,inRest,rfl⟩ := List.mem_map.mp member
    exact Or.inr (tiles_bounds 20 _ _ _ here c inRest).1
  have wide (m' : Memory) (kept : SameButHeaders ((e::post).map Block.addr) m m') :
      SameButHeaders ((pre ++ e::post).map Block.addr) m m' :=
    kept.mono (fun a member => by simp only [List.map_append,List.mem_append]; exact Or.inr member)
  refine ⟨e',post',glued,?_⟩
  unfold settle
  split
  · obtain ⟨second,again⟩ := merge_glue _ _ e' post' hi small here' (free'.trans free) first
    have both := same.trans (again.mono among)
    have firstBlock : firstAddr (glue 20 e' post') 0 = word e'.addr := by
      obtain ⟨f,rest,shape,addr,_⟩ := glue_cons 20 e' post'
      rw [shape]
      exact congrArg word addr
    refine ⟨(chain_append _ prev 0 pre _).mpr ⟨?_,second⟩,wide _ both,?_⟩
    · rw [firstBlock]
      exact keepsPre _ both
    · intro p isKnown
      exact merge_known _ _ pre e' post' lo hi small tiles' (free'.trans free) first p (known p isKnown)
  · rename_i last
    rw [not_not] at last
    have alone := chain_ends _ _ e' post' hi small here' first last
    subst alone
    exact ⟨(chain_append _ prev 0 pre _).mpr ⟨keepsPre _ same,first⟩,wide _ same,known⟩

/-- The heap state holds exactly the blocks of the arena. -/
structure Represents {lo hi : Nat} (h : State) (arena : Arena 20 lo hi) : Prop where
  head : h.head = word lo
  chain : Chain h.mem 0 arena.blocks 0

def OwnChange (bs : List Block) (b : Block) (m m' : Memory) : Prop :=
  ∀ x : Word, (∀ q ∈ bs, x.toNat < q.addr ∨ q.addr + 20 ≤ x.toNat) →
    (x.toNat < b.addr ∨ b.limit 20 ≤ x.toNat) → m' x = m x

section Free
variable {lo hi : Nat} (small : hi < 2^32) (pre : List Block) (b : Block) (post : List Block)
  (tiles : Tiles 20 lo hi (pre ++ b::post)) (m : Memory)
include small tiles

def filled (m : Memory) (b : Block) : Memory :=
  memset (setFree m (word b.addr) 1) (word (b.addr + 20)) 0xCC (word b.size)

private theorem fill_same :
    SameOutside (b.addr + 20) (b.limit 20) (setFree m (word b.addr) 1) (filled m b) := by
  have bounds := tiles_bounds 20 lo hi _ tiles b (by simp)
  simp only [Block.limit] at bounds ⊢
  have start : (word (b.addr + 20)).toNat = b.addr + 20 := word_toNat _ (by omega)
  have size : (word b.size).toNat = b.size := word_toNat _ (by omega)
  have same := memset_sameOutside (setFree m (word b.addr) 1) (word (b.addr + 20)) 0xCC (word b.size)
    (by omega)
  rwa [start,size] at same

theorem filled_chain (chain : Chain m 0 (pre ++ b::post) 0) :
    Chain (filled m b) 0 (pre ++ {b with free := true}::post) 0 := by
  obtain ⟨before,here⟩ := tiles_at 20 lo hi pre b post tiles
  obtain ⟨chainPre,chainHere⟩ := (chain_append m 0 0 pre (b::post)).mp chain
  have bounds := tiles_bounds 20 lo hi _ tiles b (by simp)
  simp only [Block.limit] at bounds
  have flagged := setFree_chain m _ b post hi true small here chainHere
  have same := setFree_same m b.addr 1 (by omega) [b.addr] (by simp)
  have flaggedPre := same.chain lo b.addr pre before (by omega) (by simp) _ _ chainPre
  apply chain_congr (setFree m (word b.addr) 1) _ _ _ _ _
    ((chain_append _ 0 0 pre ({b with free := true}::post)).mpr ⟨flaggedPre,flagged⟩)
  intro c member
  have tiles' := map_mark_at 20 lo hi pre b post (by omega) tiles ▸ tiles_mark 20 b.addr lo hi _ tiles
  have limit := tiles_bounds 20 lo hi _ tiles' c member
  have apart := tiles_disjoint 20 lo hi _ tiles' c {b with free := true} member (by simp)
  simp only [Block.limit] at limit apart
  apply header_sameOutside (fill_same small pre b post tiles m) c.addr (by omega)
  simp only [Block.limit]
  rcases apart with rfl | left | right
  · exact Or.inl (Nat.le_refl _)
  · omega
  · omega

theorem filled_known (p : Nat) (known : Known m (pre ++ b::post) p) :
    Known (filled m b) (pre ++ {b with free := true}::post) p := by
  have bounds := tiles_bounds 20 lo hi _ tiles b (by simp)
  rcases known with ⟨c,member,rfl⟩ | ⟨lost,e,member,low,high⟩
  · refine Or.inl ?_
    rcases List.mem_append.mp member with inPre | rest
    · exact ⟨c,by simp [inPre],rfl⟩
    · rcases List.mem_cons.mp rest with rfl | inPost
      · exact ⟨{c with free := true},by simp,rfl⟩
      · exact ⟨c,by simp [inPost],rfl⟩
  · refine Or.inr ?_
    by_cases own : e = b
    · -- the fill has overwritten the buried header
      subst own
      refine ⟨?_,{e with free := true},by simp,low,high⟩
      have at_ : (word p).toNat = p := word_toNat p (by omega)
      have start : (word (e.addr + 20)).toNat = e.addr + 20 := word_toNat _ (by omega)
      have size : (word e.size).toNat = e.size := word_toNat _ (by simp only [Block.limit] at bounds; omega)
      simp only [Block.limit] at bounds high
      have bytes : read32 (filled m e) (word p) = read32 (fun _ => 0xCC) 0 := by
        apply read32_fill _ _ _ (by omega)
        intro x first last
        exact memset_inside _ _ _ _ x (by omega) (by omega) (by omega)
      change read32 (filled m e) (word p) ≠ _
      rw [bytes]
      decide
    · have apart := (tiles_disjoint 20 lo hi _ tiles e b member (by simp)).resolve_left own
      have limit := tiles_bounds 20 lo hi _ tiles e member
      simp only [Block.limit] at bounds limit apart high
      have kept : header (filled m b) (word p) = header m (word p) := by
        rw [header_sameOutside (fill_same small pre b post tiles m) p (by omega) (by simp only [Block.limit]; omega),
          header_setFree_apart m b.addr 1 (by omega) p (by omega) (by omega)]
      refine ⟨by rwa [kept],e,?_,low,high⟩
      simp only [List.mem_append,List.mem_cons] at member ⊢
      tauto

theorem filled_own : OwnChange (pre ++ b::post) b m (filled m b) := by
  intro x headers outside
  have bounds := tiles_bounds 20 lo hi _ tiles b (by simp)
  have own := headers b (by simp)
  simp only [Block.limit] at bounds outside
  rw [fill_same small pre b post tiles m x (by simp only [Block.limit]; omega)]
  exact setFree_same m b.addr 1 (by omega) [b.addr] (by simp) x (by simpa using own)

end Free

theorem lastAddr_append (prev : Word) (xs : List Block) (a : Block) :
    lastAddr prev (xs ++ [a]) = word a.addr := by
  induction xs generalizing prev with
  | nil => rfl
  | cons b bs ih => exact ih (word b.addr)

theorem pointer_block (a : Nat) : word (a + 20) - headerSize = word a := by
  rw [headerSize_word,← word_add,BitVec.add_sub_cancel]

def target (m : Memory) (prev block : Word) : Word :=
  if prev ≠ 0 ∧ (header m prev).free ≠ 0 then prev else block

/-- `black_heap_free` of a block in the list flags and fills it, then settles it
or, when that one is free, its predecessor. -/
theorem free_eq (h : State) (pre : List Block) (b : Block) (post : List Block) {lo hi : Nat}
    (small : hi < 2^32) (tiles : Tiles 20 lo hi (pre ++ b::post))
    (chain : Chain h.mem 0 (pre ++ b::post) 0) :
    blackHeapFree h (word (b.addr + 20)) =
      {h with mem := settle (filled h.mem b) (target (filled h.mem b) (lastAddr 0 pre) (word b.addr))} := by
  have bounds := tiles_bounds 20 lo hi _ tiles b (by simp)
  simp only [Block.limit] at bounds
  have pointer := word_ne_zero (b.addr + 20) (by omega) (by omega)
  obtain ⟨_,atB,_⟩ := (chain_append _ 0 0 pre (b::post)).mp chain
  have magic : (header h.mem (word b.addr)).magic = blackHeapMagic := by rw [atB]
  have size : (header (setFree h.mem (word b.addr) 1) (word b.addr)).size = word b.size := by
    rw [header_setFree _ _ _ (by omega),atB]
  obtain ⟨_,atB',_⟩ := (chain_append _ 0 0 pre ({b with free := true}::post)).mp
    (filled_chain small pre b post tiles h.mem chain)
  have prev : (header (filled h.mem b) (word b.addr)).prev = lastAddr 0 pre := congrArg Header.prev atB'
  have fill : memset (setFree h.mem (word b.addr) 1) (word (b.addr + 20)) 0xCC (word b.size) =
      filled h.mem b := by
    rw [filled]
  unfold blackHeapFree
  rw [if_neg pointer]
  simp only [pointer_block]
  rw [if_neg (not_not.mpr magic)]
  simp only [size,fill,prev]
  rfl

theorem free_target {lo hi : Nat} (positive : 0 < lo) (small : hi < 2^32) (m : Memory) (pre : List Block) (b : Block)
    (post : List Block) (tiles : Tiles 20 lo hi (pre ++ b::post)) (separated : Separated (pre ++ b::post))
    (chain : Chain m 0 (pre ++ b::post) 0) :
    ∃ ys e rest, ys ++ e::rest = pre ++ {b with free := true}::post ∧ e.free = true ∧
      target (filled m b) (lastAddr 0 pre) (word b.addr) = word e.addr ∧
      ∀ e' post', glue 20 e rest = e'::post' →
        ys ++ glue 20 e' post' = release 20 b.addr (pre ++ b::post) := by
  have sepPost : Separated post := (List.isChain_append.mp separated).2.1.tail
  have itself (used : ∀ x ∈ pre.getLast?, x.free = false) : ∀ e' post',
      glue 20 {b with free := true} post = e'::post' →
        pre ++ glue 20 e' post' = release 20 b.addr (pre ++ b::post) := by
    intro e' post' glued
    rw [release_after_used 20 lo hi pre b post (by omega) tiles separated used,
      glue_settled 20 _ e' post post' sepPost glued,glued]
  rcases List.eq_nil_or_concat' pre with rfl | ⟨xs,a,rfl⟩
  · exact ⟨[],{b with free := true},post,rfl,rfl,by simp [target,lastAddr],itself (by simp)⟩
  · have member : a ∈ xs ++ [a] ++ b::post := by simp
    have bounds := tiles_bounds 20 lo hi _ tiles a member
    have around := (tiles_around 20 lo hi (xs ++ [a]) b post tiles).1 a (by simp)
    simp only [Block.limit] at bounds around
    obtain ⟨chainPre,_⟩ := (chain_append _ 0 0 (xs ++ [a]) ({b with free := true}::post)).mp
      (filled_chain small (xs ++ [a]) b post tiles m chain)
    obtain ⟨_,atA,_⟩ := (chain_append _ 0 _ xs [a]).mp chainPre
    have isFree : (header (filled m b) (word a.addr)).free = flag a.free := by rw [atA]
    rw [lastAddr_append]
    cases free : a.free with
    | true =>
      refine ⟨xs,a,{b with free := true}::post,by simp,free,?_,?_⟩
      · rw [free] at isFree
        exact if_pos ⟨word_ne_zero a.addr (by omega) (by omega),by rw [isFree]; decide⟩
      · intro e' post' glued
        rw [glue_of_free 20 a _ free rfl] at glued
        cases glued
        have shaped : xs ++ [a] ++ b::post = xs ++ a::b::post := by simp
        rw [shaped] at tiles separated ⊢
        exact (release_after_free 20 lo hi xs a b post (by omega) tiles separated free).symm
    | false =>
      refine ⟨xs ++ [a],{b with free := true},post,by simp,rfl,?_,itself (by simp [free])⟩
      rw [free] at isFree
      exact if_neg (fun both => both.2 isFree)

theorem free_block {lo hi : Nat} (positive : 0 < lo) (small : hi < 2^32) (h : State)
    (arena : Arena 20 lo hi) (rep : Represents h arena) (b : Block) (member : b ∈ arena.blocks) :
    Represents (blackHeapFree h (word (b.addr + 20))) (arena.release b.addr) ∧
      OwnChange arena.blocks b h.mem (blackHeapFree h (word (b.addr + 20))).mem ∧
      ∀ p, Known h.mem arena.blocks p →
        Known (blackHeapFree h (word (b.addr + 20))).mem (arena.release b.addr).blocks p := by
  obtain ⟨blocks,tiles,separated⟩ := arena
  obtain ⟨head,chain⟩ := rep
  simp only at member chain
  obtain ⟨pre,post,rfl⟩ := List.append_of_mem member
  simp only [Arena.release]
  obtain ⟨ys,e,rest,shape,free,settled,result⟩ :=
    free_target positive small h.mem pre b post tiles separated chain
  have tiles' : Tiles 20 lo hi (ys ++ e::rest) := by
    rw [shape,← map_mark_at 20 lo hi pre b post (by omega) tiles]
    exact tiles_mark 20 b.addr lo hi _ tiles
  have chain' := filled_chain small pre b post tiles h.mem chain
  rw [← shape] at chain'
  obtain ⟨e',post',glued,final,same,known⟩ := settle_glue _ 0 ys e rest lo hi small tiles' free chain'
  rw [result e' post' glued] at final known
  rw [free_eq h pre b post small tiles chain,settled]
  refine ⟨⟨head,final⟩,?_,?_⟩
  · -- the two merges write headers of the list only
    intro x headers outside
    rw [← filled_own small pre b post tiles h.mem x headers outside]
    apply same
    intro a written
    rw [shape] at written
    simp only [List.map_append,List.map_cons,List.mem_append,List.mem_cons,List.mem_map] at written
    rcases written with ⟨c,inPre,rfl⟩ | rfl | ⟨c,inPost,rfl⟩
    · exact headers c (by simp [inPre])
    · exact headers b (by simp)
    · exact headers c (by simp [inPost])
  · intro p isKnown
    apply known
    rw [shape]
    exact filled_known small pre b post tiles h.mem p isKnown

/-- Freeing the pointer of a known header releases its address, whether the block
is still in the list or was absorbed long ago. -/
theorem free_known {lo hi : Nat} (positive : 0 < lo) (small : hi < 2^32) (h : State)
    (arena : Arena 20 lo hi) (rep : Represents h arena) (p : Nat) (known : Known h.mem arena.blocks p) :
    Represents (blackHeapFree h (word (p + 20))) (arena.release p) ∧
      ∀ q, Known h.mem arena.blocks q → Known (blackHeapFree h (word (p + 20))).mem (arena.release p).blocks q := by
  rcases known with ⟨b,member,rfl⟩ | ⟨lost,e,member,low,high⟩
  · have freed := free_block positive small h arena rep b member
    exact ⟨freed.1,freed.2.2⟩
  · have bounds := tiles_bounds 20 lo hi _ arena.tiles e member
    have pointer := word_ne_zero (p + 20) (by omega) (by omega)
    have same : blackHeapFree h (word (p + 20)) = h := by
      unfold blackHeapFree
      rw [if_neg pointer]
      simp only [pointer_block]
      exact if_pos lost
    have absent : ∀ b ∈ arena.blocks, b.addr ≠ p := by
      rintro b inList rfl
      have apart := tiles_disjoint 20 lo hi _ arena.tiles b e inList member
      simp only [Block.limit] at apart high
      rcases apart with rfl | left | right <;> omega
    have unchanged : (arena.release p).blocks = arena.blocks :=
      release_absent 20 p arena.blocks arena.separated absent
    rw [same]
    refine ⟨⟨rep.head,?_⟩,?_⟩
    · rw [unchanged]
      exact rep.chain
    · intro q isKnown
      rwa [unchanged]

end BlackOS.Heap
