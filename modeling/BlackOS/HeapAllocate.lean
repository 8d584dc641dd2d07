import BlackOS.HeapRelease
import Mathlib.Tactic.IntervalCases

/-! The list walks of the heap end at the last block of the arena, and
`black_heap_alloc` refines carving a free block of it. -/
namespace BlackOS.Heap
open BlackOS.Library.Ram BlackOS.Library.Tiling

/-- A placement of the heap where its address arithmetic does not wrap. -/
structure Placed (lo hi : Nat) : Prop where
  positive : 0 < lo
  proper : lo + 20 ≤ hi
  small : hi < 2^32
  span : hi + 32 < lo + 2^32

theorem firstAddr_tiles (lo hi : Nat) (bs : List Block) (proper : lo < hi)
    (tiles : Tiles 20 lo hi bs) : firstAddr bs 0 = word lo := by
  cases bs with
  | nil => simp only [Tiles] at tiles; omega
  | cons b bs => exact congrArg word tiles.1

theorem length_lt_addressCount (lo hi : Nat) (bs : List Block) (small : hi < 2^32)
    (tiles : Tiles 20 lo hi bs) : bs.length < addressCount := by
  have total := tiles_length 20 lo hi bs tiles
  unfold addressCount
  omega

theorem flag_zero (free : Bool) : flag free = 0 ↔ free = false := by
  cases free <;> simp [flag]

section Walks
variable (m : Memory) (hi : Nat) (small : hi < 2^32)
include small

theorem walk_cons (b : Block) (bs : List Block) (lo : Nat) (positive : 0 < lo)
    (tiles : Tiles 20 lo hi (b::bs)) :
    word b.addr ≠ 0 ∧ b.size < 2^32 ∧ 0 < b.limit 20 ∧ Tiles 20 (b.limit 20) hi bs := by
  obtain ⟨rfl,rest⟩ := tiles
  have bound := tiles_le 20 _ _ _ rest
  simp only [Block.limit] at bound
  exact ⟨word_ne_zero b.addr positive (by omega),by omega,by simp only [Block.limit]; omega,rest⟩

theorem blockChain_eq (bs : List Block) (lo : Nat) (positive : 0 < lo) (tiles : Tiles 20 lo hi bs)
    (fuel : Nat) (enough : bs.length < fuel) (prev : Word) (chain : Chain m prev bs 0) :
    blockChain m fuel (firstAddr bs 0) = some (bs.map (fun b => word b.addr)) := by
  induction bs generalizing lo fuel prev with
  | nil =>
    obtain ⟨fuel,rfl⟩ : ∃ k, fuel = k+1 := ⟨fuel - 1,by simp only [List.length_nil] at enough; omega⟩
    simp [blockChain,firstAddr]
  | cons b bs ih =>
    obtain ⟨fuel,rfl⟩ : ∃ k, fuel = k+1 := ⟨fuel - 1,by simp only [List.length_cons] at enough; omega⟩
    obtain ⟨present,_,later,rest⟩ := walk_cons hi small b bs lo positive tiles
    have tail := ih _ later rest fuel
      (by simp only [List.length_cons] at enough; omega) _ chain.2
    rw [firstAddr,blockChain,if_neg present,chain_next m prev b bs chain,tail]
    rfl

theorem sumBlocks_eq (weight : Header → Word) (amount : Block → Nat) (bs : List Block)
    (agrees : ∀ b ∈ bs, ∀ next prev,
      weight ⟨blackHeapMagic,word b.size,flag b.free,next,prev⟩ = word (amount b))
    (lo : Nat) (positive : 0 < lo) (tiles : Tiles 20 lo hi bs) (fuel : Nat) (enough : bs.length < fuel)
    (prev : Word) (chain : Chain m prev bs 0) (total : Nat) :
    sumBlocks weight m fuel (firstAddr bs 0) (word total) =
      some (word (total + (bs.map amount).sum)) := by
  induction bs generalizing lo fuel prev total with
  | nil =>
    obtain ⟨fuel,rfl⟩ : ∃ k, fuel = k+1 := ⟨fuel - 1,by simp only [List.length_nil] at enough; omega⟩
    simp [sumBlocks,firstAddr]
  | cons b bs ih =>
    obtain ⟨fuel,rfl⟩ : ∃ k, fuel = k+1 := ⟨fuel - 1,by simp only [List.length_cons] at enough; omega⟩
    obtain ⟨present,_,later,rest⟩ := walk_cons hi small b bs lo positive tiles
    have magic : (header m (word b.addr)).magic = blackHeapMagic := by rw [chain.1]
    have amountB : weight (header m (word b.addr)) = word (amount b) := by
      rw [chain.1]
      exact agrees b (by simp) _ _
    have tail := ih (fun c member => agrees c (by simp [member])) _ later rest
      fuel (by simp only [List.length_cons] at enough; omega) _ chain.2 (total + amount b)
    rw [firstAddr,sumBlocks,if_pos ⟨present,magic⟩,chain_next m prev b bs chain,amountB,word_add,tail]
    simp only [List.map_cons,List.sum_cons,Nat.add_assoc]

end Walks

section Search
variable (m : Memory) (size : Word)

/-- The pointer the search holds for its candidate. -/
def candidateAddr : Option Block → Word
  | none => 0
  | some b => word b.addr

/-- The search holds the best fit of the blocks it has seen. -/
structure Candidate (seen : List Block) (best : Option Block) : Prop where
  fits : BestOf size.toNat seen best
  read : ∀ b, best = some b → word b.addr ≠ 0 ∧ (header m (word b.addr)).size.toNat = b.size

theorem candidate_visit (seen : List Block) (best : Option Block) (held : Candidate m size seen best)
    (b : Block) (free : b.free = true) (room : size.toNat ≤ b.size) (present : word b.addr ≠ 0)
    (sizeB : (header m (word b.addr)).size.toNat = b.size) :
    ∃ next, (if candidateAddr best = 0 ∨ (header m (word b.addr)).size < (header m (candidateAddr best)).size
        then word b.addr else candidateAddr best) = candidateAddr (some next) ∧
      Candidate m size (seen ++ [b]) (some next) ∧ (next = b ∨ next.size ≤ b.size) := by
  have readB (c : Block) (same : some b = some c) :
      word c.addr ≠ 0 ∧ (header m (word c.addr)).size.toNat = c.size := by
    cases same
    exact ⟨present,sizeB⟩
  cases best with
  | none =>
    refine ⟨b,if_pos (Or.inl rfl),⟨?_,readB⟩,Or.inl rfl⟩
    exact bestOf_replace size.toNat seen none held.fits b free room nofun
  | some a =>
    obtain ⟨presentA,sizeA⟩ := held.read a rfl
    by_cases smaller : b.size < a.size
    · refine ⟨b,if_pos (Or.inr ?_),⟨?_,readB⟩,Or.inl rfl⟩
      · rw [candidateAddr,BitVec.lt_def,sizeA,sizeB]
        exact smaller
      · refine bestOf_replace size.toNat seen (some a) held.fits b free room ?_
        intro c same
        cases same
        exact smaller
    · refine ⟨a,if_neg ?_,⟨?_,held.read⟩,Or.inr (by omega)⟩
      · intro better
        rcases better with null | less
        · exact presentA null
        · rw [candidateAddr,BitVec.lt_def,sizeA,sizeB] at less
          exact smaller less
      · exact bestOf_keep size.toNat seen a held.fits b (by omega)

/-- The search ends with the best fit of the whole list. -/
theorem findBest_best (hi : Nat) (small : hi < 2^32) (bs : List Block) (lo : Nat) (positive : 0 < lo)
    (tiles : Tiles 20 lo hi bs) (fuel : Nat) (enough : bs.length < fuel) (prev : Word)
    (chain : Chain m prev bs 0) (seen : List Block) (best : Option Block)
    (held : Candidate m size seen best) :
    ∃ found, findBest m size fuel (candidateAddr best) (firstAddr bs 0) = some (candidateAddr found) ∧
      BestOf size.toNat (seen ++ bs) found := by
  -- on the blocks still to visit, for every candidate among those already seen
  induction bs generalizing lo fuel prev seen best with
  | nil =>
    obtain ⟨fuel,rfl⟩ : ∃ k, fuel = k+1 := ⟨fuel - 1,by simp only [List.length_nil] at enough; omega⟩
    exact ⟨best,by simp [findBest,firstAddr],by simpa using held.fits⟩
  | cons b bs ih =>
    obtain ⟨fuel,rfl⟩ : ∃ k, fuel = k+1 := ⟨fuel - 1,by simp only [List.length_cons] at enough; omega⟩
    obtain ⟨present,payload,later,rest⟩ := walk_cons hi small b bs lo positive tiles
    have magic : (header m (word b.addr)).magic = blackHeapMagic := by rw [chain.1]
    have sizeB : (header m (word b.addr)).size.toNat = b.size := by
      rw [chain.1]
      exact word_toNat b.size payload
    have candidate : ((header m (word b.addr)).free ≠ 0 ∧ size ≤ (header m (word b.addr)).size) ↔
        b.free = true ∧ size.toNat ≤ b.size := by
      rw [BitVec.le_def,sizeB,chain.1,ne_eq,flag_zero,Bool.not_eq_false]
    have tail (next : Option Block) (heldNext : Candidate m size (seen ++ [b]) next) :
        ∃ found, findBest m size fuel (candidateAddr next) (firstAddr bs 0) = some (candidateAddr found) ∧
          BestOf size.toNat (seen ++ b::bs) found := by
      have step := ih _ later rest fuel (by simp only [List.length_cons] at enough; omega) _ chain.2
        (seen ++ [b]) next heldNext
      rw [List.append_assoc,List.singleton_append] at step
      exact step
    rw [firstAddr,findBest,if_neg present,if_neg (not_not.mpr magic),chain_next m prev b bs chain]
    split
    · rename_i fits
      obtain ⟨free,room⟩ := candidate.mp fits
      obtain ⟨next,chosen,heldNext,least⟩ := candidate_visit m size seen best held b free room present sizeB
      dsimp only
      rw [chosen]
      split
      · -- an exact fit ends the search: nothing later can be smaller
        rename_i exactly
        have same : b.size = size.toNat := by rw [← sizeB,exactly]
        have fit : next.size = size.toNat := by
          obtain ⟨_,_,best⟩ := heldNext.fits
          have large := best.room
          rcases least with equal | less
          · rw [equal,same]
          · omega
        have whole := bestOf_exact size.toNat (seen ++ [b]) bs next heldNext.fits fit
        exact ⟨some next,rfl,by simpa using whole⟩
      · exact tail (some next) heldNext
    · rename_i unfit
      exact tail best ⟨bestOf_skip size.toNat seen best held.fits b (fun fits => unfit (candidate.mpr fits)),
        held.read⟩

end Search

theorem blackAlign_toNat (n : Word) (bounded : n ≤ 0xFFFFFFF0) :
    (blackAlign n 16).toNat = (n.toNat + 15) / 16 * 16 := by
  have limit : n.toNat ≤ 4294967280 := bounded
  have masked : blackAlign n 16 = ((n + 15) >>> 4) <<< 4 := by
    have rounded (x : Word) : x &&& 0xFFFFFFF0#32 = (x >>> 4) <<< 4 := by
      ext i inside
      interval_cases i <;> simp
    exact rounded (n + 15)
  have sum : (n + 15).toNat = n.toNat + 15 := by
    simp only [BitVec.toNat_add,BitVec.reduceToNat]
    omega
  rw [masked,BitVec.toNat_shiftLeft,BitVec.toNat_ushiftRight,sum,Nat.shiftRight_eq_div_pow,
    Nat.shiftLeft_eq]
  omega

def carved (m : Memory) (b : Block) (n : Nat) : Memory :=
  setFree (blackHeapSplit m (word b.addr) (word n)) (word b.addr) 0

section Carve
variable {lo hi : Nat} (placed : Placed lo hi) (m : Memory) (pre : List Block) (b : Block)
  (post : List Block) (tiles : Tiles 20 lo hi (pre ++ b::post)) (chain : Chain m 0 (pre ++ b::post) 0)
  (n : Nat)
include placed tiles chain

private theorem carved_whole (room : n ≤ b.size) (whole : b.size ≤ n + 20 + 32) :
    Chain (carved m b n) 0 (pre ++ taken 20 32 n b::post) 0 ∧
      SameButHeaders [b.addr] m (carved m b n) := by
  obtain ⟨before,here⟩ := tiles_at 20 lo hi pre b post tiles
  obtain ⟨chainPre,chainHere⟩ := (chain_append m 0 0 pre (b::post)).mp chain
  have bounds := tiles_bounds 20 lo hi _ tiles b (by simp)
  have small := placed.small
  have span := placed.span
  simp only [Block.limit] at bounds
  have stays : blackHeapSplit m (word b.addr) (word n) = m := by
    apply split_stays
    have size : (header m (word b.addr)).size = word b.size := by rw [chainHere.1]
    have least : blackHeapMinBlock = word 32 := rfl
    rw [size,headerSize_word,least,word_add,word_add,BitVec.le_def,word_toNat _ (by omega),
      word_toNat _ (by omega)]
    exact whole
  have same := setFree_same m b.addr 0 (by omega) [b.addr] (by simp)
  have block : taken 20 32 n b = {b with free := false} := by simp only [taken,if_pos whole]
  rw [carved,stays,block]
  refine ⟨(chain_append _ 0 0 pre _).mpr ⟨?_,setFree_chain m _ b post hi false small here chainHere⟩,same⟩
  exact same.chain lo b.addr pre before (by omega) (by simp) _ _ chainPre

private theorem carved_part (part : n + 20 + 32 < b.size) :
    Chain (carved m b n) 0
        (pre ++ taken 20 32 n b::⟨b.addr + 20 + n,b.size - n - 20,true⟩::post) 0 ∧
      SameButHeaders (b.addr::(b.addr + 20 + n)::heads post) m (carved m b n) := by
  obtain ⟨before,here⟩ := tiles_at 20 lo hi pre b post tiles
  obtain ⟨chainPre,chainHere⟩ := (chain_append m 0 0 pre (b::post)).mp chain
  have bounds := tiles_bounds 20 lo hi _ tiles b (by simp)
  have small := placed.small
  simp only [Block.limit] at bounds
  obtain ⟨split,same⟩ := split_chain m _ b post n hi small here (by omega) chainHere
  have here' : Tiles 20 b.addr hi ({b with size := n}::⟨b.addr + 20 + n,b.size - n - 20,true⟩::post) := by
    have limit : b.addr + 20 + n + 20 + (b.size - n - 20) = b.limit 20 := by simp only [Block.limit]; omega
    refine ⟨rfl,rfl,?_⟩
    simp only [Block.limit] at limit ⊢
    rw [limit]
    exact here.2
  have block : taken 20 32 n b = {b with size := n,free := false} := by
    simp only [taken,if_neg (by omega : ¬b.size ≤ n + 20 + 32)]
  have used := setFree_chain _ _ _ _ hi false small here' split
  have all := same.trans (setFree_same _ b.addr 0 (by omega) (b.addr::(b.addr + 20 + n)::heads post) (by simp))
  rw [block]
  refine ⟨(chain_append _ 0 0 pre _).mpr ⟨?_,used⟩,all⟩
  apply all.chain lo b.addr pre before (by omega) _ _ _ chainPre
  intro a written
  simp only [heads,List.mem_cons,List.mem_map] at written
  rcases written with rfl | rfl | ⟨c,first,rfl⟩
  · omega
  · omega
  · have after := (tiles_bounds 20 _ _ _ here.2 c (List.mem_of_mem_take first)).1
    simp only [Block.limit] at after
    omega

theorem carved_chain (free : b.free = true) (room : n ≤ b.size) :
    Chain (carved m b n) 0 (pre ++ carve 20 32 n b ++ post) 0 ∧
    OwnChange (pre ++ b::post) b m (carved m b n) := by
  have bounds := tiles_bounds 20 lo hi _ tiles b (by simp)
  rcases carve_cases 20 32 n b free room with ⟨whole,shape⟩ | ⟨part,shape⟩ <;> rw [shape]
  · obtain ⟨result,same⟩ := carved_whole placed m pre b post tiles chain n room whole
    refine ⟨by simpa using result,?_⟩
    intro x headers _
    exact same x (by simpa using headers b (by simp))
  · obtain ⟨result,same⟩ := carved_part placed m pre b post tiles chain n part
    refine ⟨by simpa using result,?_⟩
    intro x headers outside
    apply same
    intro a written
    simp only [heads,List.mem_cons,List.mem_map] at written
    rcases written with rfl | rfl | ⟨c,first,rfl⟩
    · exact headers b (by simp)
    · simp only [Block.limit] at outside
      omega
    · exact headers c (by simp [List.mem_of_mem_take first])

end Carve

section Alloc
variable {lo hi : Nat} (placed : Placed lo hi) (h : State) (arena : Arena 20 lo hi)
  (rep : Represents h arena) (n : Word)
include placed rep

/-- `black_heap_alloc` returns. It hands out no block and changes nothing, since
nothing was asked for or no free block has the rounded size, or it carves the best
fit. -/
theorem alloc_refines : ∃ h' ptr, blackHeapAlloc h n = some (h',ptr) ∧
    ((ptr = 0 ∧ h' = h ∧
        (n = 0 ∨ ∀ b ∈ arena.blocks, b.free = true → b.size < (blackAlign n 16).toNat)) ∨
      ∃ b pre post, BestFit (blackAlign n 16).toNat arena.blocks b pre post ∧
      ptr = word (b.addr + 20) ∧ Represents h' (arena.allocate 32 (blackAlign n 16).toNat b.addr) ∧
      OwnChange arena.blocks b h.mem h'.mem) := by
  by_cases zero : n = 0
  · exact ⟨h,0,by simp [blackHeapAlloc,zero],Or.inl ⟨rfl,rfl,Or.inl zero⟩⟩
  · obtain ⟨blocks,tiles,separated⟩ := arena
    obtain ⟨head,chain⟩ := rep
    simp only at chain
    have proper := placed.proper
    have small := placed.small
    obtain ⟨found,search,fits⟩ := findBest_best h.mem (blackAlign n 16) hi small blocks lo placed.positive
      tiles addressCount (length_lt_addressCount lo hi blocks small tiles) 0 chain [] none
      ⟨by simp [BestOf],nofun⟩
    rw [firstAddr_tiles lo hi blocks (by omega) tiles,← head,candidateAddr] at search
    cases found with
    | none =>
      refine ⟨h,0,?_,Or.inl ⟨rfl,rfl,Or.inr fits⟩⟩
      simp only [blackHeapAlloc,zero,if_false,search]
      rfl
    | some b =>
      obtain ⟨pre,post,best⟩ := fits
      have place : blocks = pre ++ b::post := best.place
      subst place
      have bounds := tiles_bounds 20 lo hi _ tiles b (by simp)
      simp only [Block.limit] at bounds
      have positive := placed.positive
      have present := word_ne_zero b.addr (by omega) (by omega)
      obtain ⟨result,own⟩ := carved_chain placed h.mem pre b post tiles chain (blackAlign n 16).toNat
        best.free best.room
      refine ⟨{h with mem := carved h.mem b (blackAlign n 16).toNat},word (b.addr + 20),?_,
        Or.inr ⟨b,pre,post,best,rfl,⟨head,?_⟩,own⟩⟩
      · simp only [blackHeapAlloc,zero,if_false,search,carved,toNat_word]
        change (if word b.addr = 0 then _ else _) = _
        rw [if_neg present,← word_add]
        rfl
      · simp only [Arena.allocate]
        rw [allocate_at 20 32 _ lo hi pre b post (by omega) tiles]
        exact result

end Alloc

end BlackOS.Heap
