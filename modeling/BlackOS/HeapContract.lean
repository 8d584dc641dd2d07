import BlackOS.HeapRun

/-! The heap's contract over whole runs: its block list tiles the heap, live payloads
are isolated, free neighbours are always coalesced, and frees commute. -/
namespace BlackOS.Heap
open BlackOS.Library.Ram BlackOS.Library.Run BlackOS.Library.Tiling

def TiledBy (m : Memory) (limit : Nat) : Nat → List Word → Prop
  | place,[] => place = limit
  | place,b::bs => b.toNat = place ∧ TiledBy m limit (place + 20 + (header m b).size.toNat) bs

def BackLinked (m : Memory) : Word → List Word → Prop
  | _,[] => True
  | prev,b::bs => (header m b).prev = prev ∧ BackLinked m b bs

/-- The block list tiles the heap, is linked both ways, carries the magic
throughout, and the statistics account for every byte. -/
def HeapTiled (h : State) (start size : Word) : Prop :=
  ∃ bs used free, blockList h = some bs ∧ bs.head? = some start ∧
    TiledBy h.mem (start.toNat + size.toNat) start.toNat bs ∧ BackLinked h.mem 0 bs ∧
    (∀ b ∈ bs, (header h.mem b).magic = blackHeapMagic) ∧
    blackHeapGetUsed h = some used ∧ blackHeapGetFree h = some free ∧
    used.toNat + free.toNat + 20 * bs.countP (fun b => (header h.mem b).free ≠ 0) = size.toNat

def blockView (h : State) : Option (List (Word × Word × Word)) :=
  (blockList h).map (fun bs => bs.map (fun b => (b,(header h.mem b).size,(header h.mem b).free)))

def payloadSize (s : System) (p : Word) : Nat := (header s.heap.mem (p - headerSize)).size.toNat

def usedAmount (b : Block) : Nat := if b.free then 0 else b.size + 20

def freeAmount (b : Block) : Nat := if b.free then b.size else 0

theorem account (bs : List Block) :
    (bs.map usedAmount).sum + (bs.map freeAmount).sum + 20 * bs.countP Block.free =
      (bs.map (fun b => 20 + b.size)).sum := by
  induction bs with
  | nil => rfl
  | cons b bs ih =>
    simp only [List.map_cons,List.sum_cons,List.countP_cons,usedAmount,freeAmount]
    cases b.free with
    | false =>
      simp only [Bool.false_eq_true,if_false]
      omega
    | true =>
      simp only [if_true]
      omega

section Views
variable {lo hi : Nat} (placed : Placed lo hi) (h : State) (arena : Arena 20 lo hi)
  (rep : Represents h arena)

theorem chain_tiledBy (m : Memory) (limit : Nat) (small : limit < 2^32) (bs : List Block) (place : Nat)
    (tiles : Tiles 20 place limit bs) (prev : Word) (chain : Chain m prev bs 0) :
    TiledBy m limit place (bs.map (fun b => word b.addr)) := by
  induction bs generalizing place prev with
  | nil => exact tiles
  | cons b bs ih =>
    obtain ⟨rfl,rest⟩ := tiles
    have bound := tiles_le 20 _ _ _ rest
    simp only [Block.limit] at bound
    have size : (header m (word b.addr)).size.toNat = b.size := by
      rw [chain.1]
      exact word_toNat b.size (by omega)
    refine ⟨word_toNat b.addr (by omega),?_⟩
    rw [size]
    exact ih _ rest _ chain.2

theorem chain_backLinked (m : Memory) (bs : List Block) (prev : Word) (chain : Chain m prev bs 0) :
    BackLinked m prev (bs.map (fun b => word b.addr)) := by
  induction bs generalizing prev with
  | nil => trivial
  | cons b bs ih => exact ⟨by rw [chain.1],ih _ chain.2⟩

include placed rep

theorem rep_blockList : blockList h = some (arena.blocks.map (fun b => word b.addr)) := by
  have proper := placed.proper
  have length := length_lt_addressCount lo hi _ placed.small arena.tiles
  have walk := blockChain_eq h.mem hi placed.small _ lo placed.positive arena.tiles addressCount length 0
    rep.chain
  rw [firstAddr_tiles lo hi _ (by omega) arena.tiles] at walk
  rw [blockList,rep.head,walk]

theorem rep_sumBlocks (weight : Header → Word) (amount : Block → Nat)
    (agrees : ∀ b ∈ arena.blocks, ∀ next prev,
      weight ⟨blackHeapMagic,word b.size,flag b.free,next,prev⟩ = word (amount b)) :
    sumBlocks weight h.mem addressCount h.head 0 = some (word (arena.blocks.map amount).sum) := by
  have proper := placed.proper
  have length := length_lt_addressCount lo hi _ placed.small arena.tiles
  have walk := sumBlocks_eq h.mem hi placed.small weight amount _ agrees lo placed.positive arena.tiles
    addressCount length 0 rep.chain 0
  rw [firstAddr_tiles lo hi _ (by omega) arena.tiles,Nat.zero_add] at walk
  rw [rep.head]
  exact walk

theorem rep_used : blackHeapGetUsed h = some (word (arena.blocks.map usedAmount).sum) := by
  apply rep_sumBlocks placed h arena rep
  intro b _ next prev
  rw [usedAmount]
  cases b.free with
  | false => exact word_add b.size 20
  | true => rfl

theorem rep_free : blackHeapGetFree h = some (word (arena.blocks.map freeAmount).sum) := by
  apply rep_sumBlocks placed h arena rep
  intro b _ next prev
  rw [freeAmount]
  cases b.free with
  | false => rfl
  | true => rfl

omit placed in
theorem rep_free_flag (b : Block) (member : b ∈ arena.blocks) :
    (header h.mem (word b.addr)).free ≠ 0 ↔ b.free = true := by
  obtain ⟨prev,next,atB⟩ := chain_member h.mem 0 0 _ rep.chain b member
  rw [atB,ne_eq,flag_zero,Bool.not_eq_false]

theorem rep_view : blockView h =
    some (arena.blocks.map (fun b => (word b.addr,word b.size,flag b.free))) := by
  rw [blockView,rep_blockList placed h arena rep,Option.map_some,List.map_map]
  congr 1
  apply List.map_congr_left
  intro b member
  obtain ⟨prev,next,atB⟩ := chain_member h.mem 0 0 _ rep.chain b member
  simp only [Function.comp_apply]
  rw [atB]

omit placed rep in
theorem rep_tiled (start size : Word) (placed : Placed start.toNat (start.toNat + size.toNat))
    (arena : Arena 20 start.toNat (start.toNat + size.toNat)) (rep : Represents h arena) :
    HeapTiled h start size := by
  have proper := placed.proper
  have small := placed.small
  have total := tiles_total 20 _ _ _ arena.tiles
  have accounted := account arena.blocks
  refine ⟨_,_,_,rep_blockList placed h arena rep,?_,chain_tiledBy h.mem _ small _ _ arena.tiles 0 rep.chain,
    chain_backLinked h.mem _ 0 rep.chain,?_,rep_used placed h arena rep,rep_free placed h arena rep,?_⟩
  · have first := firstAddr_tiles _ _ _ (by omega) arena.tiles
    cases blocks : arena.blocks with
    | nil =>
      have tiles := arena.tiles
      rw [blocks] at tiles
      simp only [Tiles] at tiles
      omega
    | cons b bs =>
      rw [blocks,firstAddr,toNat_word] at first
      simp [first]
  · intro p member
    obtain ⟨b,inList,rfl⟩ := List.mem_map.mp member
    obtain ⟨prev,next,atB⟩ := chain_member h.mem 0 0 _ rep.chain b inList
    rw [atB]
  · have count : (arena.blocks.map (fun b => word b.addr)).countP (fun b => (header h.mem b).free ≠ 0) =
        arena.blocks.countP Block.free := by
      rw [List.countP_map]
      apply List.countP_congr
      intro b member
      simpa using rep_free_flag h arena rep b member
    rw [count,word_toNat _ (by omega),word_toNat _ (by omega)]
    omega

end Views

theorem alloc_run : ∃ h s, Booted 4096 4096 h ∧ Steps Next ⟨h,∅⟩ [.alloc 64] s ∧ s.live = {4116} := by
  obtain ⟨h,booted⟩ := booted_exists 4096 4096 (by decide) (by decide)
  have allowed : Allowed ⟨h,∅⟩ (.alloc 64) := by simp [Allowed]
  obtain ⟨h',served⟩ := first_alloc booted (by decide) 64 (by decide) (by decide)
  obtain ⟨s,returned,run⟩ := run_extends booted (by decide) [] ⟨h,∅⟩ .nil (.alloc 64) allowed
  refine ⟨h,s,booted,run,?_⟩
  simp only [step,served,bind,Option.bind,pure] at returned
  cases returned
  rfl

theorem alloc_free_run :
    ∃ h s, Booted 4096 4096 h ∧ Steps Next ⟨h,∅⟩ [.alloc 64,.free 4116] s ∧ s.live = ∅ := by
  obtain ⟨h,s,booted,run,live⟩ := alloc_run
  have allowed : Allowed s (.free 4116) := by simp [Allowed,live]
  obtain ⟨s',returned,run'⟩ := run_extends booted (by decide) _ s run (.free 4116) allowed
  refine ⟨h,s',booted,run',?_⟩
  cases returned
  simp [live]

/-- After every run the heap is tiled by its block list, and every call within
the contract returns. -/
theorem heap_tiled (start size : Word) (h : State) (booted : Booted start size h) (nonnull : start ≠ 0)
    (ops : List Op) (s : System) (run : Steps Next ⟨h,∅⟩ ops s) :
    HeapTiled s.heap start size ∧ ∀ op, Allowed s op → ∃ s', step s op = some s' := by
  have placed := booted_placed booted nonnull
  obtain ⟨arena,inv⟩ := run_inv booted nonnull ops s run
  refine ⟨rep_tiled s.heap start size placed arena inv.rep,?_⟩
  intro op allowed
  obtain ⟨s',returned,_⟩ := run_extends booted nonnull ops s run op allowed
  exact ⟨s',returned⟩

theorem heap_tiled_alloc : ∃ h s, Booted 4096 4096 h ∧ Steps Next ⟨h,∅⟩ [.alloc 64] s ∧
    HeapTiled s.heap 4096 4096 := by
  obtain ⟨h,s,booted,run,_⟩ := alloc_run
  exact ⟨h,s,booted,run,(heap_tiled 4096 4096 h booted (by decide) _ s run).1⟩

/-- A heap placed at address 0 has no block list: its first block is NULL. -/
theorem heap_untiled_null : ∃ h, Booted 0 4096 h ∧ Steps Next ⟨h,∅⟩ [] ⟨h,∅⟩ ∧ ¬HeapTiled h 0 4096 := by
  obtain ⟨h,booted⟩ := booted_exists 0 4096 (by decide) (by decide)
  refine ⟨h,booted,.nil,?_⟩
  intro tiled
  obtain ⟨bs,_,_,walk,first,_⟩ := tiled
  rw [null_blockList booted] at walk
  cases walk
  cases first

/-- What a call that is not applied to the live pointer leaves as it was. -/
structure Untouched (s s' : System) (p : Word) : Prop where
  live : p ∈ s'.live
  size : (header s'.heap.mem (p - headerSize)).size = (header s.heap.mem (p - headerSize)).size
  used : (header s.heap.mem (p - headerSize)).free = 0 ∧ (header s'.heap.mem (p - headerSize)).free = 0
  payload : ∀ i : Word, i.toNat < payloadSize s p → s'.heap.mem (p + i) = s.heap.mem (p + i)

section
variable {lo hi : Nat} (small : hi < 2^32) (s : System) (arena : Arena 20 lo hi) (inv : Inv s arena)
include small inv

theorem live_block (b : Block) (member : b ∈ arena.blocks) (used : b.free = false) :
    (word (b.addr + 20)).toNat = b.addr + 20 ∧ payloadSize s (word (b.addr + 20)) = b.size ∧
      (header s.heap.mem (word (b.addr + 20) - headerSize)).free = 0 := by
  have bounds := tiles_bounds 20 lo hi _ arena.tiles b member
  simp only [Block.limit] at bounds
  obtain ⟨prev,next,atB⟩ := chain_member s.heap.mem 0 0 _ inv.rep.chain b member
  refine ⟨word_toNat _ (by omega),?_,?_⟩
  · rw [payloadSize,header_size arena s.heap inv.rep b member]
    exact word_toNat b.size (by omega)
  · rw [pointer_block,atB,used]
    rfl

theorem untouched_of_kept (s' : System) (arena' : Arena 20 lo hi) (inv' : Inv s' arena') (b : Block)
    (member : b ∈ arena.blocks) (used : b.free = false) (kept : b ∈ arena'.blocks)
    (same : ∀ x : Word, b.addr + 20 ≤ x.toNat → x.toNat < b.limit 20 → s'.heap.mem x = s.heap.mem x) :
    Untouched s s' (word (b.addr + 20)) := by
  have bounds := tiles_bounds 20 lo hi _ arena.tiles b member
  simp only [Block.limit] at bounds
  obtain ⟨at_,size,free⟩ := live_block small s arena inv b member used
  obtain ⟨_,_,free'⟩ := live_block small s' arena' inv' b kept used
  refine ⟨(inv'.live _).mpr ⟨b,kept,used,rfl⟩,?_,⟨free,free'⟩,?_⟩
  · rw [header_size arena s.heap inv.rep b member,header_size arena' s'.heap inv'.rep b kept]
  · intro i inside
    rw [size] at inside
    have place : (word (b.addr + 20) + i).toNat = b.addr + 20 + i.toNat := by
      rw [BitVec.toNat_add,at_]
      omega
    apply same
    · omega
    · simp only [Block.limit]
      omega

end

/-- Live payloads are disjoint and inside the heap, and a call leaves every live
block that it is not applied to alone. -/
theorem heap_isolated (start size : Word) (h : State) (booted : Booted start size h) (ops : List Op)
    (s : System) (run : Steps Next ⟨h,∅⟩ ops s) :
    (∀ p ∈ s.live, start.toNat + 20 ≤ p.toNat ∧ p.toNat + payloadSize s p ≤ start.toNat + size.toNat) ∧
    (∀ p ∈ s.live, ∀ q ∈ s.live, p ≠ q →
      p.toNat + payloadSize s p ≤ q.toNat ∨ q.toNat + payloadSize s q ≤ p.toNat) ∧
    ∀ op s', Next s op s' → ∀ p ∈ s.live, ¬Targets op p → Untouched s s' p := by
  by_cases nonnull : start = 0
  · subst nonnull
    have still := null_run booted ops s run
    subst still
    simp
  · have placed := booted_placed booted nonnull
    have small := placed.small
    obtain ⟨arena,inv⟩ := run_inv booted nonnull ops s run
    refine ⟨?_,?_,?_⟩
    · intro p live
      obtain ⟨b,member,used,rfl⟩ := (inv.live p).mp live
      obtain ⟨at_,payload,_⟩ := live_block small s arena inv b member used
      have bounds := tiles_bounds 20 _ _ _ arena.tiles b member
      simp only [Block.limit] at bounds
      omega
    · intro p liveP q liveQ distinct
      obtain ⟨b,memberB,usedB,rfl⟩ := (inv.live p).mp liveP
      obtain ⟨c,memberC,usedC,rfl⟩ := (inv.live q).mp liveQ
      obtain ⟨atB,payloadB,_⟩ := live_block small s arena inv b memberB usedB
      obtain ⟨atC,payloadC,_⟩ := live_block small s arena inv c memberC usedC
      have other : b ≠ c := fun same => distinct (by rw [same])
      have apart := (tiles_disjoint 20 _ _ _ arena.tiles b c memberB memberC).resolve_left other
      simp only [Block.limit] at apart
      omega
    · intro op s' next p live elsewhere
      obtain ⟨allowed,done⟩ := next
      obtain ⟨t,arena',returned,inv',kept⟩ := step_kept arena placed s inv op allowed
      cases done.symm.trans returned
      obtain ⟨b,member,used,rfl⟩ := (inv.live p).mp live
      obtain ⟨present,same⟩ := kept _ elsewhere b member used rfl
      exact untouched_of_kept small s arena inv s' arena' inv' b member used present same

theorem heap_isolated_alloc : ∃ h s, Booted 4096 4096 h ∧ Steps Next ⟨h,∅⟩ [.alloc 64] s ∧
    4116 ∈ s.live ∧ 4116 + payloadSize s 4116 ≤ 8192 ∧
    ∀ s', Next s (.alloc 32) s' → Untouched s s' 4116 := by
  obtain ⟨h,s,booted,run,live⟩ := alloc_run
  obtain ⟨inside,_,kept⟩ := heap_isolated 4096 4096 h booted _ s run
  have member : 4116 ∈ s.live := by simp [live]
  refine ⟨h,s,booted,run,member,(inside 4116 member).2,?_⟩
  intro s' next
  exact kept (.alloc 32) s' next 4116 member (fun targets => targets)

/-- In every state no two neighbours of the block list are both free; with
nothing live the list is the block that `black_heap_init` created. -/
theorem heap_coalesced (start size : Word) (h : State) (booted : Booted start size h) (nonnull : start ≠ 0)
    (ops : List Op) (s : System) (run : Steps Next ⟨h,∅⟩ ops s) :
    (∃ bs, blockList s.heap = some bs ∧
      bs.IsChain (fun a b => ¬((header s.heap.mem a).free ≠ 0 ∧ (header s.heap.mem b).free ≠ 0))) ∧
    (s.live = ∅ →
      blockView s.heap = some [(start,size - headerSize,1)] ∧ blockView s.heap = blockView h) := by
  have placed := booted_placed booted nonnull
  have proper := placed.proper
  obtain ⟨arena,inv⟩ := run_inv booted nonnull ops s run
  refine ⟨⟨_,rep_blockList placed s.heap arena inv.rep,?_⟩,?_⟩
  · rw [List.isChain_map]
    refine List.IsChain.imp_of_mem_imp ?_ arena.separated
    intro a b inA inB boundary both
    have freeA := (rep_free_flag s.heap arena inv.rep a inA).mp both.1
    have freeB := (rep_free_flag s.heap arena inv.rep b inB).mp both.2
    simp [freeA,freeB] at boundary
  · intro empty
    have free (b : Block) (member : b ∈ arena.blocks) : b.free = true := by
      by_contra used
      have live := (inv.live (word (b.addr + 20))).mpr ⟨b,member,by simpa using used,rfl⟩
      simp [empty] at live
    have single := single_of_free 20 _ _ _ arena.tiles arena.separated (by omega) free
    have first := rep_view placed h _ (booted_inv booted).rep
    have view := rep_view placed s.heap arena inv.rep
    rw [single] at view
    refine ⟨?_,view.trans first.symm⟩
    rw [view,List.map_cons,List.map_nil,toNat_word,booted_payload booted]
    rfl

theorem heap_coalesced_free : ∃ h s, Booted 4096 4096 h ∧
    Steps Next ⟨h,∅⟩ [.alloc 64,.free 4116] s ∧ blockView s.heap = some [(4096,4076,1)] := by
  obtain ⟨h,s,booted,run,empty⟩ := alloc_free_run
  exact ⟨h,s,booted,run,((heap_coalesced 4096 4096 h booted (by decide) _ s run).2 empty).1⟩

/-- At address 0 the block that `black_heap_init` creates is in no list. -/
theorem heap_uncoalesced_null : ∃ h, Booted 0 4096 h ∧ Steps Next ⟨h,∅⟩ [] ⟨h,∅⟩ ∧
    blockView h ≠ some [(0,4076,1)] := by
  obtain ⟨h,booted⟩ := booted_exists 0 4096 (by decide) (by decide)
  refine ⟨h,booted,.nil,?_⟩
  simp [blockView,null_blockList booted]

theorem foldl_free {lo hi : Nat} (placed : Placed lo hi) (addrs : List Nat) (h : State)
    (arena : Arena 20 lo hi) (rep : Represents h arena)
    (known : ∀ a ∈ addrs, Known h.mem arena.blocks a) :
    Represents (addrs.foldl (fun h a => blackHeapFree h (word (a + 20))) h)
      (addrs.foldl (fun arena a => arena.release a) arena) := by
  induction addrs generalizing h arena with
  | nil => exact rep
  | cons a addrs ih =>
    obtain ⟨rep',kept⟩ := free_known placed.positive placed.small h arena rep a (known a (by simp))
    exact ih _ _ rep' (fun b member => kept b (known b (by simp [member])))

def blockAddrs (ps : List Word) : List Nat := ps.map (fun p => (p - headerSize).toNat)

theorem foldl_free_pointers (h : State) (ps : List Word) :
    ps.foldl blackHeapFree h = (blockAddrs ps).foldl (fun h a => blackHeapFree h (word (a + 20))) h := by
  have pointer (p : Word) : word ((p - headerSize).toNat + 20) = p := by
    rw [← word_add,toNat_word,← headerSize_word,BitVec.sub_add_cancel]
  simp only [blockAddrs,List.foldl_map,pointer]

theorem frees_view {lo hi : Nat} (placed : Placed lo hi) (s : System) (arena : Arena 20 lo hi)
    (inv : Inv s arena) (ps : List Word) (live : ∀ p ∈ ps, p ∈ s.live) :
    blockView (ps.foldl blackHeapFree s.heap) =
      some (((blockAddrs ps).foldl (fun arena a => arena.release a) arena).blocks.map
        (fun b => (word b.addr,word b.size,flag b.free))) := by
  rw [foldl_free_pointers]
  apply rep_view placed
  apply foldl_free placed _ _ _ inv.rep
  intro a listed
  obtain ⟨p,member,rfl⟩ := List.mem_map.mp listed
  obtain ⟨b,inList,_,rfl⟩ := (inv.live p).mp (live p member)
  have bounds := tiles_bounds 20 lo hi _ arena.tiles b inList
  have small := placed.small
  simp only [Block.limit] at bounds
  rw [pointer_block,word_toNat b.addr (by omega)]
  exact Or.inl ⟨b,inList,rfl⟩

/-- Frees of one set of live pointers end in the same block list, in any order
and with any repeats. -/
theorem frees_commute (start size : Word) (h : State) (booted : Booted start size h) (ops : List Op)
    (s : System) (run : Steps Next ⟨h,∅⟩ ops s) (held : Finset Word) (live : held ⊆ s.live)
    (ps qs : List Word) (left : ∀ p, p ∈ ps ↔ p ∈ held) (right : ∀ q, q ∈ qs ↔ q ∈ held) :
    ∃ view, blockView (ps.foldl blackHeapFree s.heap) = some view ∧
      blockView (qs.foldl blackHeapFree s.heap) = some view := by
  by_cases nonnull : start = 0
  · -- nothing is ever live, so there is nothing to free
    subst nonnull
    have still := null_run booted ops s run
    subst still
    have none (ps : List Word) (members : ∀ p, p ∈ ps ↔ p ∈ held) : ps = [] := by
      apply List.eq_nil_iff_forall_not_mem.mpr
      intro p member
      simpa using live ((members p).mp member)
    rw [none ps left,none qs right]
    exact ⟨[],by simp [blockView,null_blockList booted],by simp [blockView,null_blockList booted]⟩
  · have placed := booted_placed booted nonnull
    obtain ⟨arena,inv⟩ := run_inv booted nonnull ops s run
    have same (a : Nat) : a ∈ blockAddrs ps ↔ a ∈ blockAddrs qs := by
      simp only [blockAddrs,List.mem_map,left,right]
    refine ⟨_,frees_view placed s arena inv ps (fun p member => live ((left p).mp member)),?_⟩
    rw [frees_view placed s arena inv qs (fun q member => live ((right q).mp member)),
      Arena.foldl_release_congr _ _ same arena]

/-- The pointers of two blocks. -/
theorem alloc_alloc_run : ∃ h s, Booted 4096 4096 h ∧ Steps Next ⟨h,∅⟩ [.alloc 64,.alloc 32] s ∧ s.live = {4116,4200} := by
  let h := firstHeap 4096 4096 fun _ => 0
  have booted : Booted 4096 4096 h := ⟨by decide,by decide,fun m _ => m,fun _ => 0,blackHeapInit_eq _ _ _ _⟩
  obtain ⟨s,first,run⟩ := run_extends booted (by decide) [] ⟨h,∅⟩ .nil (.alloc 64) (by simp [Allowed])
  obtain ⟨t,second,run'⟩ := run_extends booted (by decide) [.alloc 64] s run (.alloc 32) (by simp [Allowed])
  have pointers : ((step ⟨h,∅⟩ (.alloc 64)).bind fun s => step s (.alloc 32)).map System.live = some {4116,4200} := by
    decide +kernel
  rw [first,Option.bind_some,second] at pointers
  exact ⟨h,t,booted,run',Option.some.inj pointers⟩

theorem frees_commute_repeat : ∃ h s, Booted 4096 4096 h ∧ Steps Next ⟨h,∅⟩ [.alloc 64,.alloc 32] s ∧ s.live = {4116,4200} ∧
    ∃ view, blockView ([4116,4200].foldl blackHeapFree s.heap) = some view ∧
      blockView ([4200,4116,4200].foldl blackHeapFree s.heap) = some view := by
  obtain ⟨h,s,booted,run,live⟩ := alloc_alloc_run
  exact ⟨h,s,booted,run,live,frees_commute 4096 4096 h booted _ s run {4116,4200} (by simp [live])
    [4116,4200] [4200,4116,4200] (by simp) (by simp [or_comm])⟩

end BlackOS.Heap
