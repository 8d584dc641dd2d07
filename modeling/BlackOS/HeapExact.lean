import BlackOS.HeapSizes

/-! What an allocation and a reallocation do, exactly, in every state that a run can reach: which
block is taken and what is left of it, and which bytes a moved block holds. -/
namespace BlackOS.Heap
open BlackOS.Library.Ram BlackOS.Library.Run BlackOS.Library.Tiling BlackOS.LibcString

/-- The calls of a client that keeps to its pointers, for any size that does not make the heap fill
or copy past the block it hands out. -/
def Contained (s : System) (op : Op) : Prop :=
  Called s op ∧ ((∃ n, op = .alloc n) ∨ Allowed s op ∨ Sized s op)

def NextContained (s : System) (op : Op) (s' : System) : Prop := Contained s op ∧ step s op = some s'

/-- The pointer's block is on the block list and in use. -/
def InUse (h : State) (p : Word) : Prop :=
  ∃ bs, blockList h = some bs ∧ p - headerSize ∈ bs ∧ (header h.mem (p - headerSize)).free = 0

section
variable {lo hi : Nat} (placed : Placed lo hi) (s : System) (arena : Arena 20 lo hi) (inv : Inv s arena)
include placed inv

/-- An allocation of any size keeps the invariant, also one whose size has wrapped. -/
theorem alloc_any_kept (n : Word) : StepKept arena s (.alloc n) := by
  have grants : Grants arena s.heap (blackHeapAlloc s.heap n) (blackAlign n 16).toNat := by
    obtain ⟨h',ptr,returned,⟨null,same,_⟩ | ⟨arena',t,pointer,granted,rep',keeps,_⟩⟩ :=
      alloc_takes arena placed s.heap inv.rep n
    · exact ⟨h',ptr,returned,Or.inl ⟨null,same⟩⟩
    · exact ⟨h',ptr,returned,Or.inr ⟨arena',t,pointer,granted,rep',keeps⟩⟩
  apply grants_kept arena placed.small s inv _ _ _ grants
  intro h' ptr returned
  simp only [step,returned,bind,Option.bind,pure]

theorem contained_kept (op : Op) (s' : System) (next : NextContained s op s') :
    ∃ arena' : Arena 20 lo hi, Inv s' arena' := by
  have kept (op : Op) (kept : StepKept arena s op) (done : step s op = some s') :
      ∃ arena' : Arena 20 lo hi, Inv s' arena' := by
    obtain ⟨_,arena',returned,inv',_⟩ := kept
    cases done.symm.trans returned
    exact ⟨arena',inv'⟩
  obtain ⟨⟨called,⟨n,rfl⟩ | allowed | sized⟩,done⟩ := next
  · exact kept _ (alloc_any_kept placed s arena inv n) done
  · exact kept op (step_kept arena placed s inv op allowed) done
  · rcases sized_allowed placed s arena inv op called sized with allowed | unchanged
    · exact kept op (step_kept arena placed s inv op allowed) done
    · cases done.symm.trans unchanged
      exact ⟨arena,inv⟩

theorem live_inUse (p : Word) : p ∈ s.live ↔ InUse s.heap p := by
  have blocks := rep_blockList placed s.heap arena inv.rep
  constructor
  · intro live
    obtain ⟨b,member,used,rfl⟩ := (inv.live p).mp live
    refine ⟨_,blocks,?_,(live_block placed.small s arena inv b member used).2.2⟩
    rw [pointer_block]
    exact List.mem_map.mpr ⟨b,member,rfl⟩
  · intro inUse
    obtain ⟨bs,listed,within,used⟩ := inUse
    cases listed.symm.trans blocks
    obtain ⟨b,member,same⟩ := List.mem_map.mp within
    have pointer : p = word (b.addr + 20) := by
      rw [← word_add,same,← headerSize_word]
      exact (BitVec.sub_add_cancel p headerSize).symm
    refine (inv.live p).mpr ⟨b,member,?_,pointer⟩
    rw [← same] at used
    have flag := mt (rep_free_flag s.heap arena inv.rep b member).mpr (not_not.mpr used)
    simpa using flag

/-- What a reallocation that returns a pointer leaves. -/
structure Reallocated (s : System) (p n : Word) (s' : System) (q : Word) : Prop where
  large : n.toNat ≤ payloadSize s' q
  contents : ∀ i : Word, i.toNat < min (payloadSize s p) n.toNat → s'.heap.mem (q + i) = s.heap.mem (p + i)
  live : q ∈ s'.live
  released : q ≠ p → p ∉ s'.live ∧ ¬InUse s'.heap p

omit inv in
/-- The bytes of a block that has been moved: copied behind a fresh header, and untouched by the fill
and the merges of the free that follows. -/
theorem moved_contents (grown : Arena 20 lo hi) (middle : State) (b t : Block)
    (inList : b ∈ arena.blocks) (used : b.free = false) (larger : b.size < t.size) (n : Nat)
    (granted : Granted arena grown t n) (rep : Represents middle grown)
    (keeps : Keeps arena grown s.heap.mem middle.mem 0) (i : Word) (inside : i.toNat < b.size) :
    (blackHeapFree (copyInto middle t b) (word (b.addr + 20))).mem (word (t.addr + 20) + i) =
      s.heap.mem (word (b.addr + 20) + i) := by
  have small := placed.small
  have kept := (granted.blocks b used).mpr (Or.inl inList)
  have boundsB := tiles_bounds 20 lo hi _ grown.tiles b kept
  have boundsT := tiles_bounds 20 lo hi _ grown.tiles t granted.member
  have apart := (tiles_disjoint 20 lo hi _ grown.tiles b t kept granted.member).resolve_left
    (fun same => granted.fresh b inList used (by rw [same]))
  simp only [Block.limit] at boundsB boundsT apart
  have startB : (word (b.addr + 20)).toNat = b.addr + 20 := word_toNat _ (by omega)
  have startT : (word (t.addr + 20)).toNat = t.addr + 20 := word_toNat _ (by omega)
  have length : (word b.size).toNat = b.size := word_toNat _ (by omega)
  have placeB : (word (b.addr + 20) + i).toNat = b.addr + 20 + i.toNat := by
    rw [BitVec.toNat_add,startB]
    omega
  have placeT : (word (t.addr + 20) + i).toNat = t.addr + 20 + i.toNat := by
    rw [BitVec.toNat_add,startT]
    omega
  obtain ⟨repCopy,_⟩ := copyInto_stored grown small middle rep t b granted.member (by omega)
  obtain ⟨_,keepsFree⟩ := free_releases grown placed _ repCopy b kept
  have distinct := granted.pointer_ne small b inList used
  have freed := (keepsFree t granted.member granted.used distinct.symm).2 (word (t.addr + 20) + i) (by omega)
    (by simp only [Block.limit]; omega)
  have copied := memcpy_inside middle.mem (word (t.addr + 20)) (word (b.addr + 20)) (word b.size) i
    (by rw [BitVec.lt_def,length]; exact inside) (by omega) (by omega) (by omega)
  have taken := (keeps b inList used (pointer_ne_zero arena small b inList)).2 (word (b.addr + 20) + i)
    (by omega) (by simp only [Block.limit]; omega)
  calc (blackHeapFree (copyInto middle t b) (word (b.addr + 20))).mem (word (t.addr + 20) + i)
      = (copyInto middle t b).mem (word (t.addr + 20) + i) := freed
    _ = middle.mem (word (b.addr + 20) + i) := copied
    _ = s.heap.mem (word (b.addr + 20) + i) := taken

theorem realloc_outcome (b : Block) (inList : b ∈ arena.blocks) (used : b.free = false) (n : Word)
    (nonzero : n ≠ 0) (bounded : n ≤ 0xFFFFFFF0) :
    ∃ s' q, blackHeapRealloc s.heap (word (b.addr + 20)) n = some (s'.heap,q) ∧
      step s (.realloc (word (b.addr + 20)) n) = some s' ∧
      ((q = 0 ∧ s' = s) ∨ (q ≠ 0 ∧ Reallocated s (word (b.addr + 20)) n s' q)) := by
  have small := placed.small
  have member : word (b.addr + 20) ∈ s.live := (inv.live _).mpr ⟨b,inList,used,rfl⟩
  have present := pointer_ne_zero arena small b inList
  have current := header_size arena s.heap inv.rep b inList
  have sizeB := size_block placed s.heap arena inv.rep b inList
  by_cases fits : n ≤ word b.size
  · refine ⟨s,word (b.addr + 20),?_,?_,Or.inr ⟨present,?_,fun _ _ => rfl,member,fun other => absurd rfl other⟩⟩
    · simp only [blackHeapRealloc,present,nonzero,current,fits,if_false,if_true]
    · simp only [step,blackHeapRealloc,present,nonzero,if_false,current,fits,if_true,bind,Option.bind,
        and_false,pure,Finset.insert_erase member]
    · rw [payloadSize,current]
      exact fits
  · obtain ⟨h',q,returned,⟨null,same⟩ | ⟨grown,middle,t,pointer,larger,granted,rep',keeps,result⟩⟩ :=
      realloc_moves arena placed s.heap inv.rep b inList used n bounded nonzero fits
    · subst null same
      refine ⟨s,0,returned,?_,Or.inl ⟨rfl,rfl⟩⟩
      simp only [step,returned,nonzero,bind,Option.bind,and_false,if_false,pure,if_true]
    · subst pointer
      have kept := (granted.blocks b used).mpr (Or.inl inList)
      have fresh := pointer_ne_zero grown small t granted.member
      have done : step s (.realloc (word (b.addr + 20)) n) =
          some ⟨h',insert (word (t.addr + 20)) (s.live.erase (word (b.addr + 20)))⟩ := by
        simp only [step,returned,nonzero,bind,Option.bind,and_false,if_false,pure,fresh]
      obtain ⟨s',arena',stepped,inv',_⟩ := realloc_kept arena placed s inv (word (b.addr + 20)) n
        (Or.inr member) bounded
      cases done.symm.trans stepped
      obtain ⟨repCopy,_⟩ := copyInto_stored grown small middle rep' t b granted.member (by omega)
      obtain ⟨repFree,_⟩ := free_releases grown placed _ repCopy b kept
      have stays := (mem_release_used 20 b.addr _ t granted.used).mpr
        ⟨granted.member,(granted.fresh b inList used).symm⟩
      have sizeT := size_block placed _ (grown.release b.addr) repFree t stays
      refine ⟨_,_,returned,done,Or.inr ⟨fresh,?_,?_,Finset.mem_insert_self _ _,?_⟩⟩
      · rw [payloadSize,result,sizeT]
        exact granted.large
      · intro i inside
        rw [payloadSize,sizeB] at inside
        rw [result]
        exact moved_contents placed s arena grown middle b t inList used larger n.toNat granted rep' keeps i
          (by omega)
      · intro other
        have gone : word (b.addr + 20) ∉
            insert (word (t.addr + 20)) (s.live.erase (word (b.addr + 20))) := by
          simp [other.symm]
        exact ⟨gone,mt (live_inUse placed _ arena' inv' _).mpr gone⟩

end

section
variable {start size : Word} {h : State} (booted : Booted start size h) (ops : List Op) (s : System)
  (run : Steps NextContained ⟨h,∅⟩ ops s)
include booted run

theorem contained_inv (nonnull : start ≠ 0) :
    ∃ arena : Arena 20 start.toNat (start.toNat + size.toNat), Inv s arena :=
  arena_run booted NextContained
    (fun s op s' arena inv => contained_kept (booted_placed booted nonnull) s arena inv op s') ops s run

end

theorem null_contained {size : Word} {h : State} (booted : Booted 0 size h) (ops : List Op) (s : System)
    (run : Steps NextContained ⟨h,∅⟩ ops s) : s = ⟨h,∅⟩ := by
  refine Steps.invariant (fun s => s = ⟨h,∅⟩) rfl ?_ run
  intro s op s' same next
  obtain ⟨⟨called,_⟩,done⟩ := next
  subst same
  cases done.symm.trans (null_called booted op called).1
  rfl

/-- A reallocation of a live pointer hands out a block that holds the request and the old contents,
and gives the old block back unless it is the new one; or it hands out nothing and changes nothing. -/
theorem realloc_preserves (start size : Word) (h : State) (booted : Booted start size h) (ops : List Op)
    (s : System) (run : Steps NextContained ⟨h,∅⟩ ops s) (p : Word) (live : p ∈ s.live) (n : Word)
    (positive : 1 ≤ n) (bounded : n ≤ 0xFFFFFFF0) :
    ∃ s' q, blackHeapRealloc s.heap p n = some (s'.heap,q) ∧ step s (.realloc p n) = some s' ∧
      (q ≠ 0 → Reallocated s p n s' q) ∧ (q = 0 → s' = s ∧ p ∈ s'.live ∧ InUse s'.heap p) := by
  have nonzero : n ≠ 0 := by
    intro zero
    subst zero
    exact absurd positive (by decide)
  by_cases nonnull : start = 0
  · subst nonnull
    cases null_contained booted ops s run
    simp at live
  · have placed := booted_placed booted nonnull
    obtain ⟨arena,inv⟩ := contained_inv booted ops s run nonnull
    have inUse := (live_inUse placed s arena inv p).mp live
    obtain ⟨b,inList,used,rfl⟩ := (inv.live p).mp live
    obtain ⟨s',q,returned,done,⟨null,same⟩ | ⟨present,moved⟩⟩ :=
      realloc_outcome placed s arena inv b inList used n nonzero bounded
    · refine ⟨s',q,returned,done,fun given => absurd null given,?_⟩
      intro _
      rw [same]
      exact ⟨rfl,live,inUse⟩
    · exact ⟨s',q,returned,done,fun _ => moved,fun null => absurd null present⟩

theorem contained_alloc : ∃ h s, Booted 4096 4096 h ∧ Steps NextContained ⟨h,∅⟩ [.alloc 64] s ∧ 4116 ∈ s.live := by
  obtain ⟨h,booted⟩ := booted_exists 4096 4096 (by decide) (by decide)
  obtain ⟨h',served⟩ := first_alloc booted (by decide) 64 (by decide) (by decide)
  refine ⟨h,⟨h',{4116}⟩,booted,.snoc [] _ ⟨h,∅⟩ _ .nil ⟨⟨trivial,Or.inl ⟨64,rfl⟩⟩,?_⟩,by simp⟩
  simp only [step,served,bind,Option.bind,pure]
  rfl

theorem realloc_preserves_grown : ∃ h s, Booted 4096 4096 h ∧ Steps NextContained ⟨h,∅⟩ [.alloc 64] s ∧
    ∃ s' q, blackHeapRealloc s.heap 4116 128 = some (s'.heap,q) ∧ (q ≠ 0 → Reallocated s 4116 128 s' q) := by
  obtain ⟨h,s,booted,run,live⟩ := contained_alloc
  obtain ⟨s',q,returned,_,moved,_⟩ := realloc_preserves 4096 4096 h booted _ s run 4116 live 128 (by decide)
    (by decide)
  exact ⟨h,s,booted,run,s',q,returned,moved⟩

/-! Best fit. -/

/-- An entry of `blockView`. -/
structure Smallest (n : Nat) (b : Word × Word × Word) (others : List (Word × Word × Word)) : Prop where
  free : b.2.2 ≠ 0
  room : n ≤ b.2.1.toNat
  least : ∀ c ∈ others, c.2.2 ≠ 0 → n ≤ c.2.1.toNat →
    b.2.1.toNat < c.2.1.toNat ∨ (b.2.1 = c.2.1 ∧ b.1.toNat < c.1.toNat)

/-- The block that is taken, and what is left of it when that is worth a block of its own. -/
def takenView (m : Word) (b : Word × Word × Word) : List (Word × Word × Word) :=
  if m.toNat + 52 < b.2.1.toNat then [(b.1,m,0),(b.1 + headerSize + m,b.2.1 - m - headerSize,1)]
  else [(b.1,b.2.1,0)]

def entry (b : Block) : Word × Word × Word := (word b.addr,word b.size,flag b.free)

/-- An allocation that hands out the block `b` of the list. -/
structure Serves (h : State) (m : Word) (h' : State) (ptr : Word) (pre : List (Word × Word × Word))
    (b : Word × Word × Word) (post : List (Word × Word × Word)) : Prop where
  place : blockView h = some (pre ++ b::post)
  smallest : Smallest m.toNat b (pre ++ post)
  pointer : ptr = b.1 + headerSize
  result : blockView h' = some (pre ++ takenView m b ++ post)
  others : ∀ c ∈ pre ++ post, ∀ i : Word, i.toNat < c.2.1.toNat →
    h'.mem (c.1 + headerSize + i) = h.mem (c.1 + headerSize + i)

section
variable {lo hi : Nat} (placed : Placed lo hi)
include placed

theorem entry_sizes (arena : Arena 20 lo hi) (b : Block) (member : b ∈ arena.blocks) :
    (entry b).1.toNat = b.addr ∧ (entry b).2.1.toNat = b.size := by
  have bounds := tiles_bounds 20 lo hi _ arena.tiles b member
  have small := placed.small
  simp only [Block.limit] at bounds
  exact ⟨word_toNat b.addr (by omega),word_toNat b.size (by omega)⟩

omit placed in
theorem entry_free (b : Block) : (entry b).2.2 ≠ 0 ↔ b.free = true := by
  rw [entry,ne_eq,flag_zero,Bool.not_eq_false]

theorem best_smallest (arena : Arena 20 lo hi) (n : Nat) (b : Block) (pre post : List Block)
    (best : BestFit n arena.blocks b pre post) :
    Smallest n (entry b) (pre.map entry ++ post.map entry) := by
  have tiles := arena.tiles
  rw [best.place] at tiles
  obtain ⟨_,after⟩ := tiles_around 20 lo hi pre b post tiles
  have sizes (c : Block) (member : c ∈ pre ++ b::post) :
      (entry c).1.toNat = c.addr ∧ (entry c).2.1.toNat = c.size :=
    entry_sizes placed arena c (best.place ▸ member)
  obtain ⟨addrB,sizeB⟩ := sizes b (by simp)
  refine ⟨(entry_free b).mpr best.free,sizeB.symm ▸ best.room,?_⟩
  intro e member free room
  rcases List.mem_append.mp member with earlier | later
  · obtain ⟨c,inPre,rfl⟩ := List.mem_map.mp earlier
    obtain ⟨_,sizeC⟩ := sizes c (by simp [inPre])
    have less := best.before c inPre ((entry_free c).mp free) (sizeC ▸ room)
    exact Or.inl (by omega)
  · obtain ⟨c,inPost,rfl⟩ := List.mem_map.mp later
    obtain ⟨addrC,sizeC⟩ := sizes c (by simp [inPost])
    have most := best.after c inPost ((entry_free c).mp free) (sizeC ▸ room)
    have beyond := after c inPost
    simp only [Block.limit] at beyond
    by_cases equal : b.size = c.size
    · exact Or.inr ⟨congrArg word equal,by omega⟩
    · exact Or.inl (by omega)

theorem carve_view (arena : Arena 20 lo hi) (m : Word) (b : Block) (member : b ∈ arena.blocks)
    (free : b.free = true) (room : m.toNat ≤ b.size) :
    (carve 20 32 m.toNat b).map entry = takenView m (entry b) := by
  obtain ⟨_,sizeB⟩ := entry_sizes placed arena b member
  rw [takenView,sizeB]
  rcases carve_cases 20 32 m.toNat b free room with ⟨whole,shape⟩ | ⟨part,shape⟩
  · rw [shape,if_neg (by omega)]
    simp only [List.map_cons,List.map_nil,taken,if_pos whole]
    rfl
  · have rest : word (b.size - m.toNat - 20) = word b.size - m - headerSize := by
      apply BitVec.eq_of_toNat_eq
      have small := block_small placed arena b member
      rw [word_toNat _ (by omega),BitVec.toNat_sub,BitVec.toNat_sub,word_toNat b.size (by omega)]
      simp only [headerSize,BitVec.reduceToNat]
      omega
    have next : word (b.addr + 20 + m.toNat) = word b.addr + headerSize + m := by
      rw [← word_add,← word_add,toNat_word]
      rfl
    rw [shape,if_pos (by omega)]
    simp only [List.map_cons,List.map_nil,taken,if_neg (by omega : ¬b.size ≤ m.toNat + 20 + 32),entry,
      toNat_word,rest,next]
    rfl

theorem rep_entries (h : State) (arena : Arena 20 lo hi) (rep : Represents h arena) :
    blockView h = some (arena.blocks.map entry) :=
  rep_view placed h arena rep

theorem others_kept (arena : Arena 20 lo hi) (b : Block) (pre post : List Block)
    (place : arena.blocks = pre ++ b::post) (m m' : Memory) (own : OwnChange arena.blocks b m m') (c : Block)
    (inRest : c ∈ pre ++ post) (i : Word) (inside : i.toNat < c.size) :
    m' (word (c.addr + 20) + i) = m (word (c.addr + 20) + i) := by
  have small := placed.small
  have tiles := arena.tiles
  rw [place] at tiles
  obtain ⟨ends,starts⟩ := tiles_around 20 lo hi pre b post tiles
  have inList : c ∈ arena.blocks := by
    rw [place]
    simp only [List.mem_append,List.mem_cons] at inRest ⊢
    tauto
  have inB : b ∈ arena.blocks := by
    rw [place]
    simp
  have other : c ≠ b := by
    intro equal
    subst equal
    rcases List.mem_append.mp inRest with earlier | later
    · have past := ends c earlier
      simp only [Block.limit] at past
      omega
    · have past := starts c later
      simp only [Block.limit] at past
      omega
  have bounds := tiles_bounds 20 lo hi _ arena.tiles c inList
  simp only [Block.limit] at bounds
  have start : (word (c.addr + 20)).toNat = c.addr + 20 := word_toNat _ (by omega)
  have inC : (word (c.addr + 20) + i).toNat = c.addr + 20 + i.toNat := by
    rw [BitVec.toNat_add,start]
    omega
  exact payload_kept arena b c inB inList other m m' own _ (by omega) (by simp only [Block.limit]; omega)

theorem alloc_serves (h : State) (arena : Arena 20 lo hi) (rep : Represents h arena) (n : Word)
    (nonzero : n ≠ 0) :
    ∃ h' ptr, blackHeapAlloc h n = some (h',ptr) ∧
      ((ptr = 0 ∧ h' = h ∧ ∀ b ∈ arena.blocks, b.free = true → b.size < (blackAlign n 16).toNat) ∨
        (ptr ≠ 0 ∧ ∃ pre b post, Serves h (blackAlign n 16) h' ptr pre b post)) := by
  obtain ⟨h',ptr,returned,⟨null,same,none⟩ | ⟨b,pre,post,best,pointer,rep',own⟩⟩ :=
    alloc_refines placed h arena rep n
  · exact ⟨h',ptr,returned,Or.inl ⟨null,same,none.resolve_left nonzero⟩⟩
  · have small := placed.small
    have member : b ∈ arena.blocks := by
      rw [best.place]
      simp
    have present : ptr ≠ 0 := by
      rw [pointer]
      exact pointer_ne_zero arena small b member
    have before : blockView h = some (pre.map entry ++ entry b::post.map entry) := by
      rw [rep_entries placed h arena rep,best.place]
      simp
    have blocks : (arena.allocate 32 (blackAlign n 16).toNat b.addr).blocks =
        pre ++ carve 20 32 (blackAlign n 16).toNat b ++ post := by
      have tiles := arena.tiles
      rw [best.place] at tiles
      simp only [Arena.allocate,best.place]
      exact allocate_at 20 32 _ lo hi pre b post (by omega) tiles
    have after : blockView h' =
        some (pre.map entry ++ takenView (blackAlign n 16) (entry b) ++ post.map entry) := by
      rw [rep_entries placed h' _ rep',blocks,← carve_view placed arena _ b member best.free best.room]
      simp
    refine ⟨h',ptr,returned,Or.inr ⟨present,_,_,_,before,best_smallest placed arena _ b pre post best,?_,after,?_⟩⟩
    · rw [pointer,← word_add]
      rfl
    · intro e listed i inside
      rw [← List.map_append] at listed
      obtain ⟨c,inRest,rfl⟩ := List.mem_map.mp listed
      have inList : c ∈ arena.blocks := by
        rw [best.place]
        simp only [List.mem_append,List.mem_cons] at inRest ⊢
        tauto
      have base : (entry c).1 + headerSize = word (c.addr + 20) := word_add c.addr 20
      rw [base]
      exact others_kept placed arena b pre post best.place h.mem h'.mem own c inRest i
        ((entry_sizes placed arena c inList).2 ▸ inside)

end

/-- An allocation takes the smallest free block that holds the rounded size, the lowest of equals, and
hands out nothing and changes nothing just when there is none. -/
theorem alloc_exact (start size : Word) (h : State) (booted : Booted start size h) (ops : List Op)
    (s : System) (run : Steps NextContained ⟨h,∅⟩ ops s) (n : Word) (positive : 1 ≤ n)
    (bounded : n ≤ 0xFFFFFFF0) :
    ∃ m view h' ptr, m.toNat = (n.toNat + 15) / 16 * 16 ∧ blockView s.heap = some view ∧
      blackHeapAlloc s.heap n = some (h',ptr) ∧
      (ptr = 0 ↔ ∀ c ∈ view, c.2.2 ≠ 0 → c.2.1 < m) ∧ (ptr = 0 → h' = s.heap) ∧
      (ptr ≠ 0 → ∃ pre b post, Serves s.heap m h' ptr pre b post) := by
  have nonzero : n ≠ 0 := by
    intro zero
    subst zero
    exact absurd positive (by decide)
  have rounded := blackAlign_toNat n bounded
  by_cases nonnull : start = 0
  · subst nonnull
    cases null_contained booted ops s run
    have empty : blockView h = some [] := by simp [blockView,null_blockList booted]
    exact ⟨_,[],h,0,rounded,empty,null_alloc h (booted_head booted) n,by simp,fun _ => rfl,
      fun present => absurd rfl present⟩
  · have placed := booted_placed booted nonnull
    obtain ⟨arena,inv⟩ := contained_inv booted ops s run nonnull
    have view := rep_entries placed s.heap arena inv.rep
    obtain ⟨h',ptr,returned,⟨null,same,none⟩ | ⟨present,pre,b,post,serves⟩⟩ :=
      alloc_serves placed s.heap arena inv.rep n nonzero
    · refine ⟨_,_,h',ptr,rounded,view,returned,iff_of_true null ?_,fun _ => same,fun given => absurd null given⟩
      intro e listed free
      obtain ⟨c,member,rfl⟩ := List.mem_map.mp listed
      rw [BitVec.lt_def,(entry_sizes placed arena c member).2]
      exact none c member ((entry_free c).mp free)
    · refine ⟨_,_,h',ptr,rounded,view,returned,iff_of_false present ?_,fun null => absurd null present,
        fun _ => ⟨pre,b,post,serves⟩⟩
      intro none
      have listed : b ∈ arena.blocks.map entry := by
        rw [Option.some.inj (view.symm.trans serves.place)]
        simp
      have less := none b listed serves.smallest.free
      have room := serves.smallest.room
      rw [BitVec.lt_def] at less
      omega

theorem alloc_exact_second : ∃ h s, Booted 4096 4096 h ∧ Steps NextContained ⟨h,∅⟩ [.alloc 64] s ∧
    ∃ h' ptr, blackHeapAlloc s.heap 100 = some (h',ptr) ∧ (ptr = 0 → h' = s.heap) := by
  obtain ⟨h,s,booted,run,_⟩ := contained_alloc
  obtain ⟨_,_,h',ptr,_,_,returned,_,same,_⟩ := alloc_exact 4096 4096 h booted _ s run 100 (by decide) (by decide)
  exact ⟨h,s,booted,run,h',ptr,returned,same⟩

end BlackOS.Heap
