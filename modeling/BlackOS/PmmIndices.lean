import BlackOS.PmmRun
import BlackOS.Library.Trace

/-! The indices with which the frame allocator reads and writes its bitmap. Every function is
followed with a log of them, and the results are those of the function itself. -/
namespace BlackOS.Pmm
open BlackOS.Library.Ram BlackOS.Library.Bitmap BlackOS.Library.Run BlackOS.Library.Trace
open BlackOS.Heap (blackAlign)

/-- The word of the bitmap that holds a frame's bit. -/
def indexOf (frame : Word) : Nat := frame.toNat / 32

def setFrameTraced (b : Bits 32) (frame : Word) : Traced Nat (Bits 32) :=
  logged (indexOf frame) (some (blackPmmSetFrame b frame))

def clearFrameTraced (b : Bits 32) (frame : Word) : Traced Nat (Bits 32) :=
  logged (indexOf frame) (some (blackPmmClearFrame b frame))

def testFrameTraced (b : Bits 32) (frame : Word) : Traced Nat Bool :=
  logged (indexOf frame) (some (blackPmmTestFrame b frame))

def clearWhen (guard : Prop) [Decidable guard] (b : Bits 32) (frame : Word) : Traced Nat (Bits 32) :=
  if guard then clearFrameTraced b frame else pure b

def findWordTraced (b : Bits 32) : Nat → Nat → Traced Nat Word
  | 0,_ => pure notFound
  | left+1,i => do
    let x ← logged i (some (b i))
    if x ≠ 0xFFFFFFFF then
      -- each round of the inner loop reads the same word
      let found ← logged i (some (findBit (b i) 32 0))
      match found with
      | some j => pure (word (i * 32 + j))
      | none => findWordTraced b left (i+1)
    else findWordTraced b left (i+1)

def findRunTraced (b : Bits 32) (count : Word) : Nat → Word → Word → Word → Traced Nat Word
  | 0,_,_,_ => pure notFound
  | left+1,i,start,found => do
    let taken ← testFrameTraced b i
    if !taken then
      let start := if found = 0 then i else start
      let found := found + 1
      if count ≤ found then pure start else findRunTraced b count left (i+1) start found
    else findRunTraced b count left (i+1) start 0

def clearPagesTraced (limit : BitVec 64) : Nat → BitVec 64 → Bits 32 → Traced Nat (Bits 32)
  | 0,_,_ => quiet none
  | fuel+1,addr,b =>
    if addr < limit then do
      let frame := frameOf addr
      let b ← clearWhen (0 < frame.toNat ∧ frame.toNat < maxFrames) b frame
      clearPagesTraced limit fuel (addr + 4096) b
    else pure b

def addEntryTraced (e : MmapEntry) (s : State) : Traced Nat State :=
  if e.type = mmapAvailable then do
    let bitmap ← clearPagesTraced (e.addr + e.len) (2^52 + 1) e.addr s.bitmap
    return {s with bitmap := bitmap,totalMemory := s.totalMemory + e.len.truncate 32}
  else pure s

def readMapTraced (m : Memory) (mmapEnd : Word) : Nat → Word → State → Traced Nat State
  | 0,_,_ => quiet none
  | fuel+1,addr,s =>
    if addr < mmapEnd then do
      let s ← addEntryTraced (mmapEntry m addr) s
      readMapTraced m mmapEnd fuel (addr + ((mmapEntry m addr).size + 4)) s
    else pure s

def setKernelTraced (kernelEnd : Word) (b : Bits 32) : Traced Nat (Bits 32) :=
  (List.range ((kernelEnd.toNat + 4095) / 4096)).foldlM
    (fun b i => setFrameTraced b (word (4096 * i) / blackPageSize)) b

def countUsedTraced (b : Bits 32) (total : Word) : Traced Nat Word :=
  (List.range (total.toNat / 32)).foldlM (fun used i =>
    (List.range 32).foldlM (fun used j =>
      logged i (some (if b i &&& 1#32 <<< j ≠ 0 then used + 1 else used))) used) 0

def clearUpperTraced (limit : Word) : Nat → Word → Bits 32 → Traced Nat (Bits 32)
  | 0,_,_ => quiet none
  | fuel+1,addr,b =>
    if addr < limit then do
      let frame := addr / blackPageSize
      let b ← clearWhen (frame.toNat < maxFrames) b frame
      clearUpperTraced limit fuel (addr + blackPageSize) b
    else pure b

/-- The `memset` over the whole bitmap. -/
def fillTraced : Traced Nat (Bits 32) := ⟨List.range bitmapSize,some (fun _ => 0xFFFFFFFF)⟩

def blackPmmInitTraced (m : Memory) (mboot : MultibootInfo) (kernelEndPhys : Word) (s : State) :
    Traced Nat State := do
  let kernelEnd := blackAlign kernelEndPhys blackPageSize
  let full ← fillTraced
  let s := {s with bitmap := full}
  if mboot.flags &&& 0x40 = 0 then
    let totalMemory := (mboot.memUpper + 1024) * 1024
    let bitmap ← clearUpperTraced totalMemory (2^20 + 1) kernelEnd s.bitmap
    return ⟨bitmap,totalMemory / blackPageSize,kernelEnd / blackPageSize,totalMemory⟩
  else
    let mmapAddr := mboot.mmapAddr + kernelVma
    let s ← readMapTraced m (mmapAddr + mboot.mmapLength) (2^32 + 1) mmapAddr s
    let bitmap ← setKernelTraced kernelEnd s.bitmap
    let total := s.totalMemory / blackPageSize
    let total := if maxFrames < total.toNat then word maxFrames else total
    let used ← countUsedTraced bitmap total
    return ⟨bitmap,total,used,s.totalMemory⟩

def allocFrameTraced (s : State) : Traced Nat (State × Word) := do
  let frame ← findWordTraced s.bitmap bitmapSize 0
  if frame = notFound then return (s,0)
  let bitmap ← setFrameTraced s.bitmap frame
  return ({s with bitmap := bitmap,usedFrames := s.usedFrames + 1},frame * blackPageSize)

def freeFrameTraced (s : State) (addr : Word) : Traced Nat State :=
  let frame := addr / blackPageSize
  if maxFrames ≤ frame.toNat then pure s else do
  let taken ← testFrameTraced s.bitmap frame
  if taken then
    let bitmap ← clearFrameTraced s.bitmap frame
    return {s with bitmap := bitmap,usedFrames := s.usedFrames - 1}
  else return s

/-- The loop of `black_pmm_alloc_frames` that takes the frames it has found. -/
def takeTraced (start : Word) (n : Nat) (s : State) : Traced Nat State :=
  (List.range n).foldlM (fun (s : State) i => do
    let bitmap ← setFrameTraced s.bitmap (start + word i)
    return {s with bitmap := bitmap,usedFrames := s.usedFrames + 1}) s

def allocFramesTraced (s : State) (count : Word) : Traced Nat (State × Word) := do
  let start ← findRunTraced s.bitmap count s.totalFrames.toNat 0 0 0
  if start = notFound then return (s,0)
  let s ← takeTraced start count.toNat s
  return (s,start * blackPageSize)

def freeFramesTraced (s : State) (addr count : Word) : Traced Nat State :=
  let frame := addr / blackPageSize
  (List.range count.toNat).foldlM (fun (s : State) i =>
    if (frame + word i).toNat < maxFrames then do
      let bitmap ← clearFrameTraced s.bitmap (frame + word i)
      return {s with bitmap := bitmap,usedFrames := s.usedFrames - 1}
    else pure s) s

/-- One call with any arguments. -/
def call (s : State) : Op → State
  | .allocFrame => (blackPmmAllocFrame s).1
  | .allocFrames count => (blackPmmAllocFrames s count).1
  | .freeFrame addr => blackPmmFreeFrame s addr
  | .freeFrames addr count => blackPmmFreeFrames s addr count

def callTraced (s : State) : Op → Traced Nat State
  | .allocFrame => do return (← allocFrameTraced s).1
  | .allocFrames count => do return (← allocFramesTraced s count).1
  | .freeFrame addr => freeFrameTraced s addr
  | .freeFrames addr count => freeFramesTraced s addr count

/-! The results are those of the functions. -/

theorem findWordTraced_result (b : Bits 32) (left i : Nat) :
    (findWordTraced b left i).result = some (findWord b left i) := by
  induction left generalizing i with
  | zero => rfl
  | succ left ih =>
    rw [findWordTraced,findWord,result_bind,result_logged,Option.bind_some]
    split
    · rw [result_bind,result_logged,Option.bind_some]
      cases findBit (b i) 32 0 with
      | none => exact ih (i+1)
      | some j => rfl
    · exact ih (i+1)

theorem findRunTraced_result (b : Bits 32) (count : Word) (left : Nat) (i start found : Word) :
    (findRunTraced b count left i start found).result = some (findRun b count left i start found) := by
  induction left generalizing i start found with
  | zero => rfl
  | succ left ih =>
    rw [findRunTraced,findRun,result_bind,testFrameTraced,result_logged,Option.bind_some]
    split
    · dsimp only
      split
      · rfl
      · exact ih _ _ _
    · exact ih _ _ _

theorem clearWhen_result (guard : Prop) [Decidable guard] (b : Bits 32) (frame : Word) :
    (clearWhen guard b frame).result = some (if guard then blackPmmClearFrame b frame else b) := by
  rw [clearWhen]
  split
  · rfl
  · rfl

theorem clearPagesTraced_result (limit : BitVec 64) (fuel : Nat) (addr : BitVec 64) (b : Bits 32) :
    (clearPagesTraced limit fuel addr b).result = clearPages limit fuel addr b :=
  result_while (· < limit) (· + 4096) _ _ (fun _ _ => rfl) (fun _ _ _ => rfl) _ _ (fun _ _ => rfl) (fun _ _ _ => rfl)
    (fun addr b => clearWhen_result _ b (frameOf addr)) fuel addr b

theorem addEntryTraced_result (e : MmapEntry) (s : State) : (addEntryTraced e s).result = addEntry e s := by
  rw [addEntryTraced,addEntry]
  by_cases available : e.type = mmapAvailable
  · rw [if_pos available,if_pos available,result_bind,clearPagesTraced_result]
    rfl
  · rw [if_neg available,if_neg available,result_pure]

theorem readMapTraced_result (m : Memory) (mmapEnd : Word) (fuel : Nat) (addr : Word) (s : State) :
    (readMapTraced m mmapEnd fuel addr s).result = readMap m mmapEnd fuel addr s :=
  result_while (· < mmapEnd) _ _ _ (fun _ _ => rfl) (fun _ _ _ => rfl) _ _ (fun _ _ => rfl) (fun _ _ _ => rfl)
    (fun addr s => addEntryTraced_result (mmapEntry m addr) s) fuel addr s

theorem clearUpperTraced_result (limit : Word) (fuel : Nat) (addr : Word) (b : Bits 32) :
    (clearUpperTraced limit fuel addr b).result = clearUpper limit fuel addr b :=
  result_while (· < limit) (· + blackPageSize) _ _ (fun _ _ => rfl) (fun _ _ _ => rfl) _ _ (fun _ _ => rfl)
    (fun _ _ _ => rfl) (fun addr b => clearWhen_result _ b (addr / blackPageSize)) fuel addr b

theorem setKernelTraced_result (kernelEnd : Word) (b : Bits 32) :
    (setKernelTraced kernelEnd b).result = some (setKernel kernelEnd b) :=
  result_foldlM _ _ _ (fun _ _ _ => rfl) b

theorem countUsedTraced_result (b : Bits 32) (total : Word) :
    (countUsedTraced b total).result = some (countUsed b total) :=
  result_foldlM _ _ _ (fun used _ _ => result_foldlM _ _ _ (fun _ _ _ => rfl) used) 0

theorem initTraced_result (m : Memory) (mboot : MultibootInfo) (kernelEndPhys : Word) (s : State) :
    (blackPmmInitTraced m mboot kernelEndPhys s).result = blackPmmInit m mboot kernelEndPhys s := by
  rw [blackPmmInitTraced,blackPmmInit,result_bind,fillTraced,Option.bind_some]
  dsimp only
  split
  · rw [result_bind,clearUpperTraced_result]
    rfl
  · rw [result_bind,readMapTraced_result]
    refine congrArg _ (funext fun s => ?_)
    rw [result_bind,setKernelTraced_result,Option.bind_some,result_bind,countUsedTraced_result,Option.bind_some]
    rfl

theorem allocFrameTraced_result (s : State) : (allocFrameTraced s).result = some (blackPmmAllocFrame s) := by
  have search : (findWordTraced s.bitmap bitmapSize 0).result = some (blackPmmFindFree s) :=
    findWordTraced_result _ _ _
  rw [allocFrameTraced,blackPmmAllocFrame,result_bind,search,Option.bind_some]
  by_cases missing : blackPmmFindFree s = notFound
  · simp only [if_pos missing,result_pure]
  · simp only [if_neg missing]
    rfl

theorem allocFramesTraced_result (s : State) (count : Word) :
    (allocFramesTraced s count).result = some (blackPmmAllocFrames s count) := by
  have search : (findRunTraced s.bitmap count s.totalFrames.toNat 0 0 0).result =
      some (blackPmmFindFreeContiguous s count) := findRunTraced_result _ _ _ _ _ _
  rw [allocFramesTraced,blackPmmAllocFrames,result_bind,search,Option.bind_some]
  by_cases missing : blackPmmFindFreeContiguous s count = notFound
  · simp only [if_pos missing,result_pure]
  · simp only [if_neg missing]
    rw [result_bind,takeTraced,result_foldlM _ _ _ (fun _ _ _ => rfl),Option.bind_some]
    rfl

theorem freeFrameTraced_result (s : State) (addr : Word) :
    (freeFrameTraced s addr).result = some (blackPmmFreeFrame s addr) := by
  rw [freeFrameTraced,blackPmmFreeFrame]
  by_cases beyond : maxFrames ≤ (addr / blackPageSize).toNat
  · simp only [if_pos beyond,result_pure]
  · simp only [if_neg beyond,result_bind,testFrameTraced,result_logged,Option.bind_some]
    by_cases taken : blackPmmTestFrame s.bitmap (addr / blackPageSize) = true
    · simp only [if_pos taken]
      rfl
    · simp only [if_neg taken,result_pure]

theorem freeFramesTraced_result (s : State) (addr count : Word) :
    (freeFramesTraced s addr count).result = some (blackPmmFreeFrames s addr count) := by
  refine result_foldlM _ _ _ ?_ s
  intro s i _
  by_cases inside : (addr / blackPageSize + word i).toNat < maxFrames
  · rw [if_pos inside,if_pos inside]
    rfl
  · rw [if_neg inside,if_neg inside,result_pure]

theorem callTraced_result (s : State) (op : Op) : (callTraced s op).result = some (call s op) := by
  cases op with
  | allocFrame =>
    rw [callTraced,result_bind,allocFrameTraced_result]
    rfl
  | allocFrames count =>
    rw [callTraced,result_bind,allocFramesTraced_result]
    rfl
  | freeFrame addr => exact freeFrameTraced_result s addr
  | freeFrames addr count => exact freeFramesTraced_result s addr count

/-! Where the indices lie. -/

abbrev InRange {α : Type} (x : Traced Nat α) : Prop := Only (fun i => i < bitmapSize) x

theorem indexOf_lt (frame : Word) : indexOf frame < bitmapSize ↔ frame.toNat < maxFrames := by
  simp only [indexOf,bitmapSize,maxFrames]
  omega

theorem clearWhen_inRange (guard : Prop) [Decidable guard] (b : Bits 32) (frame : Word)
    (low : guard → frame.toNat < maxFrames) : InRange (clearWhen guard b frame) := by
  rw [clearWhen]
  split
  · rename_i holds
    exact (only_logged _ _ _).mpr ((indexOf_lt frame).mpr (low holds))
  · exact only_pure _ b

theorem findWord_inRange (b : Bits 32) (left i : Nat) (room : i + left ≤ bitmapSize) :
    InRange (findWordTraced b left i) := by
  induction left generalizing i with
  | zero => exact only_pure _ _
  | succ left ih =>
    have here : i < bitmapSize := by omega
    rw [findWordTraced,InRange,only_bind,only_logged]
    refine ⟨here,fun x _ => ?_⟩
    split
    · rw [only_bind,only_logged]
      refine ⟨here,fun found _ => ?_⟩
      cases found with
      | none => exact ih (i+1) (by omega)
      | some j => exact only_pure _ _
    · exact ih (i+1) (by omega)

theorem clearPages_inRange (limit : BitVec 64) (fuel : Nat) (addr : BitVec 64) (b : Bits 32) :
    InRange (clearPagesTraced limit fuel addr b) :=
  only_while (· < limit) (· + 4096) _ _ (fun _ _ => rfl) (fun _ _ _ => rfl) _
    (fun addr b => clearWhen_inRange _ b (frameOf addr) fun both => both.2) fuel addr b

theorem addEntry_inRange (e : MmapEntry) (s : State) : InRange (addEntryTraced e s) := by
  rw [addEntryTraced]
  split
  · refine (only_bind _ _ _).mpr ⟨clearPages_inRange _ _ _ _,fun b _ => only_pure _ _⟩
  · exact only_pure _ s

theorem readMap_inRange (m : Memory) (mmapEnd : Word) (fuel : Nat) (addr : Word) (s : State) :
    InRange (readMapTraced m mmapEnd fuel addr s) :=
  only_while (· < mmapEnd) _ _ _ (fun _ _ => rfl) (fun _ _ _ => rfl) _
    (fun addr s => addEntry_inRange (mmapEntry m addr) s) fuel addr s

theorem clearUpper_inRange (limit : Word) (fuel : Nat) (addr : Word) (b : Bits 32) :
    InRange (clearUpperTraced limit fuel addr b) :=
  only_while (· < limit) (· + blackPageSize) _ _ (fun _ _ => rfl) (fun _ _ _ => rfl) _
    (fun addr b => clearWhen_inRange _ b (addr / blackPageSize) id) fuel addr b

theorem setKernel_inRange (kernelEnd : Word) (low : kernelEnd.toNat ≤ 2^30) (b : Bits 32) :
    InRange (setKernelTraced kernelEnd b) := by
  refine only_foldlM _ _ _ ?_ b
  intro b i member
  have inside := List.mem_range.mp member
  refine (only_logged _ _ _).mpr ((indexOf_lt _).mpr ?_)
  rw [BitVec.toNat_udiv,word_toNat _ (by omega)]
  simp only [blackPageSize,BitVec.reduceToNat,maxFrames]
  omega

theorem countUsed_inRange (b : Bits 32) (total : Word) (bounded : total.toNat ≤ maxFrames) :
    InRange (countUsedTraced b total) := by
  refine only_foldlM _ _ _ ?_ 0
  intro used i member
  have inside := List.mem_range.mp member
  refine only_foldlM _ _ _ (fun used j _ => (only_logged _ _ _).mpr ?_) used
  simp only [bitmapSize]
  omega

theorem aligned_low (kernelEndPhys : Word) (low : kernelEndPhys.toNat < 2^30) :
    (blackAlign kernelEndPhys blackPageSize).toNat ≤ 2^30 := by
  have sum : (kernelEndPhys + (blackPageSize - 1)).toNat = kernelEndPhys.toNat + 4095 := by
    rw [BitVec.toNat_add]
    simp only [blackPageSize,BitVec.reduceSub,BitVec.reduceToNat]
    omega
  have most : (blackAlign kernelEndPhys blackPageSize).toNat ≤ kernelEndPhys.toNat + 4095 := by
    rw [blackAlign,BitVec.toNat_and,← sum]
    exact Nat.and_le_left
  have multiple : (blackAlign kernelEndPhys blackPageSize).toNat % 2^12 = 0 := by
    rw [blackAlign,BitVec.toNat_and,Nat.and_mod_two_pow]
    exact Nat.and_zero _
  omega

theorem fill_inRange : InRange fillTraced := by
  intro i member
  simp only [fillTraced,List.mem_range] at member
  exact member

/-- Boot keeps within the bitmap on both of its paths, also when it does not return. -/
theorem init_inRange (m : Memory) (mboot : MultibootInfo) (kernelEndPhys : Word)
    (low : kernelEndPhys.toNat < 2^30) (s : State) :
    InRange (blackPmmInitTraced m mboot kernelEndPhys s) := by
  rw [blackPmmInitTraced]
  dsimp only
  rw [InRange,only_bind]
  refine ⟨fill_inRange,fun full _ => ?_⟩
  split
  · rw [only_bind]
    exact ⟨clearUpper_inRange _ _ _ _,fun _ _ => only_pure _ _⟩
  · rw [only_bind]
    refine ⟨readMap_inRange _ _ _ _ _,fun s _ => ?_⟩
    rw [only_bind]
    refine ⟨setKernel_inRange _ (aligned_low kernelEndPhys low) _,fun bitmap _ => ?_⟩
    rw [only_bind]
    refine ⟨countUsed_inRange _ _ ?_,fun _ _ => only_pure _ _⟩
    have whole : (word maxFrames).toNat = maxFrames := rfl
    split
    · exact Nat.le_of_eq whole
    · omega

theorem take_inRange (a n : Nat) (room : a + n ≤ maxFrames) (s : State) : InRange (takeTraced (word a) n s) := by
  have small : maxFrames < 2^32 := by decide
  refine only_foldlM _ _ _ ?_ s
  intro s i member
  have inside := List.mem_range.mp member
  rw [only_bind]
  refine ⟨(only_logged _ _ _).mpr ((indexOf_lt _).mpr ?_),fun _ _ => only_pure _ _⟩
  rw [word_add,word_toNat _ (by omega)]
  omega

/-- The run that ends the scan: of `count` frames, or of one for a request of none. -/
def scanned (count : Word) : Nat := max 1 count.toNat

/-- The scan keeps within the bitmap when it has no frames beyond it to read, or finds its run before. -/
theorem findRun_inRange (b : Bits 32) (count : Word) (left : Nat) (i start found : Word)
    (inside : i.toNat ≤ maxFrames) (scan : Scan b (scanned count) i.toNat start.toNat found.toNat) :
    InRange (findRunTraced b count left i start found) ↔
      i.toNat + left ≤ maxFrames ∨ ∃ a, FreeRun b (scanned count) maxFrames a := by
  have small : maxFrames = 262144 := rfl
  induction left generalizing i start found with
  | zero => exact iff_of_true (only_pure _ _) (Or.inl inside)
  | succ left ih =>
    rw [findRunTraced,InRange,only_bind,testFrameTraced,only_logged,indexOf_lt]
    by_cases beyond : i.toNat < maxFrames
    · have next := succ_toNat i (by omega)
      have limit : i.toNat + (left+1) = (i+1).toNat + left := by omega
      simp only [beyond,true_and,result_logged,Option.some.injEq,forall_eq',testFrame_eq,limit]
      split
      · rename_i off
        have isClear : isSet b i.toNat = false := by simpa using off
        have short := scan.short
        have wide : scanned count < 2^32 := by
          have bound := count.isLt
          rw [scanned]
          omega
        obtain ⟨more,reach,run,grows⟩ := scan_turn b (scanned count) i start found scan wide isClear
        split
        · rename_i enough
          rw [BitVec.le_def] at enough
          refine iff_of_true (only_pure _ _) (Or.inr ⟨_,?_,fun f above below => run f above ?_⟩)
          · rw [scanned] at short ⊢
            omega
          · rw [scanned] at short below
            omega
        · rename_i notEnough
          rw [BitVec.le_def] at notEnough
          have onward := grows (by rw [scanned]; omega)
          rw [← next,← more] at onward
          exact ih (i+1) _ (found+1) (by omega) onward
      · rename_i taken
        have onward := scan_taken b _ _ _ _ scan (by simpa using taken)
        rw [← next] at onward
        exact ih (i+1) start 0 (by omega) onward
    · -- past the bitmap, and nothing found below it
      refine iff_of_false (fun both => beyond both.1) ?_
      intro either
      rcases either with room | ⟨a,run⟩
      · omega
      · exact scan.none a ⟨by have room := run.1; omega,run.2⟩

theorem allocFrames_inRange (s : State) (count : Word) : InRange (allocFramesTraced s count) ↔
    s.totalFrames.toNat ≤ maxFrames ∨ ∃ a, FreeRun s.bitmap (scanned count) maxFrames a := by
  have positive : 0 < scanned count := by
    rw [scanned]
    omega
  have zero : (0 : Word).toNat + s.totalFrames.toNat = s.totalFrames.toNat := Nat.zero_add _
  have search := findRun_inRange s.bitmap count s.totalFrames.toNat 0 0 0 (Nat.zero_le _)
    (scan_first s.bitmap _ positive)
  rw [zero] at search
  rw [allocFramesTraced,InRange,only_bind,← search]
  refine and_iff_left_of_imp fun within start found => ?_
  rw [findRunTraced_result] at found
  cases Option.some.inj found
  split
  · exact only_pure _ _
  · rename_i present
    rw [only_bind]
    refine ⟨?_,fun _ _ => only_pure _ _⟩
    by_cases none : count.toNat = 0
    · rw [none]
      exact only_pure _ s
    · have whole : scanned count = count.toNat := by
        rw [scanned]
        omega
      have bound := s.totalFrames.isLt
      have spec := findRun_spec s.bitmap count s.totalFrames.toNat 0 0 0 (by omega)
        (scan_first s.bitmap count.toNat (by omega))
      rw [zero] at spec
      rcases spec with ⟨missing,_⟩ | ⟨a,found,run,least⟩
      · exact absurd missing present
      · have room := run.1
        rw [found]
        apply take_inRange
        rcases search.mp within with small | ⟨c,first⟩
        · omega
        · -- the scan stops at the lowest run, which is not above the one within the bitmap
          rw [whole] at first
          have below := first.1
          by_contra beyond
          exact least c (by omega) ⟨by omega,first.2⟩

/-- A contiguous request that ends its scan within the bitmap. -/
def Reached (s : State) : Op → Prop
  | .allocFrames count => ∃ a, FreeRun s.bitmap (scanned count) maxFrames a
  | _ => True

theorem call_inRange (s : State) (op : Op) :
    InRange (callTraced s op) ↔ s.totalFrames.toNat ≤ maxFrames ∨ Reached s op := by
  cases op with
  | allocFrame =>
    refine iff_of_true ?_ (Or.inr trivial)
    rw [callTraced,InRange,only_bind]
    refine ⟨?_,fun _ _ => only_pure _ _⟩
    rw [allocFrameTraced,only_bind]
    refine ⟨findWord_inRange s.bitmap bitmapSize 0 (by omega),fun frame found => ?_⟩
    rw [findWordTraced_result] at found
    split
    · exact only_pure _ _
    · rename_i present
      rw [only_bind,setFrameTraced,only_logged,indexOf_lt]
      refine ⟨?_,fun _ _ => only_pure _ _⟩
      cases Option.some.inj found
      rcases findFree_spec s with ⟨missing,_⟩ | ⟨f,same,low,_⟩
      · exact absurd missing present
      · have small : maxFrames = 262144 := rfl
        change (blackPmmFindFree s).toNat < maxFrames
        rw [same,word_toNat f (by omega)]
        exact low
  | allocFrames count =>
    rw [callTraced,InRange,only_bind]
    exact (and_iff_left fun _ _ => only_pure _ _).trans (allocFrames_inRange s count)
  | freeFrame addr =>
    refine iff_of_true ?_ (Or.inr trivial)
    rw [callTraced,freeFrameTraced]
    split
    · exact only_pure _ s
    · rename_i inside
      have low : (addr / blackPageSize).toNat < maxFrames := by omega
      rw [InRange,only_bind,testFrameTraced,only_logged,indexOf_lt]
      refine ⟨low,fun taken _ => ?_⟩
      split
      · rw [only_bind,clearFrameTraced,only_logged,indexOf_lt]
        exact ⟨low,fun _ _ => only_pure _ _⟩
      · exact only_pure _ s
  | freeFrames addr count =>
    refine iff_of_true ?_ (Or.inr trivial)
    refine only_foldlM _ _ _ ?_ s
    intro s i _
    split
    · rename_i low
      rw [only_bind,clearFrameTraced,only_logged,indexOf_lt]
      exact ⟨low,fun _ _ => only_pure _ _⟩
    · exact only_pure _ s

/-! Runs. -/

/-- Boot and the calls after it. -/
def bootAndRun (m : Memory) (mboot : MultibootInfo) (kernelEndPhys : Word) (ops : List Op) : Traced Nat State := do
  let s ← blackPmmInitTraced m mboot kernelEndPhys unset
  ops.foldlM callTraced s

theorem run_inRange (s : State) (ops : List Op) :
    InRange (ops.foldlM callTraced s) ↔ Throughout call (fun s op => InRange (callTraced s op)) s ops := by
  induction ops generalizing s with
  | nil => exact iff_of_true (only_pure _ s) trivial
  | cons op ops ih =>
    rw [List.foldlM_cons,InRange,only_bind,callTraced_result,Throughout]
    simp only [Option.some.injEq,forall_eq']
    exact and_congr_right fun _ => ih (call s op)

theorem call_total (s : State) (op : Op) : (call s op).totalFrames = s.totalFrames := by
  have kept (f : State → Nat → State) (same : ∀ s i, (f s i).totalFrames = s.totalFrames) (items : List Nat)
      (s : State) : (items.foldl f s).totalFrames = s.totalFrames := by
    induction items generalizing s with
    | nil => rfl
    | cons i items ih => rw [List.foldl_cons,ih,same]
  cases op with
  | allocFrame =>
    simp only [call,blackPmmAllocFrame]
    split <;> rfl
  | allocFrames count =>
    simp only [call,blackPmmAllocFrames]
    split
    · rfl
    · apply kept
      intro s i
      rfl
  | freeFrame addr =>
    simp only [call,blackPmmFreeFrame]
    split
    · rfl
    · split <;> rfl
  | freeFrames addr count =>
    refine kept _ (fun s i => ?_) _ s
    split <;> rfl

theorem run_reached (s : State) (ops : List Op) :
    Throughout call (fun s op => InRange (callTraced s op)) s ops ↔
      s.totalFrames.toNat ≤ maxFrames ∨ Throughout call Reached s ops := by
  induction ops generalizing s with
  | nil => exact iff_of_true trivial (Or.inr trivial)
  | cons op ops ih => rw [Throughout,Throughout,call_inRange,ih,call_total,or_and_left]

/-- The memory-map path, or a total of at most 1 GiB on the other one. -/
def SmallTotal (mboot : MultibootInfo) : Prop :=
  mboot.flags &&& 0x40 ≠ 0 ∨ ((mboot.memUpper + 1024) * 1024).toNat / 4096 ≤ maxFrames

theorem init_total (m : Memory) (mboot : MultibootInfo) (kernelEndPhys : Word) (s : State)
    (init : blackPmmInit m mboot kernelEndPhys unset = some s) :
    s.totalFrames.toNat ≤ maxFrames ↔ SmallTotal mboot := by
  by_cases path : mboot.flags &&& 0x40 = 0
  · rw [SmallTotal,or_iff_right (not_not.mpr path)]
    simp only [blackPmmInit,if_pos path] at init
    obtain ⟨b,_,rest⟩ := Option.bind_eq_some_iff.mp init
    cases rest
    rw [BitVec.toNat_udiv]
    rfl
  · obtain ⟨entries,_,mapped⟩ := init_mapped m mboot kernelEndPhys s path init
    refine iff_of_true ?_ (Or.inl path)
    rw [mapped.total,mapTotal]
    exact Nat.min_le_left _ _

/-- Boot and every run after it keep within the bitmap exactly when the total is at most the bitmap's,
or no contiguous request of the run has to scan past its end. -/
theorem indices_inRange_iff (m : Memory) (mboot : MultibootInfo) (kernelEndPhys : Word)
    (kernel : kernelEndPhys.toNat < 2^30) (ops : List Op) :
    InRange (bootAndRun m mboot kernelEndPhys ops) ↔
      SmallTotal mboot ∨ ∀ s, blackPmmInit m mboot kernelEndPhys unset = some s → Throughout call Reached s ops := by
  rw [bootAndRun,InRange,only_bind,initTraced_result,
    and_iff_right (init_inRange m mboot kernelEndPhys kernel unset)]
  by_cases small : SmallTotal mboot
  · refine iff_of_true (fun s init => ?_) (Or.inl small)
    exact (run_inRange s ops).mpr ((run_reached s ops).mpr
      (Or.inl ((init_total m mboot kernelEndPhys s init).mpr small)))
  · rw [or_iff_right small]
    refine forall_congr' fun s => imp_congr_right fun init => ?_
    have beyond := mt (init_total m mboot kernelEndPhys s init).mp small
    exact (run_inRange s ops).trans ((run_reached s ops).trans (or_iff_right beyond))

theorem indices_inRange_map : InRange (bootAndRun (oneRegion 0x100000 0x1000) oneRegionInfo 0x1000
    [.allocFrames 0xFFFFFFFF,.freeFrames 0xFFFFF000 0xFFFFFFFF]) :=
  (indices_inRange_iff _ _ 0x1000 (by decide) _).mpr (Or.inl (Or.inl (by decide)))

theorem clearUpper_returns (limit : Word) (low : limit.toNat + 4096 ≤ 2^32) (fuel : Nat) (addr : Word)
    (b : Bits 32) (enough : limit.toNat ≤ addr.toNat + 4096 * fuel) :
    ∃ b', clearUpper limit (fuel+1) addr b = some b' := by
  induction fuel generalizing addr b with
  | zero =>
    have past : ¬addr < limit := by rw [BitVec.lt_def]; omega
    exact ⟨b,by rw [clearUpper,if_neg past]⟩
  | succ fuel ih =>
    rw [clearUpper]
    split
    · rename_i below
      rw [BitVec.lt_def] at below
      have next : (addr + blackPageSize).toNat = addr.toNat + 4096 := by
        rw [BitVec.toNat_add]
        simp only [blackPageSize,BitVec.reduceToNat]
        omega
      exact ih _ _ (by omega)
    · exact ⟨b,rfl⟩

/-- 2 GiB of upper memory and no memory map: a request for one frame more than the bitmap has. -/
theorem indices_out_of_range :
    ¬InRange (bootAndRun (fun _ => 0) ⟨0,2096128,0,0⟩ 0x1000 [.allocFrames 262145]) := by
  obtain ⟨b,cleared⟩ := clearUpper_returns 0x80000000 (by decide) (2^20) (blackAlign 0x1000 blackPageSize)
    (fun _ => 0xFFFFFFFF) (by decide)
  have init : blackPmmInit (fun _ => 0) ⟨0,2096128,0,0⟩ 0x1000 unset =
      some ⟨b,0x80000000 / blackPageSize,blackAlign 0x1000 blackPageSize / blackPageSize,0x80000000⟩ := by
    have total : ((2096128 : Word) + 1024) * 1024 = 0x80000000 := by decide
    simp only [blackPmmInit,if_pos (by decide : (0 : Word) &&& 0x40 = 0),total,cleared]
    rfl
  rw [bootAndRun,InRange,only_bind,initTraced_result,init]
  intro within
  have runs := (run_inRange _ _).mp (within.2 _ rfl)
  rcases (call_inRange _ _).mp runs.1 with small | ⟨a,run⟩
  · have large : ¬((0x80000000 : Word) / blackPageSize).toNat ≤ maxFrames := by decide
    exact large small
  · have room := run.1
    have wide : scanned 262145 = maxFrames + 1 := by decide
    omega

end BlackOS.Pmm
