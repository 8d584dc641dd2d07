import BlackOS.HeapRun
import BlackOS.Library.Access

/-! The calls of `kernel/mm/heap.c` as the loads and stores of bytes that they make. Over a flat memory they are
those of the heap's model. -/
namespace BlackOS.HeapAccess
open BlackOS.Library.Ram BlackOS.Library.Access
open BlackOS.Heap (blackHeapMagic blackHeapDead blackHeapMinBlock headerSize blackAlign addressCount header)

abbrev Code (α : Type) := Program Word Byte α

def load32 (a : Word) : Code Word := do
  let first ← load a
  let second ← load (a+1)
  let third ← load (a+2)
  let fourth ← load (a+3)
  return BitVec.ofNat 32 (first.toNat + 256 * second.toNat + 65536 * third.toNat + 16777216 * fourth.toNat)

def store32 (a v : Word) : Code Unit := do
  store a (byteOf v 0)
  store (a+1) (byteOf v 1)
  store (a+2) (byteOf v 2)
  store (a+3) (byteOf v 3)

def getMagic (b : Word) : Code Word := load32 b
def getSize (b : Word) : Code Word := load32 (b+4)
def getFree (b : Word) : Code Word := load32 (b+8)
def getNext (b : Word) : Code Word := load32 (b+12)
def getPrev (b : Word) : Code Word := load32 (b+16)

def setMagic (b v : Word) : Code Unit := store32 b v
def setSize (b v : Word) : Code Unit := store32 (b+4) v
def setFree (b v : Word) : Code Unit := store32 (b+8) v
def setNext (b v : Word) : Code Unit := store32 (b+12) v
def setPrev (b v : Word) : Code Unit := store32 (b+16) v

def memsetLoop (value : Byte) : Nat → Word → Code Unit
  | 0,_ => return ()
  | n+1,d => do
    store d value
    memsetLoop value n (d+1)

def memset (dst val n : Word) : Code Unit := memsetLoop (val.setWidth 8) n.toNat dst

def memcpyLoop : Nat → Word → Word → Code Unit
  | 0,_,_ => return ()
  | n+1,d,s => do
    store d (← load s)
    memcpyLoop n (d+1) (s+1)

def memcpy (dst src n : Word) : Code Unit := memcpyLoop n.toNat dst src

def blackHeapSplit (block size : Word) : Code Unit := do
  let own ← getSize block
  if own ≤ size + headerSize + blackHeapMinBlock then return () else
  let new := block + headerSize + size
  setMagic new blackHeapMagic
  setSize new ((← getSize block) - size - headerSize)
  setFree new 1
  setNext new (← getNext block)
  setPrev new block
  if (← getNext block) ≠ 0 then setPrev (← getNext block) new
  setNext block new
  setSize block size

def blackHeapMerge (block : Word) : Code Unit := do
  let next ← getNext block
  if next = 0 then return () else
  if (← getFree next) = 0 then return () else
  if (← getMagic next) ≠ blackHeapMagic then return () else
  setSize block ((← getSize block) + (headerSize + (← getSize next)))
  setMagic (← getNext block) blackHeapDead
  setNext block (← getNext (← getNext block))
  if (← getNext block) ≠ 0 then setPrev (← getNext block) block

/-- The smaller of the best block so far and another one. -/
def better (best cur own : Word) : Code Word :=
  if best = 0 then return cur else do
  return if own < (← getSize best) then cur else best

/-- The search of `black_heap_alloc`; it never ends when its fuel runs out. -/
def findBest (size : Word) : Nat → Word → Word → Code (Option Word)
  | 0,_,_ => return none
  | fuel+1,best,cur => do
    if cur = 0 then return some best else
    if (← getMagic cur) ≠ blackHeapMagic then return some best else
    if (← getFree cur) = 0 then findBest size fuel best (← getNext cur) else
    let own ← getSize cur
    if ¬size ≤ own then findBest size fuel best (← getNext cur) else
    let best ← better best cur own
    if own = size then return some best else findBest size fuel best (← getNext cur)

/-- No result is a call that never returns. -/
def blackHeapAlloc (head size : Word) : Code (Option Word) :=
  if size = 0 then return some 0 else do
  let found ← findBest (blackAlign size 16) addressCount 0 head
  found.elim (return none) fun best =>
    if best = 0 then return some 0 else do
    blackHeapSplit best (blackAlign size 16)
    setFree best 0
    return some (best + headerSize)

/-- The block to merge: the one before a freed block when that one is free too. -/
def target (prev block : Word) : Code Word :=
  if prev = 0 then return block else do
  return if (← getFree prev) ≠ 0 then prev else block

def blackHeapFree (ptr : Word) : Code Unit :=
  if ptr = 0 then return () else do
  let block := ptr - headerSize
  if (← getMagic block) ≠ blackHeapMagic then return () else
  setFree block 1
  memset ptr 0xCC (← getSize block)
  let block ← target (← getPrev block) block
  blackHeapMerge block
  if (← getNext block) ≠ 0 then blackHeapMerge block

def blackHeapCalloc (head count size : Word) : Code (Option Word) := do
  let ptr ← blackHeapAlloc head (count * size)
  if ptr.getD 0 ≠ 0 then memset (ptr.getD 0) 0 (count * size)
  return ptr

def blackHeapRealloc (head ptr size : Word) : Code (Option Word) :=
  if ptr = 0 then blackHeapAlloc head size else
  if size = 0 then do
    blackHeapFree ptr
    return some 0
  else do
  let own ← getSize (ptr - headerSize)
  if size ≤ own then return some ptr else
  let new ← blackHeapAlloc head size
  if new.getD 0 = 0 then return new else
  memcpy (new.getD 0) ptr (← getSize (ptr - headerSize))
  blackHeapFree ptr
  return new

section Flat
variable (m : Memory)

theorem write8_update (a : Word) (v : Byte) : Function.update m a v = write8 m a v := by
  funext x
  simp [Function.update_apply,write8]

@[simp] theorem eval_load32 (a : Word) : eval (load32 a) m = (read32 m a,m) := by
  simp only [load32,eval_bind,eval_load,eval_pure,read32]

@[simp] theorem eval_store32 (a v : Word) : eval (store32 a v) m = ((),write32 m a v) := by
  simp only [store32,eval_bind,eval_store,write8_update]
  rfl

@[simp] theorem eval_getMagic (b : Word) : eval (getMagic b) m = ((header m b).magic,m) := eval_load32 m b
@[simp] theorem eval_getSize (b : Word) : eval (getSize b) m = ((header m b).size,m) := eval_load32 m (b+4)
@[simp] theorem eval_getFree (b : Word) : eval (getFree b) m = ((header m b).free,m) := eval_load32 m (b+8)
@[simp] theorem eval_getNext (b : Word) : eval (getNext b) m = ((header m b).next,m) := eval_load32 m (b+12)
@[simp] theorem eval_getPrev (b : Word) : eval (getPrev b) m = ((header m b).prev,m) := eval_load32 m (b+16)

@[simp] theorem eval_setMagic (b v : Word) : eval (setMagic b v) m = ((),Heap.setMagic m b v) := eval_store32 m b v
@[simp] theorem eval_setSize (b v : Word) : eval (setSize b v) m = ((),Heap.setSize m b v) := eval_store32 m (b+4) v
@[simp] theorem eval_setFree (b v : Word) : eval (setFree b v) m = ((),Heap.setFree m b v) := eval_store32 m (b+8) v
@[simp] theorem eval_setNext (b v : Word) : eval (setNext b v) m = ((),Heap.setNext m b v) := eval_store32 m (b+12) v
@[simp] theorem eval_setPrev (b v : Word) : eval (setPrev b v) m = ((),Heap.setPrev m b v) := eval_store32 m (b+16) v

theorem eval_memsetLoop (value : Byte) (n : Nat) (d : Word) :
    eval (memsetLoop value n d) m = ((),LibcString.memsetLoop value n m d) := by
  induction n generalizing m d with
  | zero => rfl
  | succ n ih => simp [memsetLoop,LibcString.memsetLoop,write8_update,ih]

@[simp] theorem eval_memset (dst val n : Word) : eval (memset dst val n) m = ((),LibcString.memset m dst val n) :=
  eval_memsetLoop m _ _ _

theorem eval_memcpyLoop (n : Nat) (d s : Word) :
    eval (memcpyLoop n d s) m = ((),LibcString.memcpyLoop n m d s) := by
  induction n generalizing m d s with
  | zero => rfl
  | succ n ih => simp [memcpyLoop,LibcString.memcpyLoop,write8_update,ih]

@[simp] theorem eval_memcpy (dst src n : Word) : eval (memcpy dst src n) m = ((),LibcString.memcpy m dst src n) :=
  eval_memcpyLoop m _ _ _

@[simp] theorem eval_ite {α : Type} (c : Prop) [Decidable c] (p q : Code α) :
    eval (if c then p else q) m = if c then eval p m else eval q m := by
  split <;> rfl

@[simp] theorem eval_split (block size : Word) :
    eval (blackHeapSplit block size) m = ((),Heap.blackHeapSplit m block size) := by
  simp only [blackHeapSplit,Heap.blackHeapSplit,eval_bind,eval_ite,eval_getSize,eval_getNext,eval_setMagic,eval_setSize,
    eval_setFree,eval_setNext,eval_setPrev,eval_pure]
  split_ifs <;> rfl

@[simp] theorem eval_merge (block : Word) : eval (blackHeapMerge block) m = ((),Heap.blackHeapMerge m block) := by
  simp only [blackHeapMerge,Heap.blackHeapMerge,eval_bind,eval_ite,eval_getMagic,eval_getSize,eval_getFree,eval_getNext,
    eval_setMagic,eval_setSize,eval_setNext,eval_setPrev,eval_pure]
  by_cases null : (header m block).next = 0
  · rw [if_pos null,if_neg fun live => live.1 null]
  · rw [if_neg null]
    by_cases used : (header m (header m block).next).free = 0
    · rw [if_pos used,if_neg fun live => live.2.1 used]
    · rw [if_neg used]
      by_cases dead : (header m (header m block).next).magic = blackHeapMagic
      · simp only [dead,null,used,ne_eq,not_true,not_false_eq_true,and_self,if_true,if_false]
        split <;> rfl
      · rw [if_pos dead,if_neg fun live => dead live.2.2]

theorem eval_better (best cur own : Word) :
    eval (better best cur own) m = (if best = 0 ∨ own < (header m best).size then cur else best,m) := by
  simp only [better,eval_bind,eval_ite,eval_getSize,eval_pure]
  by_cases first : best = 0
  · rw [if_pos first,if_pos (Or.inl first)]
  · rw [if_neg first]
    simp only [first,false_or]

theorem eval_findBest (size : Word) (fuel : Nat) (best cur : Word) :
    eval (findBest size fuel best cur) m = (Heap.findBest m size fuel best cur,m) := by
  induction fuel generalizing best cur with
  | zero => exact eval_pure m none
  | succ fuel ih =>
    simp only [findBest,Heap.findBest,eval_bind,eval_ite,eval_getMagic,eval_getSize,eval_getFree,eval_getNext,eval_pure,
      eval_better,ih]
    by_cases null : cur = 0
    · rw [if_pos null,if_pos null]
    · rw [if_neg null,if_neg null]
      by_cases dead : (header m cur).magic ≠ blackHeapMagic
      · rw [if_pos dead,if_pos dead]
      · rw [if_neg dead,if_neg dead]
        by_cases used : (header m cur).free = 0
        · rw [if_pos used,if_neg fun fits => fits.1 used]
        · rw [if_neg used]
          by_cases fits : size ≤ (header m cur).size
          · rw [if_neg (not_not.mpr fits)]
            have both : (header m cur).free ≠ 0 ∧ size ≤ (header m cur).size := ⟨used,fits⟩
            simp only [if_pos both]
            by_cases whole : (header m cur).size = size
            · simp only [if_pos whole]
            · simp only [if_neg whole]
          · rw [if_pos fits,if_neg fun both => fits both.2]

theorem eval_alloc (h : Heap.State) (n : Word) :
    (eval (blackHeapAlloc h.head n) h.mem).1.map (fun ptr => ({h with mem := (eval (blackHeapAlloc h.head n) h.mem).2},ptr)) =
      Heap.blackHeapAlloc h n := by
  unfold blackHeapAlloc Heap.blackHeapAlloc
  by_cases zero : n = 0
  · simp only [if_pos zero,eval_pure,Option.map_some]
  · simp only [if_neg zero,eval_bind,eval_findBest]
    cases Heap.findBest h.mem (blackAlign n 16) addressCount 0 h.head with
    | none => simp only [Option.elim_none,eval_pure,Option.map_none,Option.bind_eq_bind,Option.bind_none]
    | some best =>
      simp only [Option.elim_some,eval_ite,eval_bind,eval_split,eval_setFree,eval_pure,Option.bind_eq_bind,Option.bind_some]
      by_cases none_ : best = 0
      · simp only [if_pos none_,Option.map_some]
        rfl
      · simp only [if_neg none_,Option.map_some]
        rfl

theorem eval_target (prev block : Word) :
    eval (target prev block) m = (if prev ≠ 0 ∧ (header m prev).free ≠ 0 then prev else block,m) := by
  simp only [target,eval_bind,eval_ite,eval_getFree,eval_pure]
  by_cases null : prev = 0
  · rw [if_pos null,if_neg fun both => both.1 null]
  · rw [if_neg null]
    simp only [null,ne_eq,not_false_eq_true,true_and]

theorem eval_free (h : Heap.State) (ptr : Word) :
    {h with mem := (eval (blackHeapFree ptr) h.mem).2} = Heap.blackHeapFree h ptr := by
  unfold blackHeapFree Heap.blackHeapFree
  by_cases null : ptr = 0
  · simp only [if_pos null,eval_pure]
  · simp only [if_neg null,eval_bind,eval_ite,eval_getMagic,eval_getSize,eval_getNext,eval_getPrev,eval_setFree,
      eval_memset,eval_merge,eval_target,eval_pure]
    split
    · rfl
    · simp only [apply_ite Prod.snd]

theorem eval_calloc (h : Heap.State) (count size : Word) :
    (eval (blackHeapCalloc h.head count size) h.mem).1.map
        (fun ptr => ({h with mem := (eval (blackHeapCalloc h.head count size) h.mem).2},ptr)) =
      Heap.blackHeapCalloc h count size := by
  have alloc := eval_alloc h (count * size)
  unfold blackHeapCalloc Heap.blackHeapCalloc
  simp only [← alloc]
  cases given : (eval (blackHeapAlloc h.head (count * size)) h.mem).1 with
  | none => simp [given]
  | some ptr =>
    simp only [eval_bind,eval_ite,eval_memset,eval_pure,given,Option.map_some,Option.bind_eq_bind,Option.bind_some,
      Option.getD_some]
    split <;> rfl

theorem eval_realloc (h : Heap.State) (ptr size : Word) :
    (eval (blackHeapRealloc h.head ptr size) h.mem).1.map
        (fun new => ({h with mem := (eval (blackHeapRealloc h.head ptr size) h.mem).2},new)) =
      Heap.blackHeapRealloc h ptr size := by
  unfold blackHeapRealloc Heap.blackHeapRealloc
  by_cases null : ptr = 0
  · rw [if_pos null,if_pos null,← eval_alloc]
  · rw [if_neg null,if_neg null]
    by_cases zero : size = 0
    · rw [if_pos zero,if_pos zero,← eval_free]
      simp only [eval_bind,eval_pure,Option.map_some]
    · rw [if_neg zero,if_neg zero]
      simp only [eval_bind,eval_ite,eval_getSize,eval_pure]
      by_cases fits : size ≤ (header h.mem (ptr - headerSize)).size
      · simp only [if_pos fits,Option.map_some]
      · simp only [if_neg fits]
        rw [← eval_alloc]
        cases given : (eval (blackHeapAlloc h.head size) h.mem).1 with
        | none => simp
        | some new =>
          simp only [Option.map_some,Option.bind_eq_bind,Option.bind_some,Option.getD_some]
          by_cases none_ : new = 0
          · simp only [none_]
            rfl
          · simp only [if_neg none_,Option.map_some,← eval_free,eval_memcpy]
            rfl

/-- A call that returns, read off the computation. -/
theorem eval_returned (c : Code (Option Word)) (h h' : Heap.State) (ptr : Word)
    (returned : (eval c h.mem).1.map (fun p => ({h with mem := (eval c h.mem).2},p)) = some (h',ptr)) :
    eval c h.mem = (some ptr,h'.mem) ∧ h'.head = h.head := by
  obtain ⟨p,given,same⟩ := Option.map_eq_some_iff.mp returned
  obtain ⟨rfl,rfl⟩ := Prod.mk.inj same
  exact ⟨Prod.ext given rfl,rfl⟩

end Flat

open BlackOS.Heap (Op System grant)

/-- A call of a client, or its store, with the pointer that it returns. -/
def opCode (head : Word) : Op → Code (Option Word)
  | .alloc size => blackHeapAlloc head size
  | .calloc count size => blackHeapCalloc head count size
  | .realloc ptr size => blackHeapRealloc head ptr size
  | .free ptr => do
    blackHeapFree ptr
    return some 0
  | .write ptr offset value => do
    store (ptr + offset) value
    return some 0

/-- The live pointers after a call that has returned a pointer. -/
def liveAfter (live : Finset Word) (new : Word) : Op → Finset Word
  | .alloc _ => grant live new
  | .calloc _ _ => grant live new
  | .realloc ptr size =>
    if ptr ≠ 0 ∧ size = 0 then live.erase ptr else if new = 0 then live else insert new (live.erase ptr)
  | .free ptr => live.erase ptr
  | .write _ _ _ => live

theorem eval_step (s s' : System) (op : Op) (done : Heap.step s op = some s') :
    ∃ new, eval (opCode s.heap.head op) s.heap.mem = (some new,s'.heap.mem) ∧ s'.heap.head = s.heap.head ∧
      s'.live = liveAfter s.live new op := by
  cases op with
  | alloc size =>
    obtain ⟨⟨h',new⟩,returned,rest⟩ := Option.bind_eq_some_iff.mp done
    obtain rfl := Option.some.inj rest
    obtain ⟨ran,head⟩ := eval_returned _ s.heap h' new ((eval_alloc s.heap size).trans returned)
    exact ⟨new,ran,head,rfl⟩
  | calloc count size =>
    obtain ⟨⟨h',new⟩,returned,rest⟩ := Option.bind_eq_some_iff.mp done
    obtain rfl := Option.some.inj rest
    obtain ⟨ran,head⟩ := eval_returned _ s.heap h' new ((eval_calloc s.heap count size).trans returned)
    exact ⟨new,ran,head,rfl⟩
  | realloc ptr size =>
    obtain ⟨⟨h',new⟩,returned,rest⟩ := Option.bind_eq_some_iff.mp done
    obtain ⟨ran,head⟩ := eval_returned _ s.heap h' new ((eval_realloc s.heap ptr size).trans returned)
    refine ⟨new,?_⟩
    simp only [liveAfter]
    dsimp only at rest
    by_cases gone : ptr ≠ 0 ∧ size = 0
    · rw [if_pos gone] at rest ⊢
      obtain rfl := Option.some.inj rest
      exact ⟨ran,head,rfl⟩
    · rw [if_neg gone] at rest ⊢
      by_cases none_ : new = 0
      · rw [if_pos none_] at rest ⊢
        obtain rfl := Option.some.inj rest
        exact ⟨ran,head,rfl⟩
      · rw [if_neg none_] at rest ⊢
        obtain rfl := Option.some.inj rest
        exact ⟨ran,head,rfl⟩
  | free ptr =>
    obtain rfl := Option.some.inj done
    have freed := eval_free s.heap ptr
    refine ⟨0,?_,(congrArg Heap.State.head freed).symm.trans rfl,rfl⟩
    simp only [opCode,eval_bind,eval_pure]
    exact congrArg (fun h => (some (0 : Word),h.mem)) freed
  | write ptr offset value =>
    obtain rfl := Option.some.inj done
    refine ⟨0,?_,rfl,rfl⟩
    simp only [opCode,eval_bind,eval_store,eval_pure,write8_update]

end BlackOS.HeapAccess
