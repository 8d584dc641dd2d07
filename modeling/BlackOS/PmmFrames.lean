import BlackOS.Pmm
import Mathlib.Order.Interval.Finset.Nat

/-! The searches and updates of the frame allocator in terms of the bits: what each
call finds, which frames it takes or gives back, and how it counts them. -/
namespace BlackOS.Pmm
open BlackOS.Library.Ram BlackOS.Library.Bitmap

theorem testFrame_eq (b : Bits 32) (frame : Word) : blackPmmTestFrame b frame = isSet b frame.toNat := by
  have mask := mask_eq_zero (by omega : 0 < 32) (b (frame.toNat / 32)) (frame.toNat % 32) (by omega)
  unfold blackPmmTestFrame isSet
  cases bit : (b (frame.toNat / 32)).getLsbD (frame.toNat % 32) with
  | false => simp [mask.mpr bit]
  | true => simpa [bit] using mask

theorem isSet_setFrame (b : Bits 32) (frame : Word) (f : Nat) :
    isSet (blackPmmSetFrame b frame) f = (isSet b f || decide (f = frame.toNat)) :=
  isSet_set (by omega) b frame.toNat f

theorem isSet_clearFrame (b : Bits 32) (frame : Word) (f : Nat) :
    isSet (blackPmmClearFrame b frame) f = (isSet b f && !decide (f = frame.toNat)) :=
  isSet_clear (by omega) b frame.toNat f

theorem isSet_word (b : Bits 32) (i j : Nat) (inside : j < 32) : isSet b (i * 32 + j) = (b i).getLsbD j := by
  have quotient : (i * 32 + j) / 32 = i := by omega
  have remainder : (i * 32 + j) % 32 = j := by omega
  rw [isSet,quotient,remainder]

theorem findBit_spec (x : Word) (left j : Nat) (inside : j + left ≤ 32) :
    (findBit x left j = none ∧ ∀ i, j ≤ i → i < j + left → x.getLsbD i = true) ∨
      ∃ i, findBit x left j = some i ∧ i < j + left ∧ x.getLsbD i = false := by
  induction left generalizing j with
  | zero => exact Or.inl ⟨rfl,fun i low high => by omega⟩
  | succ left ih =>
    have mask := mask_eq_zero (by omega : 0 < 32) x j (by omega)
    rw [findBit]
    split
    · rename_i zero
      exact Or.inr ⟨j,rfl,by omega,mask.mp zero⟩
    · rename_i nonzero
      have here : x.getLsbD j = true := by
        by_contra off
        exact nonzero (mask.mpr (by simpa using off))
      rcases ih (j+1) (by omega) with ⟨missing,full⟩ | ⟨i,found,low,off⟩
      · refine Or.inl ⟨missing,?_⟩
        intro i low high
        by_cases first : i = j
        · rw [first]
          exact here
        · exact full i (by omega) (by omega)
      · exact Or.inr ⟨i,found,by omega,off⟩

theorem findWord_spec (b : Bits 32) (left i : Nat) :
    (findWord b left i = notFound ∧ ∀ f, i * 32 ≤ f → f < (i + left) * 32 → isSet b f = true) ∨
      ∃ f, findWord b left i = word f ∧ f < (i + left) * 32 ∧ isSet b f = false := by
  induction left generalizing i with
  | zero => exact Or.inl ⟨rfl,fun f low high => by omega⟩
  | succ left ih =>
    -- a word with no clear bit is passed over, by the comparison or by the inner loop
    have skip (full : ∀ j, j < 32 → (b i).getLsbD j = true) :
        (findWord b left (i+1) = notFound ∧
          ∀ f, i * 32 ≤ f → f < (i + (left+1)) * 32 → isSet b f = true) ∨
        ∃ f, findWord b left (i+1) = word f ∧ f < (i + (left+1)) * 32 ∧ isSet b f = false := by
      rcases ih (i+1) with ⟨missing,later⟩ | ⟨f,found,high,off⟩
      · refine Or.inl ⟨missing,?_⟩
        intro f low high
        by_cases here : f < (i+1) * 32
        · have bit := isSet_word b i (f - i * 32) (by omega)
          rw [show i * 32 + (f - i * 32) = f by omega] at bit
          rw [bit]
          exact full _ (by omega)
        · exact later f (by omega) (by omega)
      · exact Or.inr ⟨f,found,by omega,off⟩
    rw [findWord]
    split
    · rcases findBit_spec (b i) 32 0 (by omega) with ⟨missing,full⟩ | ⟨j,found,high,off⟩
      · rw [missing]
        exact skip (fun j inside => full j (by omega) (by omega))
      · rw [found]
        refine Or.inr ⟨i * 32 + j,rfl,by omega,?_⟩
        rw [isSet_word b i j (by omega)]
        exact off
    · rename_i full
      apply skip
      intro j inside
      rw [not_not.mp full]
      have ones : (0xFFFFFFFF : Word) = BitVec.allOnes 32 := rfl
      rw [ones,BitVec.getLsbD_allOnes]
      simpa using inside

theorem findFree_spec (s : State) :
    (blackPmmFindFree s = notFound ∧ ∀ f, f < maxFrames → isSet s.bitmap f = true) ∨
      ∃ f, blackPmmFindFree s = word f ∧ f < maxFrames ∧ isSet s.bitmap f = false := by
  rcases findWord_spec s.bitmap bitmapSize 0 with ⟨missing,full⟩ | ⟨f,found,high,off⟩
  · exact Or.inl ⟨missing,fun f low => full f (by omega) (by simp only [maxFrames,bitmapSize] at low ⊢; omega)⟩
  · exact Or.inr ⟨f,found,by simp only [maxFrames,bitmapSize] at high ⊢; omega,off⟩

/-- The run that ends before `i`: `found` clear frames from `start`. -/
def Pending (b : Bits 32) (i start found : Nat) : Prop :=
  0 < found → start + found = i ∧ ∀ f, start ≤ f → f < i → isSet b f = false

def FreeRun (b : Bits 32) (n limit a : Nat) : Prop :=
  a + n ≤ limit ∧ ∀ f, a ≤ f → f < a + n → isSet b f = false

/-- What the scan for `n` frames knows when it reaches `i`: the run that ends there cannot be
extended downwards, and no earlier place has one that is long enough. -/
structure Scan (b : Bits 32) (n i start found : Nat) : Prop where
  short : found < n
  pending : Pending b i start found
  longest : ∀ a, a + found < i → ∃ f, a ≤ f ∧ f < i ∧ isSet b f = true
  none : ∀ a, ¬FreeRun b n i a

theorem scan_first (b : Bits 32) (n : Nat) (positive : 0 < n) : Scan b n 0 0 0 := by
  refine ⟨positive,fun found => by omega,fun a low => by omega,?_⟩
  intro a run
  have room := run.1
  omega

section Scan
variable (b : Bits 32) (n i start found : Nat) (scan : Scan b n i start found)
include scan

theorem scan_taken (on : isSet b i = true) : Scan b n (i+1) start 0 := by
  have short := scan.short
  refine ⟨by omega,fun found => by omega,fun a low => ⟨i,by omega,by omega,on⟩,?_⟩
  intro a run
  obtain ⟨room,free⟩ := run
  by_cases earlier : a + n ≤ i
  · exact scan.none a ⟨earlier,free⟩
  · have off := free i (by omega) (by omega)
    rw [on] at off
    cases off

/-- The run that ends behind a free frame, from its old start or from this frame. -/
theorem scan_extended (off : isSet b i = false) :
    (if found = 0 then i else start) + (found + 1) = i + 1 ∧
      ∀ f, (if found = 0 then i else start) ≤ f → f < i + 1 → isSet b f = false := by
  split
  · rename_i zero
    refine ⟨by omega,?_⟩
    intro f above below
    rw [show f = i by omega]
    exact off
  · rename_i nonzero
    obtain ⟨reach,run⟩ := scan.pending (by omega)
    refine ⟨by omega,?_⟩
    intro f above below
    by_cases last : f = i
    · rw [last]
      exact off
    · exact run f above (by omega)

/-- Nothing long enough starts before the run that ends behind this frame. -/
theorem scan_least (a : Nat) (before : a + found < i) (limit : Nat) : ¬FreeRun b n limit a := by
  intro run
  obtain ⟨f,above,below,on⟩ := scan.longest a before
  by_cases inside : f < a + n
  · rw [run.2 f above inside] at on
    cases on
  · exact scan.none a ⟨by omega,run.2⟩

theorem scan_free (off : isSet b i = false) (more : found + 1 < n) :
    Scan b n (i+1) (if found = 0 then i else start) (found+1) := by
  refine ⟨more,fun _ => scan_extended b n i start found scan off,?_,?_⟩
  · intro a low
    obtain ⟨f,above,below,on⟩ := scan.longest a (by omega)
    exact ⟨f,above,by omega,on⟩
  · intro a run
    have room := run.1
    exact scan_least b n i start found scan a (by omega) (i+1) run

end Scan

theorem succ_toNat (i : Word) (low : i.toNat + 1 < 2^32) : (i+1).toNat = i.toNat + 1 := by
  rw [BitVec.toNat_add]
  simp only [BitVec.reduceToNat]
  omega

/-- A turn of the code's scan on a free frame. -/
theorem scan_turn (b : Bits 32) (n : Nat) (i start found : Word)
    (scan : Scan b n i.toNat start.toNat found.toNat) (wide : n < 2^32) (off : isSet b i.toNat = false) :
    (found+1).toNat = found.toNat + 1 ∧
      (if found = 0 then i else start).toNat + (found.toNat + 1) = i.toNat + 1 ∧
      (∀ f, (if found = 0 then i else start).toNat ≤ f → f < i.toNat + 1 → isSet b f = false) ∧
      (found.toNat + 1 < n → Scan b n (i.toNat + 1) (if found = 0 then i else start).toNat (found.toNat + 1)) := by
  have short := scan.short
  have begins : (if found = 0 then i else start).toNat = if found.toNat = 0 then i.toNat else start.toNat := by
    have zero : found = 0 ↔ found.toNat = 0 := BitVec.toNat_eq
    simp only [zero]
    split <;> rfl
  rw [begins]
  obtain ⟨reach,run⟩ := scan_extended b n i.toNat start.toNat found.toNat scan off
  exact ⟨succ_toNat found (by omega),reach,run,scan_free b n i.toNat start.toNat found.toNat scan off⟩

/-- The scan finds the lowest run of free frames that is long enough, when there is one. -/
theorem findRun_spec (b : Bits 32) (count : Word) (left : Nat) (i start found : Word)
    (low : i.toNat + left < 2^32) (scan : Scan b count.toNat i.toNat start.toNat found.toNat) :
    (findRun b count left i start found = notFound ∧ ∀ a, ¬FreeRun b count.toNat (i.toNat + left) a) ∨
      ∃ a, findRun b count left i start found = word a ∧ FreeRun b count.toNat (i.toNat + left) a ∧
        ∀ c, c < a → ¬FreeRun b count.toNat (i.toNat + left) c := by
  induction left generalizing i start found with
  | zero => exact Or.inl ⟨rfl,scan.none⟩
  | succ left ih =>
    have next := succ_toNat i (by omega)
    have limit : i.toNat + (left+1) = (i+1).toNat + left := by omega
    rw [findRun,testFrame_eq,limit]
    split
    · rename_i off
      have isClear : isSet b i.toNat = false := by simpa using off
      have short := scan.short
      obtain ⟨more,reach,run,grows⟩ := scan_turn b count.toNat i start found scan count.isLt isClear
      dsimp only
      split
      · rename_i enough
        rw [BitVec.le_def] at enough
        refine Or.inr ⟨_,(toNat_word _).symm,⟨by omega,?_⟩,?_⟩
        · intro f above below
          exact run f above (by omega)
        · intro c before
          exact scan_least b _ _ _ _ scan c (by omega) _
      · rename_i notEnough
        rw [BitVec.le_def] at notEnough
        have onward := grows (by omega)
        rw [← next,← more] at onward
        exact ih (i+1) _ (found+1) (by omega) onward
    · rename_i taken
      have onward := scan_taken b _ _ _ _ scan (by simpa using taken)
      rw [← next] at onward
      exact ih (i+1) start 0 (by omega) onward

def frames (a n : Nat) : Finset Nat := Finset.Ico a (a + n)

structure Takes (s s' : State) (a n : Nat) : Prop where
  bits : ∀ f, isSet s'.bitmap f = (isSet s.bitmap f || decide (f ∈ frames a n))
  used : s'.usedFrames = s.usedFrames + word n
  total : s'.totalFrames = s.totalFrames

structure Returns (s s' : State) (a n : Nat) : Prop where
  bits : ∀ f, isSet s'.bitmap f = (isSet s.bitmap f && !decide (f ∈ frames a n))
  used : s'.usedFrames = s.usedFrames - word n
  total : s'.totalFrames = s.totalFrames

theorem mem_frames_succ (a n f : Nat) : f ∈ frames a (n+1) ↔ f ∈ frames a n ∨ f = a + n := by
  simp only [frames,Finset.mem_Ico]
  omega

theorem mem_frames_one (a f : Nat) : f ∈ frames a 1 ↔ f = a := by
  simp only [frames,Finset.mem_Ico]
  omega

private theorem add_index (a n : Nat) (low : a + n < 2^32) : (word a + word n).toNat = a + n := by
  rw [word_add,word_toNat _ low]

theorem takes_range (s : State) (a n : Nat) (low : a + n ≤ maxFrames) :
    Takes s ((List.range n).foldl (fun s i => {s with
      bitmap := blackPmmSetFrame s.bitmap (word a + word i),usedFrames := s.usedFrames + 1}) s) a n := by
  have small : maxFrames < 2^32 := by decide
  induction n with
  | zero => exact ⟨fun f => by simp [frames],by simp [word],rfl⟩
  | succ n ih =>
    obtain ⟨bits,used,total⟩ := ih (by omega)
    rw [List.range_succ,List.foldl_append,List.foldl_cons,List.foldl_nil]
    refine ⟨?_,?_,total⟩
    · intro f
      rw [isSet_setFrame,bits,add_index a n (by omega)]
      simp only [mem_frames_succ,Bool.decide_or,Bool.or_assoc]
    · simp only [used]
      rw [BitVec.add_assoc,← word_add]
      rfl

theorem returns_range (s : State) (a n : Nat) (low : a + n ≤ maxFrames) :
    Returns s ((List.range n).foldl (fun s i =>
      if (word a + word i).toNat < maxFrames then
        {s with bitmap := blackPmmClearFrame s.bitmap (word a + word i),usedFrames := s.usedFrames - 1}
      else s) s) a n := by
  have small : maxFrames < 2^32 := by decide
  induction n with
  | zero => exact ⟨fun f => by simp [frames],by simp [word],rfl⟩
  | succ n ih =>
    obtain ⟨bits,used,total⟩ := ih (by omega)
    have index := add_index a n (by omega)
    rw [List.range_succ,List.foldl_append,List.foldl_cons,List.foldl_nil,if_pos (by omega)]
    refine ⟨?_,?_,total⟩
    · intro f
      rw [isSet_clearFrame,bits,index]
      simp only [mem_frames_succ,Bool.decide_or,Bool.not_or,Bool.and_assoc]
    · simp only [used]
      rw [← word_add,BitVec.sub_sub]
      rfl

theorem address_frame (a : Nat) (low : a < maxFrames) : word a * blackPageSize / blackPageSize = word a ∧
    (word a * blackPageSize).toNat = a * 4096 := by
  have small : maxFrames = 262144 := rfl
  have product : (word a * blackPageSize).toNat = a * 4096 := by
    rw [BitVec.toNat_mul,word_toNat a (by omega)]
    simp only [blackPageSize,BitVec.reduceToNat]
    omega
  refine ⟨?_,product⟩
  apply BitVec.eq_of_toNat_eq
  rw [BitVec.toNat_udiv,product,word_toNat a (by omega)]
  simp only [blackPageSize,BitVec.reduceToNat]
  omega

theorem frame_found (a : Nat) (low : a < maxFrames) : word a ≠ notFound := by
  have small : maxFrames = 262144 := rfl
  intro same
  have value := congrArg BitVec.toNat same
  rw [word_toNat a (by omega)] at value
  simp only [notFound,BitVec.reduceToNat] at value
  omega

theorem allocFrame_spec (s : State) :
    (blackPmmAllocFrame s = (s,0) ∧ ∀ f, f < maxFrames → isSet s.bitmap f = true) ∨
      ∃ a s', blackPmmAllocFrame s = (s',word a * blackPageSize) ∧ a < maxFrames ∧
        isSet s.bitmap a = false ∧ Takes s s' a 1 := by
  have small : maxFrames = 262144 := rfl
  unfold blackPmmAllocFrame
  rcases findFree_spec s with ⟨missing,full⟩ | ⟨a,found,low,off⟩
  · exact Or.inl ⟨if_pos missing,full⟩
  · refine Or.inr ⟨a,{s with bitmap := blackPmmSetFrame s.bitmap (word a),usedFrames := s.usedFrames + 1},
      ?_,low,off,?_⟩
    · simp only [found,if_neg (frame_found a low)]
    · refine ⟨?_,rfl,rfl⟩
      intro f
      rw [isSet_setFrame,word_toNat a (by omega)]
      simp only [mem_frames_one]

theorem allocFrames_first (s : State) (count : Word) (positive : 0 < count.toNat)
    (bounded : s.totalFrames.toNat ≤ maxFrames) :
    (blackPmmAllocFrames s count = (s,0) ∧ ∀ a, ¬FreeRun s.bitmap count.toNat s.totalFrames.toNat a) ∨
      ∃ a s', blackPmmAllocFrames s count = (s',word a * blackPageSize) ∧
        FreeRun s.bitmap count.toNat s.totalFrames.toNat a ∧
        (∀ c, c < a → ¬FreeRun s.bitmap count.toNat s.totalFrames.toNat c) ∧ Takes s s' a count.toNat := by
  have small : maxFrames = 262144 := rfl
  have whole : (0 : Word).toNat + s.totalFrames.toNat = s.totalFrames.toNat := Nat.zero_add _
  have search := findRun_spec s.bitmap count s.totalFrames.toNat 0 0 0 (by omega)
    (scan_first s.bitmap count.toNat positive)
  rw [whole] at search
  unfold blackPmmAllocFrames
  rcases search with ⟨missing,none⟩ | ⟨a,found,run,least⟩
  · exact Or.inl ⟨if_pos missing,none⟩
  · have room := run.1
    refine Or.inr ⟨a,_,?_,run,least,takes_range s a count.toNat (by omega)⟩
    simp only [blackPmmFindFreeContiguous,found,if_neg (frame_found a (by omega))]

theorem allocFrames_spec (s : State) (count : Word) (positive : 0 < count.toNat)
    (bounded : s.totalFrames.toNat ≤ maxFrames) :
    blackPmmAllocFrames s count = (s,0) ∨
      ∃ a s', blackPmmAllocFrames s count = (s',word a * blackPageSize) ∧ a + count.toNat ≤ maxFrames ∧
        (∀ f ∈ frames a count.toNat, isSet s.bitmap f = false) ∧ Takes s s' a count.toNat := by
  rcases allocFrames_first s count positive bounded with ⟨failed,_⟩ | ⟨a,s',done,⟨room,free⟩,_,takes⟩
  · exact Or.inl failed
  · refine Or.inr ⟨a,s',done,by omega,?_,takes⟩
    intro f member
    simp only [frames,Finset.mem_Ico] at member
    exact free f member.1 member.2

theorem freeFrames_spec (s : State) (a : Nat) (count : Word) (positive : 0 < count.toNat)
    (low : a + count.toNat ≤ maxFrames) :
    Returns s (blackPmmFreeFrames s (word a * blackPageSize) count) a count.toNat := by
  unfold blackPmmFreeFrames
  simp only [(address_frame a (by omega)).1]
  exact returns_range s a count.toNat low

theorem freeFrame_spec (s : State) (a : Nat) (low : a < maxFrames) (taken : isSet s.bitmap a = true) :
    Returns s (blackPmmFreeFrame s (word a * blackPageSize)) a 1 := by
  have small : maxFrames = 262144 := rfl
  have value : (word a).toNat = a := word_toNat a (by omega)
  unfold blackPmmFreeFrame
  simp only [(address_frame a low).1]
  rw [if_neg (by omega),testFrame_eq,value,if_pos taken]
  refine ⟨?_,rfl,rfl⟩
  intro f
  rw [isSet_clearFrame,value]
  simp only [mem_frames_one]

end BlackOS.Pmm
