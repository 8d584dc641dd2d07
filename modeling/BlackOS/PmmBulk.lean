import BlackOS.PmmFrames
import Mathlib.Data.List.Basic

/-! Ranges of frames. A contiguous request takes the lowest run that is long enough, and giving it
back restores the bitmap and the counter. A bulk free clears the same bits as single frees do, but
counts every frame of the range, also one that was free. -/
namespace BlackOS.Pmm
open BlackOS.Library.Ram BlackOS.Library.Bitmap

/-- What a contiguous request that finds a run leaves. -/
structure FirstFit (s s' : State) (ptr count : Word) (a : Nat) : Prop where
  pointer : ptr.toNat = a * 4096
  free : FreeRun s.bitmap count.toNat s.totalFrames.toNat a
  least : ∀ c, c < a → ¬FreeRun s.bitmap count.toNat s.totalFrames.toNat c
  takes : Takes s s' a count.toNat
  restores : (blackPmmFreeFrames s' ptr count).bitmap = s.bitmap ∧
    (blackPmmFreeFrames s' ptr count).usedFrames = s.usedFrames

theorem freeRun_zero (b : Bits 32) (n limit : Nat) (positive : 0 < n) (zero : isSet b 0 = true) :
    ¬FreeRun b n limit 0 := by
  intro run
  have off := run.2 0 (Nat.le_refl 0) (by omega)
  rw [zero] at off
  cases off

theorem takes_restored (s s' : State) (a : Nat) (count : Word) (positive : 0 < count.toNat)
    (low : a + count.toNat ≤ maxFrames) (takes : Takes s s' a count.toNat)
    (free : ∀ f ∈ frames a count.toNat, isSet s.bitmap f = false) :
    (blackPmmFreeFrames s' (word a * blackPageSize) count).bitmap = s.bitmap ∧
      (blackPmmFreeFrames s' (word a * blackPageSize) count).usedFrames = s.usedFrames := by
  have returns := freeFrames_spec s' a count positive low
  constructor
  · apply ext_isSet (by omega)
    intro f
    rw [returns.bits,takes.bits]
    by_cases member : f ∈ frames a count.toNat
    · simp [member,free f member]
    · simp [member]
  · rw [returns.used,takes.used]
    exact BitVec.add_sub_cancel _ _

/-- A contiguous request fails and changes nothing just when no run below the total is long enough;
otherwise it takes the lowest one, and giving it back undoes that. -/
theorem allocFrames_firstFit (s : State) (bounded : s.totalFrames.toNat ≤ maxFrames)
    (zero : isSet s.bitmap 0 = true) (count : Word) (positive : 1 ≤ count.toNat) :
    ∃ s' ptr, blackPmmAllocFrames s count = (s',ptr) ∧
      (ptr = 0 ↔ ∀ a, ¬FreeRun s.bitmap count.toNat s.totalFrames.toNat a) ∧ (ptr = 0 → s' = s) ∧
      (ptr ≠ 0 → ∃ a, FirstFit s s' ptr count a) := by
  rcases allocFrames_first s count positive bounded with ⟨failed,none⟩ | ⟨a,s',done,run,least,takes⟩
  · exact ⟨s,0,failed,iff_of_true rfl none,fun _ => rfl,fun present => absurd rfl present⟩
  · have room := run.1
    have low : a + count.toNat ≤ maxFrames := by omega
    have pointer := (address_frame a (by omega)).2
    have present : word a * blackPageSize ≠ 0 := by
      intro null
      rw [null] at pointer
      change 0 = a * 4096 at pointer
      have first : a = 0 := by omega
      rw [first] at run
      exact freeRun_zero s.bitmap _ _ positive zero run
    have free : ∀ f ∈ frames a count.toNat, isSet s.bitmap f = false := by
      intro f member
      simp only [frames,Finset.mem_Ico] at member
      exact run.2 f member.1 member.2
    refine ⟨s',_,done,iff_of_false present (fun none => none a run),fun null => absurd null present,?_⟩
    intro _
    exact ⟨a,pointer,run,least,takes,takes_restored s s' a count positive low takes free⟩

/-- A request for two frames when only frames 1 and 3 to 5 are free. -/
theorem allocFrames_firstFit_gap : ∃ s' ptr,
    blackPmmAllocFrames ⟨fun i => if i = 0 then ~~~0x3A else 0xFFFFFFFF,32,28,0⟩ 2 = (s',ptr) ∧
      (ptr ≠ 0 → ∃ a, FirstFit ⟨fun i => if i = 0 then ~~~0x3A else 0xFFFFFFFF,32,28,0⟩ s' ptr 2 a) := by
  obtain ⟨s',ptr,done,_,_,fit⟩ := allocFrames_firstFit
    ⟨fun i => if i = 0 then ~~~0x3A else 0xFFFFFFFF,32,28,0⟩ (by decide) (by decide) 2 (by decide)
  exact ⟨s',ptr,done,fit⟩

/-! Bulk frees. -/

/-- One `black_pmm_free_frame` for each page of the range. -/
def repeatedFree (s : State) (addr count : Word) : State :=
  (List.range count.toNat).foldl (fun s i => blackPmmFreeFrame s (addr + word i * blackPageSize)) s

/-- The frames of the range that are free already. -/
def alreadyFree (s : State) (a n : Nat) : Finset Nat :=
  (Finset.range n).filter (fun i => a + i < maxFrames ∧ isSet s.bitmap (a + i) = false)

theorem alreadyFree_succ (s : State) (a n : Nat) : (alreadyFree s a (n+1)).card =
    (alreadyFree s a n).card + if a + n < maxFrames ∧ isSet s.bitmap (a + n) = false then 1 else 0 := by
  simp only [alreadyFree,Finset.range_add_one,Finset.filter_insert]
  split
  · rw [Finset.card_insert_of_notMem (by simp)]
  · rfl

theorem clearFrame_free (b : Bits 32) (frame : Word) (off : isSet b frame.toNat = false) :
    blackPmmClearFrame b frame = b := by
  apply ext_isSet (by omega)
  intro f
  rw [isSet_clearFrame]
  by_cases here : f = frame.toNat
  · simp [here,off]
  · simp [here]

/-- How far the states of the two frees differ after `n` frames from `a` on. -/
structure Compared (s bulk single : State) (a n : Nat) : Prop where
  bitmap : bulk.bitmap = single.bitmap
  used : single.usedFrames = bulk.usedFrames + word (alreadyFree s a n).card
  totals : bulk.totalFrames = single.totalFrames ∧ bulk.totalMemory = single.totalMemory
  later : ∀ f, a + n ≤ f → isSet bulk.bitmap f = isSet s.bitmap f

section
variable (s : State) (a : Nat) (frame : Word)

/-- The round of `black_pmm_free_frames` for one frame. -/
def bulkFree (s : State) (frame : Word) : State :=
  if frame.toNat < maxFrames then
    {s with bitmap := blackPmmClearFrame s.bitmap frame,usedFrames := s.usedFrames - 1}
  else s

theorem compared_step (n : Nat) (bulk single : State) (compared : Compared s bulk single a n)
    (here : frame.toNat = a + n) (addr : Word) (place : addr / blackPageSize = frame) :
    Compared s (bulkFree bulk frame) (blackPmmFreeFrame single addr) a (n+1) := by
  obtain ⟨bitmap,used,totals,later⟩ := compared
  have bit : isSet single.bitmap frame.toNat = isSet s.bitmap (a + n) := by
    rw [← bitmap,here]
    exact later _ (Nat.le_refl _)
  have count := alreadyFree_succ s a n
  have beyond (f : Nat) (above : a + (n+1) ≤ f) : isSet bulk.bitmap f = isSet s.bitmap f := later f (by omega)
  have cleared (f : Nat) (above : a + (n+1) ≤ f) :
      isSet (blackPmmClearFrame bulk.bitmap frame) f = isSet s.bitmap f := by
    rw [isSet_clearFrame,beyond f above,decide_eq_false (by omega : f ≠ frame.toNat)]
    simp
  have moved (x y : Word) : x + y - 1 = x - 1 + y ∧ x + y = x - 1 + (y + word 1) := by
    have one : word 1 = 1 := rfl
    rw [one]
    constructor <;> grind
  unfold bulkFree blackPmmFreeFrame
  simp only [place,testFrame_eq,bit]
  by_cases inside : frame.toNat < maxFrames
  · rw [if_pos inside,if_neg (by omega)]
    cases taken : isSet s.bitmap (a + n) with
    | true =>
      rw [if_neg (fun both => by rw [taken] at both; cases both.2)] at count
      refine ⟨?_,?_,totals,cleared⟩
      · simp [bitmap]
      · simp only [if_true,used,count,Nat.add_zero]
        exact (moved bulk.usedFrames _).1
    | false =>
      rw [if_pos ⟨by omega,taken⟩] at count
      refine ⟨?_,?_,totals,cleared⟩
      · have still := clearFrame_free single.bitmap frame (bit.trans taken)
        simp only [bitmap,still,Bool.false_eq_true,if_false]
      · simp only [Bool.false_eq_true,if_false,used,count,← word_add]
        exact (moved bulk.usedFrames _).2
  · rw [if_neg inside,if_pos (by omega)]
    rw [if_neg (fun both => inside (by omega)),Nat.add_zero] at count
    exact ⟨bitmap,count ▸ used,totals,beyond⟩

end

/-- Rounds of the two frees over the same pages, compared after each one. -/
theorem frees_compared (s : State) (addr : Word) (n : Nat) (fits : addr.toNat + 4096 * n ≤ 2^32) :
    Compared s
      ((List.range n).foldl (fun s i => bulkFree s (addr / blackPageSize + word i)) s)
      ((List.range n).foldl (fun s i => blackPmmFreeFrame s (addr + word i * blackPageSize)) s)
      (addr.toNat / 4096) n := by
  induction n with
  | zero => exact ⟨rfl,by simp [alreadyFree,word],⟨rfl,rfl⟩,fun _ _ => rfl⟩
  | succ n ih =>
    have bound := addr.isLt
    have first : (addr / blackPageSize).toNat = addr.toNat / 4096 := BitVec.toNat_udiv
    have index : (word n).toNat = n := word_toNat n (by omega)
    have here : (addr / blackPageSize + word n).toNat = addr.toNat / 4096 + n := by
      rw [BitVec.toNat_add,first,index]
      omega
    have place : (addr + word n * blackPageSize) / blackPageSize = addr / blackPageSize + word n := by
      apply BitVec.eq_of_toNat_eq
      rw [here,BitVec.toNat_udiv,BitVec.toNat_add,BitVec.toNat_mul,index]
      simp only [blackPageSize,BitVec.reduceToNat]
      omega
    simp only [List.range_succ,List.foldl_append,List.foldl_cons,List.foldl_nil]
    exact compared_step s _ _ n _ _ (ih (by omega)) here _ place

/-- The two frees agree exactly on ranges whose frames are all taken. -/
theorem bulk_free_iff (s : State) (addr count : Word) (fits : addr.toNat + 4096 * count.toNat ≤ 2^32) :
    ((blackPmmFreeFrames s addr count).bitmap = (repeatedFree s addr count).bitmap ∧
      (blackPmmFreeFrames s addr count).usedFrames = (repeatedFree s addr count).usedFrames) ↔
    ∀ i, i < count.toNat → addr.toNat / 4096 + i < maxFrames →
      isSet s.bitmap (addr.toNat / 4096 + i) = true := by
  obtain ⟨bitmap,used,_,_⟩ := frees_compared s addr count.toNat fits
  have card : (alreadyFree s (addr.toNat / 4096) count.toNat).card < 2^32 := by
    have most := Finset.card_filter_le (Finset.range count.toNat)
      (fun i => addr.toNat / 4096 + i < maxFrames ∧ isSet s.bitmap (addr.toNat / 4096 + i) = false)
    have bound := count.isLt
    rw [Finset.card_range] at most
    exact Nat.lt_of_le_of_lt most bound
  have none : (alreadyFree s (addr.toNat / 4096) count.toNat).card = 0 ↔
      ∀ i, i < count.toNat → addr.toNat / 4096 + i < maxFrames →
        isSet s.bitmap (addr.toNat / 4096 + i) = true := by
    simp only [Finset.card_eq_zero,alreadyFree,Finset.filter_eq_empty_iff,Finset.mem_range,not_and,
      Bool.not_eq_false]
  rw [← none]
  change (((List.range count.toNat).foldl (fun s i => bulkFree s (addr / blackPageSize + word i)) s).bitmap =
    (repeatedFree s addr count).bitmap ∧
    ((List.range count.toNat).foldl (fun s i => bulkFree s (addr / blackPageSize + word i)) s).usedFrames =
    (repeatedFree s addr count).usedFrames) ↔ _
  constructor
  · intro both
    have sum := both.2.trans used
    have zero : word (alreadyFree s (addr.toNat / 4096) count.toNat).card = 0 :=
      BitVec.self_eq_add_right.mp sum
    have value := congrArg BitVec.toNat zero
    rw [word_toNat _ card] at value
    exact value
  · intro zero
    refine ⟨bitmap,?_⟩
    rw [zero] at used
    exact (used.trans (BitVec.add_zero _)).symm

theorem bulk_free_taken :
    (blackPmmFreeFrames ⟨fun _ => 0xFFFFFFFF,32,32,0⟩ 0x1000 4).usedFrames =
      (repeatedFree ⟨fun _ => 0xFFFFFFFF,32,32,0⟩ 0x1000 4).usedFrames := by
  refine ((bulk_free_iff ⟨fun _ => 0xFFFFFFFF,32,32,0⟩ 0x1000 4 (by decide)).mpr ?_).2
  intro i inside _
  have full : ∀ i, i < 4 → isSet (fun _ => 0xFFFFFFFF : Bits 32) (1 + i) = true := by decide
  exact full i inside

/-- Frame 1 is free already, and the bulk free counts it again. -/
theorem bulk_free_counts_free :
    (blackPmmFreeFrames ⟨fun _ => 0,32,0,0⟩ 0x1000 1).usedFrames = 0xFFFFFFFF ∧
      (repeatedFree ⟨fun _ => 0,32,0,0⟩ 0x1000 1).usedFrames = 0 := by
  decide

end BlackOS.Pmm
