import BlackOS.PmmFrames

/-! What `black_pmm_init` computes from a memory map: the frames it releases, the
total it takes from the region lengths, and the frames it counts as used. -/
namespace BlackOS.Pmm
open BlackOS.Library.Ram BlackOS.Library.Bitmap
open BlackOS.Heap (blackAlign)

/-- The entries of the memory map, in order. -/
def mmapEntries (m : Memory) (mmapEnd : Word) : Nat → Word → Option (List MmapEntry)
  | 0,_ => none
  | fuel+1,addr =>
    if addr < mmapEnd then
      (mmapEntries m mmapEnd fuel (addr + ((mmapEntry m addr).size + 4))).map (mmapEntry m addr :: ·)
    else some []

/-- A page of the address range lies on frame `f` modulo `2^32`. -/
def Visits (addr limit f : Nat) : Prop := ∃ k, addr + 4096 * k < limit ∧ (addr / 4096 + k) % 2^32 = f

def Releases (e : MmapEntry) (f : Nat) : Prop :=
  e.type = mmapAvailable ∧ Visits e.addr.toNat (e.addr + e.len).toNat f

theorem visits_iff (addr limit f : Nat) (low : f < 2^32) (high : addr < 2^64) :
    Visits addr limit f ↔ addr + 4096 * ((f + 2^52 - addr / 4096) % 2^32) < limit := by
  constructor
  · intro visit
    obtain ⟨k,inside,lands⟩ := visit
    have first : (f + 2^52 - addr / 4096) % 2^32 ≤ k := by omega
    omega
  · intro inside
    exact ⟨_,inside,by omega⟩

theorem visits_step (addr limit f : Nat) (below : addr < limit) :
    Visits addr limit f ↔ addr / 4096 % 2^32 = f ∨ Visits (addr + 4096) limit f := by
  have shift (k : Nat) : (addr + 4096) / 4096 + k = addr / 4096 + (k+1) := by omega
  constructor
  · intro visit
    obtain ⟨k,inside,lands⟩ := visit
    cases k with
    | zero => exact Or.inl lands
    | succ k => exact Or.inr ⟨k,by omega,by rw [shift]; exact lands⟩
  · intro either
    rcases either with here | ⟨k,inside,lands⟩
    · exact ⟨0,by omega,here⟩
    · rw [shift] at lands
      exact ⟨k+1,by omega,lands⟩

instance (e : MmapEntry) (f : Nat) : Decidable (Releases e f) :=
  if low : f < 2^32 then
    decidable_of_iff (e.type = mmapAvailable ∧
        e.addr.toNat + 4096 * ((f + 2^52 - e.addr.toNat / 4096) % 2^32) < (e.addr + e.len).toNat)
      (and_congr_right fun _ => (visits_iff _ _ f low e.addr.isLt).symm)
  else isFalse (fun released => by
    obtain ⟨_,k,_,lands⟩ := released
    omega)

theorem frameOf_toNat (addr : BitVec 64) : (frameOf addr).toNat = addr.toNat / 4096 % 2^32 := by
  simp [frameOf,BitVec.toNat_udiv]

theorem clearPages_stuck (limit : BitVec 64) (fuel : Nat) (addr : BitVec 64) (b : Bits 32)
    (below : ∀ x : BitVec 64, x.toNat % 4096 = addr.toNat % 4096 → x < limit) :
    clearPages limit fuel addr b = none := by
  induction fuel generalizing addr b with
  | zero => rfl
  | succ fuel ih =>
    rw [clearPages,if_pos (below addr rfl)]
    apply ih
    intro x same
    apply below x
    rw [same,BitVec.toNat_add]
    simp only [BitVec.reduceToNat]
    omega

theorem clearPages_spec (limit : BitVec 64) (fuel : Nat) (addr : BitVec 64) (b b' : Bits 32)
    (done : clearPages limit fuel addr b = some b') (f : Nat) :
    isSet b' f = false ↔
      isSet b f = false ∨ 0 < f ∧ f < maxFrames ∧ Visits addr.toNat limit.toNat f := by
  induction fuel generalizing addr b with
  | zero => cases done
  | succ fuel ih =>
    rw [clearPages] at done
    split at done
    · rename_i below
      by_cases wraps : addr.toNat + 4096 < 2^64
      · have next : (addr + 4096).toNat = addr.toNat + 4096 := by
          rw [BitVec.toNat_add]
          simp only [BitVec.reduceToNat]
          omega
        rw [ih _ _ done,visits_step addr.toNat limit.toNat f below,← frameOf_toNat,← next]
        split
        · rename_i inRange
          rw [isSet_clearFrame]
          by_cases here : f = (frameOf addr).toNat
          · simp [here,inRange]
          · simp [here,Ne.symm here]
        · rename_i outside
          by_cases here : (frameOf addr).toNat = f
          · rw [here] at outside
            constructor
            · intro either
              rcases either with off | ⟨positive,low,visit⟩
              · exact Or.inl off
              · exact absurd ⟨positive,low⟩ outside
            · intro either
              rcases either with off | ⟨positive,low,visit⟩
              · exact Or.inl off
              · exact absurd ⟨positive,low⟩ outside
          · simp [here]
      · -- past the last address the loop starts over and never ends
        have stuck := clearPages_stuck limit (fuel+1) addr b (by
          intro x same
          have bound := x.isLt
          rw [BitVec.lt_def] at below ⊢
          omega)
        rw [clearPages,if_pos below] at stuck
        rw [stuck] at done
        cases done
    · rename_i past
      cases done
      rw [BitVec.lt_def] at past
      have nothing : ¬Visits addr.toNat limit.toNat f := by
        intro visit
        obtain ⟨k,inside,_⟩ := visit
        omega
      simp [nothing]

/-- The loop ends when its first address past the limit does not wrap. -/
theorem clearPages_returns (limit : BitVec 64) (fuel : Nat) (addr : BitVec 64) (b : Bits 32)
    (ends : limit ≤ addr ∨ limit.toNat + 4096 ≤ 2^64 + addr.toNat % 4096)
    (enough : limit.toNat ≤ addr.toNat + 4096 * fuel) :
    ∃ b', clearPages limit (fuel+1) addr b = some b' := by
  induction fuel generalizing addr b with
  | zero =>
    have past : ¬addr < limit := by rw [BitVec.lt_def]; omega
    exact ⟨b,by rw [clearPages,if_neg past]⟩
  | succ fuel ih =>
    rw [clearPages]
    split
    · rename_i below
      rw [BitVec.lt_def] at below
      rw [BitVec.le_def] at ends
      have bound := addr.isLt
      have next : (addr + 4096).toNat = addr.toNat + 4096 := by
        rw [BitVec.toNat_add]
        simp only [BitVec.reduceToNat]
        omega
      exact ih _ _ (Or.inr (by omega)) (by omega)
    · exact ⟨b,rfl⟩

theorem readMap_eq (m : Memory) (mmapEnd : Word) (fuel : Nat) (addr : Word) (s : State) :
    readMap m mmapEnd fuel addr s =
      (mmapEntries m mmapEnd fuel addr).bind (fun entries => entries.foldlM (fun s e => addEntry e s) s) := by
  induction fuel generalizing addr s with
  | zero => rfl
  | succ fuel ih =>
    rw [readMap,mmapEntries]
    split
    · simp only [ih,Option.bind_map]
      cases mmapEntries m mmapEnd fuel (addr + ((mmapEntry m addr).size + 4)) with
      | none => cases addEntry (mmapEntry m addr) s <;> rfl
      | some entries => simp [List.foldlM_cons,Option.bind]
    · rfl

def totalLength (entries : List MmapEntry) : Nat :=
  ((entries.filter (fun e => e.type = mmapAvailable)).map (fun e => e.len.toNat)).sum

theorem addEntries_spec (entries : List MmapEntry) (s s' : State)
    (done : entries.foldlM (fun s e => addEntry e s) s = some s') :
    (∀ f, isSet s'.bitmap f = false ↔
      isSet s.bitmap f = false ∨ 0 < f ∧ f < maxFrames ∧ ∃ e ∈ entries, Releases e f) ∧
    s'.totalMemory.toNat = (s.totalMemory.toNat + totalLength entries) % 2^32 := by
  induction entries generalizing s with
  | nil =>
    cases done
    refine ⟨fun f => by simp,?_⟩
    have bound := s'.totalMemory.isLt
    simp only [totalLength,List.filter_nil,List.map_nil,List.sum_nil]
    omega
  | cons e entries ih =>
    rw [List.foldlM_cons] at done
    obtain ⟨next,added,rest⟩ := Option.bind_eq_some_iff.mp done
    obtain ⟨bits,total⟩ := ih next rest
    unfold addEntry at added
    split at added
    · rename_i available
      obtain ⟨bitmap,cleared,same⟩ := Option.bind_eq_some_iff.mp added
      cases same
      have pages := clearPages_spec _ _ _ _ _ cleared
      refine ⟨?_,?_⟩
      · intro f
        rw [bits,pages]
        simp only [List.mem_cons,exists_eq_or_imp,Releases,available,true_and]
        tauto
      · have head : totalLength (e::entries) = e.len.toNat + totalLength entries := by
          simp [totalLength,available]
        rw [total,head,BitVec.toNat_add]
        simp only [BitVec.truncate_eq_setWidth,BitVec.toNat_setWidth]
        omega
    · rename_i other
      cases added
      refine ⟨?_,?_⟩
      · intro f
        rw [bits]
        simp [Releases,other]
      · have head : totalLength (e::entries) = totalLength entries := by simp [totalLength,other]
        rw [total,head]

theorem setKernel_spec (kernelEnd : Word) (b : Bits 32) (f : Nat) :
    isSet (setKernel kernelEnd b) f = (isSet b f || decide (4096 * f < kernelEnd.toNat)) := by
  have bound := kernelEnd.isLt
  have prefix_ (n : Nat) (low : n ≤ 2^20) :
      isSet ((List.range n).foldl (fun b i => blackPmmSetFrame b (word (4096 * i) / blackPageSize)) b) f =
        (isSet b f || decide (f < n)) := by
    induction n with
    | zero => simp
    | succ n ih =>
      have frame : (word (4096 * n) / blackPageSize).toNat = n := by
        rw [BitVec.toNat_udiv,word_toNat _ (by omega)]
        simp only [blackPageSize,BitVec.reduceToNat]
        omega
      have last : f < n + 1 ↔ f < n ∨ f = n := by omega
      rw [List.range_succ,List.foldl_append,List.foldl_cons,List.foldl_nil,isSet_setFrame,ih (by omega),frame]
      simp only [last,Bool.decide_or,Bool.or_assoc]
  have below : f < (kernelEnd.toNat + 4095) / 4096 ↔ 4096 * f < kernelEnd.toNat := by omega
  rw [setKernel,prefix_ _ (by omega)]
  simp only [below]

def setBits (n : Nat) (b : Bits 32) : Finset Nat := (Finset.range n).filter (fun f => isSet b f = true)

theorem setBits_succ (n : Nat) (b : Bits 32) :
    (setBits (n+1) b).card = (setBits n b).card + if isSet b n then 1 else 0 := by
  simp only [setBits,Finset.range_add_one,Finset.filter_insert]
  split
  · rw [Finset.card_insert_of_notMem (by simp)]
  · rfl

theorem countUsed_eq (b : Bits 32) (total : Word) :
    countUsed b total = word (setBits (total.toNat / 32 * 32) b).card := by
  have inner (i n : Nat) (low : n ≤ 32) :
      (List.range n).foldl (fun used j => if b i &&& 1#32 <<< j ≠ 0 then used + 1 else used)
        (word (setBits (i * 32) b).card) = word (setBits (i * 32 + n) b).card := by
    induction n with
    | zero => rfl
    | succ n ih =>
      have mask := mask_eq_zero (by omega : 0 < 32) (b i) n (by omega)
      have bit := isSet_word b i n (by omega)
      rw [List.range_succ,List.foldl_append,List.foldl_cons,List.foldl_nil,ih (by omega),← Nat.add_assoc,
        setBits_succ,bit,← word_add]
      cases on : (b i).getLsbD n with
      | false => simp [mask.mpr on,word]
      | true =>
        rw [if_pos (fun zero => by rw [mask.mp zero] at on; cases on)]
        rfl
  unfold countUsed
  generalize total.toNat / 32 = n
  induction n with
  | zero => rfl
  | succ n ih =>
    rw [List.range_succ (n := n),List.foldl_append,List.foldl_cons,List.foldl_nil,ih,inner n 32 (by omega),
      Nat.add_mul]

def memoryMap (m : Memory) (mboot : MultibootInfo) : Option (List MmapEntry) :=
  mmapEntries m (mboot.mmapAddr + kernelVma + mboot.mmapLength) (2^32 + 1) (mboot.mmapAddr + kernelVma)

def released (entries : List MmapEntry) (kernelEndPhys : Word) : Finset Nat :=
  (Finset.range maxFrames).filter (fun f =>
    0 < f ∧ (blackAlign kernelEndPhys blackPageSize).toNat ≤ 4096 * f ∧ ∃ e ∈ entries, Releases e f)

theorem mem_released (entries : List MmapEntry) (kernelEndPhys : Word) (f : Nat) :
    f ∈ released entries kernelEndPhys ↔ f < maxFrames ∧ 0 < f ∧
      (blackAlign kernelEndPhys blackPageSize).toNat ≤ 4096 * f ∧ ∃ e ∈ entries, Releases e f := by
  rw [released,Finset.mem_filter,Finset.mem_range]

/-- The number of frames that the region lengths add up to. -/
def mapTotal (entries : List MmapEntry) : Nat := min maxFrames (totalLength entries % 2^32 / 4096)

/-- The state that `black_pmm_init` leaves when it returns from its memory-map path. -/
structure Booted (m : Memory) (mboot : MultibootInfo) (kernelEndPhys : Word) (s : State) : Prop where
  path : mboot.flags &&& 0x40 ≠ 0
  kernel : 0 < kernelEndPhys.toNat ∧ kernelEndPhys.toNat < 2^30
  init : blackPmmInit m mboot kernelEndPhys unset = some s

structure Mapped (entries : List MmapEntry) (kernelEndPhys : Word) (s : State) : Prop where
  bits : ∀ f, isSet s.bitmap f = false ↔ f ∈ released entries kernelEndPhys
  total : s.totalFrames.toNat = mapTotal entries
  used : s.usedFrames = word (setBits (mapTotal entries / 32 * 32) s.bitmap).card

theorem init_mapped (m : Memory) (mboot : MultibootInfo) (kernelEndPhys : Word) (s : State)
    (path : mboot.flags &&& 0x40 ≠ 0) (init : blackPmmInit m mboot kernelEndPhys unset = some s) :
    ∃ entries, memoryMap m mboot = some entries ∧ Mapped entries kernelEndPhys s := by
  simp only [blackPmmInit,if_neg path,readMap_eq] at init
  obtain ⟨read,walked,rest⟩ := Option.bind_eq_some_iff.mp init
  obtain ⟨entries,map,added⟩ := Option.bind_eq_some_iff.mp walked
  cases rest
  obtain ⟨bits,total⟩ := addEntries_spec entries _ read added
  have full (f : Nat) : isSet (fun _ => 0xFFFFFFFF : Bits 32) f = true := by
    have ones : (0xFFFFFFFF : Word) = BitVec.allOnes 32 := rfl
    rw [isSet,ones,BitVec.getLsbD_allOnes]
    simp only [decide_eq_true_eq]
    omega
  have frames : (if maxFrames < (read.totalMemory / blackPageSize).toNat then word maxFrames
      else read.totalMemory / blackPageSize).toNat = mapTotal entries := by
    have quotient : (read.totalMemory / blackPageSize).toNat = totalLength entries % 2^32 / 4096 := by
      rw [BitVec.toNat_udiv,total]
      simp [unset,blackPageSize]
    have small : (word maxFrames).toNat = maxFrames := rfl
    rw [mapTotal,← quotient]
    split
    · rw [small]
      omega
    · omega
  refine ⟨entries,map,?_,frames,?_⟩
  · intro f
    rw [setKernel_spec,Bool.or_eq_false_iff,bits,full]
    simp only [mem_released,decide_eq_false_iff_not,Nat.not_lt,Bool.true_eq_false,false_or]
    tauto
  · rw [countUsed_eq,frames]

theorem booted_mapped (m : Memory) (mboot : MultibootInfo) (kernelEndPhys : Word) (s : State)
    (booted : Booted m mboot kernelEndPhys s) :
    ∃ entries, memoryMap m mboot = some entries ∧ Mapped entries kernelEndPhys s :=
  init_mapped m mboot kernelEndPhys s booted.path booted.init

theorem addEntries_returns (entries : List MmapEntry)
    (low : ∀ e ∈ entries, (e.addr + e.len).toNat + 4096 ≤ 2^64) (s : State) :
    ∃ s', entries.foldlM (fun s e => addEntry e s) s = some s' := by
  induction entries generalizing s with
  | nil => exact ⟨s,rfl⟩
  | cons e entries ih =>
    have added : ∃ next, addEntry e s = some next := by
      unfold addEntry
      split
      · have room := low e (by simp)
        obtain ⟨b,cleared⟩ := clearPages_returns (e.addr + e.len) (2^52) e.addr s.bitmap (Or.inr (by omega))
          (by have bound := (e.addr + e.len).isLt; omega)
        exact ⟨_,by rw [cleared]; rfl⟩
      · exact ⟨s,rfl⟩
    obtain ⟨next,added⟩ := added
    obtain ⟨s',rest⟩ := ih (fun e member => low e (by simp [member])) next
    exact ⟨s',by rw [List.foldlM_cons,added]; exact rest⟩

/-- `black_pmm_init` returns from a map that ends and has no region at the very
end of the address space. -/
theorem booted_exists (m : Memory) (mboot : MultibootInfo) (kernelEndPhys : Word) (entries : List MmapEntry)
    (path : mboot.flags &&& 0x40 ≠ 0) (kernel : 0 < kernelEndPhys.toNat ∧ kernelEndPhys.toNat < 2^30)
    (map : memoryMap m mboot = some entries)
    (low : ∀ e ∈ entries, (e.addr + e.len).toNat + 4096 ≤ 2^64) :
    ∃ s, Booted m mboot kernelEndPhys s := by
  obtain ⟨read,added⟩ := addEntries_returns entries low {unset with bitmap := fun _ => 0xFFFFFFFF}
  have walked := readMap_eq m (mboot.mmapAddr + kernelVma + mboot.mmapLength) (2^32 + 1)
    (mboot.mmapAddr + kernelVma) {unset with bitmap := fun _ => 0xFFFFFFFF}
  change _ = (memoryMap m mboot).bind _ at walked
  rw [map,Option.bind_some,added] at walked
  have returned : ∃ s, blackPmmInit m mboot kernelEndPhys unset = some s := by
    simp only [blackPmmInit,if_neg path]
    rw [walked]
    exact ⟨_,rfl⟩
  obtain ⟨s,init⟩ := returned
  exact ⟨s,path,kernel,init⟩

end BlackOS.Pmm
