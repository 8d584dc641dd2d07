import BlackOS.PmmRun

/-! Memory accounting. The free memory that the allocator reports agrees with its
bitmap over every run exactly when the frames that the map releases past the last
counted word are as many as the total has beyond whole words. -/
namespace BlackOS.Pmm
open BlackOS.Library.Ram BlackOS.Library.Bitmap BlackOS.Library.Run

/-- The reported free memory is that of the clear bits, with no wrap. -/
def Accurate (s : State) : Prop :=
  s.usedFrames.toNat ≤ s.totalFrames.toNat ∧
    (blackPmmGetFreeMemory s).toNat / 4096 = (clearBits maxFrames s.bitmap).card

def uncounted (entries : List MmapEntry) (kernelEndPhys : Word) : Finset Nat :=
  (released entries kernelEndPhys).filter (fun f => mapTotal entries / 32 * 32 ≤ f)

theorem accurate_iff (s : State) (bounded : s.totalFrames.toNat ≤ maxFrames) :
    Accurate s ↔ s.usedFrames.toNat + (clearBits maxFrames s.bitmap).card = s.totalFrames.toNat := by
  have small : maxFrames = 262144 := rfl
  have reported (fits : s.usedFrames.toNat ≤ s.totalFrames.toNat) :
      (blackPmmGetFreeMemory s).toNat / 4096 = s.totalFrames.toNat - s.usedFrames.toNat := by
    have difference : (s.totalFrames - s.usedFrames).toNat = s.totalFrames.toNat - s.usedFrames.toNat :=
      BitVec.toNat_sub_of_le fits
    rw [blackPmmGetFreeMemory,BitVec.toNat_mul,difference]
    simp only [blackPageSize,BitVec.reduceToNat]
    omega
  constructor
  · intro accurate
    obtain ⟨fits,same⟩ := accurate
    rw [reported fits] at same
    omega
  · intro sum
    exact ⟨by omega,by rw [reported (by omega)]; omega⟩

theorem card_setBits (n : Nat) (b : Bits 32) : (setBits n b).card + (clearBits n b).card = n := by
  have halves := Finset.card_filter_add_card_filter_not (s := Finset.range n) (fun f => isSet b f = true)
  rw [Finset.card_range] at halves
  simpa [setBits,clearBits] using halves

/-- The counter and the bitmap after `black_pmm_init`. -/
theorem mapped_balance (entries : List MmapEntry) (kernelEndPhys : Word) (s : State)
    (mapped : Mapped entries kernelEndPhys s) :
    s.usedFrames.toNat + (clearBits maxFrames s.bitmap).card =
      mapTotal entries / 32 * 32 + (uncounted entries kernelEndPhys).card := by
  have small : maxFrames = 262144 := rfl
  have whole : mapTotal entries / 32 * 32 ≤ maxFrames := by
    have bound : mapTotal entries ≤ maxFrames := Nat.min_le_left _ _
    omega
  have counted := card_setBits (mapTotal entries / 32 * 32) s.bitmap
  have all : clearBits maxFrames s.bitmap = released entries kernelEndPhys := by
    ext f
    simp only [clearBits,Finset.mem_filter,Finset.mem_range,mapped.bits]
    exact ⟨fun both => both.2,fun member => ⟨((mem_released _ _ f).mp member).1,member⟩⟩
  have below : clearBits (mapTotal entries / 32 * 32) s.bitmap =
      (released entries kernelEndPhys).filter (fun f => ¬mapTotal entries / 32 * 32 ≤ f) := by
    ext f
    simp only [clearBits,Finset.mem_filter,Finset.mem_range,mapped.bits,Nat.not_le]
    exact and_comm
  have parts := Finset.card_filter_add_card_filter_not (s := released entries kernelEndPhys)
    (fun f => mapTotal entries / 32 * 32 ≤ f)
  rw [mapped.used,word_toNat _ (by omega),all,← parts,← below]
  change _ + ((uncounted entries kernelEndPhys).card + _) = _
  omega

theorem run_balance (first : State) (s : System) (inv : Inv first s)
    (bounded : first.totalFrames.toNat ≤ maxFrames)
    (balance : first.usedFrames.toNat + (clearBits maxFrames first.bitmap).card = first.totalFrames.toNat) :
    s.pmm.usedFrames.toNat + (clearBits maxFrames s.pmm.bitmap).card = s.pmm.totalFrames.toNat := by
  have small : maxFrames = 262144 := rfl
  -- only frames that were clear at first are ever clear again
  have fewer : (clearBits maxFrames s.pmm.bitmap).card ≤ (clearBits maxFrames first.bitmap).card := by
    apply Finset.card_le_card
    intro f member
    simp only [clearBits,Finset.mem_filter,Finset.mem_range] at member ⊢
    refine ⟨member.1,?_⟩
    by_contra on
    have still := inv.kept f (by simpa using on)
    rw [member.2] at still
    cases still
  have count := congrArg BitVec.toNat inv.count
  have bound := s.pmm.usedFrames.isLt
  rw [BitVec.toNat_add,BitVec.toNat_add,word_toNat _ (by omega),word_toNat _ (by omega),balance] at count
  rw [inv.total]
  omega

/-- The reports are accurate over every run exactly when the released frames
outside the counted words are as many as the total has beyond whole words. -/
theorem accounting_iff (m : Memory) (mboot : MultibootInfo) (kernelEndPhys : Word) (first : State)
    (booted : Booted m mboot kernelEndPhys first) (entries : List MmapEntry)
    (map : memoryMap m mboot = some entries) :
    (∀ ops s, Steps Next ⟨first,∅⟩ ops s → Accurate s.pmm) ↔
      (uncounted entries kernelEndPhys).card = mapTotal entries % 32 := by
  obtain ⟨found,same,mapped⟩ := booted_mapped m mboot kernelEndPhys first booted
  cases same.symm.trans map
  have bounded := booted_bounded booted
  have balance := mapped_balance entries kernelEndPhys first mapped
  have total := mapped.total
  constructor
  · intro always
    have accurate := (accurate_iff first bounded).mp (always [] ⟨first,∅⟩ .nil)
    omega
  · intro condition ops s run
    have inv := run_inv booted ops s run
    apply (accurate_iff s.pmm (by rw [inv.total]; exact bounded)).mpr
    exact run_balance first s inv bounded (by omega)

theorem accounting_one_page : ∃ first,
    Booted (oneRegion 0x100000 0x1000) oneRegionInfo 0x1000 first ∧
      ∀ ops s, Steps Next ⟨first,∅⟩ ops s → Accurate s.pmm := by
  have map := oneRegion_map 0x100000 0x1000 ⟨20,0x100000,0x1000,1⟩ rfl (by decide)
  obtain ⟨first,booted⟩ := booted_exists (oneRegion 0x100000 0x1000) oneRegionInfo 0x1000 _ (by decide)
    (by decide) map (by decide)
  refine ⟨first,booted,(accounting_iff _ _ _ first booted _ map).mpr ?_⟩
  have single : uncounted [⟨20,0x100000,0x1000,1⟩] 0x1000 = {256} := by
    ext f
    rw [uncounted,Finset.mem_filter,mem_released,Finset.mem_singleton]
    constructor
    · intro member
      obtain ⟨⟨low,_,_,e,listed,_,visits⟩,_⟩ := member
      rw [List.mem_singleton] at listed
      subst listed
      have small : maxFrames = 262144 := rfl
      have near := (visits_iff _ _ f (by omega) (by decide)).mp visits
      simp only [BitVec.reduceToNat,BitVec.reduceAdd] at near
      omega
    · intro isPage
      subst isPage
      exact ⟨⟨by decide,by decide,by decide,_,List.mem_singleton.mpr rfl,by decide⟩,by decide⟩
  rw [single]
  rfl

/-- Thirty-two pages at 1 MiB: every one of their frames is clear, the counted word
is the first of the bitmap, and the allocator reports no free memory. -/
theorem accounting_misses : ∃ first,
    Booted (oneRegion 0x100000 0x20000) oneRegionInfo 0x1000 first ∧
      Steps Next ⟨first,∅⟩ [] ⟨first,∅⟩ ∧ ¬Accurate first := by
  have map := oneRegion_map 0x100000 0x20000 ⟨20,0x100000,0x20000,1⟩ rfl (by decide)
  obtain ⟨first,booted⟩ := booted_exists (oneRegion 0x100000 0x20000) oneRegionInfo 0x1000 _ (by decide)
    (by decide) map (by decide)
  refine ⟨first,booted,.nil,?_⟩
  obtain ⟨found,same,mapped⟩ := booted_mapped _ _ _ first booted
  cases same.symm.trans map
  intro accurate
  have sum := (accurate_iff first (booted_bounded booted)).mp accurate
  have balance := mapped_balance _ _ first mapped
  have total := mapped.total
  have counted : mapTotal [⟨20,0x100000,0x20000,1⟩] = 32 := by decide
  have missed : 256 ∈ uncounted [⟨20,0x100000,0x20000,1⟩] 0x1000 := by
    rw [uncounted,Finset.mem_filter,mem_released]
    exact ⟨⟨by decide,by decide,by decide,_,List.mem_singleton.mpr rfl,by decide⟩,by decide⟩
  have some_ := Finset.card_pos.mpr ⟨256,missed⟩
  omega

end BlackOS.Pmm
