import BlackOS.PmmInit
import BlackOS.Library.Run

/-! Holders of physical frames: every run of allocations and frees keeps the held
ranges apart, marked and clear of the frames taken at boot, and keeps the sum of
the used counter and the clear bits. -/
namespace BlackOS.Pmm
open BlackOS.Library.Ram BlackOS.Library.Bitmap BlackOS.Library.Run
open BlackOS.Heap (blackAlign)

/-- The allocator together with the address and length of every range handed out
and not given back since. -/
structure System where
  pmm : State
  live : Finset (Word × Word)

inductive Op
  | allocFrame
  | allocFrames (count : Word)
  | freeFrame (addr : Word)
  | freeFrames (addr count : Word)

def hold (live : Finset (Word × Word)) (addr count : Word) : Finset (Word × Word) :=
  if addr = 0 then live else insert (addr,count) live

def step (s : System) : Op → System
  | .allocFrame => ⟨(blackPmmAllocFrame s.pmm).1,hold s.live (blackPmmAllocFrame s.pmm).2 1⟩
  | .allocFrames count =>
    ⟨(blackPmmAllocFrames s.pmm count).1,hold s.live (blackPmmAllocFrames s.pmm count).2 count⟩
  | .freeFrame addr => ⟨blackPmmFreeFrame s.pmm addr,s.live.erase (addr,1)⟩
  | .freeFrames addr count => ⟨blackPmmFreeFrames s.pmm addr count,s.live.erase (addr,count)⟩

/-- Requests are for at least one frame, and a holder gives back exactly a range it holds. -/
def Allowed (s : System) : Op → Prop
  | .allocFrame => True
  | .allocFrames count => 1 ≤ count.toNat
  | .freeFrame addr => (addr,1) ∈ s.live
  | .freeFrames addr count => (addr,count) ∈ s.live

def Next (s : System) (op : Op) (s' : System) : Prop := Allowed s op ∧ step s op = s'

def held (p : Word × Word) : Finset Nat := frames (p.1.toNat / 4096) p.2.toNat

structure Inv (first : State) (s : System) : Prop where
  total : s.pmm.totalFrames = first.totalFrames
  kept : ∀ f, isSet first.bitmap f = true → isSet s.pmm.bitmap f = true
  count : s.pmm.usedFrames + word (clearBits maxFrames s.pmm.bitmap).card =
    first.usedFrames + word (clearBits maxFrames first.bitmap).card
  range : ∀ p ∈ s.live, ∃ a, p.1 = word a * blackPageSize ∧ 0 < p.2.toNat ∧ a + p.2.toNat ≤ maxFrames
  taken : ∀ p ∈ s.live, ∀ f ∈ held p, isSet s.pmm.bitmap f = true ∧ isSet first.bitmap f = false
  apart : ∀ p ∈ s.live, ∀ q ∈ s.live, p ≠ q → Disjoint (held p) (held q)

theorem held_address (a : Nat) (count : Word) (low : a < maxFrames) :
    held (word a * blackPageSize,count) = frames a count.toNat := by
  simp only [held,(address_frame a low).2]
  rw [Nat.mul_div_cancel a (by omega)]

theorem card_frames (a n : Nat) : (frames a n).card = n := by
  simp [frames]

section
variable (first : State) (s : System) (inv : Inv first s)
include inv

theorem takes_inv (pmm : State) (a : Nat) (count : Word) (positive : 0 < count.toNat)
    (low : a + count.toNat ≤ maxFrames) (isClear : ∀ f ∈ frames a count.toNat, isSet s.pmm.bitmap f = false)
    (takes : Takes s.pmm pmm a count.toNat) : Inv first ⟨pmm,insert (word a * blackPageSize,count) s.live⟩ := by
  have own := held_address a count (by omega)
  have newSet (f : Nat) (member : f ∈ frames a count.toNat) : isSet pmm.bitmap f = true := by
    rw [takes.bits]
    simp [member]
  have staysSet (f : Nat) (on : isSet s.pmm.bitmap f = true) : isSet pmm.bitmap f = true := by
    rw [takes.bits,on]
    rfl
  have separate (q : Word × Word) (live : q ∈ s.live) : Disjoint (frames a count.toNat) (held q) := by
    rw [Finset.disjoint_left]
    intro f mine theirs
    have on := (inv.taken q live f theirs).1
    rw [isClear f mine] at on
    cases on
  refine ⟨takes.total.trans inv.total,fun f on => staysSet f (inv.kept f on),?_,?_,?_,?_⟩
  · have fewer := card_clearBits maxFrames s.pmm.bitmap pmm.bitmap (frames a count.toNat)
      (fun f member => by simp only [frames,Finset.mem_Ico] at member; omega) isClear newSet
      (fun f outside => by rw [takes.bits]; simp [outside])
    rw [card_frames] at fewer
    rw [← inv.count,fewer,takes.used,← word_add,BitVec.add_assoc,BitVec.add_comm (word count.toNat)]
  · intro p member
    rcases Finset.mem_insert.mp member with new | old
    · subst new
      exact ⟨a,rfl,positive,low⟩
    · exact inv.range p old
  · intro p member f inside
    rcases Finset.mem_insert.mp member with new | old
    · subst new
      rw [own] at inside
      refine ⟨newSet f inside,?_⟩
      by_contra on
      have still := inv.kept f (by simpa using on)
      rw [isClear f inside] at still
      cases still
    · obtain ⟨on,off⟩ := inv.taken p old f inside
      exact ⟨staysSet f on,off⟩
  · intro p memberP q memberQ distinct
    rcases Finset.mem_insert.mp memberP with newP | oldP
    · rcases Finset.mem_insert.mp memberQ with newQ | oldQ
      · exact absurd (newP.trans newQ.symm) distinct
      · subst newP
        rw [own]
        exact separate q oldQ
    · rcases Finset.mem_insert.mp memberQ with newQ | oldQ
      · subst newQ
        rw [own]
        exact (separate p oldP).symm
      · exact inv.apart p oldP q oldQ distinct

theorem returns_inv (pmm : State) (a : Nat) (count : Word) (low : a + count.toNat ≤ maxFrames)
    (positive : 0 < count.toNat) (live : (word a * blackPageSize,count) ∈ s.live)
    (returns : Returns s.pmm pmm a count.toNat) :
    Inv first ⟨pmm,s.live.erase (word a * blackPageSize,count)⟩ := by
  have own := held_address a count (by omega)
  have wasHeld (f : Nat) (member : f ∈ frames a count.toNat) :
      isSet s.pmm.bitmap f = true ∧ isSet first.bitmap f = false := inv.taken _ live f (by rwa [own])
  have others (f : Nat) (outside : f ∉ frames a count.toNat) :
      isSet pmm.bitmap f = isSet s.pmm.bitmap f := by
    rw [returns.bits]
    simp [outside]
  refine ⟨returns.total.trans inv.total,?_,?_,?_,?_,?_⟩
  · intro f on
    have outside : f ∉ frames a count.toNat := by
      intro member
      rw [(wasHeld f member).2] at on
      cases on
    rw [others f outside]
    exact inv.kept f on
  · have more := card_clearBits maxFrames pmm.bitmap s.pmm.bitmap (frames a count.toNat)
      (fun f member => by simp only [frames,Finset.mem_Ico] at member; omega)
      (fun f member => by rw [returns.bits]; simp [member]) (fun f member => (wasHeld f member).1)
      (fun f outside => (others f outside).symm)
    rw [card_frames] at more
    rw [← inv.count,more,returns.used,← word_add,BitVec.add_comm (word _) (word count.toNat),← BitVec.add_assoc,
      BitVec.sub_add_cancel]
  · intro p member
    exact inv.range p (Finset.mem_of_mem_erase member)
  · intro p member f inside
    obtain ⟨other,old⟩ := Finset.mem_erase.mp member
    have outside : f ∉ frames a count.toNat := by
      rw [← own]
      exact Finset.disjoint_left.mp (inv.apart p old _ live other) inside
    rw [others f outside]
    exact inv.taken p old f inside
  · intro p memberP q memberQ distinct
    exact inv.apart p (Finset.mem_of_mem_erase memberP) q (Finset.mem_of_mem_erase memberQ) distinct

theorem address_ne_zero (zero : isSet first.bitmap 0 = true) (a : Nat) (low : a < maxFrames)
    (off : isSet s.pmm.bitmap a = false) : word a * blackPageSize ≠ 0 := by
  intro same
  have value := (address_frame a low).2
  rw [same] at value
  change 0 = a * 4096 at value
  have isZero : a = 0 := by omega
  rw [isZero,inv.kept 0 zero] at off
  cases off

theorem step_inv (zero : isSet first.bitmap 0 = true) (bounded : first.totalFrames.toNat ≤ maxFrames)
    (op : Op) (allowed : Allowed s op) : Inv first (step s op) := by
  cases op with
  | allocFrame =>
    rcases allocFrame_spec s.pmm with ⟨failed,_⟩ | ⟨a,pmm,done,low,off,takes⟩
    · simpa [step,failed,hold] using inv
    · have isClear : ∀ f ∈ frames a (1 : Word).toNat, isSet s.pmm.bitmap f = false := by
        intro f member
        rw [(mem_frames_one a f).mp member]
        exact off
      simp only [step,done,hold,if_neg (address_ne_zero first s inv zero a low off)]
      exact takes_inv first s inv pmm a 1 (by decide) low isClear takes
  | allocFrames count =>
    rcases allocFrames_spec s.pmm count allowed (by rw [inv.total]; exact bounded) with
      failed | ⟨a,pmm,done,low,isClear,takes⟩
    · simpa [step,failed,hold] using inv
    · have positive : 0 < count.toNat := allowed
      have off := isClear a (by simp only [frames,Finset.mem_Ico]; omega)
      simp only [step,done,hold,if_neg (address_ne_zero first s inv zero a (by omega) off)]
      exact takes_inv first s inv pmm a count positive low isClear takes
  | freeFrame addr =>
    obtain ⟨a,place,_,low⟩ := inv.range _ allowed
    change addr = _ at place
    change a + 1 ≤ maxFrames at low
    subst place
    have taken := (inv.taken _ allowed a (by
      rw [held_address a 1 (by omega)]
      exact (mem_frames_one a a).mpr rfl)).1
    exact returns_inv first s inv _ a 1 low (by decide) allowed (freeFrame_spec s.pmm a (by omega) taken)
  | freeFrames addr count =>
    obtain ⟨a,place,positive,low⟩ := inv.range _ allowed
    change addr = _ at place
    change a + count.toNat ≤ maxFrames at low
    subst place
    exact returns_inv first s inv _ a count low positive allowed (freeFrames_spec s.pmm a count positive low)

end

section
variable {m : Memory} {mboot : MultibootInfo} {kernelEndPhys : Word} {first : State}
  (booted : Booted m mboot kernelEndPhys first)
include booted

theorem booted_clear (f : Nat) (off : isSet first.bitmap f = false) :
    0 < f ∧ f < maxFrames ∧ (blackAlign kernelEndPhys blackPageSize).toNat ≤ 4096 * f := by
  obtain ⟨entries,_,mapped⟩ := booted_mapped m mboot kernelEndPhys first booted
  obtain ⟨low,positive,outside,_⟩ := (mem_released _ _ f).mp ((mapped.bits f).mp off)
  exact ⟨positive,low,outside⟩

theorem booted_zero : isSet first.bitmap 0 = true := by
  by_contra off
  have positive := (booted_clear booted 0 (by simpa using off)).1
  omega

theorem booted_bounded : first.totalFrames.toNat ≤ maxFrames := by
  obtain ⟨entries,_,mapped⟩ := booted_mapped m mboot kernelEndPhys first booted
  rw [mapped.total,mapTotal]
  omega

theorem run_inv (ops : List Op) (s : System) (run : Steps Next ⟨first,∅⟩ ops s) : Inv first s := by
  have initial : Inv first ⟨first,∅⟩ := by
    refine ⟨rfl,fun f on => on,rfl,?_,?_,?_⟩ <;> simp
  refine Steps.invariant (Inv first) initial ?_ run
  intro s op s' inv next
  obtain ⟨allowed,done⟩ := next
  rw [← done]
  exact step_inv first s inv (booted_zero booted) (booted_bounded booted) op allowed

end

/-- Live allocations hold pairwise disjoint sets of marked frames, outside frame 0
and the kernel image. What an allocation hands out was clear, and a single-frame
request fails only on a full bitmap. -/
theorem frames_exclusive (m : Memory) (mboot : MultibootInfo) (kernelEndPhys : Word) (first : State)
    (booted : Booted m mboot kernelEndPhys first) (ops : List Op) (s : System)
    (run : Steps Next ⟨first,∅⟩ ops s) :
    (∀ p ∈ s.live, ∀ q ∈ s.live, p ≠ q → Disjoint (held p) (held q)) ∧
    (∀ p ∈ s.live, ∀ f ∈ held p, isSet s.pmm.bitmap f = true ∧ f ≠ 0 ∧ f < maxFrames ∧
      (blackAlign kernelEndPhys blackPageSize).toNat ≤ 4096 * f) ∧
    ((blackPmmAllocFrame s.pmm).2 ≠ 0 →
      ∀ f ∈ held ((blackPmmAllocFrame s.pmm).2,1), isSet s.pmm.bitmap f = false) ∧
    (∀ count : Word, 1 ≤ count.toNat → (blackPmmAllocFrames s.pmm count).2 ≠ 0 →
      ∀ f ∈ held ((blackPmmAllocFrames s.pmm count).2,count), isSet s.pmm.bitmap f = false) ∧
    ((blackPmmAllocFrame s.pmm).2 = 0 → ∀ f, f < maxFrames → isSet s.pmm.bitmap f = true) := by
  have inv := run_inv booted ops s run
  refine ⟨inv.apart,?_,?_,?_,?_⟩
  · intro p live f member
    obtain ⟨on,off⟩ := inv.taken p live f member
    obtain ⟨positive,low,outside⟩ := booted_clear booted f off
    exact ⟨on,by omega,low,outside⟩
  · intro success f member
    rcases allocFrame_spec s.pmm with ⟨failed,_⟩ | ⟨a,pmm,done,low,off,_⟩
    · exact absurd (congrArg Prod.snd failed) success
    · rw [done,held_address a 1 low] at member
      rw [(mem_frames_one a f).mp member]
      exact off
  · intro count positive success f member
    rcases allocFrames_spec s.pmm count positive (by rw [inv.total]; exact booted_bounded booted) with
      failed | ⟨a,pmm,done,low,isClear,_⟩
    · exact absurd (congrArg Prod.snd failed) success
    · rw [done,held_address a count (by omega)] at member
      exact isClear f member
  · intro failed
    rcases allocFrame_spec s.pmm with ⟨_,full⟩ | ⟨a,pmm,done,low,off,_⟩
    · exact full
    · rw [done] at failed
      exact absurd failed (address_ne_zero first s inv (booted_zero booted) a low off)

/-- A memory map of one available region, as the boot loader leaves it in memory. -/
def oneRegion (base len : Word) : Memory :=
  write32 (write32 (write32 (write32 (fun _ => 0) 0xC0001000 20) 0xC0001004 base) 0xC000100C len) 0xC0001014 1

def oneRegionInfo : MultibootInfo := ⟨0x40,0,24,0x1000⟩

theorem oneRegion_map (base len : Word) (e : MmapEntry) (size : e.size = 20)
    (entry : mmapEntry (oneRegion base len) 0xC0001000 = e) :
    memoryMap (oneRegion base len) oneRegionInfo = some [e] := by
  change mmapEntries (oneRegion base len) 0xC0001018 (4294967295 + 1 + 1) 0xC0001000 = some [e]
  rw [mmapEntries,if_pos (by decide),entry,size,mmapEntries,if_neg (by decide)]
  rfl

theorem frames_exclusive_region : ∃ first s, Booted (oneRegion 0x100000 0x2000) oneRegionInfo 0x1000 first ∧
    Steps Next ⟨first,∅⟩ [.allocFrame,.allocFrame] s ∧ s.live = {(0x100000,1),(0x101000,1)} ∧
    Disjoint (held (0x100000,1)) (held (0x101000,1)) := by
  obtain ⟨first,booted⟩ := booted_exists (oneRegion 0x100000 0x2000) oneRegionInfo 0x1000 _ (by decide)
    (by decide) (oneRegion_map 0x100000 0x2000 ⟨20,0x100000,0x2000,1⟩ rfl (by decide)) (by decide)
  let s := step ⟨first,∅⟩ .allocFrame
  have run : Steps Next ⟨first,∅⟩ [.allocFrame,.allocFrame] (step s .allocFrame) :=
    .snoc [Op.allocFrame] Op.allocFrame s _ (.snoc [] _ _ _ .nil ⟨trivial,rfl⟩) ⟨trivial,rfl⟩
  have addresses : ((blackPmmInit (oneRegion 0x100000 0x2000) oneRegionInfo 0x1000 unset).map fun first =>
      (step (step ⟨first,∅⟩ .allocFrame) .allocFrame).live) = some {(0x100000,1),(0x101000,1)} := by
    decide +kernel
  rw [booted.init] at addresses
  have live : (step s .allocFrame).live = {(0x100000,1),(0x101000,1)} := Option.some.inj addresses
  obtain ⟨apart,_⟩ := frames_exclusive _ _ _ first booted _ _ run
  exact ⟨first,_,booted,run,live,apart _ (by rw [live]; decide) _ (by rw [live]; decide) (by decide)⟩

end BlackOS.Pmm
