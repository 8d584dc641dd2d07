import BlackOS.PmmRun

/-! Which frames boot releases. The loop over a region takes one step for each page it touches, so a
page that the region covers only in part is released as well. -/
namespace BlackOS.Pmm
open BlackOS.Library.Ram BlackOS.Library.Bitmap
open BlackOS.Heap (blackAlign)

/-- Every byte of the frame lies in an available region. -/
def Covered (entries : List MmapEntry) (f : Nat) : Prop :=
  ∀ x, 4096 * f ≤ x → x < 4096 * f + 4096 →
    ∃ e ∈ entries, e.type = mmapAvailable ∧ e.addr.toNat ≤ x ∧ x < e.addr.toNat + e.len.toNat

/-- The frames that the map's regions may release: not frame 0 and not the kernel image's. -/
def InScope (kernelEndPhys : Word) (f : Nat) : Prop :=
  0 < f ∧ f < maxFrames ∧ (blackAlign kernelEndPhys blackPageSize).toNat ≤ 4096 * f

def ReleasesCovered (m : Memory) (mboot : MultibootInfo) (kernelEndPhys : Word) (entries : List MmapEntry) :
    Prop :=
  ∃ s, blackPmmInit m mboot kernelEndPhys unset = some s ∧ ∀ f, f < maxFrames →
    (isSet s.bitmap f = false ↔ InScope kernelEndPhys f ∧ Covered entries f)

/-- A region whose loop does not start over at address 0. -/
def Ends (e : MmapEntry) : Prop :=
  e.len.toNat = 0 ∨ e.addr.toNat + e.len.toNat + 4096 ≤ 2^64 + e.addr.toNat % 4096

/-- The pages of a region that it may cover in part: its first and its last one, and those whose
numbers are cut to 32 bits. -/
def Edge (e : MmapEntry) (page : Nat) : Prop :=
  e.type = mmapAvailable ∧ 0 < e.len.toNat ∧ e.addr.toNat / 4096 ≤ page ∧
    page ≤ e.addr.toNat / 4096 + (e.len.toNat - 1) / 4096 ∧
    (page = e.addr.toNat / 4096 ∨ page = e.addr.toNat / 4096 + (e.len.toNat - 1) / 4096 ∨ 2^32 ≤ page)

/-- Each available region ends, and is completed by the others at its edges. -/
structure Completed (kernelEndPhys : Word) (entries : List MmapEntry) : Prop where
  ends : ∀ e ∈ entries, e.type = mmapAvailable → Ends e
  edges : ∀ e ∈ entries, ∀ page, Edge e page → InScope kernelEndPhys (page % 2^32) →
    Covered entries (page % 2^32)

section
variable (e : MmapEntry) (fits : e.addr.toNat + e.len.toNat < 2^64)
include fits

theorem region_limit : (e.addr + e.len).toNat = e.addr.toNat + e.len.toNat := by
  rw [BitVec.toNat_add]
  omega

theorem addEntry_returns (s : State) :
    (∃ s', addEntry e s = some s') ↔ (e.type = mmapAvailable → Ends e) := by
  have limit := region_limit e fits
  unfold addEntry
  split
  · rename_i available
    constructor
    · intro returned
      obtain ⟨s',done⟩ := returned
      intro _
      by_contra endless
      have both := not_or.mp endless
      have stuck := clearPages_stuck (e.addr + e.len) (2^52 + 1) e.addr s.bitmap (by
        intro x same
        have bound := x.isLt
        rw [BitVec.lt_def,limit]
        omega)
      rw [stuck] at done
      cases done
    · intro ends
      have room : e.addr + e.len ≤ e.addr ∨ (e.addr + e.len).toNat + 4096 ≤ 2^64 + e.addr.toNat % 4096 := by
        rw [BitVec.le_def,limit]
        rcases ends available with empty | low
        · exact Or.inl (by omega)
        · exact Or.inr low
      obtain ⟨b,cleared⟩ := clearPages_returns (e.addr + e.len) (2^52) e.addr s.bitmap room
        (by have bound := (e.addr + e.len).isLt; omega)
      exact ⟨_,by rw [cleared]; rfl⟩
  · rename_i other
    exact iff_of_true ⟨s,rfl⟩ (fun available => absurd available other)

end

theorem addEntries_return_iff (entries : List MmapEntry)
    (fits : ∀ e ∈ entries, e.addr.toNat + e.len.toNat < 2^64) (s : State) :
    (∃ s', entries.foldlM (fun s e => addEntry e s) s = some s') ↔
      ∀ e ∈ entries, e.type = mmapAvailable → Ends e := by
  induction entries generalizing s with
  | nil => exact iff_of_true ⟨s,rfl⟩ (by simp)
  | cons e entries ih =>
    have here := addEntry_returns e (fits e (by simp)) s
    have tail (next : State) := ih (fun d member => fits d (by simp [member])) next
    rw [List.foldlM_cons,List.forall_mem_cons,← here]
    constructor
    · intro returned
      obtain ⟨s',done⟩ := returned
      obtain ⟨next,added,rest⟩ := Option.bind_eq_some_iff.mp done
      exact ⟨⟨next,added⟩,(tail next).mp ⟨s',rest⟩⟩
    · intro both
      obtain ⟨⟨next,added⟩,later⟩ := both
      obtain ⟨s',rest⟩ := (tail next).mpr later
      exact ⟨s',Option.bind_eq_some_iff.mpr ⟨next,added,rest⟩⟩

/-- `black_pmm_init` returns exactly when every available region's loop ends. -/
theorem init_returns_iff (m : Memory) (mboot : MultibootInfo) (kernelEndPhys : Word)
    (entries : List MmapEntry) (path : mboot.flags &&& 0x40 ≠ 0) (map : memoryMap m mboot = some entries)
    (fits : ∀ e ∈ entries, e.addr.toNat + e.len.toNat < 2^64) :
    (∃ s, blackPmmInit m mboot kernelEndPhys unset = some s) ↔
      ∀ e ∈ entries, e.type = mmapAvailable → Ends e := by
  rw [← addEntries_return_iff entries fits {unset with bitmap := fun _ => 0xFFFFFFFF}]
  have walked := readMap_eq m (mboot.mmapAddr + kernelVma + mboot.mmapLength) (2^32 + 1)
    (mboot.mmapAddr + kernelVma) {unset with bitmap := fun _ => 0xFFFFFFFF}
  change _ = (memoryMap m mboot).bind _ at walked
  rw [map,Option.bind_some] at walked
  simp only [blackPmmInit,if_neg path,walked]
  constructor
  · intro returned
    obtain ⟨s,init⟩ := returned
    obtain ⟨read,added,_⟩ := Option.bind_eq_some_iff.mp init
    exact ⟨read,added⟩
  · intro returned
    obtain ⟨read,added⟩ := returned
    rw [added]
    exact ⟨_,rfl⟩

/-- A frame that lies wholly in available regions is touched by the region of its last byte. -/
theorem covered_released (entries : List MmapEntry)
    (fits : ∀ e ∈ entries, e.addr.toNat + e.len.toNat < 2^64) (f : Nat) (low : f < maxFrames)
    (covered : Covered entries f) : ∃ e ∈ entries, Releases e f := by
  have small : maxFrames = 262144 := rfl
  obtain ⟨e,member,available,starts,ends⟩ := covered (4096 * f + 4095) (by omega) (by omega)
  refine ⟨e,member,available,f - e.addr.toNat / 4096,?_,by omega⟩
  rw [region_limit e (fits e member)]
  omega

theorem edge_released (e : MmapEntry) (fits : e.addr.toNat + e.len.toNat < 2^64) (page : Nat)
    (edge : Edge e page) : Releases e (page % 2^32) := by
  obtain ⟨available,positive,first,last,_⟩ := edge
  refine ⟨available,page - e.addr.toNat / 4096,?_,by rw [Nat.add_sub_cancel' first]⟩
  rw [region_limit e fits]
  omega

/-- Between its first and its last page a region covers every frame it touches. -/
theorem released_edge_or_covered (entries : List MmapEntry) (e : MmapEntry) (member : e ∈ entries)
    (fits : e.addr.toNat + e.len.toNat < 2^64) (f : Nat) (released : Releases e f) :
    (∃ page, Edge e page ∧ page % 2^32 = f) ∨ Covered entries f := by
  obtain ⟨available,k,inside,lands⟩ := released
  rw [region_limit e fits] at inside
  by_cases edge : Edge e (e.addr.toNat / 4096 + k)
  · exact Or.inl ⟨_,edge,lands⟩
  · right
    have inner : ¬(k = 0 ∨ k = (e.len.toNat - 1) / 4096 ∨ 2^32 ≤ e.addr.toNat / 4096 + k) := by
      intro outer
      refine edge ⟨available,by omega,by omega,by omega,?_⟩
      rcases outer with first | last | high
      · exact Or.inl (by omega)
      · exact Or.inr (Or.inl (by omega))
      · exact Or.inr (Or.inr high)
    intro x low high
    exact ⟨e,member,available,by omega,by omega⟩

/-- Boot releases just the frames that available regions cover, exactly when the map's regions end
and are completed at their edges. -/
theorem releases_covered_iff (m : Memory) (mboot : MultibootInfo) (kernelEndPhys : Word)
    (entries : List MmapEntry) (path : mboot.flags &&& 0x40 ≠ 0) (map : memoryMap m mboot = some entries)
    (fits : ∀ e ∈ entries, e.addr.toNat + e.len.toNat < 2^64) :
    ReleasesCovered m mboot kernelEndPhys entries ↔ Completed kernelEndPhys entries := by
  have returns := init_returns_iff m mboot kernelEndPhys entries path map fits
  have bits (s : State) (init : blackPmmInit m mboot kernelEndPhys unset = some s) (f : Nat) :
      isSet s.bitmap f = false ↔ InScope kernelEndPhys f ∧ ∃ e ∈ entries, Releases e f := by
    obtain ⟨found,same,mapped⟩ := init_mapped m mboot kernelEndPhys s path init
    cases same.symm.trans map
    rw [mapped.bits,mem_released,InScope]
    tauto
  constructor
  · intro boots
    obtain ⟨s,init,free⟩ := boots
    refine ⟨returns.mp ⟨s,init⟩,?_⟩
    intro e member page edge scope
    have released := (bits s init _).mpr ⟨scope,e,member,edge_released e (fits e member) page edge⟩
    exact ((free _ scope.2.1).mp released).2
  · intro completed
    obtain ⟨s,init⟩ := returns.mpr completed.ends
    refine ⟨s,init,?_⟩
    intro f low
    rw [bits s init f]
    refine and_congr_right fun scope => ⟨?_,covered_released entries fits f low⟩
    intro released
    obtain ⟨e,member,released⟩ := released
    rcases released_edge_or_covered entries e member (fits e member) f released with ⟨page,edge,rfl⟩ | covered
    · exact completed.edges e member page edge scope
    · exact covered

theorem releases_covered_page : ReleasesCovered (oneRegion 0x100000 0x1000) oneRegionInfo 0x1000
    [⟨20,0x100000,0x1000,1⟩] := by
  have map := oneRegion_map 0x100000 0x1000 ⟨20,0x100000,0x1000,1⟩ rfl (by decide)
  refine (releases_covered_iff _ _ 0x1000 _ (by decide) map (by decide)).mpr ⟨?_,?_⟩
  · intro e member _
    rw [List.mem_singleton.mp member]
    exact Or.inr (by decide)
  · intro e member page edge _ x low high
    rw [List.mem_singleton.mp member] at edge
    have one : page = 256 := Nat.le_antisymm edge.2.2.2.1 edge.2.2.1
    subst one
    exact ⟨_,List.mem_singleton.mpr rfl,rfl,low,high⟩

/-- One region of one page and a half. -/
theorem releases_covered_half : ¬ReleasesCovered (oneRegion 0x100000 0x1800) oneRegionInfo 0x1000
    [⟨20,0x100000,0x1800,1⟩] := by
  have map := oneRegion_map 0x100000 0x1800 ⟨20,0x100000,0x1800,1⟩ rfl (by decide)
  have fits : ∀ e ∈ [(⟨20,0x100000,0x1800,1⟩ : MmapEntry)], e.addr.toNat + e.len.toNat < 2^64 := by decide
  intro boots
  obtain ⟨s,init,free⟩ := boots
  obtain ⟨found,same,mapped⟩ := init_mapped _ _ _ s (by decide) init
  cases same.symm.trans map
  have released : 257 ∈ released [⟨20,0x100000,0x1800,1⟩] 0x1000 := by
    rw [mem_released]
    exact ⟨by decide,by decide,by decide,_,List.mem_singleton.mpr rfl,by decide⟩
  obtain ⟨e,member,_,_,inside⟩ := ((free 257 (by decide)).mp ((mapped.bits 257).mpr released)).2 0x101FFF
    (by decide) (by decide)
  rw [List.mem_singleton.mp member] at inside
  exact absurd inside (by decide)

end BlackOS.Pmm
