import BlackOS.Library.Ram
import BlackOS.Library.Bitmap
import Mathlib.Data.List.Perm.Basic

/-! The slab allocator of `rust/black_mem`: 256 objects of one size, and a bitmap of those in use.
`usize` has the 32 bits of the kernel's target. -/
namespace BlackOS.Slab
open BlackOS.Library.Ram BlackOS.Library.Bitmap

def blackSlabEntries : Nat := 256

/-- `black_slab`. -/
structure State where
  bitmap : Bits 32
  objSize : Word
  base : Word
  count : Nat

def blackSlabCreate (objSize base : Word) : State := ⟨fun _ => 0,objSize,base,0⟩

section Calls
variable (s : State)

/-- `self.black_bitmap[black_i / 32] & (1 << black_i % 32) == 0`. -/
def isClear (i : Nat) : Bool := s.bitmap (i / 32) &&& 1#32 <<< (i % 32) == 0

def address (i : Nat) : Word := s.base + word i * s.objSize

def blackAlloc : State × Option Word :=
  match (List.range blackSlabEntries).find? (isClear s) with
  | none => (s,none)
  | some i => ({s with bitmap := set s.bitmap i,count := s.count + 1},some (address s i))

def blackFree (addr : Word) : State × Bool :=
  if addr < s.base then (s,false) else
  let offset := addr - s.base
  if offset % s.objSize ≠ 0 then (s,false) else
  let idx := (offset / s.objSize).toNat
  if blackSlabEntries ≤ idx then (s,false) else
  if isClear s idx then (s,false) else
  ({s with bitmap := clear s.bitmap idx,count := s.count - 1},true)

end Calls

/-- The allocator and the addresses that it has handed out and not taken back. -/
structure System where
  slab : State
  live : List Word

inductive Op
  | alloc
  | free (addr : Word)

def step (s : System) : Op → System
  | .alloc => ⟨(blackAlloc s.slab).1,s.live ++ (blackAlloc s.slab).2.toList⟩
  | .free addr => ⟨(blackFree s.slab addr).1,if (blackFree s.slab addr).2 then s.live.erase addr else s.live⟩

def after (objSize base : Word) (ops : List Op) : System := ops.foldl step ⟨blackSlabCreate objSize base,[]⟩

def setBits (s : State) : List Nat := (List.range blackSlabEntries).filter (isSet s.bitmap)

section Bits
variable (s : State)

theorem isClear_iff (i : Nat) : isClear s i = true ↔ isSet s.bitmap i = false := by
  rw [isClear,beq_iff_eq]
  exact mask_eq_zero (by decide) (s.bitmap (i / 32)) (i % 32) (Nat.mod_lt i (by decide))

theorem mem_setBits (i : Nat) : i ∈ setBits s ↔ i < 256 ∧ isSet s.bitmap i = true := by
  rw [setBits,List.mem_filter,List.mem_range]
  rfl

theorem setBits_nodup : (setBits s).Nodup := List.nodup_range.filter _

theorem setBits_set (i : Nat) (inside : i < 256) (off : isSet s.bitmap i = false) :
    (setBits {s with bitmap := set s.bitmap i,count := s.count + 1}).Perm (i::setBits s) := by
  have fresh : i ∉ setBits s := by
    rw [mem_setBits,off]
    exact fun both => nomatch both.2
  refine (List.perm_ext_iff_of_nodup (setBits_nodup _) (List.nodup_cons.mpr ⟨fresh,setBits_nodup s⟩)).mpr fun j => ?_
  rw [List.mem_cons,mem_setBits,mem_setBits,isSet_set (by decide),Bool.or_eq_true,decide_eq_true_iff]
  constructor
  · intro both
    exact both.2.elim (fun on => Or.inr ⟨both.1,on⟩) Or.inl
  · intro either
    rcases either with same | ⟨low,on⟩
    · exact ⟨same ▸ inside,Or.inr same⟩
    · exact ⟨low,Or.inl on⟩

theorem setBits_clear (i : Nat) (inside : i < 256) (on : isSet s.bitmap i = true) :
    (setBits s).Perm (i::setBits {s with bitmap := clear s.bitmap i,count := s.count - 1}) := by
  have gone : i ∉ setBits {s with bitmap := clear s.bitmap i,count := s.count - 1} := by
    rw [mem_setBits,isSet_clear (by decide),decide_eq_true rfl,Bool.not_true,Bool.and_false]
    exact fun both => nomatch both.2
  refine (List.perm_ext_iff_of_nodup (setBits_nodup s) (List.nodup_cons.mpr ⟨gone,setBits_nodup _⟩)).mpr fun j => ?_
  rw [List.mem_cons,mem_setBits,mem_setBits,isSet_clear (by decide),Bool.and_eq_true,Bool.not_eq_true',decide_eq_false_iff_not]
  constructor
  · intro both
    by_cases same : j = i
    · exact Or.inl same
    · exact Or.inr ⟨both.1,both.2,same⟩
  · intro either
    rcases either with same | ⟨low,still,_⟩
    · exact same ▸ ⟨inside,on⟩
    · exact ⟨low,still⟩

theorem setBits_le : (setBits s).length ≤ 256 :=
  (List.length_filter_le _ _).trans (Nat.le_of_eq List.length_range)

theorem setBits_full : (setBits s).length = 256 ↔ ∀ i < 256, isSet s.bitmap i = true := by
  have total : (List.range blackSlabEntries).length = 256 := List.length_range
  constructor
  · intro full
    have same : setBits s = List.range blackSlabEntries :=
      List.filter_sublist.eq_of_length (full.trans total.symm)
    intro i inside
    have member : i ∈ setBits s := by
      rw [same]
      exact List.mem_range.mpr inside
    exact ((mem_setBits s i).mp member).2
  · intro all
    have same : setBits s = List.range blackSlabEntries :=
      List.filter_eq_self.mpr fun i member => all i (List.mem_range.mp member)
    rw [same]
    exact total

end Bits

/-- The objects lie in the address space. -/
structure Fits (objSize base : Word) : Prop where
  positive : 1 ≤ objSize.toNat
  inside : base.toNat + 256 * objSize.toNat ≤ 2^32

/-- The address of the last object is one. -/
structure Reaches (objSize base : Word) : Prop where
  positive : 1 ≤ objSize.toNat
  last : base.toNat + 255 * objSize.toNat < 2^32

theorem Fits.reaches (objSize base : Word) (fits : Fits objSize base) : Reaches objSize base := by
  have positive := fits.positive
  have inside := fits.inside
  exact ⟨positive,by omega⟩

section Addresses
variable (s : State) (reaches : Reaches s.objSize s.base)
include reaches

theorem address_toNat (i : Nat) (inside : i < 256) : (address s i).toNat = s.base.toNat + i * s.objSize.toNat := by
  have last := reaches.last
  have product : i * s.objSize.toNat ≤ 255 * s.objSize.toNat := Nat.mul_le_mul_right _ (by omega)
  have small : i * s.objSize.toNat < 2^32 := by omega
  rw [address,BitVec.toNat_add,BitVec.toNat_mul,word_toNat i (by omega),Nat.mod_eq_of_lt small]
  exact Nat.mod_eq_of_lt (by omega)

theorem address_apart (i j : Nat) (below : i < j) (inside : j < 256) :
    (address s i).toNat + s.objSize.toNat ≤ (address s j).toNat := by
  have product : i * s.objSize.toNat + s.objSize.toNat ≤ j * s.objSize.toNat := by
    rw [← Nat.succ_mul]
    exact Nat.mul_le_mul_right _ below
  rw [address_toNat s reaches i (by omega),address_toNat s reaches j inside]
  omega

theorem address_injective (i j : Nat) (low : i < 256) (high : j < 256) (same : address s i = address s j) : i = j := by
  have positive := reaches.positive
  rcases Nat.lt_trichotomy i j with below | equal | above
  · have apart := address_apart s reaches i j below high
    rw [same] at apart
    omega
  · exact equal
  · have apart := address_apart s reaches j i above low
    rw [same] at apart
    omega

theorem offset_toNat (i : Nat) (inside : i < 256) : (address s i - s.base).toNat = i * s.objSize.toNat := by
  have place := address_toNat s reaches i inside
  rw [BitVec.toNat_sub_of_le (by rw [BitVec.le_def]; omega),place]
  omega

theorem free_live (i : Nat) (inside : i < 256) (on : isSet s.bitmap i = true) :
    blackFree s (address s i) = ({s with bitmap := clear s.bitmap i,count := s.count - 1},true) := by
  have place := address_toNat s reaches i inside
  have offset := offset_toNat s reaches i inside
  have positive := reaches.positive
  have remainder : (address s i - s.base) % s.objSize = 0 := by
    apply BitVec.eq_of_toNat_eq
    rw [BitVec.toNat_umod,offset,Nat.mul_mod_left]
    rfl
  have index : ((address s i - s.base) / s.objSize).toNat = i := by
    rw [BitVec.toNat_udiv,offset,Nat.mul_div_cancel _ (by omega)]
  have set : ¬isClear s i = true := by
    rw [isClear_iff,on]
    decide
  rw [blackFree,if_neg (by rw [BitVec.lt_def]; omega)]
  dsimp only
  rw [if_neg (not_not.mpr remainder),index,blackSlabEntries,if_neg (Nat.not_le.mpr inside),if_neg set]

/-- Any other address fails one of the tests of `black_free`. -/
theorem free_foreign (addr : Word) (foreign : ∀ i < 256, isSet s.bitmap i = true → addr ≠ address s i) :
    blackFree s addr = (s,false) := by
  rw [blackFree]
  split
  · rfl
  · rename_i above
    dsimp only
    split
    · rfl
    · rename_i aligned
      split
      · rfl
      · rename_i inside
        split
        · rfl
        · rename_i set
          rw [isClear_iff,Bool.not_eq_false] at set
          refine absurd ?_ (foreign _ (Nat.not_le.mp inside) set)
          have whole : s.objSize.toNat ∣ (addr - s.base).toNat := by
            have zero := congrArg BitVec.toNat (not_not.mp aligned)
            rw [BitVec.toNat_umod] at zero
            exact Nat.dvd_of_mod_eq_zero zero
          apply BitVec.eq_of_toNat_eq
          rw [address_toNat s reaches _ (Nat.not_le.mp inside),BitVec.toNat_udiv,Nat.div_mul_cancel whole,
            BitVec.toNat_sub_of_le (BitVec.not_lt.mp above)]
          have least := BitVec.not_lt.mp above
          rw [BitVec.le_def] at least
          omega

end Addresses

/-- The live addresses are those of the set bits, and the counter counts them. -/
structure Inv (objSize base : Word) (s : System) : Prop where
  objSize : s.slab.objSize = objSize
  base : s.slab.base = base
  count : s.slab.count = (setBits s.slab).length
  live : s.live.Perm ((setBits s.slab).map (address s.slab))

section Steps
variable (objSize base : Word) (reaches : Reaches objSize base) (s : System) (inv : Inv objSize base s)

include reaches inv in
theorem inv_reaches : Reaches s.slab.objSize s.slab.base := by
  rw [inv.objSize,inv.base]
  exact reaches

include inv in
theorem inv_length : s.live.length = s.slab.count := by
  rw [inv.live.length_eq,List.length_map,inv.count]

include inv in
theorem mem_live (addr : Word) :
    addr ∈ s.live ↔ ∃ i < 256, isSet s.slab.bitmap i = true ∧ addr = address s.slab i := by
  rw [inv.live.mem_iff,List.mem_map]
  constructor
  · intro listed
    obtain ⟨i,member,same⟩ := listed
    obtain ⟨inside,on⟩ := (mem_setBits s.slab i).mp member
    exact ⟨i,inside,on,same.symm⟩
  · intro listed
    obtain ⟨i,inside,on,same⟩ := listed
    exact ⟨i,(mem_setBits s.slab i).mpr ⟨inside,on⟩,same.symm⟩

/-- `black_alloc` finds no clear bit, or sets the lowest one. -/
theorem alloc_cases (slab : State) :
    (blackAlloc slab = (slab,none) ∧ ∀ i < 256, isSet slab.bitmap i = true) ∨
    ∃ i < 256, isSet slab.bitmap i = false ∧ (∀ j < i, isSet slab.bitmap j = true) ∧
      blackAlloc slab = ({slab with bitmap := set slab.bitmap i,count := slab.count + 1},some (address slab i)) := by
  rw [blackAlloc]
  cases found : (List.range blackSlabEntries).find? (isClear slab) with
  | none =>
    refine Or.inl ⟨rfl,fun i inside => ?_⟩
    have taken := List.find?_eq_none.mp found i (List.mem_range.mpr inside)
    rw [isClear_iff,Bool.not_eq_false] at taken
    exact taken
  | some i =>
    rw [List.find?_range_eq_some] at found
    obtain ⟨off,member,earlier⟩ := found
    refine Or.inr ⟨i,List.mem_range.mp member,(isClear_iff slab i).mp off,fun j below => ?_,rfl⟩
    have taken := earlier j below
    rw [Bool.not_eq_true',← Bool.not_eq_true,isClear_iff,Bool.not_eq_false] at taken
    exact taken

include inv in
theorem alloc_inv : Inv objSize base (step s .alloc) := by
  rw [step]
  rcases alloc_cases s.slab with ⟨fails,_⟩ | ⟨i,inside,off,_,succeeds⟩
  · rw [fails,Option.toList_none,List.append_nil]
    exact inv
  · rw [succeeds]
    have bits := setBits_set s.slab i inside off
    refine ⟨inv.objSize,inv.base,?_,?_⟩
    · rw [bits.length_eq,List.length_cons,← inv.count]
    · have objects := bits.map (address s.slab)
      rw [Option.toList_some]
      refine (List.perm_append_singleton _ _).trans (List.Perm.trans ?_ objects.symm)
      rw [List.map_cons]
      exact inv.live.cons _

include reaches inv in
theorem free_inv (addr : Word) : Inv objSize base (step s (.free addr)) := by
  rw [step]
  by_cases member : addr ∈ s.live
  · obtain ⟨i,inside,on,same⟩ := (mem_live objSize base s inv addr).mp member
    rw [same] at member ⊢
    rw [free_live s.slab (inv_reaches objSize base reaches s inv) i inside on]
    have bits := setBits_clear s.slab i inside on
    have count := inv.count
    rw [bits.length_eq,List.length_cons] at count
    refine ⟨inv.objSize,inv.base,?_,?_⟩
    · dsimp only
      omega
    · have objects := bits.map (address s.slab)
      rw [List.map_cons] at objects
      have shape := (List.perm_cons_erase member).symm.trans (inv.live.trans objects)
      rw [if_pos rfl]
      exact shape.cons_inv
  · have foreign : blackFree s.slab addr = (s.slab,false) := by
      refine free_foreign s.slab (inv_reaches objSize base reaches s inv) addr fun i inside on same => ?_
      exact member ((mem_live objSize base s inv addr).mpr ⟨i,inside,on,same⟩)
    rw [foreign]
    exact inv

end Steps

theorem after_inv (objSize base : Word) (reaches : Reaches objSize base) (ops : List Op) : Inv objSize base (after objSize base ops) := by
  have created : Inv objSize base ⟨blackSlabCreate objSize base,[]⟩ := by
    have none : setBits (blackSlabCreate objSize base) = [] := by
      refine List.filter_eq_nil_iff.mpr fun i _ => ?_
      rw [isSet,blackSlabCreate]
      simp
    refine ⟨rfl,rfl,?_,?_⟩
    · rw [none]
      rfl
    · rw [none]
      rfl
  rw [after]
  generalize (⟨blackSlabCreate objSize base,[]⟩ : System) = first at created ⊢
  induction ops generalizing first with
  | nil => exact created
  | cons op ops ih =>
    refine ih (step first op) ?_
    cases op with
    | alloc => exact alloc_inv objSize base first created
    | free addr => exact free_inv objSize base reaches first created addr

/-- What the allocator promises in one state. -/
structure Sound (objSize base : Word) (s : System) : Prop where
  bits : s.slab.count = (setBits s.slab).length
  objects : s.slab.count = s.live.length
  most : s.live.length ≤ 256
  distinct : s.live.Nodup
  places : ∀ a ∈ s.live, ∃ i < 256, a.toNat = base.toNat + i * objSize.toNat
  disjoint : s.live.Pairwise fun a b => a.toNat + objSize.toNat ≤ b.toNat ∨ b.toNat + objSize.toNat ≤ a.toNat
  exhausted : (blackAlloc s.slab).2 = none ↔ s.live.length = 256
  lowest : ∀ a, (blackAlloc s.slab).2 = some a → a ∉ s.live ∧ ∃ i < 256, a.toNat = base.toNat + i * objSize.toNat ∧
    ∀ j < i, ∃ b ∈ s.live, b.toNat = base.toNat + j * objSize.toNat
  freed : ∀ a, (blackFree s.slab a).2 = true ↔ a ∈ s.live
  refused : ∀ a, a ∉ s.live → (blackFree s.slab a).1 = s.slab

section Sound
variable (objSize base : Word) (reaches : Reaches objSize base) (s : System) (inv : Inv objSize base s)
include reaches inv

theorem live_place (i : Nat) (inside : i < 256) : (address s.slab i).toNat = base.toNat + i * objSize.toNat := by
  rw [address_toNat s.slab (inv_reaches objSize base reaches s inv) i inside,inv.objSize,inv.base]

theorem live_nodup : s.live.Nodup := by
  refine inv.live.nodup_iff.mpr ((setBits_nodup s.slab).map_on fun i first j second same => ?_)
  exact address_injective s.slab (inv_reaches objSize base reaches s inv) i j ((mem_setBits s.slab i).mp first).1
    ((mem_setBits s.slab j).mp second).1 same

theorem live_disjoint (a b : Word) (first : a ∈ s.live) (second : b ∈ s.live) (other : a ≠ b) :
    a.toNat + objSize.toNat ≤ b.toNat ∨ b.toNat + objSize.toNat ≤ a.toNat := by
  obtain ⟨i,low,_,atI⟩ := (mem_live objSize base s inv a).mp first
  obtain ⟨j,high,_,atJ⟩ := (mem_live objSize base s inv b).mp second
  have placed := inv_reaches objSize base reaches s inv
  rw [atI,atJ,← inv.objSize]
  rcases Nat.lt_trichotomy i j with below | equal | above
  · exact Or.inl (address_apart s.slab placed i j below high)
  · rw [atI,atJ,equal] at other
    exact absurd rfl other
  · exact Or.inr (address_apart s.slab placed j i above low)

theorem free_iff (a : Word) : (blackFree s.slab a).2 = true ↔ a ∈ s.live := by
  have placed := inv_reaches objSize base reaches s inv
  by_cases member : a ∈ s.live
  · obtain ⟨i,inside,on,same⟩ := (mem_live objSize base s inv a).mp member
    rw [same,free_live s.slab placed i inside on,← same]
    exact iff_of_true rfl member
  · have foreign := free_foreign s.slab placed a fun i inside on same =>
      member ((mem_live objSize base s inv a).mpr ⟨i,inside,on,same⟩)
    rw [foreign]
    exact iff_of_false nofun member

theorem free_refused (a : Word) (foreign : a ∉ s.live) : (blackFree s.slab a).1 = s.slab := by
  rw [free_foreign s.slab (inv_reaches objSize base reaches s inv) a fun i inside on same =>
    foreign ((mem_live objSize base s inv a).mpr ⟨i,inside,on,same⟩)]

omit reaches in
theorem alloc_exhausted : (blackAlloc s.slab).2 = none ↔ s.live.length = 256 := by
  rw [inv_length objSize base s inv,inv.count,setBits_full]
  rcases alloc_cases s.slab with ⟨fails,all⟩ | ⟨i,inside,off,_,succeeds⟩
  · rw [fails]
    exact iff_of_true rfl all
  · rw [succeeds]
    refine iff_of_false nofun fun all => ?_
    rw [all i inside] at off
    cases off

theorem alloc_lowest (a : Word) (given : (blackAlloc s.slab).2 = some a) :
    a ∉ s.live ∧ ∃ i < 256, a.toNat = base.toNat + i * objSize.toNat ∧
      ∀ j < i, ∃ b ∈ s.live, b.toNat = base.toNat + j * objSize.toNat := by
  rcases alloc_cases s.slab with ⟨fails,_⟩ | ⟨i,inside,off,earlier,succeeds⟩
  · rw [fails] at given
    cases given
  · rw [succeeds] at given
    cases given
    refine ⟨?_,i,inside,live_place objSize base reaches s inv i inside,fun j below => ?_⟩
    · intro member
      obtain ⟨j,low,on,same⟩ := (mem_live objSize base s inv _).mp member
      rw [← address_injective s.slab (inv_reaches objSize base reaches s inv) i j inside low same,off] at on
      cases on
    · have low : j < 256 := by omega
      exact ⟨address s.slab j,(mem_live objSize base s inv _).mpr ⟨j,low,earlier j below,rfl⟩,
        live_place objSize base reaches s inv j low⟩

end Sound

/-- After every sequence of calls, with any addresses to free, the slab keeps its promises. -/
theorem slab_sound (objSize base : Word) (fits : Fits objSize base) (ops : List Op) :
    Sound objSize base (after objSize base ops) := by
  have reaches := Fits.reaches objSize base fits
  have inv := after_inv objSize base reaches ops
  generalize after objSize base ops = s at inv ⊢
  have length := inv_length objSize base s inv
  have nodup := live_nodup objSize base reaches s inv
  refine ⟨inv.count,length.symm,?_,nodup,?_,?_,alloc_exhausted objSize base s inv,
    alloc_lowest objSize base reaches s inv,free_iff objSize base reaches s inv,free_refused objSize base reaches s inv⟩
  · rw [length,inv.count]
    exact setBits_le s.slab
  · intro a member
    obtain ⟨i,inside,_,same⟩ := (mem_live objSize base s inv a).mp member
    rw [same]
    exact ⟨i,inside,live_place objSize base reaches s inv i inside⟩
  · refine nodup.pairwise_of_forall_ne fun a first b second other => ?_
    exact live_disjoint objSize base reaches s inv a b first second other

/-- Two objects of 64 bytes; the first is freed twice. -/
theorem slab_sound_twice : Fits 64 0x1000 ∧ (after 64 0x1000 [.alloc,.alloc,.free 0x1000,.free 0x1000]).live = [0x1040] ∧
    Sound 64 0x1000 (after 64 0x1000 [.alloc,.alloc,.free 0x1000,.free 0x1000]) := by
  have fits : Fits 64 0x1000 := ⟨by decide,by decide⟩
  exact ⟨fits,by decide,slab_sound 64 0x1000 fits _⟩

end BlackOS.Slab
