import BlackOS.ElfContract
import BlackOS.Parser
import BlackOS.Library.Trace

/-! The virtual addresses that the loader maps and writes. Each loop of the loader is followed
with a log, and the results are those of the loader itself. -/
namespace BlackOS.Elf
open BlackOS.Library.Ram BlackOS.Library.Paging BlackOS.Library.Bitmap BlackOS.Library.Trace
open BlackOS.Vmm
open BlackOS.Pmm (maxFrames Takes)

def memsetTraced (value : Byte) : Nat → Machine → Word → Traced Word Machine
  | 0,s,_ => pure s
  | n+1,s,d => do
    let s ← logged d (s.store8 d value)
    memsetTraced value n s (d+1)

def memcpyTraced : Nat → Machine → Word → Word → Traced Word Machine
  | 0,s,_,_ => pure s
  | n+1,s,d,src => do
    let x ← quiet (s.load8 src)
    let s ← logged d (s.store8 d x)
    memcpyTraced n s (d+1) (src+1)

def mapSegmentTraced (vaddr memsz flags : Word) : Nat → Word → Machine → Traced Word (Machine × Bool)
  | 0,_,_ => quiet none
  | fuel+1,off,s =>
    if off < memsz then
      let (pmm,phys) := Pmm.blackPmmAllocFrame s.pmm
      let s := {s with pmm := pmm}
      if phys = 0 then pure (s,false) else do
      let s ← logged (vaddr + off) (blackVmmMapPage s (vaddr + off) phys flags)
      mapSegmentTraced vaddr memsz flags fuel (off + pageSize) s
    else pure (s,true)

def copyFileTraced (s : Machine) (vaddr src filesz : Word) : Traced Word Machine :=
  if 0 < filesz then memcpyTraced filesz.toNat s vaddr src else pure s

def zeroRestTraced (s : Machine) (vaddr filesz memsz : Word) : Traced Word Machine :=
  if filesz < memsz then memsetTraced 0 (memsz - filesz).toNat s (vaddr + filesz) else pure s

def loadSegmentTraced (s : Machine) (data phdr : Word) : Traced Word (Machine × Bool) := do
  if (← quiet (loadWord s phdr)) ≠ blackPtLoad then return (s,true)
  let vaddr ← quiet (loadWord s (phdr + 8))
  let memsz ← quiet (loadWord s (phdr + 20))
  let filesz ← quiet (loadWord s (phdr + 16))
  let offset ← quiet (loadWord s (phdr + 4))
  let flags := pagePresent ||| pageUser
  let flags := if (← quiet (loadWord s (phdr + 24))) &&& 0x02 ≠ 0 then flags ||| pageWrite else flags
  let (s,mapped) ← mapSegmentTraced vaddr memsz flags (2^20 + 1) 0 s
  if !mapped then return (s,false)
  let s ← copyFileTraced s vaddr (data + offset) filesz
  let s ← zeroRestTraced s vaddr filesz memsz
  return (s,true)

theorem memset_result (value : Byte) (n : Nat) (s : Machine) (d : Word) :
    (memsetTraced value n s d).result = memsetLoop value n s d := by
  induction n generalizing s d with
  | zero => rfl
  | succ n ih =>
    rw [memsetTraced,memsetLoop,result_bind,result_logged,Option.bind_eq_bind]
    exact congrArg _ (funext fun s => ih s (d + 1))

theorem memcpy_result (n : Nat) (s : Machine) (d src : Word) :
    (memcpyTraced n s d src).result = memcpyLoop n s d src := by
  induction n generalizing s d src with
  | zero => rfl
  | succ n ih =>
    rw [memcpyTraced,memcpyLoop,result_bind,result_quiet,Option.bind_eq_bind]
    refine congrArg _ (funext fun x => ?_)
    rw [result_bind,result_logged,Option.bind_eq_bind]
    exact congrArg _ (funext fun s => ih s (d + 1) (src + 1))

theorem mapSegment_result (vaddr memsz flags : Word) (fuel : Nat) (off : Word) (s : Machine) :
    (mapSegmentTraced vaddr memsz flags fuel off s).result = mapSegment vaddr memsz flags fuel off s := by
  induction fuel generalizing off s with
  | zero => rfl
  | succ fuel ih =>
    rw [mapSegmentTraced,mapSegment]
    by_cases more : off < memsz
    · rw [if_pos more,if_pos more]
      by_cases none : (Pmm.blackPmmAllocFrame s.pmm).2 = 0
      · simp only [if_pos none,result_pure]
      · simp only [if_neg none,result_bind,result_logged,Option.bind_eq_bind,ih]
    · rw [if_neg more,if_neg more,result_pure]

theorem copyFile_result (s : Machine) (vaddr src filesz : Word) :
    (copyFileTraced s vaddr src filesz).result = copyFile s vaddr src filesz := by
  rw [copyFileTraced,copyFile]
  by_cases some : 0 < filesz
  · rw [if_pos some,if_pos some,memcpy_result,memcpy]
  · rw [if_neg some,if_neg some,result_pure]

theorem zeroRest_result (s : Machine) (vaddr filesz memsz : Word) :
    (zeroRestTraced s vaddr filesz memsz).result = zeroRest s vaddr filesz memsz := by
  rw [zeroRestTraced,zeroRest]
  by_cases more : filesz < memsz
  · rw [if_pos more,if_pos more,memset_result,memset]
    rfl
  · rw [if_neg more,if_neg more,result_pure]

theorem loadSegment_result (s : Machine) (data phdr : Word) :
    (loadSegmentTraced s data phdr).result = loadSegment s data phdr := by
  simp only [loadSegmentTraced,loadSegment,result_bind,result_quiet,Option.bind_eq_bind]
  refine congrArg _ (funext fun type => ?_)
  by_cases other : type ≠ blackPtLoad
  · rw [if_pos other,if_pos other]
    rfl
  · rw [if_neg other,if_neg other]
    simp only [result_bind,result_quiet,mapSegment_result]
    refine congrArg _ (funext fun vaddr => congrArg _ (funext fun memsz => congrArg _ (funext fun filesz =>
      congrArg _ (funext fun offset => congrArg _ (funext fun flags => congrArg _ (funext fun mapped => ?_))))))
    obtain ⟨s',flag⟩ := mapped
    cases flag
    · rfl
    · have go : ¬ (!true) = true := by decide
      rw [if_neg go,if_neg go,result_bind,copyFile_result]
      simp only [result_bind,zeroRest_result,result_pure]
      rfl

/-! A log of the rounds, whatever it holds, leaves the results of the walk and of the load. -/
section Rounds
variable {E : Type} (data : Word) (walk : Word → Nat → Nat → Machine → Traced E (Machine × Bool))

end Rounds

/-- The memory and the file of a segment are empty or end where the kernel begins, without
wrapping. -/
structure Segment.Below (x : Segment) : Prop where
  memory : x.memsz.toNat = 0 ∨ x.vaddr.toNat + x.memsz.toNat ≤ 0xC0000000
  file : x.filesz.toNat = 0 ∨ x.vaddr.toNat + x.filesz.toNat ≤ 0xC0000000

theorem memset_below (value : Byte) (n : Nat) (s : Machine) (d : Word) (inside : d.toNat + n ≤ 0xC0000000) :
    Only User (memsetTraced value n s d) := by
  induction n generalizing s d with
  | zero => exact only_pure User s
  | succ n ih =>
    have next := next_user d n inside
    refine (only_bind _ _ _).mpr ⟨(only_logged _ _ _).mpr ?_,fun s' _ => ih s' (d + 1) (by omega)⟩
    unfold User
    omega

theorem memcpy_below (n : Nat) (s : Machine) (d src : Word) (inside : d.toNat + n ≤ 0xC0000000) :
    Only User (memcpyTraced n s d src) := by
  induction n generalizing s d src with
  | zero => exact only_pure User s
  | succ n ih =>
    have next := next_user d n inside
    refine (only_bind _ _ _).mpr ⟨only_quiet _ _,fun x _ => ?_⟩
    refine (only_bind _ _ _).mpr ⟨(only_logged _ _ _).mpr ?_,fun s' _ => ih s' (d + 1) (src + 1) (by omega)⟩
    unfold User
    omega

theorem mapSegment_below (vaddr memsz flags : Word)
    (inside : memsz.toNat = 0 ∨ vaddr.toNat + memsz.toNat ≤ 0xC0000000) (fuel : Nat) (off : Word)
    (s : Machine) : Only User (mapSegmentTraced vaddr memsz flags fuel off s) := by
  induction fuel generalizing off s with
  | zero => exact only_quiet User none
  | succ fuel ih =>
    rw [mapSegmentTraced]
    by_cases more : off < memsz
    · rw [if_pos more]
      dsimp only
      split
      · exact only_pure User _
      · refine (only_bind _ _ _).mpr ⟨(only_logged _ _ _).mpr ?_,fun s' _ => ih (off + pageSize) s'⟩
        rw [BitVec.lt_def] at more
        unfold User
        rw [BitVec.toNat_add]
        omega
    · rw [if_neg more]
      exact only_pure User _

theorem copyFile_below (s : Machine) (data : Word) (x : Segment) (below : x.Below) :
    Only User (copyFileTraced s x.vaddr (data + x.offset) x.filesz) := by
  rw [copyFileTraced]
  split
  · rename_i some
    have positive : 0 < x.filesz.toNat := BitVec.lt_def.mp some
    exact memcpy_below _ s x.vaddr _ (below.file.resolve_left (by omega))
  · exact only_pure User s

theorem zeroRest_below (s : Machine) (x : Segment) (below : x.Below) :
    Only User (zeroRestTraced s x.vaddr x.filesz x.memsz) := by
  rw [zeroRestTraced]
  split
  · rename_i more
    have memory := below.memory
    have fewer := BitVec.lt_def.mp more
    exact memset_below 0 _ s _ (by bv_omega)
  · exact only_pure User s

theorem store_writes (own : Nat → Owner) (s s' : Machine) (space : Space own s) (a : Word) (user : User a)
    (x : Byte) (stored : s.store8 a x = some s') : Writes own s s' := by
  by_cases hole : s.load8 a = none
  · rw [store_fault s a x hole] at stored
    cases stored
  · obtain ⟨s₁,written,writes,_⟩ := store_user own s space a user hole x
    rw [written] at stored
    cases stored
    exact writes

theorem memset_writes (own : Nat → Owner) (value : Byte) (n : Nat) (s s' : Machine) (d : Word)
    (space : Space own s) (user : Only User (memsetTraced value n s d))
    (done : memsetLoop value n s d = some s') : Writes own s s' := by
  induction n generalizing s d with
  | zero =>
    cases done
    exact writes_refl own s' space
  | succ n ih =>
    obtain ⟨s₁,stored,rest⟩ := Option.bind_eq_some_iff.mp done
    obtain ⟨here,later⟩ := (only_bind _ _ _).mp user
    have first := store_writes own s s₁ space d ((only_logged _ _ _).mp here) value stored
    exact writes_trans own s s₁ s' first (ih s₁ (d + 1) first.keeps.space (later s₁ stored) rest)

theorem memcpy_writes (own : Nat → Owner) (n : Nat) (s s' : Machine) (d src : Word)
    (space : Space own s) (user : Only User (memcpyTraced n s d src))
    (done : memcpyLoop n s d src = some s') : Writes own s s' := by
  induction n generalizing s d src with
  | zero =>
    cases done
    exact writes_refl own s' space
  | succ n ih =>
    obtain ⟨x,loaded,copied⟩ := Option.bind_eq_some_iff.mp done
    obtain ⟨s₁,stored,rest⟩ := Option.bind_eq_some_iff.mp copied
    obtain ⟨here,later⟩ := (only_bind _ _ _).mp (((only_bind _ _ _).mp user).2 x loaded)
    have first := store_writes own s s₁ space d ((only_logged _ _ _).mp here) x stored
    exact writes_trans own s s₁ s' first
      (ih s₁ (d + 1) (src + 1) first.keeps.space (later s₁ stored) rest)

theorem map_keeps (own : Nat → Owner) (s s' : Machine) (space : Space own s) (v flags : Word) (user : User v)
    (f : Nat) (pmm : Pmm.State) (low : f < maxFrames) (idle : isSet s.pmm.bitmap f = false)
    (takes : Takes s.pmm pmm f 1)
    (mapped : blackVmmMapPage {s with pmm := pmm} v (word f * Pmm.blackPageSize) flags = some s') :
    ∃ own', Keeps own own' s s' := by
  have taken := alloc_keeps own s space f pmm takes
  rcases map_outcome own s space v flags user f pmm low idle takes with ⟨lost,_⟩ | ⟨s₁,t,linked,linking⟩
  · rw [lost] at mapped
    cases mapped
    exact ⟨own,taken⟩
  · rw [linked] at mapped
    cases mapped
    exact ⟨_,keeps_trans own own _ s _ s' taken (link_keeps own _ s' v t f linking)⟩

theorem mapSegment_keeps (vaddr memsz flags : Word) (fuel : Nat) (own : Nat → Owner) (off : Word)
    (s s' : Machine) (flag : Bool) (space : Space own s)
    (user : Only User (mapSegmentTraced vaddr memsz flags fuel off s))
    (done : mapSegment vaddr memsz flags fuel off s = some (s',flag)) : ∃ own', Keeps own own' s s' := by
  induction fuel generalizing own off s with
  | zero => cases done
  | succ fuel ih =>
    rw [mapSegment] at done
    rw [mapSegmentTraced] at user
    by_cases more : off < memsz
    · rw [if_pos more] at done user
      rcases Pmm.allocFrame_spec s.pmm with ⟨got,_⟩ | ⟨f,pmm,got,low,idle,takes⟩
      · rw [got] at done
        cases done
        exact ⟨own,keeps_refl own s space⟩
      · rw [got] at done user
        dsimp only at done user
        by_cases null : word f * Pmm.blackPageSize = 0
        · rw [if_pos null] at done
          cases done
          exact ⟨own,alloc_keeps own s space f pmm takes⟩
        · rw [if_neg null] at done user
          obtain ⟨s₁,mapped,rest⟩ := Option.bind_eq_some_iff.mp done
          obtain ⟨here,later⟩ := (only_bind _ _ _).mp user
          obtain ⟨own₁,first⟩ := map_keeps own s s₁ space (vaddr + off) flags ((only_logged _ _ _).mp here)
            f pmm low idle takes mapped
          obtain ⟨own',second⟩ := ih own₁ (off + pageSize) s₁ first.space (later s₁ mapped) rest
          exact ⟨own',keeps_trans own own₁ own' s s₁ s' first second⟩
    · rw [if_neg more] at done
      cases done
      exact ⟨own,keeps_refl own s' space⟩

theorem range_next (P : Word → Prop) (d : Word) (n : Nat) (here : P d)
    (later : ∀ i < n, P (d + 1 + word i)) : ∀ i < n + 1, P (d + word i) := by
  intro i inside
  cases i with
  | zero =>
    rw [show d + word 0 = d from BitVec.add_zero d]
    exact here
  | succ i =>
    rw [← place_next d i]
    exact later i (by omega)

/-- A copy that was completed has written every byte of its range. -/
theorem memcpy_reaches (P : Word → Prop) (n : Nat) (s s' : Machine) (d src : Word)
    (only : Only P (memcpyTraced n s d src)) (done : memcpyLoop n s d src = some s') :
    ∀ i < n, P (d + word i) := by
  induction n generalizing s d src with
  | zero =>
    intro i inside
    omega
  | succ n ih =>
    obtain ⟨x,loaded,copied⟩ := Option.bind_eq_some_iff.mp done
    obtain ⟨s₁,stored,rest⟩ := Option.bind_eq_some_iff.mp copied
    obtain ⟨here,later⟩ := (only_bind _ _ _).mp (((only_bind _ _ _).mp only).2 x loaded)
    exact range_next P d n ((only_logged _ _ _).mp here) (ih s₁ (d + 1) (src + 1) (later s₁ stored) rest)

theorem memset_reaches (P : Word → Prop) (value : Byte) (n : Nat) (s s' : Machine) (d : Word)
    (only : Only P (memsetTraced value n s d)) (done : memsetLoop value n s d = some s') :
    ∀ i < n, P (d + word i) := by
  induction n generalizing s d with
  | zero =>
    intro i inside
    omega
  | succ n ih =>
    obtain ⟨s₁,stored,rest⟩ := Option.bind_eq_some_iff.mp done
    obtain ⟨here,later⟩ := (only_bind _ _ _).mp only
    exact range_next P d n ((only_logged _ _ _).mp here) (ih s₁ (d + 1) (later s₁ stored) rest)

/-- A range of user addresses does not wrap and ends where the kernel begins. -/
theorem range_user (d : Word) (n : Nat) (user : ∀ i < n, User (d + word i)) :
    n = 0 ∨ d.toNat + n ≤ 0xC0000000 := by
  by_cases empty : n = 0
  · exact .inl empty
  · right
    have start := user 0 (by omega)
    rw [show d + word 0 = d from BitVec.add_zero d] at start
    unfold User at start
    by_contra wraps
    have last := user (0xC0000000 - d.toNat) (by omega)
    unfold User at last
    rw [BitVec.toNat_add,word_toNat _ (by omega)] at last
    omega

theorem copyFile_writes (own : Nat → Owner) (s s' : Machine) (space : Space own s) (vaddr src filesz : Word)
    (user : Only User (copyFileTraced s vaddr src filesz)) (done : copyFile s vaddr src filesz = some s') :
    Writes own s s' ∧ (filesz.toNat = 0 ∨ vaddr.toNat + filesz.toNat ≤ 0xC0000000) := by
  rw [copyFileTraced] at user
  rw [copyFile] at done
  by_cases some : 0 < filesz
  · rw [if_pos some] at user done
    exact ⟨memcpy_writes own _ s s' vaddr src space user done,
      range_user vaddr _ (memcpy_reaches User _ s s' vaddr src user done)⟩
  · rw [if_neg some] at done
    cases done
    have zero : (0 : Word).toNat = 0 := rfl
    rw [BitVec.lt_def] at some
    exact ⟨writes_refl own s space,.inl (by omega)⟩

theorem zeroRest_writes (own : Nat → Owner) (s s' : Machine) (space : Space own s) (x : Segment)
    (user : Only User (zeroRestTraced s x.vaddr x.filesz x.memsz))
    (done : zeroRest s x.vaddr x.filesz x.memsz = some s')
    (file : x.filesz.toNat = 0 ∨ x.vaddr.toNat + x.filesz.toNat ≤ 0xC0000000) :
    Writes own s s' ∧ x.Below := by
  rw [zeroRestTraced] at user
  rw [zeroRest] at done
  by_cases more : x.filesz < x.memsz
  · rw [if_pos more] at user done
    have range := range_user _ _ (memset_reaches User _ _ s s' _ user done)
    rw [BitVec.lt_def] at more
    exact ⟨memset_writes own _ _ s s' _ space user done,by bv_omega,file⟩
  · rw [if_neg more] at done
    cases done
    rw [BitVec.lt_def] at more
    exact ⟨writes_refl own s space,by omega,file⟩

/-- A round of the loader for a segment whose fields have been read. -/
def roundTraced (s : Machine) (data : Word) (x : Segment) : Traced Word (Machine × Bool) := do
  let (s,mapped) ← mapSegmentTraced x.vaddr x.memsz x.pageFlags (2^20 + 1) 0 s
  if !mapped then return (s,false)
  let s ← copyFileTraced s x.vaddr (data + x.offset) x.filesz
  let s ← zeroRestTraced s x.vaddr x.filesz x.memsz
  return (s,true)

theorem round_below (s : Machine) (data : Word) (x : Segment) (below : x.Below) :
    Only User (roundTraced s data x) := by
  refine (only_bind _ _ _).mpr ⟨mapSegment_below x.vaddr x.memsz _ below.memory _ 0 s,fun mapped _ => ?_⟩
  obtain ⟨s₁,flag⟩ := mapped
  cases flag with
  | false => exact only_pure User _
  | true =>
    refine (only_bind _ _ _).mpr ⟨copyFile_below s₁ data x below,fun s₂ _ => ?_⟩
    exact (only_bind _ _ _).mpr ⟨zeroRest_below s₂ x below,fun s₃ _ => only_pure User _⟩

/-- A round that touches user addresses only keeps the kernel, and a completed one had a
segment that ends below it. -/
theorem round_keeps (own : Nat → Owner) (s s' : Machine) (space : Space own s) (data : Word) (x : Segment)
    (user : Only User (roundTraced s data x)) (flag : Bool)
    (done : (roundTraced s data x).result = some (s',flag)) :
    (∃ own', Keeps own own' s s') ∧ (flag = true → x.Below) := by
  rw [roundTraced,result_bind] at done
  obtain ⟨⟨s₁,mapped⟩,pages,rest⟩ := Option.bind_eq_some_iff.mp done
  obtain ⟨mapping,writing⟩ := (only_bind _ _ _).mp user
  have writing := writing (s₁,mapped) pages
  rw [mapSegment_result] at pages
  obtain ⟨own₁,first⟩ := mapSegment_keeps x.vaddr x.memsz _ _ own 0 s s₁ mapped space mapping pages
  cases mapped with
  | false =>
    cases rest
    exact ⟨⟨own₁,first⟩,nofun⟩
  | true =>
    obtain ⟨copying,zeroing⟩ := (only_bind _ _ _).mp writing
    simp only [Bool.not_true,Bool.false_eq_true,if_false,result_bind] at rest
    obtain ⟨s₂,copied,rest⟩ := Option.bind_eq_some_iff.mp rest
    have zeroing := ((only_bind _ _ _).mp (zeroing s₂ copied)).1
    rw [copyFile_result] at copied
    obtain ⟨s₃,zeroed,last⟩ := Option.bind_eq_some_iff.mp rest
    rw [zeroRest_result] at zeroed
    cases last
    obtain ⟨second,file⟩ := copyFile_writes own₁ s₁ s₂ first.space x.vaddr _ x.filesz copying copied
    obtain ⟨third,below⟩ := zeroRest_writes own₁ s₂ s' second.keeps.space x zeroing zeroed file
    refine ⟨⟨own₁,?_⟩,fun _ => below⟩
    exact keeps_trans own own₁ own₁ s s₁ s' first (writes_trans own₁ s₁ s₂ s' second third).keeps

section Rounds
variable (own : Nat → Owner) (s : Machine) (data size : Word) (img : Image)
  (lies : Lies own s data size img)
include lies

section Header
variable (o : Nat) (inside : o + 32 ≤ size.toNat)
include inside

end Header

variable (header : 52 ≤ size.toNat) (i fuel : Nat)
include header

end Rounds

/-- `black_elf_validate` turns the image away. -/
def Image.Refused (img : Image) : Prop :=
  img.word 0 ≠ blackElfMagic ∨ img 4 ≠ 1 ∨ img.half 18 ≠ blackEm386 ∨ img.half 16 ≠ blackEtExec

/-- The image is refused, or its segments end below the kernel. -/
def Image.Low (img : Image) : Prop := img.Refused ∨ ∀ x ∈ img.segments, x.Below

section Loop
variable (data size : Word) (img : Image) (header : 52 ≤ size.toNat)
include header

variable (table : img.phoff.toNat + 32 * img.phnum.toNat ≤ size.toNat)
include table

variable (own : Nat → Owner) (s : Machine) (space : Space own s) (lies : Lies own s data size img)
include space lies

end Loop

/-- An image of one page of zeros, four megabytes above the place where the kernel begins. -/
def reaching : Image := fun i => List.getD [
  0x7F,0x45,0x4C,0x46,1,1,1,0,0,0,0,0,0,0,0,0,2,0,3,0,1,0,0,0,0x00,0x00,0x40,0xC0,52,0,0,0,
  0,0,0,0,0,0,0,0,52,0,32,0,1,0,0,0,0,0,0,0,
  1,0,0,0,84,0,0,0,0x00,0x00,0x40,0xC0,0x00,0x00,0x40,0xC0,0,0,0,0,0,0x10,0,0,6,0,0,0,1,0,0,0] i 0

end BlackOS.Elf
