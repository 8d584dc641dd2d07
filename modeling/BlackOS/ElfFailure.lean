import BlackOS.ElfProcessed
import BlackOS.VmmQueries

/-! A load that runs out of frames. What it has allocated and mapped by then stays, so that the call leaves the
allocator as it was only if there was no frame to begin with. -/
namespace BlackOS.Elf
open BlackOS.Library.Ram BlackOS.Library.Paging BlackOS.Library.Bitmap BlackOS.Library.Trace BlackOS.Vmm
open BlackOS.Pmm (maxFrames Takes)

/-- No frame is given back. -/
def Grows (s s' : Pmm.State) : Prop := ∀ f, isSet s.bitmap f = true → isSet s'.bitmap f = true

theorem grows_same (s s' : Pmm.State) (same : s' = s) : Grows s s' := by
  intro f on
  rw [same]
  exact on

theorem grows_trans (s s₁ s' : Pmm.State) (first : Grows s s₁) (second : Grows s₁ s') : Grows s s' :=
  fun f on => second f (first f on)

theorem alloc_grows (s : Pmm.State) : Grows s (Pmm.blackPmmAllocFrame s).1 := by
  rcases Pmm.allocFrame_spec s with ⟨failed,_⟩ | ⟨f,pmm,got,_,_,takes⟩
  · exact grows_same _ _ (by rw [failed])
  · intro g on
    rw [got,takes.bits,on,Bool.true_or]

theorem store8_pmm (s s' : Machine) (a : Word) (x : Byte) (done : s.store8 a x = some s') : s'.pmm = s.pmm := by
  obtain ⟨p,_,rfl⟩ := Option.map_eq_some_iff.mp done
  rfl

theorem store32_pmm (s s' : Machine) (a x : Word) (done : s.store32 a x = some s') : s'.pmm = s.pmm := by
  obtain ⟨p,_,rfl⟩ := Option.map_eq_some_iff.mp done
  rfl

theorem memsetLoop_pmm (value : Byte) (n : Nat) : ∀ (s s' : Machine) (d : Word),
    memsetLoop value n s d = some s' → s'.pmm = s.pmm := by
  induction n with
  | zero =>
    intro s s' d done
    rw [Option.some.inj done]
  | succ n ih =>
    intro s s' d done
    obtain ⟨s₁,stored,rest⟩ := Option.bind_eq_some_iff.mp done
    exact (ih s₁ s' (d + 1) rest).trans (store8_pmm s s₁ d value stored)

theorem memcpyLoop_pmm (n : Nat) : ∀ (s s' : Machine) (d src : Word),
    memcpyLoop n s d src = some s' → s'.pmm = s.pmm := by
  induction n with
  | zero =>
    intro s s' d src done
    rw [Option.some.inj done]
  | succ n ih =>
    intro s s' d src done
    obtain ⟨x,_,rest⟩ := Option.bind_eq_some_iff.mp done
    obtain ⟨s₁,stored,rest⟩ := Option.bind_eq_some_iff.mp rest
    exact (ih s₁ s' (d + 1) (src + 1) rest).trans (store8_pmm s s₁ d x stored)

theorem ensureTable_grows (s s' : Machine) (i flags : Word) (ready : Bool)
    (done : ensureTable s i flags = some (s',ready)) : Grows s.pmm s'.pmm := by
  obtain ⟨pde,_,rest⟩ := Option.bind_eq_some_iff.mp done
  dsimp only at rest
  split_ifs at rest with hidden failed user
  · obtain ⟨rfl,_⟩ := Prod.mk.inj (Option.some.inj rest)
    exact alloc_grows s.pmm
  · obtain ⟨s₁,linked,rest⟩ := Option.bind_eq_some_iff.mp rest
    obtain ⟨s₂,cleared,rest⟩ := Option.bind_eq_some_iff.mp rest
    obtain ⟨rfl,_⟩ := Prod.mk.inj (Option.some.inj rest)
    have same := (memsetLoop_pmm _ _ s₁ s₂ _ cleared).trans (store32_pmm _ s₁ _ _ linked)
    exact grows_trans s.pmm _ s₂.pmm (alloc_grows s.pmm) (grows_same _ _ same)
  · obtain ⟨s₁,marked,rest⟩ := Option.bind_eq_some_iff.mp rest
    obtain ⟨rfl,_⟩ := Prod.mk.inj (Option.some.inj rest)
    exact grows_same _ _ (store32_pmm s s₁ _ _ marked)
  · obtain ⟨rfl,_⟩ := Prod.mk.inj (Option.some.inj rest)
    exact grows_same _ _ rfl

theorem mapPage_grows (s s' : Machine) (v phys flags : Word) (done : blackVmmMapPage s v phys flags = some s') :
    Grows s.pmm s'.pmm := by
  obtain ⟨⟨s₁,ready⟩,tabled,rest⟩ := Option.bind_eq_some_iff.mp done
  have grows := ensureTable_grows s s₁ _ _ ready tabled
  dsimp only at rest
  split_ifs at rest with there
  · exact grows_trans s.pmm s₁.pmm s'.pmm grows (grows_same _ _ (store32_pmm s₁ s' _ _ rest))
  · obtain rfl := Option.some.inj rest
    exact grows

theorem mapSegment_turn (vaddr memsz flags : Word) (fuel : Nat) (off : Word) (s : Machine) :
    mapSegment vaddr memsz flags (fuel + 1) off s =
      if off < memsz then
        if (Pmm.blackPmmAllocFrame s.pmm).2 = 0 then some ({s with pmm := (Pmm.blackPmmAllocFrame s.pmm).1},false)
        else (blackVmmMapPage {s with pmm := (Pmm.blackPmmAllocFrame s.pmm).1} (vaddr + off)
          (Pmm.blackPmmAllocFrame s.pmm).2 flags).bind (mapSegment vaddr memsz flags fuel (off + pageSize))
      else some (s,true) := rfl

theorem mapSegment_grows (vaddr memsz flags : Word) (fuel : Nat) : ∀ (off : Word) (s s' : Machine) (mapped : Bool),
    mapSegment vaddr memsz flags fuel off s = some (s',mapped) → Grows s.pmm s'.pmm := by
  induction fuel with
  | zero => exact fun off s s' mapped done => by cases done
  | succ fuel ih =>
    intro off s s' mapped done
    rw [mapSegment_turn] at done
    split_ifs at done with more failed
    · obtain ⟨rfl,_⟩ := Prod.mk.inj (Option.some.inj done)
      exact alloc_grows s.pmm
    · obtain ⟨s₁,linked,rest⟩ := Option.bind_eq_some_iff.mp done
      have second := mapPage_grows _ s₁ _ _ _ linked
      exact grows_trans s.pmm s₁.pmm s'.pmm (grows_trans s.pmm _ s₁.pmm (alloc_grows s.pmm) second)
        (ih (off + pageSize) s₁ s' mapped rest)
    · obtain ⟨rfl,_⟩ := Prod.mk.inj (Option.some.inj done)
      exact grows_same _ _ rfl

/-- No frame is free. -/
def Full (s : Pmm.State) : Prop := ∀ f < maxFrames, isSet s.bitmap f = true

/-- A frame that was free has been taken. -/
def Took (s s' : Pmm.State) : Prop := ∃ f < maxFrames, isSet s.bitmap f = false ∧ isSet s'.bitmap f = true

theorem full_or_free (s : Pmm.State) : Full s ∨ ∃ f < maxFrames, isSet s.bitmap f = false := by
  by_cases full : Full s
  · exact .inl full
  · obtain ⟨f,rest⟩ := not_forall.mp full
    obtain ⟨low,off⟩ := not_forall.mp rest
    exact .inr ⟨f,low,Bool.eq_false_iff.mpr off⟩

theorem full_alloc (s : Pmm.State) (full : Full s) : Pmm.blackPmmAllocFrame s = (s,0) := by
  rcases Pmm.allocFrame_spec s with ⟨same,_⟩ | ⟨f,_,_,low,off,_⟩
  · exact same
  · rw [full f low] at off
    cases off

theorem alloc_took (s : Pmm.State) (free : ¬Full s) : Took s (Pmm.blackPmmAllocFrame s).1 := by
  rcases Pmm.allocFrame_spec s with ⟨_,full⟩ | ⟨f,pmm,got,low,off,takes⟩
  · exact absurd full free
  · refine ⟨f,low,off,?_⟩
    rw [got,takes.bits,decide_eq_true ((Pmm.mem_frames_one f f).mpr rfl),Bool.or_true]

theorem took_later (s s₁ s' : Pmm.State) (took : Took s s₁) (grows : Grows s₁ s') : Took s s' := by
  obtain ⟨f,low,off,on⟩ := took
  exact ⟨f,low,off,grows f on⟩

theorem took_earlier (s s₁ s' : Pmm.State) (grows : Grows s s₁) (took : Took s₁ s') : Took s s' := by
  obtain ⟨f,low,off,on⟩ := took
  refine ⟨f,low,?_,on⟩
  by_contra was
  rw [grows f (Bool.eq_true_of_not_eq_false was)] at off
  cases off

/-- A segment that cannot be mapped has taken a frame, if there was one. -/
theorem mapSegment_took (vaddr memsz flags : Word) (fuel : Nat) (s s' : Machine) (off : Word)
    (failed : mapSegment vaddr memsz flags fuel off s = some (s',false)) (free : ¬Full s.pmm) :
    Took s.pmm s'.pmm := by
  cases fuel with
  | zero => cases failed
  | succ fuel =>
    rw [mapSegment_turn] at failed
    split_ifs at failed with more none_
    · obtain ⟨rfl,_⟩ := Prod.mk.inj (Option.some.inj failed)
      exact alloc_took s.pmm free
    · obtain ⟨s₁,linked,rest⟩ := Option.bind_eq_some_iff.mp failed
      have second := mapPage_grows _ s₁ _ _ _ linked
      exact took_later s.pmm _ s'.pmm (alloc_took s.pmm free)
        (grows_trans _ s₁.pmm s'.pmm second (mapSegment_grows _ _ _ _ _ _ _ _ rest))
    · cases failed

theorem writeSegment_pmm (s s' : Machine) (data : Word) (x : Segment) (done : writeSegment s data x = some s') :
    s'.pmm = s.pmm := by
  obtain ⟨s₁,copied,zeroed⟩ := Option.bind_eq_some_iff.mp done
  have first : s₁.pmm = s.pmm := by
    unfold copyFile at copied
    split_ifs at copied
    · exact memcpyLoop_pmm _ _ _ _ _ copied
    · rw [Option.some.inj copied]
  have second : s'.pmm = s₁.pmm := by
    unfold zeroRest at zeroed
    split_ifs at zeroed
    · exact memsetLoop_pmm _ _ _ _ _ zeroed
    · rw [Option.some.inj zeroed]
  exact second.trans first

/-- A round that returns has skipped its header, or has read it. -/
theorem loadSegment_read (s : Machine) (data phdr : Word) (r : Machine × Bool)
    (done : loadSegment s data phdr = some r) :
    (readSegment s phdr = none ∧ r = (s,true)) ∨ ∃ x, readSegment s phdr = some x ∧
      ((mapSegment x.vaddr x.memsz x.pageFlags (2^20 + 1) 0 s).bind fun mapped => if mapped.2 = true then
        (writeSegment mapped.1 data x).bind fun s => some (s,true) else some (mapped.1,false)) = some r := by
  obtain ⟨type,read,rest⟩ := Option.bind_eq_some_iff.mp done
  dsimp only at rest
  split_ifs at rest with other
  · left
    refine ⟨?_,(Option.some.inj rest).symm⟩
    simp only [readSegment,read,Option.bind_eq_bind,Option.bind_some,if_pos other]
    rfl
  · right
    obtain ⟨vaddr,first,rest⟩ := Option.bind_eq_some_iff.mp rest
    obtain ⟨memsz,second,rest⟩ := Option.bind_eq_some_iff.mp rest
    obtain ⟨filesz,third,rest⟩ := Option.bind_eq_some_iff.mp rest
    obtain ⟨offset,fourth,rest⟩ := Option.bind_eq_some_iff.mp rest
    obtain ⟨flags,fifth,rest⟩ := Option.bind_eq_some_iff.mp rest
    refine ⟨⟨vaddr,memsz,filesz,offset,flags⟩,?_,?_⟩
    · simp only [readSegment,read,first,second,third,fourth,fifth,Option.bind_eq_bind,Option.bind_some,
        if_neg other]
      rfl
    · refine Eq.trans ?_ rest
      refine congrArg _ (funext fun mapped => ?_)
      obtain ⟨s',flag⟩ := mapped
      cases flag
      · rfl
      · simp only [writeSegment,Option.bind_eq_bind]
        cases copyFile s' vaddr (data + offset) filesz with
        | none => rfl
        | some s₁ => rfl

theorem loadSegment_grows (s s' : Machine) (data phdr : Word) (loaded : Bool)
    (done : loadSegment s data phdr = some (s',loaded)) : Grows s.pmm s'.pmm := by
  rcases loadSegment_read s data phdr _ done with ⟨_,same⟩ | ⟨x,_,round⟩
  · obtain ⟨rfl,_⟩ := Prod.mk.inj same
    exact grows_same _ _ rfl
  · obtain ⟨⟨s₁,mapped⟩,pages,rest⟩ := Option.bind_eq_some_iff.mp round
    have grows := mapSegment_grows _ _ _ _ _ _ _ _ pages
    cases mapped with
    | false =>
      obtain ⟨rfl,_⟩ := Prod.mk.inj (Option.some.inj rest)
      exact grows
    | true =>
      obtain ⟨s₂,written,rest⟩ := Option.bind_eq_some_iff.mp rest
      obtain ⟨rfl,_⟩ := Prod.mk.inj (Option.some.inj rest)
      exact grows_trans s.pmm s₁.pmm s₂.pmm grows (grows_same _ _ (writeSegment_pmm s₁ s₂ data x written))

theorem loadSegment_took (s s' : Machine) (data phdr : Word) (failed : loadSegment s data phdr = some (s',false))
    (free : ¬Full s.pmm) : Took s.pmm s'.pmm := by
  rcases loadSegment_read s data phdr _ failed with ⟨_,same⟩ | ⟨x,_,round⟩
  · cases (Prod.mk.inj same).2
  · obtain ⟨⟨s₁,mapped⟩,pages,rest⟩ := Option.bind_eq_some_iff.mp round
    cases mapped with
    | false =>
      obtain ⟨rfl,_⟩ := Prod.mk.inj (Option.some.inj rest)
      exact mapSegment_took _ _ _ _ s s₁ _ pages free
    | true =>
      obtain ⟨s₂,_,rest⟩ := Option.bind_eq_some_iff.mp rest
      cases (Prod.mk.inj (Option.some.inj rest)).2

/-- One turn of the loop over the headers that has one left. -/
theorem loadSegments_turn (data phdrs : Word) (fuel i : Nat) (s s' : Machine)
    (failed : loadSegments data phdrs (fuel + 1) i s = some (s',false)) :
    ∃ s₁ loaded, loadSegment s data (phdrs + word (32 * i)) = some (s₁,loaded) ∧
      if loaded = true then loadSegments data phdrs fuel (i + 1) s₁ = some (s',false) else s₁ = s' := by
  obtain ⟨phnum,_,rest⟩ := Option.bind_eq_some_iff.mp failed
  dsimp only at rest
  split_ifs at rest with more
  · obtain ⟨⟨s₁,loaded⟩,round,rest⟩ := Option.bind_eq_some_iff.mp rest
    refine ⟨s₁,loaded,round,?_⟩
    cases loaded with
    | false => exact (Prod.mk.inj (Option.some.inj rest)).1
    | true => exact rest
  · cases (Prod.mk.inj (Option.some.inj rest)).2

theorem loadSegments_grows (data phdrs : Word) (fuel : Nat) : ∀ (i : Nat) (s s' : Machine),
    loadSegments data phdrs fuel i s = some (s',false) → Grows s.pmm s'.pmm := by
  induction fuel with
  | zero => exact fun i s s' failed => by cases failed
  | succ fuel ih =>
    intro i s s' failed
    obtain ⟨s₁,loaded,round,rest⟩ := loadSegments_turn data phdrs fuel i s s' failed
    have grows := loadSegment_grows s s₁ data _ loaded round
    split_ifs at rest
    · exact grows_trans s.pmm s₁.pmm s'.pmm grows (ih (i + 1) s₁ s' rest)
    · rw [← rest]
      exact grows

theorem loadSegments_took (data phdrs : Word) (fuel : Nat) : ∀ (i : Nat) (s s' : Machine),
    loadSegments data phdrs fuel i s = some (s',false) → ¬Full s.pmm → Took s.pmm s'.pmm := by
  induction fuel with
  | zero => exact fun i s s' failed _ => by cases failed
  | succ fuel ih =>
    intro i s s' failed free
    obtain ⟨s₁,loaded,round,rest⟩ := loadSegments_turn data phdrs fuel i s s' failed
    have grows := loadSegment_grows s s₁ data _ loaded round
    cases loaded with
    | false =>
      obtain rfl : s₁ = s' := rest
      exact loadSegment_took s s₁ data _ round free
    | true =>
      have later : loadSegments data phdrs fuel (i + 1) s₁ = some (s',false) := rest
      by_cases full : Full s₁.pmm
      · obtain ⟨f,low,off⟩ := (full_or_free s.pmm).resolve_left free
        exact ⟨f,low,off,loadSegments_grows data phdrs fuel (i + 1) s₁ s' later f (full f low)⟩
      · exact took_earlier s.pmm s₁.pmm s'.pmm grows (ih (i + 1) s₁ s' later full)

/-- No header before the first one with memory has bytes in the file. -/
def MemoryFirst (s : Machine) (phdrs : Word) : Prop :=
  ∀ i x, readSegment s (phdrs + word (32 * i)) = some x → x.memsz = 0 → x.filesz ≠ 0 →
    ∃ j < i, ∃ y, readSegment s (phdrs + word (32 * j)) = some y ∧ y.memsz ≠ 0

/-- With no frame free a round for a segment with memory fails at once, and one without is empty. -/
theorem loadSegment_full (s s' : Machine) (data phdr : Word) (loaded : Bool) (full : Full s.pmm)
    (done : loadSegment s data phdr = some (s',loaded))
    (bare : ∀ x, readSegment s phdr = some x → x.memsz = 0 → x.filesz = 0) :
    s' = s ∧ (loaded = true → ∀ x, readSegment s phdr = some x → x.memsz = 0) := by
  rcases loadSegment_read s data phdr _ done with ⟨none_,same⟩ | ⟨x,read,round⟩
  · obtain ⟨rfl,_⟩ := Prod.mk.inj same
    refine ⟨rfl,fun _ x found => ?_⟩
    cases none_.symm.trans found
  · rw [mapSegment_turn,full_alloc s.pmm full] at round
    by_cases zero : x.memsz = 0
    · have empty : ¬(0 : Word) < x.memsz := by
        rw [zero]
        decide
      have written : writeSegment s data x = some s := by
        simp only [writeSegment,copyFile,zeroRest,bare x read zero,zero]
        rfl
      rw [if_neg empty,Option.bind_some,if_pos rfl,written] at round
      obtain ⟨rfl,_⟩ := Prod.mk.inj (Option.some.inj round)
      refine ⟨rfl,fun _ y found => ?_⟩
      rw [← Option.some.inj (read.symm.trans found)]
      exact zero
    · have some_ : (0 : Word) < x.memsz := by bv_omega
      rw [if_pos some_,if_pos rfl,Option.bind_some] at round
      obtain ⟨rfl,rfl⟩ := Prod.mk.inj (Option.some.inj round)
      refine ⟨rfl,fun loaded => ?_⟩
      cases loaded

theorem loadSegments_full (data phdrs : Word) (s s' : Machine) (full : Full s.pmm) (first : MemoryFirst s phdrs)
    (fuel : Nat) : ∀ i, (∀ j < i, ∀ y, readSegment s (phdrs + word (32 * j)) = some y → y.memsz = 0) →
      loadSegments data phdrs fuel i s = some (s',false) → s' = s := by
  induction fuel with
  | zero => exact fun i _ failed => by cases failed
  | succ fuel ih =>
    intro i before failed
    obtain ⟨s₁,loaded,round,rest⟩ := loadSegments_turn data phdrs fuel i s s' failed
    have empty : ∀ x, readSegment s (phdrs + word (32 * i)) = some x → x.memsz = 0 → x.filesz = 0 := by
      intro x read zero
      by_contra bytes
      obtain ⟨j,less,y,found,memory⟩ := first i x read zero bytes
      exact memory (before j less y found)
    obtain ⟨rfl,passed⟩ := loadSegment_full s s₁ data _ loaded full round empty
    cases loaded with
    | false => exact (rest : s₁ = s').symm
    | true =>
      refine ih (i + 1) (fun j less => ?_) rest
      by_cases here : j = i
      · rw [here]
        exact passed rfl
      · exact before j (by omega)

/-- The load stops as the allocator returns 0. -/
def Starves (s : Machine) (data : Word) (s' : Machine) : Prop :=
  blackElfValidate s data = some 0 ∧ ∃ phoff, loadWord s (data + 28) = some phoff ∧
    loadSegments data (data + phoff) (2^16) 0 s = some (s',false)

/-- The frames of the directory and of its tables. -/
def InTables (s : Machine) (f : Nat) : Prop :=
  f = s.dir ∨ ∃ k < 1024, present (s.table k) = true ∧ f = frame (s.table k)

/-- The page tables and the bits of all frames are as before. -/
structure Undone (s s' : Machine) : Prop where
  root : s'.cr3 = s.cr3
  tables : ∀ a : Word, InTables s (a.toNat / 4096) → s'.mem a = s.mem a
  bits : ∀ f < maxFrames, isSet s'.pmm.bitmap f = isSet s.pmm.bitmap f

/-- A load that runs out of frames returns 0. It leaves the page tables and the bitmap as they were only if
there was no free frame at all, and then it does, as long as no bytes are copied before the first frame is
asked for. -/
theorem load_starved (s s' : Machine) (data size : Word) (starves : Starves s data s') :
    blackElfLoad s data size = some (s',0) ∧ (Undone s s' → Full s.pmm) ∧
      (Full s.pmm → (∀ phoff, loadWord s (data + 28) = some phoff → MemoryFirst s (data + phoff)) → Undone s s') := by
  obtain ⟨valid,phoff,offset,failed⟩ := starves
  refine ⟨?_,fun undone => ?_,fun full first => ?_⟩
  · have accepted : ¬(0 : Int) ≠ 0 := not_not_intro rfl
    simp only [blackElfLoad,valid,offset,failed,Option.bind_eq_bind,Option.bind_some,if_neg accepted]
    rfl
  · by_contra free
    obtain ⟨f,low,off,on⟩ := loadSegments_took data _ _ 0 s s' failed free
    rw [undone.bits f low,off] at on
    cases on
  · obtain rfl := loadSegments_full data _ s s' full (first phoff offset) _ 0 (fun j less => by omega) failed
    exact ⟨rfl,fun _ _ => rfl,fun _ _ => rfl⟩

/-- An image of one segment of two pages, with no bytes in the file. -/
def starving : Image := fun i => List.getD [
  0x7F,0x45,0x4C,0x46,1,1,1,0,0,0,0,0,0,0,0,0,2,0,3,0,1,0,0,0,0x00,0x80,0x04,0x08,52,0,0,0,
  0,0,0,0,0,0,0,0,52,0,32,0,1,0,0,0,0,0,0,0,
  1,0,0,0,84,0,0,0,0x00,0x80,0x04,0x08,0x00,0x80,0x04,0x08,0,0,0,0,0x00,0x20,0,0,6,0,0,0,1,0,0,0] i 0

theorem starving_segment : starving.segmentAt 52 = ⟨0x08048000,0x2000,0,84,6⟩ := by
  rfl

/-- A machine with the image, whose free frames are among the first 32. -/
def scarce (taken : Word) : Machine where
  mem := bootMemory starving
  cr3 := 0x1000
  pmm := ⟨fun i => if i = 0 then taken else 0xFFFFFFFF,0x8000,4,0x8000000⟩

section Scarce
variable (taken : Word)

theorem scarce_lies : Lies bootOwner (scarce taken) 0xC0000000 84 starving := by
  intro i inside
  obtain ⟨high,table,tableOwner,page,pageOwner,byte⟩ := boot_lies starving 84 (by decide) i inside
  exact ⟨high,table,tableOwner,page,pageOwner,byte⟩

theorem scarce_recursive : Recursive (scarce taken).mem (scarce taken).dir := (boot_space starving).recursive

theorem scarce_header (i : Nat) (first : i = 0) :
    readSegment (scarce taken) (0xC0000000 + starving.phoff + word (32 * i)) = some ⟨0x08048000,0x2000,0,84,6⟩ := by
  have load : starving.word 52 = blackPtLoad := by decide
  have place := header_address 0xC0000000 starving i
  have offset : starving.phoff.toNat + 32 * i = 52 := by
    rw [first]
    decide
  rw [offset] at place
  rw [place,readSegment_image bootOwner (scarce taken) 0xC0000000 84 starving (scarce_lies taken) 52 (by decide),
    if_pos load,starving_segment]

theorem scarce_offset (phoff : Word) (read : loadWord (scarce taken) (0xC0000000 + 28) = some phoff) :
    phoff = starving.phoff :=
  Option.some.inj (read.symm.trans
    (word_image bootOwner (scarce taken) 0xC0000000 84 starving (scarce_lies taken) 28 (by decide)))

/-- The load of the image fails with its only segment. -/
theorem scarce_starves (s' : Machine) (failed : mapSegment 0x08048000 0x2000
    (Segment.pageFlags ⟨0x08048000,0x2000,0,84,6⟩) (2^20 + 1) 0 (scarce taken) = some (s',false)) :
    Starves (scarce taken) 0xC0000000 s' := by
  have lies := scarce_lies taken
  have round := loadSegment_eq bootOwner (scarce taken) 0xC0000000 84 starving lies 52 (by decide) (by decide)
  rw [starving_segment,failed,Option.bind_some,if_neg Bool.false_ne_true] at round
  have place := header_address 0xC0000000 starving 0
  refine ⟨?_,_,word_image bootOwner (scarce taken) 0xC0000000 84 starving lies 28 (by decide),?_⟩
  · rw [validate_image bootOwner _ _ 84 starving (by decide) lies]
    decide
  · change loadSegments 0xC0000000 (0xC0000000 + starving.phoff) (65535 + 1) 0 (scarce taken) = _
    rw [loadSegments,phnum_image bootOwner _ _ 84 starving lies (by decide),Option.bind_eq_bind,Option.bind_some,
      if_pos (by decide),place]
    have offset : starving.phoff.toNat + 32 * 0 = 52 := by decide
    rw [offset,round]
    rfl

end Scarce

theorem exhausted_full : Full (scarce 0xFFFFFFFF).pmm := by
  intro f _
  have ones : (scarce 0xFFFFFFFF).pmm.bitmap (f / 32) = 0xFFFFFFFF := ite_self _
  rw [isSet,ones]
  exact (by decide : ∀ x < 32, (0xFFFFFFFF : Word).getLsbD x = true) _ (Nat.mod_lt _ (by decide))

/-- With no frame at all the image is refused and nothing changes. -/
theorem load_starved_exhausted : Starves (scarce 0xFFFFFFFF) 0xC0000000 (scarce 0xFFFFFFFF) ∧
    Undone (scarce 0xFFFFFFFF) (scarce 0xFFFFFFFF) := by
  have starves : Starves (scarce 0xFFFFFFFF) 0xC0000000 (scarce 0xFFFFFFFF) := by
    refine scarce_starves 0xFFFFFFFF _ ?_
    rw [mapSegment_turn,full_alloc _ exhausted_full,if_pos (by decide),if_pos rfl]
  refine ⟨starves,(load_starved _ _ 0xC0000000 84 starves).2.2 exhausted_full fun phoff read i x found zero _ => ?_⟩
  rw [scarce_offset 0xFFFFFFFF phoff read] at found ⊢
  by_cases first : i = 0
  · have memory := congrArg Segment.memsz (Option.some.inj (found.symm.trans (scarce_header 0xFFFFFFFF i first)))
    rw [zero] at memory
    exact absurd memory (by decide)
  · exact ⟨0,by omega,_,scarce_header 0xFFFFFFFF 0 rfl,by decide⟩

/-- Frame 4 is the only one that is free. -/
theorem last_frame : (Pmm.blackPmmAllocFrame (scarce 0xFFFFFFEF).pmm).2 = 0x4000 ∧
    Full (Pmm.blackPmmAllocFrame (scarce 0xFFFFFFEF).pmm).1 := by
  have found : (Pmm.blackPmmAllocFrame (scarce 0xFFFFFFEF).pmm).2 = 0x4000 := by decide
  refine ⟨found,?_⟩
  rcases Pmm.allocFrame_spec (scarce 0xFFFFFFEF).pmm with ⟨failed,_⟩ | ⟨f,pmm,got,low,_,takes⟩
  · rw [failed] at found
    exact absurd found (by decide)
  · have number : f = 4 := by
      have address := congrArg frame found
      rw [got,frame_address f low] at address
      exact address.trans (by decide)
    intro g _
    rw [got,takes.bits,number]
    by_cases here : g = 4
    · rw [decide_eq_true ((Pmm.mem_frames_one 4 g).mpr here),Bool.or_true]
    · have bits : isSet (scarce 0xFFFFFFEF).pmm.bitmap g =
          (if g / 32 = 0 then (0xFFFFFFEF : Word) else 0xFFFFFFFF).getLsbD (g % 32) := rfl
      have ones : ∀ x < 32, (0xFFFFFFFF : Word).getLsbD x = true := by decide
      have others : ∀ x < 32, x ≠ 4 → (0xFFFFFFEF : Word).getLsbD x = true := by decide
      have inside := Nat.mod_lt g (by decide : 0 < 32)
      rw [bits]
      by_cases first : g / 32 = 0
      · rw [if_pos first,others _ inside (by omega),Bool.true_or]
      · rw [if_neg first,ones _ inside,Bool.true_or]

/-- The only free frame goes to the first page, and is lost when there is none for the second. -/
theorem load_leaks : ∃ s', Starves (scarce 0xFFFFFFEF) 0xC0000000 s' ∧
    isSet (scarce 0xFFFFFFEF).pmm.bitmap 4 = false ∧ isSet s'.pmm.bitmap 4 = true ∧
    ¬Undone (scarce 0xFFFFFFEF) s' := by
  obtain ⟨found,full⟩ := last_frame
  have off : isSet (scarce 0xFFFFFFEF).pmm.bitmap 4 = false := by decide
  have on := full 4 (by decide)
  have empty := full_alloc _ full
  have absent : present (Machine.table {scarce 0xFFFFFFEF with
      pmm := (Pmm.blackPmmAllocFrame (scarce 0xFFFFFFEF).pmm).1} ((0x08048000 + 0 : Word).toNat / 4096 / 1024)) =
      false := boot_unmapped starving 0x08048000 (by unfold User; decide)
  have mapped := mapPage_fails {scarce 0xFFFFFFEF with pmm := (Pmm.blackPmmAllocFrame (scarce 0xFFFFFFEF).pmm).1}
    (scarce_recursive 0xFFFFFFEF) (0x08048000 + 0) (Pmm.blackPmmAllocFrame (scarce 0xFFFFFFEF).pmm).2
    (Segment.pageFlags ⟨0x08048000,0x2000,0,84,6⟩) absent (by rw [empty])
  have starves : Starves (scarce 0xFFFFFFEF) 0xC0000000
      {scarce 0xFFFFFFEF with pmm := (Pmm.blackPmmAllocFrame (scarce 0xFFFFFFEF).pmm).1} := by
    refine scarce_starves 0xFFFFFFEF _ ?_
    have positive : ¬(Pmm.blackPmmAllocFrame (scarce 0xFFFFFFEF).pmm).2 = 0 := by
      rw [found]
      decide
    rw [mapSegment_turn,if_pos (by decide),if_neg positive,mapped,Option.bind_some]
    change mapSegment _ _ _ (1048575 + 1) _ _ = _
    rw [mapSegment_turn,if_pos (by decide),empty,empty,if_pos rfl]
  refine ⟨_,starves,off,on,fun undone => ?_⟩
  have same := undone.bits 4 (by decide)
  rw [off] at same
  cases on.symm.trans same

end BlackOS.Elf
