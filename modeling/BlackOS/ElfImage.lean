import BlackOS.ElfSegment

/-! The fields of an image, the reads of the loader from it, and what loading one of its
segments does to the user's view of memory. -/
namespace BlackOS.Elf
open BlackOS.Library.Ram BlackOS.Library.Paging BlackOS.Library.Bitmap BlackOS.Library.Overlay
open BlackOS.Vmm

abbrev Image := Nat → Byte

def Image.half (img : Image) (o : Nat) : Half := img (o + 1) ++ img o

def Image.word (img : Image) (o : Nat) : Word := img.half (o + 2) ++ img.half o

/-- The fields of a program header that the loader reads. -/
structure Segment where
  vaddr : Word
  memsz : Word
  filesz : Word
  offset : Word
  flags : Word

def Image.segmentAt (img : Image) (o : Nat) : Segment :=
  ⟨img.word (o + 8),img.word (o + 20),img.word (o + 16),img.word (o + 4),img.word (o + 24)⟩

def Image.entry (img : Image) : Word := img.word 24
def Image.phoff (img : Image) : Word := img.word 28
def Image.phnum (img : Image) : Half := img.half 44

/-- Where the program headers from number `i` on lie in the image. -/
def Image.headersFrom (img : Image) (i : Nat) : List Nat :=
  (List.range' i (img.phnum.toNat - i)).map fun i => img.phoff.toNat + 32 * i

def Image.segmentsFrom (img : Image) (i : Nat) : List Segment :=
  ((img.headersFrom i).filter fun o => img.word o = blackPtLoad).map img.segmentAt

/-- The segments to load, in the order of their headers. -/
def Image.segments (img : Image) : List Segment := img.segmentsFrom 0

def Segment.Holds (x : Segment) (a : Word) : Prop :=
  x.vaddr.toNat ≤ a.toNat ∧ a.toNat < x.vaddr.toNat + x.memsz.toNat

instance (x : Segment) (a : Word) : Decidable (x.Holds a) := inferInstanceAs (Decidable (_ ∧ _))

/-- The pages that the loop of a segment maps. -/
def Segment.visits (x : Segment) : List Nat := List.range' (pageOf x.vaddr) (pageCount x.memsz)

/-- The byte that belongs at place `i` of a segment. -/
def Segment.byte (x : Segment) (img : Image) (i : Nat) : Byte :=
  if i < x.filesz.toNat then img (x.offset.toNat + i) else 0

def Segment.piece (x : Segment) (img : Image) : Piece Word Nat Byte where
  pages := {p | p ∈ x.visits}
  bytes := fun a => if x.Holds a then some (x.byte img (a.toNat - x.vaddr.toNat)) else none

theorem piece_inside (x : Segment) (img : Image) (a : Word) (held : x.Holds a) :
    (x.piece img).bytes a = some (x.byte img (a.toNat - x.vaddr.toNat)) := if_pos held

theorem piece_outside (x : Segment) (img : Image) (a : Word) (apart : ¬ x.Holds a) :
    (x.piece img).bytes a = none := if_neg apart

theorem piece_holds (x : Segment) (img : Image) (a : Word) (y : Byte)
    (value : (x.piece img).bytes a = some y) : x.Holds a := by
  by_contra apart
  rw [piece_outside x img a apart] at value
  cases value

/-- User memory as it is seen through the page tables. -/
def view (s : Machine) (a : Word) : Option Byte := if a.toNat < 0xC0000000 then s.load8 a else none

def Lies (own : Nat → Owner) (s : Machine) (data size : Word) (img : Image) : Prop :=
  ∀ i < size.toNat, Kernel own s (data + word i) (img i)

section Reading
variable (own : Nat → Owner) (s : Machine) (data size : Word) (img : Image)
  (lies : Lies own s data size img)
include lies

theorem load_image (o : Nat) (inside : o < size.toNat) : s.load8 (data + word o) = some (img o) :=
  kernel_load own s _ _ (lies o inside)

theorem half_image (o : Nat) (inside : o + 2 ≤ size.toNat) :
    loadHalf s (data + word o) = some (img.half o) := by
  have next : data + word o + 1 = data + word (o + 1) := by
    rw [BitVec.add_assoc]
    exact congrArg (data + ·) (word_add o 1)
  simp only [loadHalf,next,load_image own s data size img lies o (by omega),
    load_image own s data size img lies (o + 1) (by omega),Option.bind_eq_bind,Option.bind_some]
  rfl

theorem word_image (o : Nat) (inside : o + 4 ≤ size.toNat) :
    loadWord s (data + word o) = some (img.word o) := by
  have next : data + word o + 2 = data + word (o + 2) := by
    rw [BitVec.add_assoc]
    exact congrArg (data + ·) (word_add o 2)
  simp only [loadWord,next,half_image own s data size img lies o (by omega),
    half_image own s data size img lies (o + 2) (by omega),Option.bind_eq_bind,Option.bind_some]
  rfl

theorem field_image (o k : Nat) (inside : o + k + 4 ≤ size.toNat) :
    loadWord s (data + word o + word k) = some (img.word (o + k)) := by
  have place : data + word o + word k = data + word (o + k) := by
    rw [BitVec.add_assoc]
    exact congrArg (data + ·) (word_add o k)
  rw [place]
  exact word_image own s data size img lies (o + k) inside

/-- The fields of a program header that the loader reads. -/
theorem header_image (o : Nat) (inside : o + 32 ≤ size.toNat) :
    loadWord s (data + word o) = some (img.word o) ∧ loadWord s (data + word o + 4) = some (img.word (o + 4)) ∧
    loadWord s (data + word o + 8) = some (img.word (o + 8)) ∧
    loadWord s (data + word o + 16) = some (img.word (o + 16)) ∧
    loadWord s (data + word o + 20) = some (img.word (o + 20)) ∧
    loadWord s (data + word o + 24) = some (img.word (o + 24)) := by
  have field (k : Nat) (within : k + 4 ≤ 32) := field_image own s data size img lies o k (by omega)
  exact ⟨word_image own s data size img lies o (by omega),field 4 (by omega),field 8 (by omega),
    field 16 (by omega),field 20 (by omega),field 24 (by omega)⟩

end Reading

theorem lies_kept (own own' : Nat → Owner) (s s' : Machine) (kept : Keeps own own' s s')
    (data size : Word) (img : Image) (lies : Lies own s data size img) : Lies own' s' data size img :=
  fun i inside => kept.kernel _ _ (lies i inside)

/-- The second half of a segment's round: the bytes of the file, then zeros. -/
def writeSegment (s : Machine) (data : Word) (x : Segment) : Option Machine := do
  let s ← copyFile s x.vaddr (data + x.offset) x.filesz
  zeroRest s x.vaddr x.filesz x.memsz

/-- A segment that fits the image, its own memory and user space. -/
structure Segment.Fits (x : Segment) (size : Word) : Prop where
  file : x.offset.toNat + x.filesz.toNat ≤ size.toNat
  memory : x.filesz.toNat ≤ x.memsz.toNat
  user : x.vaddr.toNat + x.memsz.toNat ≤ 0xC0000000

section Writing
variable (own : Nat → Owner) (s : Machine) (space : Space own s) (data size : Word) (img : Image)
  (lies : Lies own s data size img) (x : Segment) (fits : x.Fits size)

include lies fits in
theorem segment_source : ∀ i < x.filesz.toNat,
    Kernel own s (data + x.offset + word i) (img (x.offset.toNat + i)) := by
  intro i inside
  have file := fits.file
  have place : data + x.offset + word i = data + word (x.offset.toNat + i) := by
    rw [BitVec.add_assoc]
    refine congrArg (data + ·) ?_
    rw [← word_add,toNat_word]
  rw [place]
  exact lies _ (by omega)

include space lies fits

theorem copy_source : memcpyLoop x.filesz.toNat s x.vaddr (data + x.offset) =
    storeLoop (fun i => img (x.offset.toNat + i)) x.filesz.toNat s x.vaddr := by
  have memory := fits.memory
  have user := fits.user
  exact memcpyLoop_eq own _ _ s x.vaddr (data + x.offset) space (by omega)
    (segment_source own s data size img lies x fits)

theorem copy_part (mapped : ∀ b : Word, x.vaddr.toNat ≤ b.toNat →
      b.toNat < x.vaddr.toNat + x.filesz.toNat → s.load8 b ≠ none) :
    ∃ s', copyFile s x.vaddr (data + x.offset) x.filesz = some s' ∧
      Writes own s s' ∧ ∀ b, User b → s'.load8 b =
        if x.vaddr.toNat ≤ b.toNat ∧ b.toNat < x.vaddr.toNat + x.filesz.toNat
        then some (img (x.offset.toNat + (b.toNat - x.vaddr.toNat))) else s.load8 b := by
  have memory := fits.memory
  have user := fits.user
  obtain ⟨s',copied,kept,final⟩ := storeLoop_user own (fun i => img (x.offset.toNat + i))
    x.filesz.toNat s x.vaddr space (by omega) mapped
  unfold copyFile
  by_cases some : 0 < x.filesz
  · rw [if_pos some,memcpy,copy_source own s space data size img lies x fits]
    exact ⟨s',copied,kept,final⟩
  · rw [if_neg some]
    have empty : x.filesz.toNat = 0 := by
      rw [BitVec.lt_def] at some
      have zero : (0 : Word).toNat = 0 := rfl
      omega
    refine ⟨s,rfl,writes_refl own s space,fun b low => ?_⟩
    rw [if_neg (by omega)]

omit lies in
theorem zero_part (mapped : ∀ b : Word, x.vaddr.toNat + x.filesz.toNat ≤ b.toNat →
      b.toNat < x.vaddr.toNat + x.memsz.toNat → s.load8 b ≠ none) :
    ∃ s', zeroRest s x.vaddr x.filesz x.memsz = some s' ∧
      Writes own s s' ∧ ∀ b, User b → s'.load8 b =
        if x.vaddr.toNat + x.filesz.toNat ≤ b.toNat ∧ b.toNat < x.vaddr.toNat + x.memsz.toNat
        then some 0 else s.load8 b := by
  have memory := fits.memory
  have user := fits.user
  have start : (x.vaddr + x.filesz).toNat = x.vaddr.toNat + x.filesz.toNat := by bv_omega
  have length : (x.memsz - x.filesz).toNat = x.memsz.toNat - x.filesz.toNat := by bv_omega
  obtain ⟨s',filled,kept,final⟩ := storeLoop_user own (fun _ => 0) (x.memsz - x.filesz).toNat s
    (x.vaddr + x.filesz) space (by omega) (fun b low high => mapped b (by omega) (by omega))
  have bound : x.vaddr.toNat + x.filesz.toNat + (x.memsz.toNat - x.filesz.toNat) =
      x.vaddr.toNat + x.memsz.toNat := by omega
  rw [start,length,bound] at final
  unfold zeroRest
  by_cases some : x.filesz < x.memsz
  · rw [if_pos some,memset,memsetLoop_eq]
    exact ⟨s',filled,kept,final⟩
  · rw [if_neg some]
    have whole : x.filesz.toNat = x.memsz.toNat := by
      rw [BitVec.lt_def] at some
      omega
    refine ⟨s,rfl,writes_refl own s space,fun b low => ?_⟩
    rw [if_neg (by omega)]

theorem writeSegment_ok (mapped : ∀ a, x.Holds a → s.load8 a ≠ none) :
    ∃ s', writeSegment s data x = some s' ∧ Writes own s s' ∧ ∀ b, User b → s'.load8 b =
      if x.Holds b then some (x.byte img (b.toNat - x.vaddr.toNat)) else s.load8 b := by
  have memory := fits.memory
  have user := fits.user
  obtain ⟨s₁,copied,first,view₁⟩ := copy_part own s space data size img lies x fits
    (fun b low high => mapped b ⟨low,by omega⟩)
  obtain ⟨s₂,zeroed,second,view₂⟩ := zero_part own s₁ first.keeps.space size x fits (by
    intro b low high
    rw [view₁ b (by unfold User; omega),if_neg (by omega)]
    exact mapped b ⟨by omega,high⟩)
  refine ⟨s₂,?_,writes_trans own s s₁ s₂ first second,fun b low => ?_⟩
  · rw [writeSegment,copied,Option.bind_eq_bind,Option.bind_some,zeroed]
  · rw [view₂ b low,view₁ b low]
    unfold Segment.byte
    by_cases inside : x.Holds b
    · rw [if_pos inside]
      unfold Segment.Holds at inside
      by_cases file : b.toNat < x.vaddr.toNat + x.filesz.toNat
      · rw [if_neg (by omega),if_pos ⟨inside.1,file⟩,if_pos (by omega)]
      · rw [if_pos (by omega),if_neg (by omega)]
    · rw [if_neg inside]
      unfold Segment.Holds at inside
      rw [if_neg (by omega),if_neg (by omega)]

theorem writeSegment_fault (b : Word) (holds : x.Holds b) (hole : s.load8 b = none) :
    writeSegment s data x = none := by
  have memory := fits.memory
  have user := fits.user
  obtain ⟨low,high⟩ := holds
  by_cases mapped : ∀ c : Word, x.vaddr.toNat ≤ c.toNat →
      c.toNat < x.vaddr.toNat + x.filesz.toNat → s.load8 c ≠ none
  · obtain ⟨s₁,copied,first,view₁⟩ := copy_part own s space data size img lies x fits mapped
    have beyond : ¬ b.toNat < x.vaddr.toNat + x.filesz.toNat := fun inside => mapped b low inside hole
    have more : x.filesz < x.memsz := by
      rw [BitVec.lt_def]
      omega
    have start : (x.vaddr + x.filesz).toNat = x.vaddr.toNat + x.filesz.toNat := by bv_omega
    have length : (x.memsz - x.filesz).toNat = x.memsz.toNat - x.filesz.toNat := by bv_omega
    rw [writeSegment,copied,Option.bind_eq_bind,Option.bind_some,zeroRest,if_pos more,memset,
      memsetLoop_eq]
    refine storeLoop_fault own _ _ s₁ _ b first.keeps.space (by omega) (by omega) (by omega) ?_
    rw [view₁ b (by unfold User; omega),if_neg (by omega)]
    exact hole
  · obtain ⟨c,below,above,unmapped⟩ : ∃ c : Word, x.vaddr.toNat ≤ c.toNat ∧
        c.toNat < x.vaddr.toNat + x.filesz.toNat ∧ s.load8 c = none := by
      simp only [not_forall,ne_eq,not_not] at mapped
      obtain ⟨c,below,above,unmapped⟩ := mapped
      exact ⟨c,below,above,unmapped⟩
    have some : 0 < x.filesz := by
      rw [BitVec.lt_def]
      have zero : (0 : Word).toNat = 0 := rfl
      omega
    have fault := storeLoop_fault own (fun i => img (x.offset.toNat + i)) x.filesz.toNat s x.vaddr c space
      (by omega) below above unmapped
    rw [writeSegment,copyFile,if_pos some,memcpy,copy_source own s space data size img lies x fits,fault]
    rfl

end Writing

def Segment.pageFlags (x : Segment) : Word :=
  if x.flags &&& 0x02 ≠ 0 then pagePresent ||| pageUser ||| pageWrite else pagePresent ||| pageUser

theorem segment_lays (s s₁ s₂ : Machine) (x : Segment) (img : Image)
    (user : x.vaddr.toNat + x.memsz.toNat ≤ 0xC0000000)
    (visited : ∀ a, pageOf a ∈ x.visits ↔
      pageOf x.vaddr ≤ pageOf a ∧ pageOf a < pageOf x.vaddr + pageCount x.memsz)
    (others : ∀ a, User a → (pageOf a < pageOf x.vaddr + 0 ∨
      pageOf x.vaddr + 0 + pageCount x.memsz ≤ pageOf a) → s₁.load8 a = s.load8 a)
    (here : ∀ a, User a → pageOf x.vaddr + 0 ≤ pageOf a →
      pageOf a < pageOf x.vaddr + 0 + pageCount x.memsz → ∃ y, Leftover s y ∧ s₁.load8 a = some y)
    (whole : ∀ a, x.Holds a → s₁.load8 a ≠ none)
    (final : ∀ b, User b → s₂.load8 b =
      if x.Holds b then some (x.byte img (b.toNat - x.vaddr.toNat)) else s₁.load8 b) :
    Lays pageOf (Leftover s) (view s) (x.piece img) (view s₂) := by
  have holds := piece_holds x img
  have outside : ∀ a, (x.piece img).bytes a = none → ¬ x.Holds a := by
    intro a none held
    rw [piece_inside x img a held] at none
    cases none
  have lower : ∀ a, x.Holds a → a.toNat < 0xC0000000 := by
    intro a held
    obtain ⟨_,high⟩ := held
    omega
  have seen : ∀ a : Word, a.toNat < 0xC0000000 → view s₂ a = s₂.load8 a := fun a low => if_pos low
  constructor
  · intro a y value
    have held := holds a y value
    by_cases member : pageOf a ∈ x.visits
    · exact .inl member
    · right
      have apart := (visited a).not.mp member
      rw [view,if_pos (lower a held),← others a (lower a held) (by omega)]
      exact whole a held
  · intro a y value
    have held := holds a y value
    rw [seen a (lower a held),final a (lower a held),if_pos held]
    rw [piece_inside x img a held] at value
    exact value
  · intro a none member
    have range := (visited a).mp member
    have low : a.toNat < 0xC0000000 := by
      unfold pageOf pageCount at range
      omega
    rw [seen a low,final a low,if_neg (outside a none)]
    exact here a low range.1 range.2
  · intro a none apart
    by_cases low : a.toNat < 0xC0000000
    · have range := (visited a).not.mp apart
      rw [seen a low,final a low,if_neg (outside a none),others a low (by omega),view,if_pos low]
    · rw [view,view,if_neg low,if_neg low]

section Loading
variable (own : Nat → Owner) (s : Machine) (data size : Word) (img : Image)
  (lies : Lies own s data size img) (o : Nat) (inside : o + 32 ≤ size.toNat)
include lies inside

theorem loadSegment_skips (other : img.word o ≠ blackPtLoad) :
    loadSegment s data (data + word o) = some (s,true) := by
  have type := word_image own s data size img lies o (by omega)
  simp only [loadSegment,type,Option.bind_eq_bind,Option.bind_some,if_pos other]
  rfl

theorem loadSegment_eq (load : img.word o = blackPtLoad) :
    loadSegment s data (data + word o) =
      (mapSegment (img.segmentAt o).vaddr (img.segmentAt o).memsz (img.segmentAt o).pageFlags (2^20 + 1)
        0 s).bind fun mapped => if mapped.2 = true then
          (writeSegment mapped.1 data (img.segmentAt o)).bind fun s => some (s,true)
        else some (mapped.1,false) := by
  obtain ⟨type,offset,vaddr,filesz,memsz,flags⟩ := header_image own s data size img lies o inside
  have same : ¬ img.word o ≠ blackPtLoad := not_not_intro load
  simp only [loadSegment,type,vaddr,memsz,filesz,offset,flags,Option.bind_eq_bind,Option.bind_some,
    if_neg same,Image.segmentAt,Segment.pageFlags,writeSegment]
  refine congrArg _ (funext fun mapped => ?_)
  obtain ⟨s',flag⟩ := mapped
  cases flag
  · rfl
  · cases copyFile s' (img.word (o + 8)) (data + img.word (o + 4)) (img.word (o + 16)) with
    | none => rfl
    | some s₁ => rfl

/-- Loading a segment lays it over user memory, or faults at a byte on a page that is not
mapped. -/
theorem loadSegment_lays (space : Space own s) (load : img.word o = blackPtLoad)
    (fits : (img.segmentAt o).Fits size) (rest : List Nat) (low : ∀ p ∈ rest, p / 1024 < 1024)
    (enough : Enough s ((img.segmentAt o).visits ++ rest)) :
    (∃ own' s', loadSegment s data (data + word o) = some (s',true) ∧ Keeps own own' s s' ∧
      Enough s' rest ∧ Lays pageOf (Leftover s) (view s) ((img.segmentAt o).piece img) (view s')) ∨
    (loadSegment s data (data + word o) = none ∧
      ∃ a, (img.segmentAt o).Holds a ∧ pageOf a ∉ (img.segmentAt o).visits ∧ view s a = none) := by
  rw [loadSegment_eq own s data size img lies o inside load]
  generalize img.segmentAt o = x at fits enough ⊢
  have user := fits.user
  obtain ⟨own₁,s₁,mapped,kept,left,others,here⟩ := mapSegment_maps x.vaddr x.memsz x.pageFlags user rest
    low (pageCount x.memsz) 0 (2^20 + 1) own s (Nat.add_zero _)
    (by
      unfold pageCount
      omega) space enough
  have lies₁ := lies_kept own own₁ s s₁ kept data size img lies
  have start : mapSegment x.vaddr x.memsz x.pageFlags (2^20 + 1) 0 s = some (s₁,true) := mapped
  rw [start,Option.bind_some,if_pos rfl]
  have visited : ∀ a, pageOf a ∈ x.visits ↔
      pageOf x.vaddr ≤ pageOf a ∧ pageOf a < pageOf x.vaddr + pageCount x.memsz :=
    fun a => List.mem_range'_1
  by_cases whole : ∀ a, x.Holds a → s₁.load8 a ≠ none
  · left
    obtain ⟨s₂,written,writes,final⟩ := writeSegment_ok own₁ s₁ kept.space data size img lies₁ x fits whole
    refine ⟨own₁,s₂,?_,keeps_trans own own₁ own₁ s s₁ s₂ kept writes.keeps,?_,?_⟩
    · rw [written,Option.bind_some]
    · exact enough_same s₁ s₂ rest low writes.pmm writes.tables left
    · exact segment_lays s s₁ s₂ x img user visited others here whole final
  · right
    obtain ⟨a,holds,hole⟩ : ∃ a, x.Holds a ∧ s₁.load8 a = none := by
      simp only [not_forall,ne_eq,not_not] at whole
      obtain ⟨a,holds,hole⟩ := whole
      exact ⟨a,holds,hole⟩
    have low : User a := by
      unfold User
      obtain ⟨_,high⟩ := holds
      omega
    have unvisited : pageOf a ∉ x.visits := by
      intro member
      obtain ⟨y,_,found⟩ := here a low ((visited a).mp member).1 ((visited a).mp member).2
      rw [hole] at found
      cases found
    refine ⟨?_,a,holds,unvisited,?_⟩
    · rw [writeSegment_fault own₁ s₁ kept.space data size img lies₁ x fits a holds hole,Option.bind_none]
    · have before := others a low (by
        have outside := (visited a).not.mp unvisited
        omega)
      have seen : view s a = s.load8 a := if_pos low
      rw [seen,← before]
      exact hole

end Loading

end BlackOS.Elf
