import BlackOS.ElfImage

/-! The loader's loop over the program headers: the segments of an image are laid over
user memory one after the other. -/
namespace BlackOS.Elf
open BlackOS.Library.Ram BlackOS.Library.Paging BlackOS.Library.Bitmap
open BlackOS.Library.Overlay BlackOS.Library.Run BlackOS.Vmm
open BlackOS.Pmm (maxFrames)

def visitsOf (xs : List Segment) : List Nat := xs.flatMap Segment.visits

def pieces (img : Image) (xs : List Segment) : List (Piece Word Nat Byte) := xs.map (·.piece img)

/-- An image whose headers and segments lie where they should. -/
structure Image.Sound (img : Image) (size : Word) : Prop where
  header : 52 ≤ size.toNat
  table : img.phoff.toNat + 32 * img.phnum.toNat ≤ size.toNat
  fits : ∀ x ∈ img.segments, x.Fits size

theorem headers_next (img : Image) (i : Nat) (more : i < img.phnum.toNat) :
    img.headersFrom i = (img.phoff.toNat + 32 * i)::img.headersFrom (i + 1) := by
  have count : img.phnum.toNat - i = img.phnum.toNat - (i + 1) + 1 := by omega
  rw [Image.headersFrom,count,List.range'_succ]
  rfl

theorem headers_done (img : Image) (i : Nat) (done : ¬ i < img.phnum.toNat) : img.headersFrom i = [] := by
  have count : img.phnum.toNat - i = 0 := by omega
  rw [Image.headersFrom,count]
  rfl

theorem segments_load (img : Image) (i : Nat) (more : i < img.phnum.toNat)
    (load : img.word (img.phoff.toNat + 32 * i) = blackPtLoad) :
    img.segmentsFrom i = img.segmentAt (img.phoff.toNat + 32 * i)::img.segmentsFrom (i + 1) := by
  rw [Image.segmentsFrom,headers_next img i more,List.filter_cons_of_pos (by simpa using load)]
  rfl

theorem segments_skip (img : Image) (i : Nat) (more : i < img.phnum.toNat)
    (other : img.word (img.phoff.toNat + 32 * i) ≠ blackPtLoad) :
    img.segmentsFrom i = img.segmentsFrom (i + 1) := by
  rw [Image.segmentsFrom,headers_next img i more,List.filter_cons_of_neg (by simpa using other)]
  rfl

theorem visits_low (size : Word) (xs : List Segment) (fits : ∀ x ∈ xs, x.Fits size) :
    ∀ p ∈ visitsOf xs, p / 1024 < 1024 := by
  intro p member
  obtain ⟨x,within,visited⟩ := List.mem_flatMap.mp member
  have user := (fits x within).user
  have range := List.mem_range'_1.mp visited
  unfold pageOf pageCount at range
  omega

theorem lays_before (own own' : Nat → Owner) (s s' : Machine) (kept : Keeps own own' s s')
    (before after : Word → Option Byte) (x : Piece Word Nat Byte)
    (lays : Lays pageOf (Leftover s') before x after) : Lays pageOf (Leftover s) before x after where
  reached := lays.reached
  written := lays.written
  taken := by
    intro a none member
    obtain ⟨y,stale,value⟩ := lays.taken a none member
    exact ⟨y,leftover_before own own' s s' kept y stale,value⟩
  kept := lays.kept

theorem fault_unreached (s₀ s : Machine) (img : Image) (done rest : List (Piece Word Nat Byte))
    (run : Steps (Lays pageOf (Leftover s₀)) (view s₀) done (view s)) (x : Segment) (a : Word)
    (holds : x.Holds a) (unvisited : pageOf a ∉ x.visits) (hole : view s a = none) :
    ¬ Reached pageOf (view s₀) (done ++ x.piece img::rest) := by
  intro reached
  have absent := (run_present run a).not.mp (not_not_intro hole)
  rcases reached done (x.piece img) rest rfl a _ (piece_inside x img a holds) with old | ⟨y,member,taken⟩
  · exact absent (.inl old)
  · rcases List.mem_append.mp member with earlier | this
    · exact absent (.inr ⟨y,earlier,taken⟩)
    · rw [List.mem_singleton.mp this] at taken
      exact unvisited taken

theorem header_address (data : Word) (img : Image) (i : Nat) :
    data + img.phoff + word (32 * i) = data + word (img.phoff.toNat + 32 * i) := by
  rw [BitVec.add_assoc]
  refine congrArg (data + ·) ?_
  rw [← word_add,toNat_word]

section Round
variable (own : Nat → Owner) (s : Machine) (data size : Word) (img : Image)
  (lies : Lies own s data size img) (header : 52 ≤ size.toNat) (i fuel : Nat)
include lies header

theorem phnum_image : loadHalf s (data + 44) = some img.phnum :=
  half_image own s data size img lies 44 (by omega)

theorem loadSegments_done (done : ¬ i < img.phnum.toNat) :
    loadSegments data (data + img.phoff) (fuel + 1) i s = some (s,true) := by
  rw [loadSegments,phnum_image own s data size img lies header,Option.bind_eq_bind,Option.bind_some,
    if_neg done]
  rfl

variable (more : i < img.phnum.toNat)
include more

theorem loadSegments_next (s' : Machine)
    (loaded : loadSegment s data (data + word (img.phoff.toNat + 32 * i)) = some (s',true)) :
    loadSegments data (data + img.phoff) (fuel + 1) i s =
      loadSegments data (data + img.phoff) fuel (i + 1) s' := by
  rw [loadSegments,phnum_image own s data size img lies header,Option.bind_eq_bind,Option.bind_some,
    if_pos more,header_address data img i,loaded,Option.bind_eq_bind,Option.bind_some]
  rfl

theorem loadSegments_fault
    (fault : loadSegment s data (data + word (img.phoff.toNat + 32 * i)) = none) :
    loadSegments data (data + img.phoff) (fuel + 1) i s = none := by
  rw [loadSegments,phnum_image own s data size img lies header,Option.bind_eq_bind,Option.bind_some,
    if_pos more,header_address data img i,fault]
  rfl

end Round

section Loop
variable (own₀ : Nat → Owner) (s₀ : Machine) (data size : Word) (img : Image)
  (sound : img.Sound size)
include sound

/-- The loop over the program headers lays the segments that are left, or faults at one
that cannot be reached. -/
theorem loadSegments_lays (k : Nat) : ∀ (i fuel : Nat) (own : Nat → Owner) (s : Machine)
    (done : List (Piece Word Nat Byte)), i + k = img.phnum.toNat → k < fuel →
    Keeps own₀ own s₀ s → Lies own s data size img → Enough s (visitsOf (img.segmentsFrom i)) →
    (∀ x ∈ img.segmentsFrom i, x.Fits size) →
    Steps (Lays pageOf (Leftover s₀)) (view s₀) done (view s) →
    (∃ own' s', loadSegments data (data + img.phoff) fuel i s = some (s',true) ∧
      Lies own' s' data size img ∧
      Steps (Lays pageOf (Leftover s₀)) (view s₀) (done ++ pieces img (img.segmentsFrom i)) (view s')) ∨
    (loadSegments data (data + img.phoff) fuel i s = none ∧
      ¬ Reached pageOf (view s₀) (done ++ pieces img (img.segmentsFrom i))) := by
  have header := sound.header
  have table := sound.table
  induction k with
  | zero =>
    intro i fuel own s done count enoughFuel kept lies enough fits run
    obtain ⟨fuel,rfl⟩ : ∃ m, fuel = m + 1 := ⟨fuel - 1,by omega⟩
    have last : ¬ i < img.phnum.toNat := by omega
    left
    refine ⟨own,s,loadSegments_done own s data size img lies header i fuel last,lies,?_⟩
    rw [Image.segmentsFrom,headers_done img i last]
    simp only [List.filter_nil,List.map_nil,pieces,List.append_nil]
    exact run
  | succ k ih =>
    intro i fuel own s done count enoughFuel kept lies enough fits run
    obtain ⟨fuel,rfl⟩ : ∃ m, fuel = m + 1 := ⟨fuel - 1,by omega⟩
    have more : i < img.phnum.toNat := by omega
    have inside : img.phoff.toNat + 32 * i + 32 ≤ size.toNat := by omega
    have next := loadSegments_next own s data size img lies header i fuel more
    by_cases load : img.word (img.phoff.toNat + 32 * i) = blackPtLoad
    · rw [segments_load img i more load] at fits enough ⊢
      have later : ∀ x ∈ img.segmentsFrom (i + 1), x.Fits size :=
        fun x member => fits x (List.mem_cons_of_mem _ member)
      rcases loadSegment_lays own s data size img lies _ inside kept.space load
          (fits _ List.mem_cons_self) (visitsOf (img.segmentsFrom (i + 1)))
          (visits_low size _ later) enough with
        ⟨own₁,s₁,loaded,kept₁,left,lays⟩ | ⟨fault,a,holds,unvisited,hole⟩
      · have step := Steps.snoc done _ (view s) (view s₁) run
          (lays_before own₀ own s₀ s kept _ _ _ lays)
        have rest := ih (i + 1) fuel own₁ s₁ _ (by omega) (by omega)
          (keeps_trans own₀ own own₁ s₀ s s₁ kept kept₁)
          (lies_kept own own₁ s s₁ kept₁ data size img lies) left later step
        rw [List.append_assoc] at rest
        rw [next s₁ loaded]
        exact rest
      · right
        exact ⟨loadSegments_fault own s data size img lies header i fuel more fault,
          fault_unreached s₀ s img done _ run _ a holds unvisited hole⟩
    · have skipped := loadSegment_skips own s data size img lies _ inside load
      rw [segments_skip img i more load] at fits enough ⊢
      rw [next s skipped]
      exact ih (i + 1) fuel own s done (by omega) (by omega) kept lies enough fits run

end Loop

/-- A machine that is ready to load an image: the image lies in kernel memory and is valid,
and there are frames enough. -/
structure Ready (own : Nat → Owner) (s : Machine) (data size : Word) (img : Image) : Prop where
  space : Space own s
  lies : Lies own s data size img
  valid : blackElfValidate s data = some 0
  enough : Enough s (visitsOf img.segments)

/-- A valid image is laid over user memory, or the loader faults at a segment that cannot
be reached. -/
theorem load_lays (own : Nat → Owner) (s : Machine) (data size : Word) (img : Image)
    (ready : Ready own s data size img) (sound : img.Sound size) :
    (∃ s', blackElfLoad s data size = some (s',img.entry) ∧
      Steps (Lays pageOf (Leftover s)) (view s) (pieces img img.segments) (view s')) ∨
    (blackElfLoad s data size = none ∧ ¬ Reached pageOf (view s) (pieces img img.segments)) := by
  obtain ⟨space,lies,valid,enough⟩ := ready
  have header := sound.header
  have few := img.phnum.isLt
  have table : loadWord s (data + 28) = some img.phoff :=
    word_image own s data size img lies 28 (by omega)
  have entered : blackElfLoad s data size =
      (loadSegments data (data + img.phoff) (2^16) 0 s).bind fun loaded =>
        if loaded.2 = true then (loadWord loaded.1 (data + 24)).bind fun entry => some (loaded.1,entry)
        else some (loaded.1,0) := by
    simp only [blackElfLoad,valid,table,Option.bind_eq_bind,Option.bind_some,ne_eq,not_true,if_false]
    rfl
  rcases loadSegments_lays own s data size img sound img.phnum.toNat 0 (2^16) own s [] (Nat.zero_add _) few
      (keeps_refl own s space) lies enough sound.fits .nil with
    ⟨own',s',loaded,lies',run⟩ | ⟨fault,unreached⟩
  · left
    have start : loadWord s' (data + 24) = some img.entry :=
      word_image own' s' data size img lies' 24 (by omega)
    refine ⟨s',?_,run⟩
    rw [entered,loaded,Option.bind_some,if_pos rfl,start,Option.bind_some]
  · right
    refine ⟨?_,unreached⟩
    rw [entered,fault,Option.bind_none]

theorem validate_image (own : Nat → Owner) (s : Machine) (data size : Word) (img : Image)
    (header : 52 ≤ size.toNat) (lies : Lies own s data size img) :
    blackElfValidate s data = some (if img.word 0 ≠ blackElfMagic then -1 else if img 4 ≠ 1 then -2
      else if img.half 18 ≠ blackEm386 then -3 else if img.half 16 ≠ blackEtExec then -4 else 0) := by
  have magic := word_image own s data size img lies 0 (by omega)
  rw [show data + word 0 = data from BitVec.add_zero data] at magic
  have kind : s.load8 (data + 4) = _ := load_image own s data size img lies 4 (by omega)
  have machine : loadHalf s (data + 18) = _ := half_image own s data size img lies 18 (by omega)
  have type : loadHalf s (data + 16) = _ := half_image own s data size img lies 16 (by omega)
  simp only [blackElfValidate,magic,kind,machine,type,Option.bind_eq_bind,Option.bind_some]
  by_cases badMagic : img.word 0 ≠ blackElfMagic
  · rw [if_pos badMagic,if_pos badMagic]
    rfl
  · rw [if_neg badMagic,if_neg badMagic]
    split_ifs <;> rfl

end BlackOS.Elf
