import BlackOS.ParserSegments

/-! What the acceptance of `black_elf_validate_segments` says of the program headers in the file. -/
namespace BlackOS.Parser
open BlackOS.Library.Ram BlackOS.Elf

/-- Where the file has program header `i`. -/
def entryOffset (img : Image) (i : Nat) : Nat := img.phoff.toNat + i * (phentsize img).toNat

/-- The file has a program header `i`, and it is of type `PT_LOAD`. -/
def IsLoad (img : Image) (len : Word) (i : Nat) : Prop :=
  entryOffset img i + 32 ≤ len.toNat ∧ img.word (entryOffset img i) = blackPtLoad

instance (img : Image) (len : Word) (i : Nat) : Decidable (IsLoad img len i) := inferInstanceAs (Decidable (_ ∧ _))

/-- The bytes of a segment are in the file, and no more than it has in memory. -/
structure InFile (x : Segment) (len : Word) : Prop where
  file : x.offset.toNat + x.filesz.toNat ≤ len.toNat
  memory : x.filesz.toNat ≤ x.memsz.toNat
  user : 0x08048000 ≤ x.vaddr.toNat

/-- The result is the number of the file's headers of type `PT_LOAD`, and their segments are in the file. -/
structure SegmentsInFile (img : Image) (len : Word) : Prop where
  count : blackElfValidateSegments (some img) len =
    ((List.range img.phnum.toNat).countP fun i => IsLoad img len i : Nat)
  segments : ∀ i < img.phnum.toNat, IsLoad img len i → InFile (img.segmentAt (entryOffset img i)) len

/-- A predicate counts as many as a weaker one if none has only the weaker. -/
theorem countP_eq_iff {α : Type} (items : List α) (p q : α → Prop) [DecidablePred p] [DecidablePred q]
    (subset : ∀ a ∈ items, p a → q a) :
    (items.countP fun a => p a) = (items.countP fun a => q a) ↔ ∀ a ∈ items, q a → p a := by
  have both : (items.countP fun a => p a) = (items.filter fun a => q a).countP fun a => p a := by
    rw [List.countP_filter]
    refine List.countP_congr fun a member => ?_
    rw [Bool.and_eq_true,decide_eq_true_iff,decide_eq_true_iff]
    exact ⟨fun held => ⟨held,subset a member held⟩,fun pair => pair.1⟩
  rw [both,List.countP_eq_length_filter (p := fun a => decide (q a)),List.countP_eq_length]
  simp only [List.mem_filter,decide_eq_true_iff,and_imp]

section Accepted
variable (img : Image) (len : Word)

/-- The header that the parser reads as number `i` is of type `PT_LOAD`. -/
def ReadsLoad (i : Nat) : Prop := img.word (phOffset img i).toNat = blackPtLoad

instance (i : Nat) : Decidable (ReadsLoad img i) := inferInstanceAs (Decidable (_ = _))

/-- The count of an accepted image is that of the headers of type `PT_LOAD` where the parser reads them. -/
theorem validateLoop_count (n : Nat) : ∀ (i : Nat) (loadCount : Int), 0 < validateLoop img len n i loadCount →
    validateLoop img len n i loadCount = loadCount + ((List.range' i n).countP fun i => ReadsLoad img i : Nat) := by
  induction n with
  | zero =>
    intro i loadCount accepted
    by_cases none_ : loadCount = 0
    · rw [validateLoop,if_pos none_] at accepted
      exact absurd accepted (by decide)
    · rw [validateLoop,if_neg none_]
      exact (Int.add_zero loadCount).symm
  | succ n ih =>
    intro i loadCount accepted
    have next := (validateLoop_round img len n i loadCount accepted).2.2
    have rest := ih (i + 1) _ (next ▸ accepted)
    rw [List.range'_succ,next,rest]
    by_cases load : img.word (phOffset img i).toNat = blackPtLoad
    · have reads : ReadsLoad img i := load
      rw [List.countP_cons_of_pos (by simpa using reads),if_pos load]
      omega
    · have other : ¬ReadsLoad img i := load
      rw [List.countP_cons_of_neg (by simpa using other),if_neg load]

theorem place_eq (i : Nat) (inside : i < img.phnum.toNat) :
    (phOffset img i).toNat = entryOffset img i % 2^32 := by
  have bound := img.phnum.isLt
  have size := (phentsize img).isLt
  have product : i * (phentsize img).toNat ≤ 65535 * 65535 := Nat.mul_le_mul (by omega) (by omega)
  rw [phOffset,entryOffset,BitVec.toNat_add,BitVec.toNat_mul,word_toNat i (by omega),BitVec.toNat_setWidth,
    Nat.mod_eq_of_lt (by omega : (phentsize img).toNat < 2^32),
    Nat.mod_eq_of_lt (by omega : i * (phentsize img).toNat < 2^32)]

variable (accepted : 0 < blackElfValidateSegments (some img) len)
include accepted

theorem accepted_loop : 0 < validateLoop img len img.phnum.toNat 0 0 ∧
    blackElfValidateSegments (some img) len = validateLoop img len img.phnum.toNat 0 0 := by
  rw [blackElfValidateSegments] at accepted ⊢
  split at accepted
  · exact absurd accepted (by decide)
  · rename_i long
    rw [if_neg long]
    exact ⟨accepted,rfl⟩

/-- In an accepted image the file has the headers that the parser reads at an address that does not wrap around. -/
theorem isLoad_iff (i : Nat) (inside : i < img.phnum.toNat) :
    IsLoad img len i ↔ ReadsLoad img i ∧ entryOffset img i + 32 < 2^32 := by
  have place := place_eq img i inside
  have loop := (accepted_loop img len accepted).1
  have ends := (validateLoop_accepted img len img.phnum.toNat 0 0 loop i (Nat.zero_le i) (by omega)).1
  have width : (32 : Word).toNat = 32 := rfl
  have whole := len.isLt
  rw [gt_iff_lt,BitVec.lt_def,BitVec.toNat_add,width,place] at ends
  rw [IsLoad,ReadsLoad,place]
  constructor
  · intro both
    obtain ⟨fits,load⟩ := both
    rw [Nat.mod_eq_of_lt (by omega)]
    exact ⟨load,by omega⟩
  · intro both
    obtain ⟨load,straight⟩ := both
    rw [Nat.mod_eq_of_lt (by omega)] at load ends
    exact ⟨by omega,load⟩

theorem accepted_segment (i : Nat) (inside : i < img.phnum.toNat) (load : IsLoad img len i) :
    InFile (img.segmentAt (entryOffset img i)) len ↔
      (img.segmentAt (phOffset img i).toNat).offset.toNat + (img.segmentAt (phOffset img i).toNat).filesz.toNat < 2^32 := by
  have loop := (accepted_loop img len accepted).1
  obtain ⟨reads,straight⟩ := (isLoad_iff img len accepted i inside).mp load
  have place : (phOffset img i).toNat = entryOffset img i := by
    rw [place_eq img i inside]
    exact Nat.mod_eq_of_lt (by omega)
  have checked := (validateLoop_accepted img len img.phnum.toNat 0 0 loop i (Nat.zero_le i) (by omega)).2 reads
  rw [place] at checked ⊢
  obtain ⟨file,memory,user⟩ := checked
  have whole := len.isLt
  rw [BitVec.le_def,BitVec.toNat_add] at file
  constructor
  · intro inFile
    have fits := inFile.file
    omega
  · intro sum
    rw [Nat.mod_eq_of_lt sum] at file
    exact ⟨file,BitVec.le_def.mp memory,BitVec.le_def.mp user⟩

/-- The segments of an accepted image are in its file exactly if no header of type `PT_LOAD` and no segment that it
describes has an end beyond the last address. -/
theorem accepted_in_file : SegmentsInFile img len ↔ ∀ i < img.phnum.toNat, ReadsLoad img i →
    entryOffset img i + 32 < 2^32 ∧
      (img.segmentAt (phOffset img i).toNat).offset.toNat + (img.segmentAt (phOffset img i).toNat).filesz.toNat < 2^32 := by
  have subset (i : Nat) (member : i ∈ List.range img.phnum.toNat) (load : IsLoad img len i) : ReadsLoad img i :=
    ((isLoad_iff img len accepted i (List.mem_range.mp member)).mp load).1
  have counts := countP_eq_iff (List.range img.phnum.toNat) (IsLoad img len) (ReadsLoad img) subset
  obtain ⟨loop,result⟩ := accepted_loop img len accepted
  rw [validateLoop_count img len _ 0 0 loop,Int.zero_add,← List.range_eq_range'] at result
  constructor
  · intro inFile i inside reads
    have same := Int.ofNat_inj.mp (inFile.count.symm.trans result)
    have load := counts.mp same i (List.mem_range.mpr inside) reads
    exact ⟨((isLoad_iff img len accepted i inside).mp load).2,
      (accepted_segment img len accepted i inside load).mp (inFile.segments i inside load)⟩
  · intro straight
    refine ⟨?_,fun i inside load => ?_⟩
    · rw [result,counts.mpr fun i member reads => ?_]
      have inside := List.mem_range.mp member
      exact (isLoad_iff img len accepted i inside).mpr ⟨reads,(straight i inside reads).1⟩
    · have reads := ((isLoad_iff img len accepted i inside).mp load).1
      exact (accepted_segment img len accepted i inside load).mpr (straight i inside reads).2

end Accepted

/-- An image with one segment of two bytes, at an offset of the file. -/
def oneSegment (offset : List Byte) : Image := fun o =>
  (imageHeader 32 1 ++ ([1,0,0,0] ++ offset ++ [0,0x80,0x04,0x08,0,0,0,0,2,0,0,0,2,0,0,0])).getD o 0

theorem accepted_in_file_header : 0 < blackElfValidateSegments (some (oneSegment [0,0,0,0])) 84 ∧
    SegmentsInFile (oneSegment [0,0,0,0]) 84 := by
  have accepted : 0 < blackElfValidateSegments (some (oneSegment [0,0,0,0])) 84 := by decide
  refine ⟨accepted,(accepted_in_file (oneSegment [0,0,0,0]) 84 accepted).mpr fun i inside _ => ?_⟩
  obtain rfl : i = 0 := Nat.lt_one_iff.mp inside
  decide

/-- Two bytes from the offset `0xFFFFFFFF` on are taken for ones that end at 1. -/
theorem not_accepted_in_file : 0 < blackElfValidateSegments (some (oneSegment [0xFF,0xFF,0xFF,0xFF])) 84 ∧
    ¬SegmentsInFile (oneSegment [0xFF,0xFF,0xFF,0xFF]) 84 := by
  refine ⟨by decide,fun inFile => ?_⟩
  have segment := inFile.segments 0 (by decide) ⟨by decide,by decide⟩
  exact absurd segment.file (by decide)

end BlackOS.Parser
