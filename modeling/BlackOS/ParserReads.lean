import BlackOS.ParserSegments
import BlackOS.Library.Trace

/-! The headers that the parser of `rust/black_parser` dereferences, in the 32-bit release build. -/
namespace BlackOS.Parser
open BlackOS.Library.Ram BlackOS.Library.Trace BlackOS.Elf

/-- A header behind the pointer to the image. -/
structure Deref where
  offset : Nat
  size : Nat

def deref (o : Word) (size : Nat) : Traced Deref Unit := logged ⟨o.toNat,size⟩ (some ())

def Inside (len : Word) (d : Deref) : Prop := d.offset + d.size ≤ len.toNat

/-- Where `black_elf_analyze` looks for a section header. -/
def shOffset (img : Image) (i : Nat) : Word := img.word 32 + word i * (img.half 46).setWidth 32

/-- `black_header.black_shnum`. -/
def shnum (img : Image) : Half := img.half 48

/-- `BlackElfInfo`. -/
structure Info where
  valid : Int
  entry : Word
  phnum : Half
  shnum : Half
  type : Half
  machine : Half
  textSize : Word
  dataSize : Word
  bssSize : Word

def verifyTraced (data : Option Image) (len : Word) : Traced Deref Int :=
  match data with
  | none => return -1
  | some img => do
    if len < 52 then return -1
    deref 0 52
    if img 0 ≠ 0x7F ∨ img 1 ≠ 0x45 ∨ img 2 ≠ 0x4C ∨ img 3 ≠ 0x46 then return -2
    if img 4 ≠ 1 then return -3
    if img 5 ≠ 1 then return -4
    if img.half 18 ≠ 3 then return -5
    if img.phoff > len then return -6
    if img.word 32 > len then return -7
    if img.phoff + img.phnum.setWidth 32 * (phentsize img).setWidth 32 > len then return -8
    return 0

def loadSegmentTraced (data : Option Image) (len : Word) (idx : Half) : Traced Deref (Except Int Load) :=
  match data with
  | none => return .error (-1)
  | some img => do
    if len < 52 then return .error (-1)
    deref 0 52
    if idx ≥ img.phnum then return .error (-2)
    let o := phOffset img idx.toNat
    if o + 32 > len then return .error (-3)
    deref o 32
    if img.word o.toNat ≠ blackPtLoad then return .error (-4)
    return .ok (loadOf (img.segmentAt o.toNat))

/-- A round of the loop of `black_elf_analyze`. -/
def analyzeSection (img : Image) (len : Word) (info : Info) (i : Nat) : Traced Deref Info := do
  let o := shOffset img i
  if o + 40 > len then return info
  deref o 40
  let type := img.word (o.toNat + 4)
  let flags := img.word (o.toNat + 8)
  let size := img.word (o.toNat + 20)
  if type = 1 ∧ flags &&& 4 ≠ 0 then return {info with textSize := info.textSize + size}
  if type = 1 ∧ flags &&& 1 ≠ 0 then return {info with dataSize := info.dataSize + size}
  if type = 8 then return {info with bssSize := info.bssSize + size}
  return info

def blackElfAnalyze (data : Option Image) (len : Word) (info : Info) : Traced Deref (Int × Info) :=
  let info := {info with valid := 0,textSize := 0,dataSize := 0,bssSize := 0}
  match data with
  | none => return (-1,info)
  | some img => do
    let verify ← verifyTraced (some img) len
    if verify ≠ 0 then return (verify,info)
    deref 0 52
    let info ← (List.range (shnum img).toNat).foldlM (analyzeSection img len) {info with
      entry := img.entry
      phnum := img.phnum
      shnum := shnum img
      type := img.half 16
      machine := img.half 18}
    return (0,{info with valid := 1})

def validateLoopTraced (img : Image) (len : Word) : Nat → Nat → Int → Traced Deref Int
  | 0,_,loadCount => return if loadCount = 0 then -6 else loadCount
  | n+1,i,loadCount => do
    let o := phOffset img i
    if o + 32 > len then return -2
    deref o 32
    let type := img.word o.toNat
    let ph := img.segmentAt o.toNat
    if type = blackPtNull then validateLoopTraced img len n (i + 1) loadCount
    else if type = blackPtLoad then
      if ph.offset + ph.filesz > len then return -3
      else if ph.memsz < ph.filesz then return -4
      else if ph.vaddr < 0x08048000 then return -5
      else validateLoopTraced img len n (i + 1) (loadCount + 1)
    else validateLoopTraced img len n (i + 1) loadCount

def validateSegmentsTraced (data : Option Image) (len : Word) : Traced Deref Int :=
  match data with
  | none => return -1
  | some img => do
    if len < 52 then return -1
    deref 0 52
    validateLoopTraced img len img.phnum.toNat 0 0

section Results
variable (img : Image) (len : Word)

theorem deref_result {α : Type} (o : Word) (size : Nat) (f : Unit → Traced Deref α) :
    (deref o size >>= f).result = (f ()).result := by
  rw [result_bind]
  rfl

theorem verifyTraced_result (data : Option Image) :
    (verifyTraced data len).result = some (blackElfVerifyRust data len) := by
  cases data with
  | none => rfl
  | some img =>
    rw [verifyTraced,blackElfVerifyRust]
    simp only [apply_ite Traced.result,apply_ite some,deref_result,result_pure]

theorem loadSegmentTraced_result (data : Option Image) (idx : Half) :
    (loadSegmentTraced data len idx).result = some (blackElfGetLoadSegment data len idx) := by
  cases data with
  | none => rfl
  | some img =>
    rw [loadSegmentTraced,blackElfGetLoadSegment]
    simp only [apply_ite Traced.result,apply_ite some,deref_result,result_pure]

theorem validateLoopTraced_result (n : Nat) : ∀ (i : Nat) (loadCount : Int),
    (validateLoopTraced img len n i loadCount).result = some (validateLoop img len n i loadCount) := by
  induction n with
  | zero => exact fun i loadCount => rfl
  | succ n ih =>
    intro i loadCount
    rw [validateLoopTraced,validateLoop]
    simp only [apply_ite Traced.result,apply_ite some,deref_result,result_pure,ih]

theorem validateSegmentsTraced_result (data : Option Image) :
    (validateSegmentsTraced data len).result = some (blackElfValidateSegments data len) := by
  cases data with
  | none => rfl
  | some img =>
    rw [validateSegmentsTraced,blackElfValidateSegments]
    simp only [apply_ite Traced.result,apply_ite some,deref_result,result_pure,validateLoopTraced_result]

end Results

/-- What `black_elf_verify_rust` accepts of an image of 52 bytes or more. -/
structure Verified (img : Image) (len : Word) : Prop where
  magic : img 0 = 0x7F ∧ img 1 = 0x45 ∧ img 2 = 0x4C ∧ img 3 = 0x46
  bits : img 4 = 1
  order : img 5 = 1
  machine : img.half 18 = 3
  programs : img.phoff ≤ len
  sections : img.word 32 ≤ len
  table : img.phoff + img.phnum.setWidth 32 * (phentsize img).setWidth 32 ≤ len

/-- The headers that the functions may dereference are inside the image, for any index and any structure to fill. -/
structure ReadsInside (data : Option Image) (len : Word) : Prop where
  verify : Only (Inside len) (verifyTraced data len)
  loadSegment : ∀ idx, Only (Inside len) (loadSegmentTraced data len idx)
  analyze : ∀ info, Only (Inside len) (blackElfAnalyze data len info)
  validateSegments : Only (Inside len) (validateSegmentsTraced data len)

section Reads
variable (img : Image) (len : Word)

theorem verify_iff (long : ¬len < 52) : blackElfVerifyRust (some img) len = 0 ↔ Verified img len := by
  rw [blackElfVerifyRust,if_neg long]
  constructor
  · intro zero
    split_ifs at zero with magic bits order machine programs sections table
    rw [not_or,not_or,not_or] at magic
    exact ⟨⟨not_not.mp magic.1,not_not.mp magic.2.1,not_not.mp magic.2.2.1,not_not.mp magic.2.2.2⟩,not_not.mp bits,
      not_not.mp order,not_not.mp machine,BitVec.not_lt.mp programs,BitVec.not_lt.mp sections,BitVec.not_lt.mp table⟩
  · intro verified
    obtain ⟨⟨first,second,third,fourth⟩,bits,order,machine,programs,sections,table⟩ := verified
    have magic : ¬(img 0 ≠ 0x7F ∨ img 1 ≠ 0x45 ∨ img 2 ≠ 0x4C ∨ img 3 ≠ 0x46) := by
      rw [first,second,third,fourth]
      decide
    rw [if_neg magic,if_neg (not_not_intro bits),if_neg (not_not_intro order),if_neg (not_not_intro machine),
      if_neg (BitVec.not_lt.mpr programs),if_neg (BitVec.not_lt.mpr sections),if_neg (BitVec.not_lt.mpr table)]

/-- The check of a header's end is right but for an end that wraps around, which it takes for one at the start. -/
theorem end_inside (long : ¬len < 52) (o size : Word) (small : size ≤ 52) :
    (¬o + size > len → Inside len ⟨o.toNat,size.toNat⟩) ↔ o.toNat + size.toNat < 2^32 := by
  have start := o.isLt
  have whole := len.isLt
  rw [gt_iff_lt,BitVec.lt_def,BitVec.toNat_add]
  rw [BitVec.lt_def] at long
  rw [BitVec.le_def] at small
  change (_ → o.toNat + size.toNat ≤ len.toNat) ↔ _
  have width : (52 : Word).toNat = 52 := rfl
  omega

theorem only_deref {α : Type} (P : Deref → Prop) (o : Word) (size : Nat) (f : Unit → Traced Deref α) :
    Only P (deref o size >>= f) ↔ P ⟨o.toNat,size⟩ ∧ Only P (f ()) := by
  rw [only_bind,deref,only_logged]
  exact and_congr_right fun _ => ⟨fun each => each () rfl,fun only _ _ => only⟩

theorem header_inside (long : ¬len < 52) : Inside len ⟨(0 : Word).toNat,52⟩ := by
  change 0 + 52 ≤ len.toNat
  bv_omega

theorem verify_inside : Only (Inside len) (verifyTraced (some img) len) := by
  rw [verifyTraced]
  simp only [only_ite,only_deref,only_return,implies_true,true_and,and_true]
  exact header_inside len

theorem loadSegment_inside (idx : Half) : Only (Inside len) (loadSegmentTraced (some img) len idx) ↔
    (¬len < 52 → idx < img.phnum → (phOffset img idx.toNat).toNat + 32 < 2^32) := by
  rw [loadSegmentTraced]
  simp only [only_ite,only_deref,only_return,implies_true,true_and,and_true]
  refine forall_congr' fun long => ?_
  rw [and_iff_right (header_inside len long)]
  refine imp_congr BitVec.not_le ?_
  exact end_inside len long _ 32 (by decide)

theorem analyzeSection_inside (long : ¬len < 52) (info : Info) (i : Nat) :
    Only (Inside len) (analyzeSection img len info i) ↔ (shOffset img i).toNat + 40 < 2^32 := by
  rw [analyzeSection]
  simp only [only_ite,only_deref,only_return,implies_true,true_and,and_true]
  exact end_inside len long _ 40 (by decide)

theorem analyzeSection_succeeds (info : Info) (i : Nat) : (analyzeSection img len info i).result.isSome := by
  rw [analyzeSection]
  simp only [apply_ite Traced.result,deref_result,result_pure,apply_ite Option.isSome,Option.isSome_some,ite_self]

theorem analyze_inside (info : Info) : Only (Inside len) (blackElfAnalyze (some img) len info) ↔
    (¬len < 52 → Verified img len → ∀ i < (shnum img).toNat, (shOffset img i).toNat + 40 < 2^32) := by
  rw [blackElfAnalyze]
  dsimp only
  rw [only_bind,and_iff_right (verify_inside img len),verifyTraced_result]
  by_cases long : len < 52
  · refine iff_of_true (fun verify code => ?_) fun impossible => absurd long impossible
    rw [blackElfVerifyRust,if_pos long] at code
    rw [← Option.some.inj code,if_pos (by decide)]
    exact only_pure _ _
  · have sections (info : Info) : Only (Inside len) ((List.range (shnum img).toNat).foldlM (analyzeSection img len) info) ↔
        ∀ i < (shnum img).toNat, (shOffset img i).toNat + 40 < 2^32 := by
      rw [only_foldlM_iff (Inside len) (fun i => (shOffset img i).toNat + 40 < 2^32) _ _
        (fun info i _ => analyzeSection_succeeds img len info i)
        (fun info i _ => analyzeSection_inside img len long info i)]
      exact forall_congr' fun i => imp_congr_left List.mem_range
    rw [← verify_iff img len long,forall_prop_of_true long]
    simp only [Option.some_inj,forall_eq',only_ite,only_deref,only_return,implies_true,true_and,not_not,ne_eq,
      and_iff_right (header_inside len long)]
    simp only [only_bind,sections,only_return,implies_true,and_true]

theorem validateLoop_inside (long : ¬len < 52) (n : Nat) : ∀ (i : Nat) (loadCount : Int),
    (∀ j, i ≤ j → j < i + n → (phOffset img j).toNat + 32 < 2^32) →
      Only (Inside len) (validateLoopTraced img len n i loadCount) := by
  induction n with
  | zero => exact fun i loadCount _ => only_pure _ _
  | succ n ih =>
    intro i loadCount straight
    have here := (end_inside len long (phOffset img i) 32 (by decide)).mpr (straight i (Nat.le_refl i) (by omega))
    have rest (loadCount : Int) : Only (Inside len) (validateLoopTraced img len n (i + 1) loadCount) :=
      ih (i + 1) loadCount fun j low high => straight j (by omega) (by omega)
    rw [validateLoopTraced]
    simp only [only_ite,only_deref,only_return,rest,implies_true,true_and,and_true]
    exact here

/-- The parser dereferences no header outside an image exactly if no program header has an end beyond the last address
and, in an image that is verified, no section header has. -/
theorem reads_inside_iff :
    ((verifyTraced (some img) len).result = some (blackElfVerifyRust (some img) len) ∧
      (∀ idx, (loadSegmentTraced (some img) len idx).result = some (blackElfGetLoadSegment (some img) len idx)) ∧
      (validateSegmentsTraced (some img) len).result = some (blackElfValidateSegments (some img) len)) ∧
    (ReadsInside (some img) len ↔ (52 ≤ len.toNat →
      (∀ i < img.phnum.toNat, (phOffset img i).toNat + 32 < 2^32) ∧
      (Verified img len → ∀ i < (shnum img).toNat, (shOffset img i).toNat + 40 < 2^32))) := by
  have reaches : ¬len < 52 ↔ 52 ≤ len.toNat := by bv_omega
  rw [← reaches]
  refine ⟨⟨verifyTraced_result len (some img),loadSegmentTraced_result len (some img),
    validateSegmentsTraced_result len (some img)⟩,?_⟩
  constructor
  · intro inside long
    refine ⟨fun i below => ?_,(analyze_inside img len ⟨0,0,0,0,0,0,0,0,0⟩).mp (inside.analyze _) long⟩
    have index : (BitVec.ofNat 16 i).toNat = i := by
      have bound := img.phnum.isLt
      rw [BitVec.toNat_ofNat]
      omega
    have straight := (loadSegment_inside img len (BitVec.ofNat 16 i)).mp (inside.loadSegment _) long
    rw [BitVec.lt_def,index] at straight
    exact straight below
  · intro straight
    refine ⟨verify_inside img len,fun idx => ?_,fun info => ?_,?_⟩
    · exact (loadSegment_inside img len idx).mpr fun long below => (straight long).1 idx.toNat (BitVec.lt_def.mp below)
    · exact (analyze_inside img len info).mpr fun long => (straight long).2
    · rw [validateSegmentsTraced]
      simp only [only_ite,only_deref,only_return,implies_true,true_and]
      intro long
      refine ⟨header_inside len long,validateLoop_inside img len long _ 0 0 fun j _ below => ?_⟩
      exact (straight long).1 j (by omega)

end Reads

/-- An ELF header with one program header at the offset `0xFFFFFFE0`: its end is taken for the address 0. -/
def wrapping : Image := fun o => [0x7F,0x45,0x4C,0x46,1,1,0,0,0,0,0,0,0,0,0,0,2,0,3,0,0,0,0,0,0,0,0,0,0xE0,0xFF,0xFF,0xFF,
  0,0,0,0,0,0,0,0,0,0,32,0,1,0,0,0,0,0,0,0].getD o 0

theorem not_reads_inside : ¬ReadsInside (some wrapping) 52 := by
  intro inside
  have straight := (loadSegment_inside wrapping 52 0).mp (inside.loadSegment 0) (by decide) (by decide)
  exact absurd straight (by decide)

end BlackOS.Parser
