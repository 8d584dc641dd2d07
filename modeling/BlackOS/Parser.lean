import BlackOS.ElfImage

/-! `black_elf_validate_segments` of `rust/black_parser`, in the 32-bit release build: `usize`
has 32 bits and sums wrap. A null pointer is `none`. -/
namespace BlackOS.Parser
open BlackOS.Library.Ram BlackOS.Elf

def blackPtNull : Word := 0

/-- `black_header.black_phentsize`. -/
def phentsize (img : Image) : Half := img.half 42

/-- Where the parser looks for a program header. -/
def phOffset (img : Image) (i : Nat) : Word := img.phoff + word i * (phentsize img).setWidth 32

def validateLoop (img : Image) (len : Word) : Nat → Nat → Int → Int
  | 0,_,loadCount => if loadCount = 0 then -6 else loadCount
  | n+1,i,loadCount =>
    let o := phOffset img i
    if o + 32 > len then -2
    else
      let type := img.word o.toNat
      let ph := img.segmentAt o.toNat
      if type = blackPtNull then validateLoop img len n (i + 1) loadCount
      else if type = blackPtLoad then
        if ph.offset + ph.filesz > len then -3
        else if ph.memsz < ph.filesz then -4
        else if ph.vaddr < 0x08048000 then -5
        else validateLoop img len n (i + 1) (loadCount + 1)
      else validateLoop img len n (i + 1) loadCount

def blackElfValidateSegments (data : Option Image) (len : Word) : Int :=
  match data with
  | none => -1
  | some img => if len < 52 then -1 else validateLoop img len img.phnum.toNat 0 0

/-- The segments of type `PT_LOAD` as the parser finds them. -/
def segments (img : Image) : List Segment :=
  (((List.range img.phnum.toNat).map fun i => (phOffset img i).toNat).filter fun o =>
    img.word o = blackPtLoad).map img.segmentAt

/-- The checks that an accepted segment has passed. -/
structure Checked (x : Segment) (len : Word) : Prop where
  file : x.offset + x.filesz ≤ len
  memory : x.filesz ≤ x.memsz
  user : 0x08048000 ≤ x.vaddr

/-- A round that the loop of an accepted image has taken. -/
theorem validateLoop_round (img : Image) (len : Word) (n i : Nat) (loadCount : Int)
    (accepted : 0 < validateLoop img len (n + 1) i loadCount) :
    ¬phOffset img i + 32 > len ∧ (img.word (phOffset img i).toNat = blackPtLoad →
      Checked (img.segmentAt (phOffset img i).toNat) len) ∧
      validateLoop img len (n + 1) i loadCount = validateLoop img len n (i + 1)
        (if img.word (phOffset img i).toNat = blackPtLoad then loadCount + 1 else loadCount) := by
  rw [validateLoop] at accepted ⊢
  dsimp only at accepted ⊢
  by_cases short : phOffset img i + 32 > len
  · rw [if_pos short] at accepted
    exact absurd accepted (by decide)
  · rw [if_neg short] at accepted ⊢
    by_cases load : img.word (phOffset img i).toNat = blackPtLoad
    · have used : ¬img.word (phOffset img i).toNat = blackPtNull := by
        rw [load]
        decide
      rw [if_neg used,if_pos load] at accepted ⊢
      by_cases file : (img.segmentAt (phOffset img i).toNat).offset +
          (img.segmentAt (phOffset img i).toNat).filesz > len
      · rw [if_pos file] at accepted
        exact absurd accepted (by decide)
      · rw [if_neg file] at accepted ⊢
        by_cases memory : (img.segmentAt (phOffset img i).toNat).memsz <
            (img.segmentAt (phOffset img i).toNat).filesz
        · rw [if_pos memory] at accepted
          exact absurd accepted (by decide)
        · rw [if_neg memory] at accepted ⊢
          by_cases user : (img.segmentAt (phOffset img i).toNat).vaddr < 0x08048000
          · rw [if_pos user] at accepted
            exact absurd accepted (by decide)
          · rw [if_neg user,if_pos load]
            exact ⟨short,fun _ => ⟨BitVec.not_lt.mp file,BitVec.not_lt.mp memory,BitVec.not_lt.mp user⟩,rfl⟩
    · rw [if_neg load,if_neg load,ite_self]
      exact ⟨short,fun isLoad => absurd isLoad load,rfl⟩

/-- The headers of an accepted image end inside it, as the parser computes their ends, and its
segments have passed the checks. -/
theorem validateLoop_accepted (img : Image) (len : Word) (n : Nat) :
    ∀ (i : Nat) (loadCount : Int), 0 < validateLoop img len n i loadCount → ∀ j, i ≤ j → j < i + n →
      ¬phOffset img j + 32 > len ∧ (img.word (phOffset img j).toNat = blackPtLoad →
        Checked (img.segmentAt (phOffset img j).toNat) len) := by
  induction n with
  | zero =>
    intro i loadCount _ j low high
    omega
  | succ n ih =>
    intro i loadCount accepted j low high
    obtain ⟨inside,checked,rest⟩ := validateLoop_round img len n i loadCount accepted
    by_cases here : j = i
    · rw [here]
      exact ⟨inside,checked⟩
    · exact ih (i + 1) _ (rest ▸ accepted) j (by omega) (by omega)

end BlackOS.Parser
