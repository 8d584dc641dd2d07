import BlackOS.Parser
import Mathlib.Data.List.GetD

/-! The program headers as the loader of `kernel/elf` and the parser of `rust/black_parser` walk
them. The loader steps by the size of its own header type, the parser by `black_phentsize`. -/
namespace BlackOS.Parser
open BlackOS.Library.Ram BlackOS.Elf

/-- Address, sizes and file offset of a segment. -/
structure Load where
  vaddr : Word
  memsz : Word
  filesz : Word
  offset : Word
  deriving DecidableEq

def loadOf (x : Segment) : Load := ⟨x.vaddr,x.memsz,x.filesz,x.offset⟩

def blackElfVerifyRust (data : Option Image) (len : Word) : Int :=
  match data with
  | none => -1
  | some img =>
    if len < 52 then -1
    else if img 0 ≠ 0x7F ∨ img 1 ≠ 0x45 ∨ img 2 ≠ 0x4C ∨ img 3 ≠ 0x46 then -2
    else if img 4 ≠ 1 then -3
    else if img 5 ≠ 1 then -4
    else if img.half 18 ≠ 3 then -5
    else if img.phoff > len then -6
    else if img.word 32 > len then -7
    else if img.phoff + img.phnum.setWidth 32 * (phentsize img).setWidth 32 > len then -8
    else 0

/-- `black_elf_get_load_segment`: the four values, or the code of the failure. -/
def blackElfGetLoadSegment (data : Option Image) (len : Word) (idx : Half) : Except Int Load :=
  match data with
  | none => .error (-1)
  | some img =>
    if len < 52 then .error (-1)
    else if idx ≥ img.phnum then .error (-2)
    else
      let o := phOffset img idx.toNat
      if o + 32 > len then .error (-3)
      else if img.word o.toNat ≠ blackPtLoad then .error (-4)
      else .ok (loadOf (img.segmentAt o.toNat))

/-- The segments that the parser hands out, from the first index to the last. -/
def parsed (img : Image) (len : Word) : List Load :=
  (List.range img.phnum.toNat).filterMap fun i => (blackElfGetLoadSegment (some img) len (BitVec.ofNat 16 i)).toOption

/-- Where `black_phdrs[i]` lies in the image. -/
def walkOffset (img : Image) (i : Nat) : Word := img.phoff + word (32 * i)

/-- The segments that the loop of `black_elf_load` processes, in their order. -/
def walked (img : Image) : List Load :=
  (((List.range img.phnum.toNat).map fun i => (walkOffset img i).toNat).filter fun o =>
    img.word o = blackPtLoad).map fun o => loadOf (img.segmentAt o)

/-- An image header with the given size and number of program headers. -/
def imageHeader (e n : Half) : List Byte :=
  [0x7F,0x45,0x4C,0x46,1,1,0,0,0,0,0,0,0,0,0,0,2,0,3,0,0,0,0,0,0,0,0,0,52,0,0,0,0,0,0,0,0,0,0,0,0,0,
    e.setWidth 8,(e >>> 8).setWidth 8,n.setWidth 8,(n >>> 8).setWidth 8,0,0,0,0,0,0]

/-- The start of a program header of type `PT_LOAD`, up to its address. -/
def firstHeader : List Byte := [1,0,0,0,0,0,0,0,0,0x80,0x04,0x08]

def start (e n : Half) : List Byte := imageHeader e n ++ firstHeader

/-- A header that the loader walks to and the parser does not. -/
def missed (e n : Half) : Nat := if e.toNat < 32 then 52 + 32 * (n.toNat - 1) else 52 + 32

section Bent
variable (e n : Half) (many : 2 ≤ n.toNat)
include many

variable (stride : e ≠ 32)
include stride

end Bent

end BlackOS.Parser
