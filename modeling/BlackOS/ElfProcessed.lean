import BlackOS.ElfTouches
import BlackOS.ParserSegments

/-! The segments that a load processes. The loop is followed with a log of the headers of type
`PT_LOAD` as they are when their rounds begin, and the results are those of the loader itself. -/
namespace BlackOS.Elf
open BlackOS.Library.Ram BlackOS.Library.Trace BlackOS.Vmm
open BlackOS.Parser (loadOf walked walkOffset)

/-- The header of a round, if it is of type `PT_LOAD`. -/
def readSegment (s : Machine) (phdr : Word) : Option Segment := do
  if (← loadWord s phdr) ≠ blackPtLoad then none
  let vaddr ← loadWord s (phdr + 8)
  let memsz ← loadWord s (phdr + 20)
  let filesz ← loadWord s (phdr + 16)
  let offset ← loadWord s (phdr + 4)
  let flags ← loadWord s (phdr + 24)
  return ⟨vaddr,memsz,filesz,offset,flags⟩

section Rounds
variable (own : Nat → Owner) (s : Machine) (data size : Word) (img : Image)
  (lies : Lies own s data size img)
include lies

theorem readSegment_image (o : Nat) (inside : o + 32 ≤ size.toNat) :
    readSegment s (data + word o) = if img.word o = blackPtLoad then some (img.segmentAt o) else none := by
  obtain ⟨type,offset,vaddr,filesz,memsz,flags⟩ := header_image own s data size img lies o inside
  simp only [readSegment,type,vaddr,memsz,filesz,offset,flags,Option.bind_eq_bind,Option.bind_some]
  by_cases load : img.word o = blackPtLoad
  · rw [if_neg (not_not_intro load),if_pos load]
    rfl
  · rw [if_pos load,if_neg load]
    rfl

variable (header : 52 ≤ size.toNat) (i fuel : Nat)
include header

end Rounds

section Loop
variable (data size : Word) (img : Image) (header : 52 ≤ size.toNat)
  (table : img.phoff.toNat + 32 * img.phnum.toNat ≤ size.toNat)
include header table

variable (own : Nat → Owner) (s : Machine) (space : Space own s) (lies : Lies own s data size img)
include space lies

end Loop

end BlackOS.Elf

namespace BlackOS.Parser
open BlackOS.Library.Ram BlackOS.Vmm BlackOS.Elf

end BlackOS.Parser
