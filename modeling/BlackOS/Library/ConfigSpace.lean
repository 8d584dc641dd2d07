import BlackOS.Library.Ram

/-! The configuration registers of the functions of a bus, which stand behind one register for the address and one for the
data. -/
namespace BlackOS.Library.ConfigSpace
open BlackOS.Library.Ram

/-- The registers of a function. -/
structure Function where
  regs : Nat → Word

/-- Functions are named by bus, slot and number. -/
structure Host where
  address : Word
  functions : Nat → Nat → Nat → Option Function

def allOnes : Word := 0xFFFFFFFF

/-- Where there is no function all bits are read as ones. -/
def Host.read (h : Host) (bus slot func reg : Nat) : Word :=
  match h.functions bus slot func with
  | none => allOnes
  | some f => f.regs reg

/-- The parts of the address register: the enable bit, the bus, the slot, the function and the register. -/
def enabled (address : Word) : Bool := address.toNat / 2^31 = 1

def busOf (address : Word) : Nat := address.toNat / 2^16 % 2^8

def slotOf (address : Word) : Nat := address.toNat / 2^11 % 2^5

def funcOf (address : Word) : Nat := address.toNat / 2^8 % 2^3

def regOf (address : Word) : Nat := address.toNat / 2^2 % 2^6

def Host.outAddress (h : Host) (v : Word) : Host := {h with address := v}

def Host.inData (h : Host) : Word :=
  if enabled h.address then h.read (busOf h.address) (slotOf h.address) (funcOf h.address) (regOf h.address) else allOnes

theorem inData_enabled (h : Host) (v : Word) (on : enabled v = true) :
    (h.outAddress v).inData = h.read (busOf v) (slotOf v) (funcOf v) (regOf v) := by
  change (if enabled v then h.read (busOf v) (slotOf v) (funcOf v) (regOf v) else allOnes) = _
  rw [if_pos on]

section Named
variable (h : Host) (bus slot func reg : Nat) (b : bus < 2^8) (s : slot < 2^5) (f : func < 2^3) (r : reg < 2^6)

def addressOf : Word := word (2^31 + bus * 2^16 + slot * 2^11 + func * 2^8 + reg * 2^2)

include b s f r

theorem addressOf_toNat : (addressOf bus slot func reg).toNat = 2^31 + bus * 2^16 + slot * 2^11 + func * 2^8 + reg * 2^2 :=
  word_toNat _ (by omega)

theorem addressOf_parts : enabled (addressOf bus slot func reg) = true ∧ busOf (addressOf bus slot func reg) = bus ∧
    slotOf (addressOf bus slot func reg) = slot ∧ funcOf (addressOf bus slot func reg) = func ∧
    regOf (addressOf bus slot func reg) = reg := by
  have number := addressOf_toNat bus slot func reg b s f r
  unfold enabled busOf slotOf funcOf regOf
  rw [number]
  refine ⟨decide_eq_true ?_,?_,?_,?_,?_⟩
  all_goals omega

theorem inData_named : (h.outAddress (addressOf bus slot func reg)).inData = h.read bus slot func reg := by
  obtain ⟨on,place⟩ := addressOf_parts bus slot func reg b s f r
  rw [inData_enabled h _ on,place.1,place.2.1,place.2.2.1,place.2.2.2]

end Named

theorem read_congr (h h' : Host) (same : h.functions = h'.functions) : h.read = h'.read := by
  funext bus slot func reg
  rw [Host.read,Host.read,same]

end BlackOS.Library.ConfigSpace
