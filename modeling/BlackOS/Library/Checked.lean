import Mathlib.Data.BitVec
import Mathlib.Tactic.Common

/-! Arithmetic on words without a result where the sum or the product is none, or the divisor is zero. -/
namespace BlackOS.Library.Checked

variable {w : Nat} (a b : BitVec w)

def add : Option (BitVec w) := if a.toNat + b.toNat < 2^w then some (a + b) else none

def mul : Option (BitVec w) := if a.toNat * b.toNat < 2^w then some (a * b) else none

def div : Option (BitVec w) := if b = 0 then none else some (a / b)

def rem : Option (BitVec w) := if b = 0 then none else some (a % b)

theorem add_eq_some (c : BitVec w) : add a b = some c ↔ a.toNat + b.toNat < 2^w ∧ a + b = c := by
  rw [add,Option.ite_none_right_eq_some,Option.some_inj]

theorem mul_eq_some (c : BitVec w) : mul a b = some c ↔ a.toNat * b.toNat < 2^w ∧ a * b = c := by
  rw [mul,Option.ite_none_right_eq_some,Option.some_inj]

theorem div_some (nonzero : b ≠ 0) : div a b = some (a / b) := if_neg nonzero

theorem rem_some (nonzero : b ≠ 0) : rem a b = some (a % b) := if_neg nonzero

/-- A base and a multiple of a size have a sum if the sum of the numbers is a word. -/
theorem mul_add_eq_some (base c : BitVec w) :
    (mul a b).bind (add base) = some c ↔ base.toNat + a.toNat * b.toNat < 2^w ∧ base + a * b = c := by
  rw [Option.bind_eq_some_iff]
  constructor
  · intro both
    obtain ⟨product,multiplied,added⟩ := both
    obtain ⟨small,rfl⟩ := (mul_eq_some a b product).mp multiplied
    rw [add_eq_some,BitVec.toNat_mul,Nat.mod_eq_of_lt small] at added
    exact added
  · intro both
    obtain ⟨small,value⟩ := both
    have product : a.toNat * b.toNat < 2^w := lt_of_le_of_lt (Nat.le_add_left _ _) small
    refine ⟨a * b,(mul_eq_some a b _).mpr ⟨product,rfl⟩,(add_eq_some _ _ c).mpr ⟨?_,value⟩⟩
    rw [BitVec.toNat_mul,Nat.mod_eq_of_lt product]
    exact small

end BlackOS.Library.Checked
