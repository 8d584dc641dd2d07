import Mathlib.Data.BitVec
import Mathlib.Tactic.Common

/-! Words that are mixed with shifted copies of themselves. -/
namespace BlackOS.Library.Xorshift

variable {w : Nat}

/-- Adding to each bit something that depends on bits of lower rank only can be undone. -/
theorem mix_injective (rank : Nat → Nat) (mix : BitVec w → BitVec w)
    (lower : ∀ x y i, (∀ j < w, rank j < rank i → x.getLsbD j = y.getLsbD j) → (mix x).getLsbD i = (mix y).getLsbD i) :
    Function.Injective fun x => x ^^^ mix x := by
  intro x y same
  have bits : ∀ n i, i < w → rank i = n → x.getLsbD i = y.getLsbD i := by
    intro n
    induction n using Nat.strong_induction_on with
    | h n ih =>
      intro i inside place
      have mixed := lower x y i fun j within below => ih (rank j) (place ▸ below) j within rfl
      have bit := congrArg (fun z => z.getLsbD i) same
      simp only [BitVec.getLsbD_xor,mixed] at bit
      exact Bool.xor_left_inj.mp bit
  apply BitVec.eq_of_getLsbD_eq
  intro i inside
  exact bits (rank i) i inside rfl

section Shifts
variable (k : Nat) (positive : 0 < k)
include positive

theorem shiftLeft_injective : Function.Injective fun x : BitVec w => x ^^^ (x <<< k) := by
  refine mix_injective id (· <<< k) fun x y i lower => ?_
  rw [BitVec.getLsbD_shiftLeft,BitVec.getLsbD_shiftLeft]
  by_cases low : i < k
  · rw [decide_eq_true low,Bool.not_true,Bool.and_false,Bool.false_and,Bool.false_and]
  · by_cases inside : i < w
    · rw [lower (i - k) (by omega) (by change i - k < i; omega)]
    · rw [decide_eq_false inside,Bool.false_and,Bool.false_and,Bool.false_and]

theorem ushiftRight_injective : Function.Injective fun x : BitVec w => x ^^^ (x >>> k) := by
  refine mix_injective (fun i => w - i) (· >>> k) fun x y i lower => ?_
  rw [BitVec.getLsbD_ushiftRight,BitVec.getLsbD_ushiftRight]
  by_cases inside : k + i < w
  · exact lower (k + i) inside (by omega)
  · rw [BitVec.getLsbD_of_ge x _ (by omega),BitVec.getLsbD_of_ge y _ (by omega)]

end Shifts

end BlackOS.Library.Xorshift
