import Mathlib.Algebra.GroupWithZero.Nat
import Mathlib.Data.List.Basic

/-! A list cut into pieces of given sizes, from the front on. The pieces past the end are short or
empty. -/
namespace BlackOS.Library.Cuts

variable {α : Type}

def cuts : List α → List Nat → List (List α)
  | _,[] => []
  | rest,n::sizes => rest.take n::cuts (rest.drop n) sizes

@[simp] theorem cuts_size (rest : List α) (sizes : List Nat) : (cuts rest sizes).length = sizes.length := by
  induction sizes generalizing rest with
  | nil => rfl
  | cons n sizes ih => rw [cuts,List.length_cons,ih,List.length_cons]

/-- The pieces together are the front of the list, however it was cut. -/
theorem cuts_flatten (rest : List α) (sizes : List Nat) : (cuts rest sizes).flatten = rest.take sizes.sum := by
  induction sizes generalizing rest with
  | nil => rfl
  | cons n sizes ih => rw [cuts,List.flatten_cons,ih,List.sum_cons,List.take_add]

/-- A piece is as long as was asked for, or as what is left. -/
theorem cuts_length (rest : List α) (sizes : List Nat) (i : Nat) (inside : i < (cuts rest sizes).length)
    (asked : i < sizes.length) :
    (cuts rest sizes)[i].length = min sizes[i] (rest.length - (sizes.take i).sum) := by
  induction sizes generalizing rest i with
  | nil => exact absurd asked (Nat.not_lt_zero i)
  | cons n sizes ih =>
    cases i with
    | zero =>
      simp only [cuts,List.getElem_cons_zero,List.length_take,List.take_zero,List.sum_nil,Nat.sub_zero]
    | succ i =>
      simp only [cuts,List.getElem_cons_succ,List.take_succ_cons,List.sum_cons]
      rw [ih (rest.drop n) i _ (Nat.lt_of_succ_lt_succ asked),List.length_drop,Nat.sub_sub]

end BlackOS.Library.Cuts
