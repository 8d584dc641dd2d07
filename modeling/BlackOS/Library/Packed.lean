import Mathlib.Data.List.Nodup
import Mathlib.Logic.Function.Basic

/-! A sequence kept at the start of an array, with a count: an element is appended at the end, and the
loop that takes one out moves the later ones down by one slot. -/
namespace BlackOS.Library.Packed

variable {α : Type}

def contents (slots : Nat → α) (count : Nat) : List α := (List.range count).map slots

/-- `n` rounds of the loop `slots[i] = slots[i + 1]`, from slot `i` on. -/
def shift (slots : Nat → α) (i : Nat) : Nat → Nat → α
  | 0 => slots
  | n+1 => shift (Function.update slots i (slots (i + 1))) (i + 1) n

@[simp] theorem contents_length (slots : Nat → α) (count : Nat) : (contents slots count).length = count := by
  rw [contents,List.length_map,List.length_range]

@[simp] theorem contents_getElem (slots : Nat → α) (count k : Nat) (below : k < (contents slots count).length) :
    (contents slots count)[k] = slots k := by
  simp only [contents,List.getElem_map,List.getElem_range]

theorem contents_succ (slots : Nat → α) (count : Nat) :
    contents slots (count + 1) = contents slots count ++ [slots count] := by
  rw [contents,List.range_succ,List.map_append,List.map_singleton,contents]

theorem contents_append (slots : Nat → α) (count : Nat) (x : α) :
    contents (Function.update slots count x) (count + 1) = contents slots count ++ [x] := by
  rw [contents_succ,Function.update_self]
  congr 1
  apply List.map_congr_left
  intro k member
  exact Function.update_of_ne (Nat.ne_of_lt (List.mem_range.mp member)) x slots

/-- The slots from `i` on get the elements after them; the others keep theirs. -/
theorem shift_apply (slots : Nat → α) (i n k : Nat) :
    shift slots i n k = if i ≤ k ∧ k < i + n then slots (k + 1) else slots k := by
  induction n generalizing slots i with
  | zero =>
    rw [shift,if_neg fun both => absurd both.2 (Nat.not_lt.mpr both.1)]
  | succ n ih =>
    rw [shift,ih]
    by_cases first : k = i
    · rw [first,if_neg fun both => Nat.not_succ_le_self i both.1,if_pos ⟨Nat.le_refl i,by omega⟩,
        Function.update_self]
    · rw [Function.update_of_ne first]
      by_cases inside : i + 1 ≤ k ∧ k < i + 1 + n
      · rw [if_pos inside,if_pos ⟨by omega,by omega⟩,Function.update_of_ne (by omega)]
      · rw [if_neg inside,if_neg fun both => inside ⟨by omega,by omega⟩]

theorem shift_contents (slots : Nat → α) (i n : Nat) :
    contents (shift slots i n) (i + n) = (contents slots (i + n + 1)).eraseIdx i := by
  apply List.ext_getElem
  · rw [List.length_eraseIdx_of_lt (by rw [contents_length]; omega),contents_length,contents_length]
    rfl
  · intro k left right
    rw [contents_length] at left
    rw [contents_getElem,shift_apply,List.getElem_eraseIdx]
    by_cases before : k < i
    · rw [dif_pos before,if_neg fun both => absurd both.1 (by omega),contents_getElem]
    · rw [dif_neg before,if_pos ⟨by omega,left⟩,contents_getElem]

section Search
variable [DecidableEq α] (slots : Nat → α) (count : Nat) (x : α)

theorem search_none : (List.range count).find? (fun i => slots i == x) = none ↔ x ∉ contents slots count := by
  simp [contents]

/-- The search finds the place of an element that stands once. -/
theorem search_some (once : (contents slots count).Nodup) (i : Nat)
    (found : (List.range count).find? (fun i => slots i == x) = some i) :
    i < count ∧ slots i = x ∧ (contents slots count).eraseIdx i = (contents slots count).erase x := by
  have inside : i < count := List.mem_range.mp (List.mem_of_find?_eq_some found)
  have hit := List.find?_some found
  rw [beq_iff_eq] at hit
  refine ⟨inside,hit,?_⟩
  rw [← once.erase_getElem i (by rw [contents_length]; exact inside),contents_getElem,hit]

end Search

end BlackOS.Library.Packed
