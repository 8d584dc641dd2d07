import Mathlib.Data.List.Basic
import Mathlib.Data.Nat.ModEq
import Mathlib.Logic.Function.Basic

/-! A queue kept in a circular array: the elements from a start slot on, wrapping
around at the end of the array, with a count or with a second cursor. -/
namespace BlackOS.Library.Ring

variable {α : Type}

/-- The `count` elements from slot `start` on, in an array of `n` slots. -/
def slice (n : Nat) (slots : Nat → α) (start count : Nat) : List α :=
  (List.range count).map (fun k => slots ((start + k) % n))

@[simp] theorem slice_length (n : Nat) (slots : Nat → α) (start count : Nat) :
    (slice n slots start count).length = count := by
  simp [slice]

theorem slice_zero (n : Nat) (slots : Nat → α) (start : Nat) : slice n slots start 0 = [] := rfl

theorem slice_pop (n : Nat) (slots : Nat → α) (start count : Nat) (inside : start < n) :
    slice n slots start (count + 1) = slots start::slice n slots ((start + 1) % n) count := by
  unfold slice
  rw [List.range_succ_eq_map,List.map_cons,List.map_map,Nat.add_zero,Nat.mod_eq_of_lt inside]
  congr 1
  apply List.map_congr_left
  intro k _
  have shift : ((start + 1) % n + k) % n = (start + (k + 1)) % n := by
    rw [Nat.mod_add_mod]
    congr 1
    omega
  simp only [Function.comp_apply,shift]

theorem slots_apart (n start k count : Nat) (before : k < count) (room : count < n) :
    (start + k) % n ≠ (start + count) % n := by
  intro same
  have cancelled : k % n = count % n := Nat.ModEq.add_left_cancel' start same
  rw [Nat.mod_eq_of_lt (by omega),Nat.mod_eq_of_lt room] at cancelled
  omega

theorem slice_push (n : Nat) (slots : Nat → α) (start count : Nat) (x : α) (room : count < n) :
    slice n (Function.update slots ((start + count) % n) x) start (count + 1) =
      slice n slots start count ++ [x] := by
  unfold slice
  rw [List.range_succ,List.map_append,List.map_singleton,Function.update_self]
  congr 1
  apply List.map_congr_left
  intro k member
  exact Function.update_of_ne (slots_apart n start k count (List.mem_range.mp member) room) x slots

theorem next_slot (n i : Nat) (inside : i < n) : (i + 1) % n = if i + 1 = n then 0 else i + 1 := by
  by_cases last : i + 1 = n
  · rw [if_pos last,last,Nat.mod_self]
  · rw [if_neg last,Nat.mod_eq_of_lt (by omega)]

/-- The number of slots from one cursor up to another. -/
def distance (n first last : Nat) : Nat := if first ≤ last then last - first else last + n - first

section Cursors
variable (n first last : Nat) (low : first < n) (high : last < n)

theorem distance_self : distance n first first = 0 := by
  rw [distance,if_pos (Nat.le_refl first),Nat.sub_self]

include low in
theorem distance_zero : distance n first last = 0 ↔ first = last := by
  unfold distance
  split
  · omega
  · omega

include low high

theorem distance_lt : distance n first last < n := by
  unfold distance
  split
  · omega
  · omega

theorem distance_reaches : (first + distance n first last) % n = last := by
  unfold distance
  split
  · rw [Nat.add_sub_of_le (by omega),Nat.mod_eq_of_lt high]
  · rw [Nat.add_sub_of_le (by omega),Nat.add_mod_right,Nat.mod_eq_of_lt high]

theorem distance_full : distance n first last + 1 = n ↔ (last + 1) % n = first := by
  rw [next_slot n last high]
  unfold distance
  split
  · split
    · omega
    · omega
  · split
    · omega
    · omega

theorem distance_grows (room : (last + 1) % n ≠ first) :
    distance n first ((last + 1) % n) = distance n first last + 1 := by
  rw [next_slot n last high] at room ⊢
  by_cases wraps : last + 1 = n
  · rw [if_pos wraps] at room ⊢
    unfold distance
    rw [if_neg (by omega),if_pos (by omega)]
    omega
  · rw [if_neg wraps] at room ⊢
    unfold distance
    by_cases before : first ≤ last
    · rw [if_pos before,if_pos (by omega)]
      omega
    · rw [if_neg before,if_neg (by omega)]
      omega

theorem distance_shrinks (filled : first ≠ last) :
    distance n first last = distance n ((first + 1) % n) last + 1 := by
  rw [next_slot n first low]
  by_cases wraps : first + 1 = n
  · rw [if_pos wraps]
    unfold distance
    rw [if_neg (by omega),if_pos (Nat.zero_le last)]
    omega
  · rw [if_neg wraps]
    unfold distance
    by_cases before : first ≤ last
    · rw [if_pos before,if_pos (by omega)]
      omega
    · rw [if_neg before,if_neg (by omega)]
      omega

end Cursors

/-- The elements from one cursor up to another. -/
def between (n : Nat) (slots : Nat → α) (first last : Nat) : List α :=
  slice n slots first (distance n first last)

theorem between_self (n : Nat) (slots : Nat → α) (first : Nat) : between n slots first first = [] := by
  rw [between,distance_self,slice_zero]

theorem between_length (n : Nat) (slots : Nat → α) (first last : Nat) :
    (between n slots first last).length = distance n first last := slice_length _ _ _ _

theorem between_push (n : Nat) (slots : Nat → α) (first last : Nat) (low : first < n) (high : last < n)
    (x : α) (room : (last + 1) % n ≠ first) :
    between n (Function.update slots last x) first ((last + 1) % n) = between n slots first last ++ [x] := by
  have shorter := distance_lt n first last low high
  have pushed := slice_push n slots first (distance n first last) x shorter
  rw [distance_reaches n first last low high] at pushed
  rw [between,distance_grows n first last low high room]
  exact pushed

theorem between_pop (n : Nat) (slots : Nat → α) (first last : Nat) (low : first < n) (high : last < n)
    (filled : first ≠ last) :
    between n slots first last = slots first :: between n slots ((first + 1) % n) last := by
  rw [between,distance_shrinks n first last low high filled,slice_pop n slots first _ low]
  rfl

end BlackOS.Library.Ring
