import Mathlib.Data.List.Basic
import Mathlib.Tactic.Common

/-! A plane of coloured points, which goes on in all directions, and what loops over the points of a rectangle paint. -/
namespace BlackOS.Library.Canvas

abbrev Plane (α : Type) := Int → Int → α

variable {α : Type}

def set (p : Plane α) (x y : Int) (c : α) : Plane α := fun a b => if a = x ∧ b = y then c else p a b

/-- The colours of a rectangle are counted from its corner. -/
def paint (p : Plane α) (x y : Int) (w h : Nat) (f : Nat → Nat → α) : Plane α := fun a b =>
  if x ≤ a ∧ a < x + w ∧ y ≤ b ∧ b < y + h then f (a - x).toNat (b - y).toNat else p a b

theorem paint_inside (p : Plane α) (x y : Int) (w h : Nat) (f : Nat → Nat → α) (i j : Nat) (left : i < w) (above : j < h) :
    paint p x y w h f (x + i) (y + j) = f i j := by
  have column : (x + i - x).toNat = i := by omega
  have row : (y + j - y).toNat = j := by omega
  rw [paint,if_pos (by omega),column,row]

theorem paint_outside (p : Plane α) (x y : Int) (w h : Nat) (f : Nat → Nat → α) (a b : Int)
    (outside : ¬(x ≤ a ∧ a < x + w ∧ y ≤ b ∧ b < y + h)) : paint p x y w h f a b = p a b := if_neg outside

/-- What is painted on a rectangle, at a point. -/
def area (x y w h : Int) (f : Nat → Nat → α) (a b : Int) : Option α :=
  if x ≤ a ∧ a < x + w ∧ y ≤ b ∧ b < y + h then some (f (a - x).toNat (b - y).toNat) else none

theorem area_isSome (x y w h : Int) (f : Nat → Nat → α) (a b : Int) :
    (area x y w h f a b).isSome = true ↔ x ≤ a ∧ a < x + w ∧ y ≤ b ∧ b < y + h := by
  unfold area
  split
  · rename_i inside
    exact iff_of_true rfl inside
  · rename_i outside
    exact iff_of_false Bool.false_ne_true outside

/-- A size below zero paints nothing. -/
theorem paint_area (p : Plane α) (x y w h : Int) (f : Nat → Nat → α) (a b : Int) :
    paint p x y w.toNat h.toNat f a b = (area x y w h f a b).getD (p a b) := by
  unfold paint area
  by_cases inside : x ≤ a ∧ a < x + w ∧ y ≤ b ∧ b < y + h
  · rw [if_pos inside,if_pos (by omega)]
    rfl
  · rw [if_neg inside,if_neg (by omega)]
    rfl

theorem set_area (p : Plane α) (x y : Int) (c : α) (a b : Int) : set p x y c a b = (area x y 1 1 (fun _ _ => c) a b).getD (p a b) := by
  unfold set area
  by_cases here : a = x ∧ b = y
  · rw [if_pos here,if_pos (by omega)]
    rfl
  · rw [if_neg here,if_neg (by omega)]
    rfl

section Loops
variable (p : Plane α) (x y : Int) (w h : Nat) (f : Nat → Nat → α)

theorem paint_row (j : Nat) : (List.range w).foldl (fun p i => set p (x + (i : Nat)) (y + j) (f i j)) p =
    paint p x (y + j) w 1 fun i _ => f i j := by
  induction w with
  | zero =>
    funext a b
    exact (if_neg (by omega)).symm
  | succ w ih =>
    rw [List.range_succ,List.foldl_concat,ih]
    funext a b
    unfold set
    by_cases here : a = x + w ∧ b = y + j
    · have column : (a - x).toNat = w := by omega
      rw [if_pos here,paint,if_pos (by omega),column]
    · rw [if_neg here]
      by_cases among : x ≤ a ∧ a < x + w ∧ y + j ≤ b ∧ b < y + j + 1
      · rw [paint,paint,if_pos (by omega),if_pos (by omega)]
      · rw [paint,paint,if_neg (by omega),if_neg (by omega)]

/-- Two loops, the outer one over the rows. -/
theorem paint_rows : (List.range h).foldl (fun p j => (List.range w).foldl (fun p i => set p (x + (i : Nat)) (y + (j : Nat)) (f i j)) p) p =
    paint p x y w h f := by
  induction h with
  | zero =>
    funext a b
    exact (if_neg (by omega)).symm
  | succ h ih =>
    rw [List.range_succ,List.foldl_concat,ih,paint_row]
    funext a b
    by_cases here : x ≤ a ∧ a < x + w ∧ y + h ≤ b ∧ b < y + h + 1
    · have row : (b - y).toNat = h := by omega
      rw [paint,if_pos (by omega),paint,if_pos (by omega),row]
    · rw [paint_outside _ _ _ _ _ _ _ _ (by omega)]
      by_cases among : x ≤ a ∧ a < x + w ∧ y ≤ b ∧ b < y + h
      · rw [paint,paint,if_pos (by omega),if_pos (by omega)]
      · rw [paint,paint,if_neg (by omega),if_neg (by omega)]

end Loops

/-- A point that no step of a loop touches. -/
theorem foldl_misses {ι : Type} (l : List ι) (step : Plane α → ι → Plane α) (p : Plane α) (a b : Int)
    (misses : ∀ i ∈ l, ∀ p, step p i a b = p a b) : l.foldl step p a b = p a b := by
  induction l generalizing p with
  | nil => rfl
  | cons i l ih =>
    rw [List.foldl_cons,ih _ fun j listed => misses j (List.mem_cons_of_mem i listed)]
    exact misses i List.mem_cons_self p

/-- A point that one step of a loop gives its colour and no other step touches. -/
theorem foldl_hits {ι : Type} [DecidableEq ι] (l : List ι) (step : Plane α → ι → Plane α) (p : Plane α) (a b : Int) (k : ι)
    (listed : k ∈ l) (v : α) (hits : ∀ p, step p k a b = v) (misses : ∀ i ∈ l, i ≠ k → ∀ p, step p i a b = p a b) :
    l.foldl step p a b = v := by
  induction l generalizing p with
  | nil => cases listed
  | cons i l ih =>
    have rest : ∀ j ∈ l, j ≠ k → ∀ p, step p j a b = p a b := fun j later => misses j (List.mem_cons_of_mem i later)
    rw [List.foldl_cons]
    by_cases later : k ∈ l
    · exact ih (step p i) later rest
    · have here : k = i := (List.mem_cons.mp listed).resolve_right later
      have untouched := foldl_misses l step (step p i) a b fun j among => rest j among fun same => later (same ▸ among)
      rw [untouched,← here]
      exact hits p

/-- Layers are painted one over the other: a point has the colour of the last layer that is there. -/
theorem foldl_layers {ι : Type} (l : List ι) (step : Plane α → ι → Plane α) (layer : ι → Int → Int → Option α) (p : Plane α) (a b : Int)
    (lays : ∀ i ∈ l, ∀ p, step p i a b = (layer i a b).getD (p a b)) :
    l.foldl step p a b = (l.reverse.findSome? fun i => layer i a b).getD (p a b) := by
  induction l generalizing p with
  | nil => rfl
  | cons i l ih =>
    rw [List.foldl_cons,ih _ fun j listed => lays j (List.mem_cons_of_mem i listed),lays i List.mem_cons_self,List.reverse_cons,
      List.findSome?_append]
    cases l.reverse.findSome? fun i => layer i a b with
    | some v => rfl
    | none => cases here : layer i a b <;> simp [here]

end BlackOS.Library.Canvas
