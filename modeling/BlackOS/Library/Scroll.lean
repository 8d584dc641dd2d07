import Mathlib.Logic.Function.Basic
import Mathlib.Tactic.Common

/-! An endless page of lines, and a grid that follows the cursor: the grid shows the page from some line on, and moves down by
one line when the cursor leaves it. -/
namespace BlackOS.Library.Scroll

/-- `first` is the line that the top row of the grid shows. -/
structure Page (α : Type) where
  cell : Nat → Nat → α
  line : Nat
  column : Nat
  first : Nat

variable {α : Type}

namespace Page

def put (p : Page α) (x : α) : Page α :=
  {p with cell := Function.update p.cell p.line (Function.update (p.cell p.line) p.column x)}

def goto (p : Page α) (column : Nat) : Page α := {p with column := column}

/-- The next line, which is blank where the grid has not shown it before. -/
def down (rows : Nat) (blank : α) (p : Page α) : Page α :=
  if p.line + 1 < p.first + rows then {p with line := p.line + 1,column := 0}
  else
    { cell := Function.update p.cell (p.line + 1) fun _ => blank
      line := p.line + 1
      column := 0
      first := p.first + 1 }

end Page

/-- What is outside the grid of the page is not seen. -/
structure Shows (rows columns : Nat) (g : Nat → Nat → α) (p : Page α) : Prop where
  cells : ∀ r < rows, ∀ c < columns, g r c = p.cell (p.first + r) c
  inside : p.first ≤ p.line ∧ p.line < p.first + rows

/-- The second page has the lines of the first above the cursor, and the cursor has not gone up. -/
structure Follows (p q : Page α) : Prop where
  kept : ∀ l < p.line, q.cell l = p.cell l
  below : p.line ≤ q.line

theorem Follows.refl (p : Page α) : Follows p p := ⟨fun _ _ => rfl,Nat.le_refl _⟩

theorem Follows.trans {p q r : Page α} (first : Follows p q) (second : Follows q r) : Follows p r :=
  ⟨fun l above => (second.kept l (Nat.lt_of_lt_of_le above first.below)).trans (first.kept l above),
    Nat.le_trans first.below second.below⟩

theorem follows_put (p : Page α) (x : α) : Follows p (p.put x) :=
  ⟨fun _ above => Function.update_of_ne (Nat.ne_of_lt above) _ _,Nat.le_refl _⟩

theorem follows_goto (p : Page α) (column : Nat) : Follows p (p.goto column) := ⟨fun _ _ => rfl,Nat.le_refl _⟩

theorem follows_down (rows : Nat) (blank : α) (p : Page α) : Follows p (p.down rows blank) := by
  unfold Page.down
  split
  · exact ⟨fun _ _ => rfl,Nat.le_succ _⟩
  · exact ⟨fun l above => Function.update_of_ne (by omega) _ _,Nat.le_succ _⟩

section Grid
variable (rows columns : Nat) (g g' : Nat → Nat → α) (p : Page α) (shows : Shows rows columns g p)
include shows

theorem shows_goto (column : Nat) : Shows rows columns g (p.goto column) := ⟨shows.cells,shows.inside⟩

theorem shows_put (x : α) (here : g' (p.line - p.first) p.column = x)
    (others : ∀ r < rows, ∀ c < columns, (r ≠ p.line - p.first ∨ c ≠ p.column) → g' r c = g r c) :
    Shows rows columns g' (p.put x) := by
  obtain ⟨low,high⟩ := shows.inside
  refine ⟨fun r above c left => ?_,shows.inside⟩
  by_cases row : r = p.line - p.first
  · have line : p.first + r = p.line := by omega
    change g' r c = (p.put x).cell (p.first + r) c
    rw [line]
    by_cases column : c = p.column
    · simp [Page.put,row,column,here]
    · have same := shows.cells r above c left
      rw [line] at same
      simp [Page.put,column,others r above c left (.inr column),same]
  · have line : p.first + r ≠ p.line := by omega
    simp [Page.put,line,others r above c left (.inl row),shows.cells r above c left]

theorem shows_next (blank : α) (room : p.line + 1 < p.first + rows) : Shows rows columns g (p.down rows blank) := by
  rw [Page.down,if_pos room]
  exact ⟨shows.cells,by have low := shows.inside; dsimp only; omega⟩

theorem shows_scrolled (blank : α) (full : p.first + rows ≤ p.line + 1)
    (moved : ∀ r, r + 1 < rows → ∀ c < columns, g' r c = g (r + 1) c) (new : ∀ c < columns, g' (rows - 1) c = blank) :
    Shows rows columns g' (p.down rows blank) := by
  obtain ⟨low,high⟩ := shows.inside
  rw [Page.down,if_neg (by omega)]
  refine ⟨fun r above c left => ?_,by dsimp only; omega⟩
  by_cases last : r + 1 < rows
  · have line : p.first + 1 + r ≠ p.line + 1 := by omega
    have place : p.first + 1 + r = p.first + (r + 1) := by omega
    dsimp only
    rw [Function.update_of_ne line,moved r last c left,shows.cells (r + 1) last c left,place]
  · have bottom : r = rows - 1 := by omega
    have line : p.first + 1 + r = p.line + 1 := by omega
    dsimp only
    rw [line,Function.update_self,bottom]
    exact new c left

end Grid

end BlackOS.Library.Scroll
