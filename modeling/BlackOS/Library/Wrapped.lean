import Mathlib.Data.List.DropRight

/-! Text that is typed in rows of a bounded width, and the last rows of it. -/
namespace BlackOS.Library.Wrapped

/-- The rows above the one that is typed in, and what stands in that one. -/
structure Page (α : Type) where
  above : List (List α)
  last : List α

variable {α : Type}

def Page.rows (p : Page α) : List (List α) := p.above ++ [p.last]

def Page.empty : Page α := ⟨[],[]⟩

/-- The last `n` rows are those of the last `n` rows and the new one. -/
theorem rtake_concat (l : List α) (x : α) (n : Nat) : (l.rtake n ++ [x]).rtake n = (l ++ [x]).rtake n := by
  cases n with
  | zero => rw [List.rtake_zero,List.rtake_zero]
  | succ n =>
    rw [List.rtake_concat_succ,List.rtake_concat_succ,List.rtake_eq_reverse_take_reverse,
      List.rtake_eq_reverse_take_reverse,List.rtake_eq_reverse_take_reverse,List.reverse_reverse,List.take_take,
      Nat.min_eq_left (Nat.le_succ n)]

theorem rtake_whole (l : List α) (n : Nat) (few : l.length ≤ n) : l.rtake n = l := by
  rw [List.rtake,Nat.sub_eq_zero_of_le few]
  rfl

theorem rtake_tail (l : List α) (n : Nat) (full : l.length = n + 1) : l.rtake n = l.tail := by
  rw [List.rtake,full,Nat.add_sub_cancel_left]
  exact List.drop_one

theorem getElem?_snoc (l : List α) (x : α) (i : Nat) : (l ++ [x])[i]? = if i = l.length then some x else l[i]? := by
  by_cases last : i = l.length
  · rw [if_pos last,last]
    exact List.getElem?_concat_length
  · rw [if_neg last]
    by_cases before : i < l.length
    · exact List.getElem?_append_left before
    · rw [List.getElem?_eq_none (by rw [List.length_append,List.length_singleton]; omega),
        List.getElem?_eq_none (Nat.le_of_not_lt before)]

variable [DecidableEq α] (width : Nat) (newline backspace : α)

/-- A new row starts at a newline, and before a character that would make a row longer than the width. A backspace
takes the last character off the row that is typed in. -/
def Page.type (p : Page α) (c : α) : Page α :=
  if c = newline then ⟨p.rows,[]⟩
  else if c = backspace then ⟨p.above,p.last.dropLast⟩
  else if width ≤ p.last.length then ⟨p.rows,[c]⟩
  else ⟨p.above,p.last ++ [c]⟩

def typed (text : List α) : Page α := text.foldl (Page.type width newline backspace) Page.empty

theorem typed_snoc (text : List α) (c : α) :
    typed width newline backspace (text ++ [c]) = (typed width newline backspace text).type width newline backspace c :=
  List.foldl_append

/-- What holds of no row, of the row with a character and of the row without its last holds of all rows. -/
theorem Page.type_all (P : List α → Prop) (p : Page α) (c : α) (old : ∀ row ∈ p.rows, P row) (none_ : P [])
    (more : ∀ row, P row → c ≠ newline → c ≠ backspace → row.length < width → P (row ++ [c]))
    (less : ∀ row, P row → P row.dropLast) (room : 0 < width) : ∀ row ∈ (p.type width newline backspace c).rows, P row := by
  have above (row : List α) (listed : row ∈ p.above) : P row := old row (List.mem_append_left _ listed)
  have last : P p.last := old p.last (List.mem_append_right _ (List.mem_singleton_self _))
  intro row listed
  rw [Page.type] at listed
  split_ifs at listed with isNewline isBackspace full
  · rcases List.mem_append.mp listed with earlier | new
    · exact old row earlier
    · rw [List.mem_singleton.mp new]
      exact none_
  · rcases List.mem_append.mp listed with earlier | new
    · exact above row earlier
    · rw [List.mem_singleton.mp new]
      exact less p.last last
  · rcases List.mem_append.mp listed with earlier | new
    · exact old row earlier
    · rw [List.mem_singleton.mp new]
      exact more [] none_ isNewline isBackspace room
  · rcases List.mem_append.mp listed with earlier | new
    · exact above row earlier
    · rw [List.mem_singleton.mp new]
      exact more p.last last isNewline isBackspace (Nat.lt_of_not_le full)

theorem typed_all (P : List α → Prop) (text : List α) (none_ : P [])
    (more : ∀ row, ∀ c ∈ text, P row → c ≠ newline → c ≠ backspace → row.length < width → P (row ++ [c]))
    (less : ∀ row, P row → P row.dropLast) (room : 0 < width) : ∀ row ∈ (typed width newline backspace text).rows, P row := by
  refine List.foldlRecOn text _ (motive := fun (p : Page α) => ∀ row ∈ p.rows, P row) ?_ fun p old c listed => ?_
  · intro row listed
    rw [List.mem_singleton.mp listed]
    exact none_
  · exact p.type_all width newline backspace P c old none_ (fun row => more row c listed) less room

theorem typed_fits (text : List α) (room : 0 < width) (row : List α)
    (listed : row ∈ (typed width newline backspace text).rows) : row.length ≤ width := by
  refine typed_all width newline backspace (fun row => row.length ≤ width) text (Nat.zero_le _) ?_ ?_ room row listed
  · intro row c _ _ _ _ short
    rw [List.length_append]
    exact short
  · intro row short
    rw [List.length_dropLast]
    exact Nat.le_trans (Nat.sub_le _ _) short

/-- The rows are made of characters of the text. -/
theorem typed_plain (text : List α) (room : 0 < width) (row : List α)
    (listed : row ∈ (typed width newline backspace text).rows) (c : α) (inside : c ∈ row) :
    c ∈ text ∧ c ≠ newline ∧ c ≠ backspace := by
  refine typed_all width newline backspace (fun row => ∀ c ∈ row, c ∈ text ∧ c ≠ newline ∧ c ≠ backspace) text nofun ?_ ?_
    room row listed c inside
  · intro row d given plain one two _ c inside
    rcases List.mem_append.mp inside with old | new
    · exact plain c old
    · rw [List.mem_singleton.mp new]
      exact ⟨given,one,two⟩
  · intro row plain c inside
    exact plain c (List.dropLast_subset row inside)

/-- The rows as a text, each with a newline behind it. -/
def lines (rows : List (List α)) : List α := rows.flatMap (· ++ [newline])

/-- A row that fits is typed on. -/
theorem type_row (above : List (List α)) (row more : List α) (fits : (row ++ more).length ≤ width)
    (plain : ∀ c ∈ more, c ≠ newline ∧ c ≠ backspace) :
    more.foldl (Page.type width newline backspace) ⟨above,row⟩ = ⟨above,row ++ more⟩ := by
  induction more generalizing row with
  | nil => rw [List.append_nil]; rfl
  | cons c more ih =>
    obtain ⟨one,two⟩ := plain c List.mem_cons_self
    have size : row.length < width := by
      rw [List.length_append,List.length_cons] at fits
      omega
    have next : (⟨above,row⟩ : Page α).type width newline backspace c = ⟨above,row ++ [c]⟩ := by
      rw [Page.type,if_neg one,if_neg two,if_neg (Nat.not_le.mpr size)]
    rw [List.append_cons] at fits ⊢
    rw [List.foldl_cons,next]
    exact ih (row ++ [c]) fits fun d listed => plain d (List.mem_cons_of_mem c listed)

theorem typed_lines (rows : List (List α)) (fits : ∀ row ∈ rows, row.length ≤ width)
    (plain : ∀ row ∈ rows, ∀ c ∈ row, c ≠ newline ∧ c ≠ backspace) :
    typed width newline backspace (lines newline rows) = ⟨rows,[]⟩ := by
  induction rows using List.reverseRecOn with
  | nil => rfl
  | append_singleton rows row ih =>
    have before := ih (fun r listed => fits r (List.mem_append_left _ listed))
      fun r listed => plain r (List.mem_append_left _ listed)
    have last : row ∈ rows ++ [row] := List.mem_append_right _ (List.mem_singleton_self _)
    rw [typed] at before
    rw [typed,lines,List.flatMap_append,List.flatMap_singleton,List.foldl_append,List.foldl_append]
    rw [lines] at before
    rw [before,type_row width newline backspace rows [] row (fits row last) (plain row last)]
    exact if_pos rfl

end BlackOS.Library.Wrapped
