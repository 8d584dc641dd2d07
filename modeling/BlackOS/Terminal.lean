import BlackOS.LibcString
import BlackOS.Library.Wrapped

/-! The terminal of a window of `kernel/gui/desktop.c`. The addresses in the character buffer are counted from its
first byte, so that what the buffer does not hold begins at address 3240. -/
namespace BlackOS.Terminal
open BlackOS.Library.Ram BlackOS.Library.Wrapped BlackOS.LibcString

def blackTermCols : Nat := 72
def blackTermRows : Nat := 45
def blackTermBuf : Nat := blackTermCols * blackTermRows

def newline : Byte := 0x0A
def backspace : Byte := 0x08

/-- The fields of `black_window_t` that the terminal uses. -/
structure Term where
  termbuf : Memory
  termCx : Int
  termCy : Int

/-- The terminal of a new window, which `black_gui_create_window` fills with zeros. -/
def fresh (m : Memory) : Term := ⟨memset m 0 0 (word blackTermBuf),0,0⟩

variable (w : Term)

def Term.cursor : Word := BitVec.ofInt 32 (w.termCy * blackTermCols + w.termCx)

def blackTermScroll : Term :=
  let moved := memmove w.termbuf 0 (word blackTermCols) (word (blackTermCols * (blackTermRows - 1)))
  {w with
    termbuf := memset moved (word (blackTermCols * (blackTermRows - 1))) 0 (word blackTermCols)
    termCy := w.termCy - 1}

/-- What a newline and a full row do to the cursor. -/
def Term.down : Term :=
  let w := {w with termCx := 0,termCy := w.termCy + 1}
  if (blackTermRows : Int) ≤ w.termCy then blackTermScroll w else w

def blackTermPutchar (c : Byte) : Term :=
  if c = newline then w.down
  else if c = backspace then
    if 0 < w.termCx then
      let w := {w with termCx := w.termCx - 1}
      {w with termbuf := write8 w.termbuf w.cursor 0}
    else w
  else
    let w := if (blackTermCols : Int) ≤ w.termCx then w.down else w
    {w with termbuf := write8 w.termbuf w.cursor c,termCx := w.termCx + 1}

def blackTermPuts (s : List Byte) : Term := s.foldl blackTermPutchar w

def Term.cell (y x : Nat) : Byte := w.termbuf (word (y * blackTermCols + x))

/-- The character that stands in a row and a column when the rows are shown, with zeros behind them. -/
def shown (rows : List (List Byte)) (y x : Nat) : Byte := (rows[y]?.getD [])[x]?.getD 0

theorem shown_snoc (rows : List (List Byte)) (row : List Byte) (y x : Nat) :
    shown (rows ++ [row]) y x = if y = rows.length then row[x]?.getD 0 else shown rows y x := by
  rw [shown,getElem?_snoc]
  split_ifs with last
  · rfl
  · rfl

theorem shown_tail (rows : List (List Byte)) (y x : Nat) : shown rows.tail y x = shown rows (y + 1) x := by
  rw [shown,List.getElem?_tail]
  rfl

theorem shown_beyond (rows : List (List Byte)) (y x : Nat) (beyond : rows.length ≤ y) : shown rows y x = 0 := by
  rw [shown,List.getElem?_eq_none beyond]
  rfl

/-- An empty row looks like none. -/
theorem shown_blank (rows : List (List Byte)) (y x : Nat) : shown (rows ++ [[]]) y x = shown rows y x := by
  rw [shown_snoc]
  split_ifs with last
  · exact (shown_beyond rows y x (Nat.le_of_eq last.symm)).symm
  · rfl

theorem cell_place (y x y' x' : Nat) (inside : y < 45 ∧ x < 72) (inside' : y' < 45 ∧ x' < 72) :
    word (y * 72 + x) = word (y' * 72 + x') ↔ y = y' ∧ x = x' := by
  refine ⟨fun same => ?_,fun both => by rw [both.1,both.2]⟩
  have equal := word_injective _ _ (by omega) (by omega) same
  omega

theorem fresh_cell (m : Memory) (y x : Nat) (inside : y < 45 ∧ x < 72) : (fresh m).cell y x = 0 := by
  have place := word_toNat (y * 72 + x) (by omega)
  have size : (0 : Word).toNat + (word blackTermBuf).toNat = 3240 := by decide
  have cleared := memset_inside m 0 0 (word blackTermBuf) (word (y * 72 + x)) (by rw [size]; decide) (Nat.zero_le _)
    (by rw [place,size]; omega)
  rw [Term.cell,fresh]
  dsimp only
  exact cleared

theorem scroll_cell (y x : Nat) (inside : y < 45 ∧ x < 72) :
    (blackTermScroll w).cell y x = if y < 44 then w.cell (y + 1) x else 0 := by
  have place := word_toNat (y * 72 + x) (by omega)
  have upper : (word (blackTermCols * (blackTermRows - 1))).toNat = 3168 := by decide
  have size : (word blackTermCols).toNat = 72 := by decide
  rw [Term.cell,blackTermScroll]
  dsimp only
  by_cases above : y < 44
  · have kept := memset_sameOutside (memmove w.termbuf 0 (word blackTermCols) (word (blackTermCols * (blackTermRows - 1))))
      (word (blackTermCols * (blackTermRows - 1))) 0 (word blackTermCols) (by decide) (word (y * 72 + x))
      (.inl (by rw [place,upper]; omega))
    have moved := memmove_inside w.termbuf 0 (word blackTermCols) (word (blackTermCols * (blackTermRows - 1))) (y * 72 + x)
      (by rw [upper]; omega) (by decide) (by decide)
    have start (a : Word) : 0 + a = a := BitVec.zero_add a
    have next : blackTermCols + (y * 72 + x) = (y + 1) * blackTermCols + x := by
      rw [show blackTermCols = 72 from rfl]
      omega
    rw [start,word_add,next] at moved
    rw [if_pos above]
    exact kept.trans moved
  · have cleared := memset_inside (memmove w.termbuf 0 (word blackTermCols) (word (blackTermCols * (blackTermRows - 1))))
      (word (blackTermCols * (blackTermRows - 1))) 0 (word blackTermCols) (word (y * 72 + x)) (by decide)
      (by rw [place,upper]; omega) (by rw [place,upper,size]; omega)
    rw [if_neg above]
    exact cleared

/-- The terminal shows the rows `front`, and below them the one that the cursor stands behind. -/
structure Shows (front : List (List Byte)) (last : List Byte) : Prop where
  column : w.termCx = last.length
  row : w.termCy = front.length
  few : front.length < 45
  narrow : last.length ≤ 72
  cells : ∀ y < 45, ∀ x < 72, w.cell y x = shown (front ++ [last]) y x

theorem fresh_shows (m : Memory) : Shows (fresh m) [] [] := by
  refine ⟨rfl,rfl,by decide,by decide,fun y low x left => ?_⟩
  rw [fresh_cell m y x ⟨low,left⟩,shown_blank]
  exact (shown_beyond [] y x (Nat.zero_le y)).symm

/-- The address that a cursor in the given row and column stands for. -/
theorem cursor_place (y x : Nat) (row : w.termCy = y) (column : w.termCx = x) : w.cursor = word (y * 72 + x) := by
  rw [Term.cursor,row,column,word,← BitVec.ofInt_natCast]
  rfl

theorem write_cell (y x y' x' : Nat) (inside : y < 45 ∧ x < 72) (inside' : y' < 45 ∧ x' < 72) (v : Byte)
    (here : w.cursor = word (y' * 72 + x')) :
    write8 w.termbuf w.cursor v (word (y * blackTermCols + x)) = if y = y' ∧ x = x' then v else w.cell y x :=
  if_congr (by rw [here]; exact cell_place y x y' x' inside inside') rfl rfl

section Step
variable (front : List (List Byte)) (last : List Byte) (shows : Shows w front last)
include shows

theorem down_shows : Shows w.down ((front ++ [last]).rtake 44) [] := by
  have few := shows.few
  have size : (front ++ [last]).length = front.length + 1 := List.length_append
  rw [Term.down,shows.row]
  dsimp only
  by_cases full : front.length = 44
  · -- the first row is lost, and the last one is free again
    have rows := rtake_tail (front ++ [last]) 44 (by rw [size,full])
    rw [rows,if_pos (by rw [full]; decide)]
    refine ⟨rfl,?_,?_,Nat.zero_le _,fun y low x left => ?_⟩
    · change ((front.length : Int) + 1) - 1 = ((front ++ [last]).tail.length : Int)
      rw [List.length_tail,size]
      omega
    · rw [List.length_tail,size]
      exact few
    · rw [scroll_cell _ y x ⟨low,left⟩,shown_blank,shown_tail]
      by_cases above : y < 44
      · rw [if_pos above]
        exact shows.cells (y + 1) (by omega) x left
      · rw [if_neg above,shown_beyond _ _ _ (by rw [size]; omega)]
  · have rows := rtake_whole (front ++ [last]) 44 (by rw [size]; omega)
    rw [rows,if_neg (by rw [show blackTermRows = 45 from rfl]; omega)]
    refine ⟨rfl,?_,by rw [size]; omega,Nat.zero_le _,fun y low x left => ?_⟩
    · rw [size]
      rfl
    · rw [shown_blank]
      exact shows.cells y low x left

theorem write_shows (c : Byte) (room : last.length < 72) :
    Shows {w with termbuf := write8 w.termbuf w.cursor c,termCx := w.termCx + 1} front (last ++ [c]) := by
  have here := cursor_place w front.length last.length shows.row shows.column
  have size : (last ++ [c]).length = last.length + 1 := List.length_append
  refine ⟨?_,shows.row,shows.few,by rw [size]; exact room,fun y low x left => ?_⟩
  · rw [size,shows.column]
    rfl
  · rw [Term.cell]
    dsimp only
    rw [write_cell w y x front.length last.length ⟨low,left⟩ ⟨shows.few,room⟩ c here,shown_snoc,
      getElem?_snoc,shows.cells y low x left,shown_snoc]
    by_cases same : y = front.length
    · by_cases end_ : x = last.length
      · rw [if_pos ⟨same,end_⟩,if_pos same,if_pos end_]
        rfl
      · rw [if_neg fun both => end_ both.2,if_pos same,if_pos same,if_neg end_]
    · rw [if_neg fun both => same both.1,if_neg same,if_neg same]

/-- A backspace frees the place before the cursor, unless the cursor is at the start of its row. -/
theorem erase_shows : Shows (blackTermPutchar w backspace) front last.dropLast := by
  rw [blackTermPutchar,if_neg (by decide),if_pos rfl]
  rcases List.eq_nil_or_concat last with none_ | ⟨before,c,shape⟩
  · rw [if_neg (by rw [shows.column,none_]; decide),none_]
    rw [none_] at shows
    exact shows
  · have size : last.length = before.length + 1 := by rw [shape,List.concat_eq_append,List.length_append]; rfl
    have column : w.termCx - 1 = before.length := by
      rw [shows.column,size]
      omega
    have narrow := shows.narrow
    have kept : last.dropLast = before := by rw [shape,List.concat_eq_append,List.dropLast_concat]
    rw [if_pos (by rw [shows.column,size]; omega),kept]
    refine ⟨column,shows.row,shows.few,by omega,fun y low x left => ?_⟩
    have here := cursor_place {w with termCx := w.termCx - 1} front.length before.length shows.row column
    have old := shows.cells y low x left
    rw [shape,List.concat_eq_append,shown_snoc,getElem?_snoc] at old
    rw [Term.cell]
    dsimp only
    refine (write_cell {w with termCx := w.termCx - 1} y x front.length before.length ⟨low,left⟩
      ⟨shows.few,by omega⟩ 0 here).trans ?_
    rw [shown_snoc]
    by_cases same : y = front.length
    · rw [if_pos same] at old ⊢
      by_cases end_ : x = before.length
      · rw [if_pos ⟨same,end_⟩,end_,List.getElem?_eq_none (Nat.le_refl _)]
        rfl
      · rw [if_neg end_] at old
        rw [if_neg fun both => end_ both.2]
        exact old
    · rw [if_neg same] at old ⊢
      rw [if_neg fun both => same both.1]
      exact old

end Step

/-- A character acts on the terminal as on the page of which the terminal shows the last 45 rows. -/
theorem putchar_shows (p : Page Byte) (shows : Shows w (p.above.rtake 44) p.last) (c : Byte) :
    Shows (blackTermPutchar w c) ((p.type 72 newline backspace c).above.rtake 44) (p.type 72 newline backspace c).last := by
  have moved := down_shows w _ _ shows
  rw [rtake_concat] at moved
  rw [Page.type]
  by_cases isNewline : c = newline
  · rw [blackTermPutchar,if_pos isNewline,if_pos isNewline]
    exact moved
  · by_cases isBackspace : c = backspace
    · rw [if_neg isNewline,if_pos isBackspace,isBackspace]
      exact erase_shows w _ _ shows
    · have column := shows.column
      rw [blackTermPutchar,if_neg isNewline,if_neg isBackspace,if_neg isNewline,if_neg isBackspace]
      by_cases full : 72 ≤ p.last.length
      · rw [if_pos full,if_pos (by rw [column]; exact Int.ofNat_le.mpr full)]
        exact write_shows w.down _ [] moved c (by decide)
      · rw [if_neg full,if_neg (by rw [column]; exact fun wide => full (Int.ofNat_le.mp wide))]
        exact write_shows w _ _ shows c (Nat.lt_of_not_le full)

theorem puts_shows (m : Memory) (s : List Byte) :
    Shows (blackTermPuts (fresh m) s) ((typed 72 newline backspace s).above.rtake 44) (typed 72 newline backspace s).last := by
  induction s using List.reverseRecOn with
  | nil => exact fresh_shows m
  | append_singleton s c ih =>
    rw [blackTermPuts,List.foldl_append,typed_snoc]
    exact putchar_shows _ _ ih c

/-! What a character changes is in the buffer. -/
section Frame
variable (front : List (List Byte)) (last : List Byte)

theorem scroll_sameOutside : SameOutside 0 3240 w.termbuf (blackTermScroll w).termbuf := by
  have moved := memmove_sameOutside w.termbuf 0 (word blackTermCols) (word (blackTermCols * (blackTermRows - 1))) (by decide)
  have cleared := memset_sameOutside (memmove w.termbuf 0 (word blackTermCols) (word (blackTermCols * (blackTermRows - 1))))
    (word (blackTermCols * (blackTermRows - 1))) 0 (word blackTermCols) (by decide)
  exact (moved.widen (by decide) (by decide)).trans (cleared.widen (by decide) (by decide))

theorem down_sameOutside : SameOutside 0 3240 w.termbuf w.down.termbuf := by
  rw [Term.down]
  dsimp only
  split
  · exact scroll_sameOutside _
  · exact SameOutside.refl 0 3240 w.termbuf

theorem write_sameOutside (y x : Nat) (inside : y < 45 ∧ x < 72) (row : w.termCy = y) (column : w.termCx = x) (c : Byte) :
    SameOutside 0 3240 w.termbuf (write8 w.termbuf w.cursor c) := by
  have place := word_toNat (y * 72 + x) (by omega)
  have written := write8_sameOutside w.termbuf w.cursor c
  rw [cursor_place w y x row column,place] at written
  rw [cursor_place w y x row column]
  exact written.widen (by omega) (by omega)

theorem putchar_sameOutside (shows : Shows w front last) (c : Byte) :
    SameOutside 0 3240 w.termbuf (blackTermPutchar w c).termbuf := by
  rw [blackTermPutchar]
  split_ifs with isNewline isBackspace filled full
  · exact down_sameOutside w
  · have column := shows.column
    have narrow := shows.narrow
    exact write_sameOutside {w with termCx := w.termCx - 1} front.length (last.length - 1) ⟨shows.few,by omega⟩ shows.row
      (by dsimp only; omega) 0
  · exact SameOutside.refl 0 3240 w.termbuf
  · have moved := down_shows w front last shows
    exact (down_sameOutside w).trans (write_sameOutside w.down _ 0 ⟨moved.few,by decide⟩ moved.row moved.column c)
  · have column := shows.column
    rw [column] at full
    exact write_sameOutside w front.length last.length
      ⟨shows.few,Nat.lt_of_not_le fun wide => full (Int.ofNat_le.mpr wide)⟩ shows.row column c

end Frame

/-- The terminal shows the last 45 rows of what has been typed, with the cursor behind the last of them, and the next
character changes nothing outside the buffer. -/
theorem terminal_rows (m : Memory) (s : List Byte) :
    let w := blackTermPuts (fresh m) s
    let p := typed blackTermCols newline backspace s
    (0 ≤ w.termCx ∧ w.termCx ≤ 72) ∧ (0 ≤ w.termCy ∧ w.termCy < 45) ∧
      (∀ c, SameOutside 0 blackTermBuf w.termbuf (blackTermPutchar w c).termbuf) ∧
      (∀ y < 45, ∀ x < 72, w.cell y x = shown (p.rows.rtake 45) y x) ∧
      w.termCx = p.last.length ∧ w.termCy + 1 = min p.rows.length 45 := by
  intro w p
  have shows : Shows w (p.above.rtake 44) p.last := puts_shows m s
  have column := shows.column
  have row := shows.row
  have few := shows.few
  have narrow := shows.narrow
  refine ⟨⟨by omega,by omega⟩,⟨by omega,by omega⟩,fun c => putchar_sameOutside _ _ _ shows c,fun y low x left => ?_,column,?_⟩
  · rw [Page.rows,List.rtake_concat_succ]
    exact shows.cells y low x left
  · have size : (p.above.rtake 44).length = min p.above.length 44 := by
      rw [List.rtake,List.length_drop]
      omega
    rw [row,Page.rows,List.length_append,List.length_singleton]
    omega

end BlackOS.Terminal
