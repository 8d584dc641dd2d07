import BlackOS.Gui

/-! A text that is typed into a Notepad, saved, and opened again. -/
namespace BlackOS.Notepad
open BlackOS.Library.Ram BlackOS.Library.Wrapped BlackOS.LibcString BlackOS.LibcText BlackOS.Terminal BlackOS.Gui
open BlackOS.Desktop (Window maxWindows rootPath blackGuiGetFocused)

/-- The loop over a row leaves out what stands behind it. -/
theorem row_filter (row : List Byte) (n : Nat) (fits : row.length ≤ n) (clean : 0 ∉ row) :
    ((List.range n).map fun x => row[x]?.getD 0).filter (· ≠ 0) = row := by
  induction row generalizing n with
  | nil =>
    refine List.filter_eq_nil_iff.mpr fun c listed => ?_
    obtain ⟨x,_,same⟩ := List.mem_map.mp listed
    have zero : c = 0 := same.symm
    rw [zero]
    decide
  | cons c row ih =>
    obtain ⟨n,rfl⟩ : ∃ k, n = k + 1 := ⟨n - 1,by rw [List.length_cons] at fits; omega⟩
    have filled : c ≠ 0 := fun zero => clean (zero ▸ List.mem_cons_self)
    have rest := ih n (Nat.le_of_succ_le_succ fits) fun zero => clean (List.mem_cons_of_mem c zero)
    rw [List.range_succ_eq_map,List.map_cons,List.map_map,List.filter_cons]
    refine (if_pos (decide_eq_true filled)).trans ?_
    exact congrArg (List.cons c) rest

theorem range_rows (rows : List (List Byte)) : (List.range rows.length).map (fun y => rows[y]?.getD []) = rows := by
  apply List.ext_getElem
  · rw [List.length_map,List.length_range]
  · intro y left right
    rw [List.getElem_map,List.getElem_range,List.getElem?_eq_getElem right]
    rfl

section Saved
variable (w : Term) (front : List (List Byte)) (last : List Byte) (shows : Shows w front last)
  (clean : ∀ row ∈ front ++ [last], row.length ≤ 72 ∧ 0 ∉ row)
include shows

theorem shows_rows : (w.termCy + 1).toNat = (front ++ [last]).length := by
  rw [shows.row,List.length_append,List.length_singleton]
  omega

include clean

theorem saveRow_row (y : Nat) (inside : y < (front ++ [last]).length) :
    saveRow w y = (front ++ [last])[y]?.getD [] ++ [newline] := by
  have few := shows.few
  have listed : (front ++ [last])[y] ∈ front ++ [last] := List.getElem_mem inside
  obtain ⟨fits,plain⟩ := clean _ listed
  have cells : (List.range blackTermCols).map (w.cell y) =
      (List.range 72).map fun x => ((front ++ [last])[y])[x]?.getD 0 := by
    refine List.map_congr_left fun x below => ?_
    rw [shows.cells y (by rw [List.length_append,List.length_singleton] at inside; omega) x (List.mem_range.mp below),
      shown,List.getElem?_eq_getElem inside]
    rfl
  rw [saveRow,cells,row_filter _ 72 fits plain,List.getElem?_eq_getElem inside]
  rfl

/-- What is saved are the rows that the terminal shows. -/
theorem saveText_lines : saveText w = lines newline (front ++ [last]) := by
  have rows := range_rows (front ++ [last])
  rw [saveText,shows_rows w front last shows,lines]
  calc (List.range (front ++ [last]).length).flatMap (saveRow w)
      = (List.range (front ++ [last]).length).flatMap fun y => (front ++ [last])[y]?.getD [] ++ [newline] :=
        List.flatMap_congr fun y listed => saveRow_row w front last shows clean y (List.mem_range.mp listed)
    _ = ((List.range (front ++ [last]).length).map fun y => (front ++ [last])[y]?.getD []).flatMap (· ++ [newline]) :=
        (List.flatMap_map (fun y => (front ++ [last])[y]?.getD []) (· ++ [newline]) _).symm
    _ = (front ++ [last]).flatMap (· ++ [newline]) := by rw [rows]

/-- The rows that a text of rows leaves in a new terminal: its last row is empty. -/
theorem opened_cell (plain : ∀ row ∈ front ++ [last], ∀ c ∈ row, c ≠ newline ∧ c ≠ backspace) (m : Memory) (y x : Nat)
    (low : y < 45) (left : x < 72) :
    (openText (fresh m) (saveText w)).cell y x = shown ((front ++ [last]).rtake 44) y x := by
  have whole : (saveText w).takeWhile (· ≠ 0) = saveText w := by
    rw [List.takeWhile_eq_self_iff,saveText_lines w front last shows clean]
    intro c listed
    obtain ⟨row,inside,either⟩ := List.mem_flatMap.mp listed
    refine decide_eq_true fun zero => ?_
    rcases List.mem_append.mp either with own | end_
    · exact (clean row inside).2 (zero ▸ own)
    · exact absurd (zero ▸ List.mem_singleton.mp end_) (by decide)
  have opened := puts_shows m (lines newline (front ++ [last]))
  rw [typed_lines 72 newline backspace _ (fun row listed => (clean row listed).1) plain] at opened
  rw [openText,whole,saveText_lines w front last shows clean,opened.cells y low x left,shown_blank]

/-- What is opened looks like what was saved just when there was a row below the cursor, or nothing to be seen. -/
theorem opened_iff (plain : ∀ row ∈ front ++ [last], ∀ c ∈ row, c ≠ newline ∧ c ≠ backspace) (m : Memory) :
    (∀ y < 45, ∀ x < 72, (openText (fresh m) (saveText w)).cell y x = w.cell y x) ↔
      w.termCy < 44 ∨ ∀ y < 45, ∀ x < 72, w.cell y x = 0 := by
  have size : (front ++ [last]).length = front.length + 1 := List.length_append
  have few := shows.few
  have row := shows.row
  by_cases full : front.length = 44
  · have opened (y x : Nat) (low : y < 45) (left : x < 72) :
        (openText (fresh m) (saveText w)).cell y x = shown (front ++ [last]) (y + 1) x := by
      rw [opened_cell w front last shows clean plain m y x low left,rtake_tail _ 44 (by rw [size,full]),shown_tail]
    refine ⟨fun same => .inr fun y low x left => ?_,fun either y low x left => ?_⟩
    · -- every row looks like the one below it, and below the last there is none
      have up (k : Nat) (inside : k ≤ 45) : shown (front ++ [last]) (45 - k) x = 0 := by
        induction k with
        | zero => exact shown_beyond _ _ _ (by omega)
        | succ k ih =>
          have step := same (45 - (k + 1)) (by omega) x left
          rw [opened _ x (by omega) left,shows.cells _ (by omega) x left,show 45 - (k + 1) + 1 = 45 - k by omega] at step
          exact step.symm.trans (ih (by omega))
      have here := up (45 - y) (Nat.sub_le _ _)
      rw [show 45 - (45 - y) = y by omega] at here
      rw [shows.cells y low x left]
      exact here
    · have blank := either.resolve_left (by omega)
      rw [opened y x low left,blank y low x left]
      by_cases below : y + 1 < 45
      · rw [← shows.cells (y + 1) below x left]
        exact blank (y + 1) below x left
      · exact shown_beyond _ _ _ (by omega)
  · refine iff_of_true (fun y low x left => ?_) (.inl (by omega))
    rw [opened_cell w front last shows clean plain m y x low left,rtake_whole _ 44 (by omega)]
    exact (shows.cells y low x left).symm

end Saved

/-! The keys that are typed while a Notepad is in front. -/
section Keys
variable {Files : Type} (g : Screen Files) (blackExecuteCmd : List Byte → List Byte) (k : Fin maxWindows)

/-- The window is in front, and is a Notepad. -/
structure Focused : Prop where
  front : slot (blackGuiGetFocused g.toState) = some k
  title : (g.windows k).title = notepad

/-- A key that a Notepad takes. -/
def taken (c : Byte) : Bool := c = newline ∨ c = backspace ∨ printable c

theorem taken_plain (c : Byte) (key : taken c) : c ≠ 0 := by
  intro zero
  rw [zero] at key
  exact absurd key (by decide)

theorem key_focused (focused : Focused g k) (c : Byte) :
    Focused (blackGuiKeyInput g blackExecuteCmd c) k ∧
      (blackGuiKeyInput g blackExecuteCmd c).term k =
        if taken c then blackTermPutchar (g.term k) c else g.term k := by
  have other : ¬(g.titled k systemMonitor ∨ g.titled k fileManager ∨ g.titled k settings) := by
    rw [Screen.titled,Screen.titled,Screen.titled,focused.title]
    decide
  have own : g.titled k notepad := by
    rw [Screen.titled,focused.title]
    decide
  have whole : blackGuiKeyInput g blackExecuteCmd c = notepadKey {g with needsRedraw := true} k c := by
    rw [blackGuiKeyInput,focused.front]
    exact (if_neg other).trans (if_pos own)
  rw [whole,notepadKey]
  by_cases key : taken c
  · have kind := of_decide_eq_true key
    rw [if_pos kind,if_pos key]
    refine ⟨⟨focused.front,?_⟩,?_⟩
    · simp [Screen.puts,Screen.setTerm,Screen.setWindow,Screen.setPane,focused.title]
    · simp [Screen.puts,Screen.setTerm,Screen.setWindow,Screen.setPane,Screen.term,blackTermPuts]
  · have kind := of_decide_eq_false (Bool.eq_false_iff.mpr key)
    rw [if_neg kind,if_neg key]
    refine ⟨⟨focused.front,?_⟩,?_⟩
    · simp [Screen.setWindow,focused.title]
    · simp [Screen.setWindow,Screen.term]

theorem keys_term (focused : Focused g k) (keys : List Byte) :
    (keys.foldl (fun g => blackGuiKeyInput g blackExecuteCmd) g).term k =
      blackTermPuts (g.term k) (keys.filter taken) := by
  induction keys generalizing g with
  | nil => rfl
  | cons c keys ih =>
    obtain ⟨still,step⟩ := key_focused g blackExecuteCmd k focused c
    rw [List.foldl_cons,ih _ still,step,List.filter_cons]
    split_ifs with key
    · rfl
    · rfl

theorem slot_val : slot (k.val : Int) = some k := by
  have inside := k.isLt
  rw [slot,dif_pos ⟨by omega,by omega⟩]
  rfl

/-- The window that `black_gui_create_window` has made. -/
theorem create_made (title : Text) (x y w h : Int) (made : (Desktop.blackGuiCreateWindow g.toState title x y w h).2 = k.val) :
    (Desktop.blackGuiCreateWindow g.toState title x y w h).1.windows k =
        {Desktop.blank with title := strncpy title 63,x := x,y := y,w := w,h := h,active := true,vfsPath := rootPath} ∧
      blackGuiGetFocused (Desktop.blackGuiCreateWindow g.toState title x y w h).1 = k.val := by
  rw [Desktop.blackGuiCreateWindow] at made ⊢
  split at made
  · exact absurd made (by have inside := k.isLt; dsimp only; omega)
  · rename_i room
    rw [if_neg room]
    split at made
    · exact absurd made (by have inside := k.isLt; dsimp only; omega)
    · rename_i idx found
      have same : idx = k := Fin.ext (Int.ofNat_inj.mp made)
      rw [same]
      refine ⟨Function.update_self k _ _,?_⟩
      rw [blackGuiGetFocused,if_neg (Nat.succ_ne_zero _)]
      exact Function.update_self g.winCount _ _

theorem created_focused (x y w h : Int) (made : (blackGuiCreateWindow g notepad x y w h).2 = k.val) :
    Focused (blackGuiCreateWindow g notepad x y w h).1 k ∧
      (blackGuiCreateWindow g notepad x y w h).1.term k = fresh (g.panes k).termbuf := by
  have number : (Desktop.blackGuiCreateWindow g.toState notepad x y w h).2 = k.val := by
    rw [← made,blackGuiCreateWindow]
    dsimp only
    split <;> rfl
  obtain ⟨window,front⟩ := create_made g k notepad x y w h number
  rw [blackGuiCreateWindow]
  dsimp only
  rw [number,slot_val]
  refine ⟨⟨?_,?_⟩,?_⟩
  · exact (congrArg slot front).trans (slot_val k)
  · exact (congrArg Window.title window).trans (Text.ext rfl)
  · rw [Screen.term]
    simp only [Screen.setPane,Function.update_self,window,Pane.zeroed,fresh]
    rfl

/-- What a Notepad shows after any keys, and what has been typed into it. -/
theorem notepad_shows (focused : Focused g k) (m : Memory) (new : g.term k = fresh m) (keys : List Byte) :
    let p := typed 72 newline backspace (keys.filter taken)
    Shows ((keys.foldl (fun g => blackGuiKeyInput g blackExecuteCmd) g).term k) (p.above.rtake 44) p.last ∧
      (∀ row ∈ p.above.rtake 44 ++ [p.last], row.length ≤ 72 ∧ 0 ∉ row) ∧
      ∀ row ∈ p.above.rtake 44 ++ [p.last], ∀ c ∈ row, c ≠ newline ∧ c ≠ backspace := by
  intro p
  have listed (row : List Byte) (shown : row ∈ p.above.rtake 44 ++ [p.last]) : row ∈ p.rows := by
    rcases List.mem_append.mp shown with above | own
    · exact List.mem_append_left _ (List.mem_of_mem_drop above)
    · exact List.mem_append_right _ own
  have plain (row : List Byte) (shown : row ∈ p.above.rtake 44 ++ [p.last]) :=
    typed_plain 72 newline backspace (keys.filter taken) (by decide) row (listed row shown)
  refine ⟨?_,fun row shown => ⟨?_,fun zero => ?_⟩,fun row shown c inside => (plain row shown c inside).2⟩
  · rw [keys_term g blackExecuteCmd k focused keys,new]
    exact puts_shows m _
  · exact typed_fits 72 newline backspace _ (by decide) row (listed row shown)
  · exact taken_plain 0 (List.of_mem_filter (plain row shown 0 zero).1) rfl

end Keys

/-- A Notepad that has been typed into, saved, and opened in another new window looks as it did just when the cursor
is not in the last row, or nothing is to be seen. -/
theorem notepad_reopens_iff {Files : Type} (g : Screen Files) (blackExecuteCmd : List Byte → List Byte) (x y w h : Int)
    (k : Fin maxWindows) (made : (blackGuiCreateWindow g notepad x y w h).2 = k.val) (keys : List Byte) (m : Memory) :
    let pad := (keys.foldl (fun g => blackGuiKeyInput g blackExecuteCmd) (blackGuiCreateWindow g notepad x y w h).1).term k
    (∀ y < 45, ∀ x < 72, (openText (fresh m) (saveText pad)).cell y x = pad.cell y x) ↔
      pad.termCy < 44 ∨ ∀ y < 45, ∀ x < 72, pad.cell y x = 0 := by
  intro pad
  obtain ⟨focused,new⟩ := created_focused g k x y w h made
  obtain ⟨shows,clean,plain⟩ := notepad_shows _ blackExecuteCmd k focused _ new keys
  exact opened_iff pad _ _ shows clean plain m

def desk : Screen Unit := Screen.start Scheduler.unset ()

def first : Fin maxWindows := ⟨0,by decide⟩

/-- The letter "a" in a Notepad. -/
theorem notepad_reopens_iff_letter :
    let pad := ([0x61].foldl (fun g => blackGuiKeyInput g id) (blackGuiCreateWindow desk notepad 10 10 400 300).1).term first
    (∀ y < 45, ∀ x < 72, (openText (fresh fun _ => 0) (saveText pad)).cell y x = pad.cell y x) ↔
      pad.termCy < 44 ∨ ∀ y < 45, ∀ x < 72, pad.cell y x = 0 :=
  notepad_reopens_iff desk id 10 10 400 300 first rfl [0x61] fun _ => 0

/-- The letter "a" and 44 newlines, after which the letter is lost. -/
theorem notepad_scrolled :
    let keys := 0x61 :: List.replicate 44 newline
    let pad := (keys.foldl (fun g => blackGuiKeyInput g id) (blackGuiCreateWindow desk notepad 10 10 400 300).1).term first
    ¬∀ y < 45, ∀ x < 72, (openText (fresh fun _ => 0) (saveText pad)).cell y x = pad.cell y x := by
  intro keys pad same
  obtain ⟨focused,new⟩ := created_focused desk first 10 10 400 300 rfl
  obtain ⟨shows,clean,plain⟩ := notepad_shows _ id first focused _ new keys
  rcases (opened_iff pad _ _ shows clean plain fun _ => 0).mp same with above | nothing
  · rw [shows.row] at above
    exact absurd above (by decide)
  · have letter := nothing 0 (by decide) 0 (by decide)
    rw [shows.cells 0 (by decide) 0 (by decide)] at letter
    exact absurd letter (by decide)

end BlackOS.Notepad
