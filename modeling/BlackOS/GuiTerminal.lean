import BlackOS.Framebuffer
import BlackOS.Library.Scroll
import BlackOS.Library.Wrapped

/-! The terminal of `kernel/gui/terminal.c`, from the characters that are printed to the pixels that are drawn. -/
namespace BlackOS.GuiTerminal
open BlackOS.Library.Canvas BlackOS.Library.Scroll BlackOS.Fb
open BlackOS.Library.Ram (Byte Word)

def blackTermCols : Nat := 80
def blackTermRows : Nat := 25

def newline : Byte := 0x0A
def space : Byte := 0x20

/-- The variables of the file; the buffer goes on behind its last row and column. -/
structure State where
  buf : Nat → Nat → Byte
  cx : Nat
  cy : Nat

def blackGuiTerminalInit (s : State) : State :=
  ⟨fun r c => if r < blackTermRows ∧ c < blackTermCols then space else s.buf r c,0,0⟩

/-- The loops of the scroll take every row from the one below, which they have not written yet. -/
def scrolled (buf : Nat → Nat → Byte) (r c : Nat) : Byte :=
  if c < blackTermCols then
    if r + 1 < blackTermRows then buf (r + 1) c else if r + 1 = blackTermRows then space else buf r c
  else buf r c

def blackGuiTerminalPutchar (s : State) (ch : Byte) : State :=
  let s :=
    if ch = newline then {s with cx := 0,cy := s.cy + 1}
    else if s.cx < blackTermCols then
      {s with buf := Function.update s.buf s.cy (Function.update (s.buf s.cy) s.cx ch),cx := s.cx + 1}
    else s
  if s.cy ≥ blackTermRows then {s with buf := scrolled s.buf,cy := blackTermRows - 1} else s

/-- A string of one character, which is empty where the character is zero. -/
def single (ch : Byte) : List Byte := if ch = 0 then [] else [ch]

def blackGuiTerminalRender (s : State) (fb : Framebuffer) (ox oy : Int) : Framebuffer :=
  (List.range blackTermRows).foldl (fun fb r => (List.range blackTermCols).foldl (fun fb c =>
    blackFbDrawstring fb (ox + (c : Nat) * 8) (oy + (r : Nat) * 16) (single (s.buf r c)) 0x00FF00 0x000000) fb) fb

/-- The lines of a text; the last one is not ended. -/
def linesOf (text : List Byte) : List (List Byte) := text.splitOn newline

/-- The character of a line of the text, with spaces behind it. -/
def charAt (text : List Byte) (l c : Nat) : Byte := (((linesOf text)[l]?.getD [])[c]?).getD space

theorem linesOf_newline (text : List Byte) : linesOf (text ++ [newline]) = linesOf text ++ [[]] := by
  unfold linesOf
  rw [List.splitOn_append_cons_self,List.splitOn_nil]

theorem linesOf_snoc (text : List Byte) (ch : Byte) (plain : ch ≠ newline) :
    ∃ above last, linesOf text = above ++ [last] ∧ linesOf (text ++ [ch]) = above ++ [last ++ [ch]] := by
  induction text with
  | nil =>
    refine ⟨[],[],List.splitOn_nil _,?_⟩
    exact List.splitOn_eq_singleton (by simpa using plain.symm)
  | cons x text ih =>
    obtain ⟨above,last,before,after⟩ := ih
    unfold linesOf at before after ⊢
    rw [List.cons_append,List.splitOn_cons_eq_if_modifyHead,List.splitOn_cons_eq_if_modifyHead,before,after]
    by_cases ends : x = newline
    · exact ⟨[]::above,last,by simp [ends],by simp [ends]⟩
    · cases above with
      | nil => exact ⟨[],x::last,by simp [ends],by simp [ends]⟩
      | cons line above => exact ⟨(x::line)::above,last,by simp [ends],by simp [ends]⟩

/-- What a character does to the page; what goes beyond the last column is dropped. -/
def typed (p : Page Byte) (ch : Byte) : Page Byte :=
  if ch = newline then p.down blackTermRows space
  else if p.column < blackTermCols then (p.put ch).goto (p.column + 1) else p

def emptyPage : Page Byte := ⟨fun _ _ => space,0,0,0⟩

structure Prints (first s : State) (p : Page Byte) : Prop where
  shows : Shows blackTermRows blackTermCols s.buf p
  column : s.cx = p.column
  row : s.cy = p.line - p.first
  inside : ∀ r c, 25 ≤ r ∨ 80 ≤ c → s.buf r c = first.buf r c

theorem init_prints (s : State) : Prints s (blackGuiTerminalInit s) emptyPage := by
  refine ⟨⟨fun r above c left => if_pos ⟨above,left⟩,Nat.le_refl 0,Nat.succ_pos 24⟩,rfl,rfl,fun r c outside => if_neg ?_⟩
  unfold blackTermRows blackTermCols
  omega

theorem putchar_prints (first s : State) (p : Page Byte) (prints : Prints first s p) (ch : Byte) :
    Prints first (blackGuiTerminalPutchar s ch) (typed p ch) := by
  have inside := prints.shows.inside
  have row := prints.row
  have column := prints.column
  have rows : blackTermRows = 25 := rfl
  have cols : blackTermCols = 80 := rfl
  have stays : ¬s.cy ≥ blackTermRows := by omega
  unfold blackGuiTerminalPutchar typed
  by_cases ends : ch = newline
  · simp only [if_pos ends]
    by_cases room : p.line + 1 < p.first + blackTermRows
    · rw [if_neg (by omega)]
      refine ⟨shows_next _ _ _ p prints.shows _ room,?_,?_,prints.inside⟩
      · rw [Page.down,if_pos room]
      · rw [Page.down,if_pos room]
        dsimp only
        omega
    · rw [if_pos (by omega)]
      refine ⟨shows_scrolled _ _ s.buf _ p prints.shows _ (by omega) (fun r last c left => ?_) (fun c left => ?_),?_,?_,
        fun r c outside => ?_⟩
      · exact (if_pos left).trans (if_pos last)
      · refine (if_pos left).trans ((if_neg (by omega)).trans (if_pos ?_))
        rw [rows]
      · rw [Page.down,if_neg room]
      · rw [Page.down,if_neg room]
        dsimp only
        omega
      · refine Eq.trans ?_ (prints.inside r c outside)
        change scrolled s.buf r c = s.buf r c
        unfold scrolled
        split
        · rw [if_neg (by omega),if_neg (by omega)]
        · rfl
  · simp only [if_neg ends,column]
    by_cases room : p.column < blackTermCols
    · simp only [if_pos room]
      rw [if_neg stays]
      refine ⟨shows_goto _ _ _ _ (shows_put _ _ s.buf _ p prints.shows ch ?_ fun r _ c _ apart => ?_) _,rfl,row,
        fun r c outside => ?_⟩
      · rw [row]
        simp
      · by_cases here : r = s.cy
        · have other : c ≠ p.column := apart.resolve_left (by omega)
          simp [here,other]
        · simp [here]
      · refine Eq.trans ?_ (prints.inside r c outside)
        by_cases here : r = s.cy
        · have other : c ≠ p.column := by omega
          simp [here,other]
        · simp [here]
    · simp only [if_neg room]
      rw [if_neg stays]
      exact prints

structure LaidOut (text : List Byte) (p : Page Byte) : Prop where
  cells : ∀ l, ∀ c < 80, p.cell l c = charAt text l c
  line : p.line + 1 = (linesOf text).length
  column : p.column = min 80 ((linesOf text).getLastD []).length
  first : p.first = p.line - 24

theorem empty_laidOut : LaidOut [] emptyPage := by
  have one : linesOf [] = [[]] := List.splitOn_nil _
  refine ⟨fun l c _ => ?_,?_,?_,rfl⟩
  · unfold charAt
    rw [one]
    cases l <;> rfl
  · rw [one]
    rfl
  · rw [one]
    rfl

theorem typed_laidOut (text : List Byte) (p : Page Byte) (laid : LaidOut text p) (ch : Byte) :
    LaidOut (text ++ [ch]) (typed p ch) := by
  obtain ⟨cells,line,column,first⟩ := laid
  have rows : blackTermRows = 25 := rfl
  have cols : blackTermCols = 80 := rfl
  unfold typed
  by_cases ends : ch = newline
  · rw [if_pos ends,ends]
    have longer := linesOf_newline text
    have same (l c : Nat) (other : l ≠ p.line + 1) : charAt (text ++ [newline]) l c = charAt text l c := by
      unfold charAt
      rw [longer,Library.Wrapped.getElem?_snoc,if_neg (by omega)]
    have new (c : Nat) : charAt (text ++ [newline]) (p.line + 1) c = space := by
      unfold charAt
      rw [longer,Library.Wrapped.getElem?_snoc,if_pos line]
      rfl
    have before (c : Nat) : charAt text (p.line + 1) c = space := by
      unfold charAt
      rw [List.getElem?_eq_none (Nat.le_of_eq line.symm)]
      rfl
    have last : min 80 ((linesOf (text ++ [newline])).getLastD []).length = 0 := by
      rw [longer,List.getLastD_concat]
      rfl
    have size : (linesOf (text ++ [newline])).length = p.line + 2 := by
      rw [longer,List.length_append,← line]
      rfl
    by_cases room : p.line + 1 < p.first + blackTermRows
    · rw [Page.down,if_pos room]
      refine ⟨fun l c left => ?_,size.symm,last.symm,?_⟩
      · by_cases here : l = p.line + 1
        · rw [here,new c]
          exact (cells _ c left).trans (before c)
        · rw [same l c here]
          exact cells l c left
      · dsimp only
        omega
    · rw [Page.down,if_neg room]
      refine ⟨fun l c left => ?_,size.symm,last.symm,?_⟩
      · by_cases here : l = p.line + 1
        · simp [here,new]
        · simp [here,same l c here,cells l c left]
      · dsimp only
        omega
  · rw [if_neg ends]
    obtain ⟨above,last,split,longer⟩ := linesOf_snoc text ch ends
    have place : p.line = above.length := by
      rw [split,List.length_append] at line
      exact Nat.succ.inj line
    rw [split,List.getLastD_concat] at column
    have size : (linesOf (text ++ [ch])).length = p.line + 1 := by
      rw [longer,List.length_append,place]
      rfl
    have width : ((linesOf (text ++ [ch])).getLastD []).length = last.length + 1 := by
      rw [longer,List.getLastD_concat,List.length_append]
      rfl
    have others (l c : Nat) (other : l ≠ p.line) : charAt (text ++ [ch]) l c = charAt text l c := by
      unfold charAt
      rw [longer,split,Library.Wrapped.getElem?_snoc,Library.Wrapped.getElem?_snoc,if_neg (by omega),if_neg (by omega)]
    have here (c : Nat) : charAt (text ++ [ch]) p.line c = ((last ++ [ch])[c]?).getD space := by
      unfold charAt
      rw [longer,Library.Wrapped.getElem?_snoc,if_pos place]
      rfl
    have was (c : Nat) : charAt text p.line c = (last[c]?).getD space := by
      unfold charAt
      rw [split,Library.Wrapped.getElem?_snoc,if_pos place]
      rfl
    by_cases room : p.column < blackTermCols
    · rw [if_pos room]
      have short : p.column = last.length := by omega
      refine ⟨fun l c left => ?_,size.symm,?_,first⟩
      · change (p.put ch).cell l c = _
        by_cases row : l = p.line
        · rw [row,here c,Library.Wrapped.getElem?_snoc]
          by_cases end_ : c = last.length
          · simp [Page.put,short,end_]
          · have old := cells p.line c left
            rw [was c] at old
            simp [Page.put,short,end_,old]
        · rw [others l c row,← cells l c left]
          simp [Page.put,row]
      · rw [width]
        change p.column + 1 = _
        omega
    · rw [if_neg room]
      refine ⟨fun l c left => ?_,size.symm,?_,first⟩
      · by_cases row : l = p.line
        · rw [row,here c,cells p.line c left,was c,Library.Wrapped.getElem?_snoc,if_neg (by omega)]
        · rw [others l c row]
          exact cells l c left
      · rw [width]
        omega

theorem text_prints (s : State) (text : List Byte) : ∃ p, LaidOut text p ∧
    Prints s (text.foldl blackGuiTerminalPutchar (blackGuiTerminalInit s)) p := by
  induction text using List.reverseRecOn with
  | nil => exact ⟨emptyPage,empty_laidOut,init_prints s⟩
  | append_singleton text ch ih =>
    obtain ⟨p,laid,prints⟩ := ih
    rw [List.foldl_concat]
    exact ⟨typed p ch,typed_laidOut text p laid ch,putchar_prints s _ p prints ch⟩

theorem linesOf_subset (text line : List Byte) (listed : line ∈ linesOf text) : ∀ ch ∈ line, ch ∈ text := by
  induction text using List.reverseRecOn generalizing line with
  | nil =>
    rw [linesOf,List.splitOn_nil,List.mem_singleton] at listed
    intro ch inside
    rw [listed] at inside
    exact inside
  | append_singleton text c ih =>
    intro ch inside
    by_cases ends : c = newline
    · rw [ends,linesOf_newline] at listed
      rcases List.mem_append.mp listed with old | new
      · exact List.mem_append_left _ (ih line old ch inside)
      · rw [List.mem_singleton.mp new] at inside
        cases inside
    · obtain ⟨above,last,split,longer⟩ := linesOf_snoc text c ends
      rw [longer] at listed
      rcases List.mem_append.mp listed with old | new
      · exact List.mem_append_left _ (ih line (split ▸ List.mem_append_left _ old) ch inside)
      · rw [List.mem_singleton.mp new] at inside
        rcases List.mem_append.mp inside with old | same
        · exact List.mem_append_left _ (ih last (split ▸ List.mem_append_right _ (List.mem_singleton_self _)) ch old)
        · exact List.mem_append_right _ same

/-- No character of the screen is zero where none of the text is. -/
theorem charAt_nonzero (text : List Byte) (clean : 0 ∉ text) (l c : Nat) : charAt text l c ≠ 0 := by
  have blank : space ≠ 0 := by decide
  unfold charAt
  cases line : (linesOf text)[l]? with
  | none => simpa using blank
  | some row =>
    cases ch : row[c]? with
    | none => simpa [ch] using blank
    | some v =>
      have inside := linesOf_subset text row (List.mem_of_getElem? line) v (List.mem_of_getElem? ch)
      simp only [Option.getD_some,ch]
      exact fun zero => clean (zero ▸ inside)

section Render
variable (s : State) (ox oy : Int) (nonzero : ∀ r < 25, ∀ c < 80, s.buf r c ≠ 0)

def rendered (p : Plane Word) : Plane Word :=
  (List.range 25).foldl (fun p r => (List.range 80).foldl (fun p c =>
    paintString p (ox + (c : Nat) * 8) (oy + (r : Nat) * 16) (single (s.buf r c)) 0x00FF00 0x000000) p) p

theorem render_clips (first : Framebuffer) (fits : Fits first) (fb : Framebuffer) (p : Plane Word) (clips : Clips first fb p) :
    Clips first (blackGuiTerminalRender s fb ox oy) (rendered s ox oy p) := by
  refine List.foldl_rel clips fun r _ fb p row => ?_
  exact List.foldl_rel row fun c _ fb p cell => drawstring_clips first fits _ fb p cell _ _ _ _

include nonzero

theorem single_paints (r : Nat) (above : r < 25) (c : Nat) (left : c < 80) (p : Plane Word) (x y : Int) :
    paintString p x y (single (s.buf r c)) 0x00FF00 0x000000 = paint p x y 8 8 (glyphColor (s.buf r c) 0x00FF00 0x000000) := by
  rw [single,if_neg (nonzero r above c left)]
  rfl

theorem rendered_cell (p : Plane Word) (r : Nat) (above : r < 25) (c : Nat) (left : c < 80) (i j : Nat) (column : i < 8) (row : j < 8) :
    rendered s ox oy p (ox + c * 8 + i) (oy + r * 16 + j) = glyphColor (s.buf r c) 0x00FF00 0x000000 i j := by
  refine foldl_hits _ _ p _ _ r (List.mem_range.mpr above) _ (fun p => ?_) fun r' listed other p => ?_
  · refine foldl_hits _ _ p _ _ c (List.mem_range.mpr left) _ (fun p => ?_) fun c' listed other p => ?_
    · rw [single_paints s nonzero r above c left]
      exact paint_inside _ _ _ 8 8 _ i j column row
    · rw [single_paints s nonzero r above c' (List.mem_range.mp listed)]
      exact paint_outside _ _ _ _ _ _ _ _ (by omega)
  · refine foldl_misses _ _ p _ _ fun c' among p => ?_
    rw [single_paints s nonzero r' (List.mem_range.mp listed) c' (List.mem_range.mp among)]
    exact paint_outside _ _ _ _ _ _ _ _ (by omega)

/-- Between the rows, and around the terminal, nothing is drawn. -/
theorem rendered_around (p : Plane Word) (a b : Int)
    (around : a < ox ∨ ox + 640 ≤ a ∨ b < oy ∨ oy + 400 ≤ b ∨ 8 ≤ (b - oy) % 16) : rendered s ox oy p a b = p a b := by
  refine foldl_misses _ _ p a b fun r listed p => ?_
  refine foldl_misses _ _ p a b fun c among p => ?_
  have above := List.mem_range.mp listed
  have left := List.mem_range.mp among
  rw [single_paints s nonzero r above c left]
  exact paint_outside _ _ _ _ _ _ _ _ (by omega)

end Render

/-- The terminal keeps the last twenty-five lines of what is printed, each cut behind its eightieth character, and writes
nothing outside its buffer. Once it is drawn and the buffers are swapped, every pixel of it that is on the screen is that of
its character's glyph, and the other pixels are those of before. -/
theorem terminal_seen (s : State) (text : List Byte) (clean : 0 ∉ text) (first fb : Framebuffer) (fits : Fits first)
    (screen : Nat → Word) (mapped : first.addr = some screen) (p : Plane Word) (clips : Clips first fb p) (ox oy : Int) :
    let t := text.foldl blackGuiTerminalPutchar (blackGuiTerminalInit s)
    (∀ r < 25, ∀ c < 80, t.buf r c = charAt text ((linesOf text).length - 25 + r) c) ∧
      (∀ r c, 25 ≤ r ∨ 80 ≤ c → t.buf r c = s.buf r c) ∧
      ∃ shown, (blackFbSwap (blackGuiTerminalRender t fb ox oy)).addr = some shown ∧
        ∀ x < first.width.toNat, ∀ y < first.height.toNat,
          (∀ r c i j : Nat, r < 25 → c < 80 → i < 8 → j < 8 → (x : Int) = ox + c * 8 + i → (y : Int) = oy + r * 16 + j →
            shown (y * (first.pitch.toNat / 4) + x) =
              glyphColor (charAt text ((linesOf text).length - 25 + r) c) 0x00FF00 0x000000 i j) ∧
          (x < ox ∨ ox + 640 ≤ x ∨ y < oy ∨ oy + 400 ≤ y ∨ 8 ≤ ((y : Int) - oy) % 16 →
            shown (y * (first.pitch.toNat / 4) + x) = p x y) := by
  intro t
  obtain ⟨page,laid,prints⟩ := text_prints s text
  have cells (r : Nat) (above : r < 25) (c : Nat) (left : c < 80) :
      t.buf r c = charAt text ((linesOf text).length - 25 + r) c := by
    have first := laid.first
    have line := laid.line
    have top : page.first = (linesOf text).length - 25 := by omega
    rw [← top,← laid.cells _ c left]
    exact prints.shows.cells r above c left
  have nonzero (r : Nat) (above : r < 25) (c : Nat) (left : c < 80) : t.buf r c ≠ 0 := by
    rw [cells r above c left]
    exact charAt_nonzero text clean _ c
  obtain ⟨shown,swapped,seen,_⟩ := swap_shows first fits _ _ (render_clips t ox oy first fits fb p clips) screen mapped
  refine ⟨cells,prints.inside,shown,swapped,fun x left y above => ⟨?_,fun around => ?_⟩⟩
  · intro r c i j low narrow column row atX atY
    rw [seen x left y above,atX,atY,← cells r low c narrow]
    exact rendered_cell t ox oy nonzero p r low c narrow i j column row
  · rw [seen x left y above]
    exact rendered_around t ox oy nonzero p x y around

theorem terminal_seen_mark : ∃ shown,
    (blackFbSwap (blackGuiTerminalRender ([0x21].foldl blackGuiTerminalPutchar (blackGuiTerminalInit ⟨fun _ _ => 0,0,0⟩)) tiny 0 0)).addr =
      some shown ∧ shown 2 = 0 ∧ shown 3 = 0x00FF00 := by
  have begins : Clips tiny tiny fun _ _ => 0 :=
    ⟨⟨rfl,rfl,rfl,rfl⟩,fun _ => 0,fun _ => 0,rfl,rfl,fun _ _ _ _ => rfl,fun _ _ => rfl⟩
  obtain ⟨_,_,shown,swapped,seen⟩ := terminal_seen ⟨fun _ _ => 0,0,0⟩ [0x21] (by decide) tiny tiny ⟨by decide,by decide⟩ _ rfl _
    begins 0 0
  have first := (seen 2 (by decide) 0 (by decide)).1 0 0 2 0 (by decide) (by decide) (by decide) (by decide) rfl rfl
  have second := (seen 3 (by decide) 0 (by decide)).1 0 0 3 0 (by decide) (by decide) (by decide) (by decide) rfl rfl
  exact ⟨shown,swapped,first.trans (by decide),second.trans (by decide)⟩

end BlackOS.GuiTerminal
