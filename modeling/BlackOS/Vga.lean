import BlackOS.Library.Scroll
import BlackOS.Library.Wrapped
import BlackOS.SerialFormat
import Mathlib.Data.Nat.Digits.Defs

/-! The text screen of `kernel/drivers/vga/vga.c`. What lies behind the 2000 cells of the screen is part of the buffer of
the model, so that a write past its end is seen. -/
namespace BlackOS.Vga
open BlackOS.Library.Ram BlackOS.Library.Scroll
open BlackOS.SerialFormat (hexDigit)

abbrev Cell := BitVec 16

def blackVgaWidth : Nat := 80
def blackVgaHeight : Nat := 25
def blackVgaOkAttr : Byte := 0x0A
def blackVgaErrAttr : Byte := 0x04

/-- The registers behind the ports 0x3D4 and 0x3D5. -/
structure Crtc where
  index : Byte
  regs : Byte → Byte

def Crtc.outb (d : Crtc) (port : Nat) (v : Byte) : Crtc :=
  match port with
  | 0x3D4 => {d with index := v}
  | 0x3D5 => {d with regs := Function.update d.regs d.index v}
  | _ => d

/-- The place of the cursor that the screen shows. -/
def Crtc.cursor (d : Crtc) : Nat := (d.regs 0x0E).toNat * 256 + (d.regs 0x0F).toNat

/-- The variables of the file, the cursor of the screen, and the characters given to the callback. -/
structure State where
  buffer : Nat → Cell
  x : Nat
  y : Nat
  attr : Byte
  cb : Bool
  passed : List Byte
  crtc : Crtc

/-- A character is signed, so that the upper half of the codes takes all bits of the attribute. -/
def cellOf (attr c : Byte) : Cell := c.signExtend 16 ||| attr.zeroExtend 16 <<< 8

def blank (attr : Byte) : Cell := cellOf attr 0x20

def blackVgaSetCallback (s : State) (cb : Bool) : State := {s with cb := cb}

def blackVgaClear (s : State) : State :=
  {s with buffer := fun i => if i < blackVgaWidth * blackVgaHeight then blank s.attr else s.buffer i,x := 0,y := 0}

/-- The first loop takes every cell from the row below, which it has not written yet. -/
def blackVgaScroll (s : State) : State :=
  if s.y ≥ blackVgaHeight then
    {s with
      buffer := fun i =>
        if i < blackVgaWidth * (blackVgaHeight - 1) then s.buffer (i + blackVgaWidth)
        else if i < blackVgaWidth * blackVgaHeight then blank s.attr
        else s.buffer i
      y := blackVgaHeight - 1}
  else s

def blackVgaSetCursor (s : State) (x y : Nat) : State :=
  let pos : BitVec 16 := BitVec.ofNat 16 (y * blackVgaWidth + x)
  let d := s.crtc.outb 0x3D4 0x0F
  let d := d.outb 0x3D5 ((pos &&& 0xFF).truncate 8)
  let d := d.outb 0x3D4 0x0E
  {s with crtc := d.outb 0x3D5 (((pos >>> 8) &&& 0xFF).truncate 8)}

def store (s : State) (x : Nat) (v : Cell) : State :=
  {s with buffer := Function.update s.buffer (s.y * blackVgaWidth + x) v}

def blackVgaPutchar (s : State) (c : Byte) : State :=
  let s := if s.cb then {s with passed := s.passed ++ [c]} else s
  let s :=
    if c = 0x0A then {s with x := 0,y := s.y + 1}
    else if c = 0x0D then {s with x := 0}
    else if c = 0x09 then {s with x := (s.x + 4) / 4 * 4}
    else if c = 0x08 then
      if s.x > 0 then {store s (s.x - 1) (blank s.attr) with x := s.x - 1} else s
    else {store s s.x (cellOf s.attr c) with x := s.x + 1}
  let s := if s.x ≥ blackVgaWidth then {s with x := 0,y := s.y + 1} else s
  let s := blackVgaScroll s
  blackVgaSetCursor s s.x s.y

/-- The characters of a string up to its end. -/
def blackVgaPuts (s : State) (text : List Byte) : State := text.foldl blackVgaPutchar s

def blackVgaSetColor (s : State) (fg bg : Byte) : State := {s with attr := bg <<< 4 ||| fg}

def blackVgaPutsColored (s : State) (text : List Byte) (attr : Byte) : State :=
  {blackVgaPuts {s with attr := attr} text with attr := s.attr}

/-- "[  OK  ]". -/
def okText : List Byte := [0x5B,0x20,0x20,0x4F,0x4B,0x20,0x20,0x5D]

/-- "[ FAIL ]". -/
def failText : List Byte := [0x5B,0x20,0x46,0x41,0x49,0x4C,0x20,0x5D]

def blackVgaPutsOk (s : State) : State := blackVgaPutsColored s okText blackVgaOkAttr
def blackVgaPutsFail (s : State) : State := blackVgaPutsColored s failText blackVgaErrAttr

/-- The loop of `black_vga_put_dec`, with the digits in front of those that it adds. -/
def decLoop : Nat → Word → List Byte → List Byte
  | 0,_,buf => buf
  | fuel+1,val,buf => if val = 0 then buf else decLoop fuel (val / 10) (buf ++ [0x30 + (val % 10).truncate 8])

def blackVgaPutDec (s : State) (val : Word) : State :=
  if val = 0 then blackVgaPutchar s 0x30 else blackVgaPuts s (decLoop 12 val []).reverse

def blackVgaPutHex (s : State) (val : Word) : State :=
  (List.range 8).foldl (fun s i => blackVgaPutchar s (hexDigit ((val >>> (28 - 4 * i)) &&& 0xF))) (blackVgaPuts s [0x30,0x78])

/-- The screen as rows and columns. -/
def grid (s : State) (r c : Nat) : Cell := s.buffer (r * blackVgaWidth + c)

/-- What a character does to the page: the text goes on in the next line behind column 79, and a tabulator, a carriage
return and a backspace move in the line. -/
def Page.typed (attr : Byte) (p : Page Cell) (c : Byte) : Page Cell :=
  if c = 0x0A then p.down blackVgaHeight (blank attr)
  else
    let q :=
      if c = 0x0D then p.goto 0
      else if c = 0x09 then p.goto ((p.column + 4) / 4 * 4)
      else if c = 0x08 then
        if p.column > 0 then (p.goto (p.column - 1)).put (blank attr) else p
      else (p.put (cellOf attr c)).goto (p.column + 1)
    if q.column ≥ blackVgaWidth then q.down blackVgaHeight (blank attr) else q

structure Prints (s : State) (p : Page Cell) : Prop where
  shows : Shows blackVgaHeight blackVgaWidth (grid s) p
  column : s.x = p.column
  row : s.y = p.line - p.first

theorem Prints.keeps {s t : State} {p : Page Cell} (prints : Prints s p) (buffer : t.buffer = s.buffer) (x : t.x = s.x)
    (y : t.y = s.y) : Prints t p := by
  have same : grid t = grid s := by
    funext r c
    exact congrFun buffer _
  exact ⟨same ▸ prints.shows,x.trans prints.column,y.trans prints.row⟩

/-- The cells behind the screen are those of before. -/
def Inside (s s' : State) : Prop := ∀ i, 2000 ≤ i → s'.buffer i = s.buffer i

/-- The cursor of the screen is where the next character goes. -/
def Cursor (s : State) : Prop := s.crtc.cursor = s.y * blackVgaWidth + s.x

theorem setCursor_cursor (s : State) (x y : Nat) (left : x < 80) (above : y < 25) :
    (blackVgaSetCursor s x y).crtc.cursor = y * blackVgaWidth + x := by
  have width : blackVgaWidth = 80 := rfl
  have small : y * 80 + x < 2^16 := by omega
  have apart : (0x0F : Byte) ≠ 0x0E := by decide
  have low (v : BitVec 16) : (((v &&& 0xFF).truncate 8 : Byte)).toNat = v.toNat % 256 := by
    rw [BitVec.truncate_eq_setWidth,BitVec.toNat_setWidth,BitVec.toNat_and]
    have mask : v.toNat &&& (0xFF : BitVec 16).toNat = v.toNat % 2^8 := Nat.and_two_pow_sub_one_eq_mod _ 8
    exact (congrArg (· % 256) mask).trans (Nat.mod_mod _ _)
  unfold blackVgaSetCursor Crtc.cursor
  simp only [Crtc.outb,Function.update_self,Function.update_of_ne apart,low,BitVec.toNat_ushiftRight,
    Nat.shiftRight_eq_div_pow,BitVec.toNat_ofNat,width]
  omega

section Putchar
variable (s : State) (p : Page Cell) (prints : Prints s p)
include prints

theorem row_lt : s.y < 25 := by
  have inside := prints.shows.inside
  have row := prints.row
  have height : blackVgaHeight = 25 := rfl
  omega

theorem store_prints (column : Nat) (left : column < 80) (v : Cell) :
    Shows blackVgaHeight blackVgaWidth (grid (store s column v)) ((p.goto column).put v) := by
  have row := prints.row
  have width : blackVgaWidth = 80 := rfl
  refine shows_put _ _ (grid s) _ (p.goto column) (shows_goto _ _ _ p prints.shows column) v ?_ fun r _ c within apart => ?_
  · change Function.update s.buffer (s.y * blackVgaWidth + column) v ((p.line - p.first) * blackVgaWidth + column) = v
    rw [row,Function.update_self]
  · change r ≠ p.line - p.first ∨ c ≠ column at apart
    have other : r * blackVgaWidth + c ≠ s.y * blackVgaWidth + column := by
      rw [width] at within ⊢
      omega
    exact Function.update_of_ne other _ _

theorem store_inside (column : Nat) (left : column < 80) (v : Cell) : Inside s (store s column v) := by
  have row := row_lt s p prints
  intro i outside
  have other : i ≠ s.y * blackVgaWidth + column := by
    unfold blackVgaWidth
    omega
  exact Function.update_of_ne other _ _

/-- The next row, after which the screen may have moved. -/
theorem down_prints : Prints (blackVgaScroll {s with x := 0,y := s.y + 1}) (p.down blackVgaHeight (blank s.attr)) := by
  have inside := prints.shows.inside
  have row := prints.row
  have height : blackVgaHeight = 25 := rfl
  have width : blackVgaWidth = 80 := rfl
  by_cases room : p.line + 1 < p.first + blackVgaHeight
  · have same : blackVgaScroll {s with x := 0,y := s.y + 1} = {s with x := 0,y := s.y + 1} :=
      if_neg (by dsimp only; omega)
    rw [same]
    refine ⟨shows_next _ _ _ p prints.shows _ room,?_,?_⟩
    · rw [Page.down,if_pos room]
    · rw [Page.down,if_pos room]
      dsimp only
      omega
  · let scrolled : State :=
      {s with
        buffer := fun i =>
          if i < blackVgaWidth * (blackVgaHeight - 1) then s.buffer (i + blackVgaWidth)
          else if i < blackVgaWidth * blackVgaHeight then blank s.attr
          else s.buffer i
        x := 0
        y := blackVgaHeight - 1}
    have moves : blackVgaScroll {s with x := 0,y := s.y + 1} = scrolled := if_pos (by dsimp only; omega)
    rw [moves]
    refine ⟨shows_scrolled _ _ (grid s) _ p prints.shows _ (by omega) (fun r last c left => ?_) fun c left => ?_,?_,?_⟩
    · have place : (r + 1) * blackVgaWidth + c = r * blackVgaWidth + c + blackVgaWidth := by
        rw [width]
        omega
      rw [grid,grid,place]
      exact if_pos (by rw [width] at left ⊢; omega)
    · rw [grid]
      have below : ¬(blackVgaHeight - 1) * blackVgaWidth + c < blackVgaWidth * (blackVgaHeight - 1) := by
        rw [height,width]
        omega
      exact (if_neg below).trans (if_pos (by rw [width] at left ⊢; omega))
    · rw [Page.down,if_neg room]
    · rw [Page.down,if_neg room]
      dsimp only [scrolled]
      omega

omit prints in
theorem down_inside : Inside s (blackVgaScroll {s with x := 0,y := s.y + 1}) := by
  intro i outside
  have height : blackVgaHeight = 25 := rfl
  have width : blackVgaWidth = 80 := rfl
  unfold blackVgaScroll
  split
  · dsimp only
    rw [if_neg (by rw [height,width]; omega),if_neg (by rw [height,width]; omega)]
  · rfl

end Putchar

/-- The three steps of a character: what it stores, the row that it ends, and the cursor. -/
def stored (s : State) (c : Byte) : State :=
  if c = 0x0D then {s with x := 0}
  else if c = 0x09 then {s with x := (s.x + 4) / 4 * 4}
  else if c = 0x08 then
    if s.x > 0 then {store s (s.x - 1) (blank s.attr) with x := s.x - 1} else s
  else {store s s.x (cellOf s.attr c) with x := s.x + 1}

def Page.stored (attr : Byte) (p : Page Cell) (c : Byte) : Page Cell :=
  if c = 0x0D then p.goto 0
  else if c = 0x09 then p.goto ((p.column + 4) / 4 * 4)
  else if c = 0x08 then
    if p.column > 0 then (p.goto (p.column - 1)).put (blank attr) else p
  else (p.put (cellOf attr c)).goto (p.column + 1)

section Characters
variable (s : State) (p : Page Cell) (prints : Prints s p) (narrow : p.column < 80) (c : Byte)
include prints narrow

theorem stored_prints : Prints (stored s c) (Page.stored s.attr p c) ∧ Inside s (stored s c) ∧
    (Page.stored s.attr p c).column ≤ 80 := by
  have column := prints.column
  unfold stored Page.stored
  split_ifs with isReturn isTab isBackspace filled filled filled
  · exact ⟨⟨shows_goto _ _ _ p prints.shows 0,rfl,prints.row⟩,fun _ _ => rfl,Nat.zero_le _⟩
  · refine ⟨⟨shows_goto _ _ _ p prints.shows _,?_,prints.row⟩,fun _ _ => rfl,?_⟩
    · simp [Page.goto,column]
    · dsimp only [Page.goto]
      omega
  · refine ⟨⟨?_,?_,prints.row⟩,store_inside s p prints _ (by omega) _,?_⟩
    · have shows := store_prints s p prints (s.x - 1) (by omega) (blank s.attr)
      rw [column] at shows ⊢
      exact shows
    · simp [Page.goto,Page.put,column]
    · dsimp only [Page.goto,Page.put]
      omega
  · omega
  · omega
  · exact ⟨prints,fun _ _ => rfl,Nat.le_of_lt narrow⟩
  · refine ⟨⟨?_,?_,prints.row⟩,store_inside s p prints _ (by omega) _,narrow⟩
    · have shows := store_prints s p prints s.x (by omega) (cellOf s.attr c)
      have here : p.goto s.x = p := by
        rw [column]
        rfl
      rw [here] at shows
      exact shows_goto _ _ _ _ shows _
    · simp [Page.goto,column]

/-- A character does to the screen what it does to the page, changes no cell behind the screen, and leaves the cursor
where the next character goes. -/
theorem putchar_prints : Prints (blackVgaPutchar s c) (Page.typed s.attr p c) ∧ Inside s (blackVgaPutchar s c) ∧
    (Page.typed s.attr p c).column < 80 ∧ Cursor (blackVgaPutchar s c) ∧ (blackVgaPutchar s c).attr = s.attr := by
  let t : State := if s.cb then {s with passed := s.passed ++ [c]} else s
  have passes : t.buffer = s.buffer ∧ t.x = s.x ∧ t.y = s.y ∧ t.attr = s.attr := by
    dsimp only [t]
    split
    · exact ⟨rfl,rfl,rfl,rfl⟩
    · exact ⟨rfl,rfl,rfl,rfl⟩
  obtain ⟨buffer,x,y,attr⟩ := passes
  have before : Prints t p := prints.keeps buffer x y
  have height : blackVgaHeight = 25 := rfl
  have zero : 0 < 80 := Nat.succ_pos 79
  have short : ¬0 ≥ blackVgaWidth := by decide
  have finish (u : State) (q : Page Cell) (after : Prints u q) (left : q.column < 80) (inside : Inside t u) (colour : u.attr = t.attr) :
      Prints (blackVgaSetCursor u u.x u.y) q ∧ Inside s (blackVgaSetCursor u u.x u.y) ∧ q.column < 80 ∧
        Cursor (blackVgaSetCursor u u.x u.y) ∧ (blackVgaSetCursor u u.x u.y).attr = s.attr := by
    refine ⟨⟨after.shows,after.column,after.row⟩,fun i outside => (inside i outside).trans (congrFun buffer i),left,?_,
      colour.trans attr⟩
    exact setCursor_cursor u u.x u.y (by rw [after.column]; exact left) (row_lt u q after)
  have newRow (u : State) (q : Page Cell) (after : Prints u q) (inside : Inside t u) (colour : u.attr = t.attr) :=
    finish (blackVgaScroll {u with x := 0,y := u.y + 1}) (q.down blackVgaHeight (blank u.attr)) (down_prints u q after)
      (by unfold Page.down; split <;> exact zero)
      (fun i outside => (down_inside u i outside).trans (inside i outside))
      (by unfold blackVgaScroll; split <;> exact colour)
  have unfolds : blackVgaPutchar s c =
      (let u := if c = 0x0A then {t with x := 0,y := t.y + 1} else stored t c
       let u := if u.x ≥ blackVgaWidth then {u with x := 0,y := u.y + 1} else u
       blackVgaSetCursor (blackVgaScroll u) (blackVgaScroll u).x (blackVgaScroll u).y) := rfl
  rw [unfolds]
  dsimp only
  by_cases isNewline : c = 0x0A
  · have typed : Page.typed s.attr p c = p.down blackVgaHeight (blank t.attr) := by
      rw [attr]
      exact if_pos isNewline
    rw [if_pos isNewline,typed,if_neg short]
    exact newRow t p before (fun _ _ => rfl) rfl
  · obtain ⟨after,inside,left⟩ := stored_prints t p before narrow c
    have colour : (stored t c).attr = t.attr := by
      unfold stored
      split_ifs
      all_goals rfl
    have typed : Page.typed s.attr p c = if (Page.stored t.attr p c).column ≥ blackVgaWidth then
        (Page.stored t.attr p c).down blackVgaHeight (blank (stored t c).attr) else Page.stored t.attr p c := by
      rw [colour,attr]
      exact if_neg isNewline
    rw [if_neg isNewline,typed,after.column]
    by_cases full : (Page.stored t.attr p c).column ≥ blackVgaWidth
    · rw [if_pos full,if_pos full]
      exact newRow (stored t c) _ after inside colour
    · have low := row_lt (stored t c) _ after
      have stays : blackVgaScroll (stored t c) = stored t c := if_neg (by omega)
      rw [if_neg full,if_neg full,stays]
      exact finish (stored t c) _ after (Nat.lt_of_not_le full) inside colour

end Characters

theorem typed_follows (attr : Byte) (p : Page Cell) (c : Byte) : Follows p (Page.typed attr p c) := by
  have moves : Follows p (Page.stored attr p c) := by
    unfold Page.stored
    split_ifs
    · exact follows_goto p _
    · exact follows_goto p _
    · exact (follows_goto p _).trans (follows_put _ _)
    · exact Follows.refl p
    · exact (follows_put p _).trans (follows_goto _ _)
  unfold Page.typed
  split
  · exact follows_down _ _ p
  · change Follows p (if (Page.stored attr p c).column ≥ blackVgaWidth then
      (Page.stored attr p c).down blackVgaHeight (blank attr) else Page.stored attr p c)
    split
    · exact moves.trans (follows_down _ _ _)
    · exact moves

/-- What is done to the screen between two times that it is cleared. -/
inductive Op
  | putchar (c : Byte)
  | setColor (fg bg : Byte)
  | setCallback (cb : Bool)
  | putsColored (text : List Byte) (attr : Byte)
  | putsOk
  | putsFail
  | putDec (val : Word)
  | putHex (val : Word)

def run (s : State) : Op → State
  | .putchar c => blackVgaPutchar s c
  | .setColor fg bg => blackVgaSetColor s fg bg
  | .setCallback cb => blackVgaSetCallback s cb
  | .putsColored text attr => blackVgaPutsColored s text attr
  | .putsOk => blackVgaPutsOk s
  | .putsFail => blackVgaPutsFail s
  | .putDec val => blackVgaPutDec s val
  | .putHex val => blackVgaPutHex s val

/-- A number in decimal, without leading zeros. -/
def decimal (n : Nat) : List Byte := if n = 0 then [0x30] else ((Nat.digits 10 n).map fun digit => 0x30 + BitVec.ofNat 8 digit).reverse

/-- A number below 2^32 as eight hexadecimal digits behind "0x". -/
def hexadecimal (n : Nat) : List Byte := [0x30,0x78] ++ (List.range 8).map fun i => hexDigit (word (n / 16^(7 - i) % 16))

/-- A page with the attribute of the next character. -/
structure Sheet where
  attr : Byte
  page : Page Cell

def Sheet.text (p : Sheet) (text : List Byte) (attr : Byte) : Sheet := {p with page := text.foldl (Page.typed attr) p.page}

def Sheet.run (p : Sheet) : Op → Sheet
  | .putchar c => {p with page := Page.typed p.attr p.page c}
  | .setColor fg bg => {p with attr := bg <<< 4 ||| fg}
  | .setCallback _ => p
  | .putsColored text attr => p.text text attr
  | .putsOk => p.text okText blackVgaOkAttr
  | .putsFail => p.text failText blackVgaErrAttr
  | .putDec val => p.text (decimal val.toNat) p.attr
  | .putHex val => p.text (hexadecimal val.toNat) p.attr

def emptyPage (attr : Byte) : Page Cell := ⟨fun _ _ => blank attr,0,0,0⟩

/-- The screen of `s` shows the page, and behind the screen is what was there in `first`. -/
structure Drawn (first s : State) (p : Sheet) : Prop where
  prints : Prints s p.page
  narrow : p.page.column < 80
  attr : s.attr = p.attr
  inside : Inside first s

theorem clear_drawn (s : State) : Drawn s (blackVgaClear s) ⟨s.attr,emptyPage s.attr⟩ := by
  have height : blackVgaHeight = 25 := rfl
  have width : blackVgaWidth = 80 := rfl
  refine ⟨⟨⟨fun r above c left => ?_,Nat.le_refl 0,Nat.succ_pos 24⟩,rfl,rfl⟩,Nat.succ_pos 79,rfl,fun i outside => ?_⟩
  · exact if_pos (by rw [height] at above ⊢; rw [width] at left ⊢; omega)
  · exact if_neg (by rw [height,width]; omega)

theorem decLoop_digits (fuel : Nat) (val : Word) (enough : val.toNat < 10^fuel) (buf : List Byte) :
    decLoop fuel val buf = buf ++ (Nat.digits 10 val.toNat).map fun digit => 0x30 + BitVec.ofNat 8 digit := by
  induction fuel generalizing val buf with
  | zero =>
    have none : val.toNat = 0 := by omega
    simp [decLoop,none]
  | succ fuel ih =>
    rw [decLoop]
    by_cases zero : val = 0
    · simp [zero]
    · have positive : 0 < val.toNat := Nat.pos_of_ne_zero fun none => zero (BitVec.eq_of_toNat_eq none)
      have rest : (val / 10).toNat = val.toNat / 10 := BitVec.toNat_udiv
      have last : (val % 10).truncate 8 = BitVec.ofNat 8 (val.toNat % 10) := by
        apply BitVec.eq_of_toNat_eq
        rw [BitVec.truncate_eq_setWidth,BitVec.toNat_setWidth,BitVec.toNat_umod,BitVec.toNat_ofNat]
        rfl
      rw [if_neg zero,ih (val / 10) (by omega),rest,Nat.digits_def' (by decide) positive,last]
      simp

theorem putDec_decimal (s : State) (val : Word) : blackVgaPutDec s val = blackVgaPuts s (decimal val.toNat) := by
  unfold blackVgaPutDec decimal
  by_cases zero : val = 0
  · have none : val.toNat = 0 := congrArg BitVec.toNat zero
    rw [if_pos zero,if_pos none]
    rfl
  · have positive : val.toNat ≠ 0 := fun none => zero (BitVec.eq_of_toNat_eq none)
    rw [if_neg zero,if_neg positive,decLoop_digits 12 val (Nat.lt_trans val.isLt (by decide)) []]
    rfl

theorem putHex_hexadecimal (s : State) (val : Word) : blackVgaPutHex s val = blackVgaPuts s (hexadecimal val.toNat) := by
  have nibble (i : Nat) (inside : i < 8) : (val >>> (28 - 4 * i)) &&& 0xF = word (val.toNat / 16^(7 - i) % 16) := by
    have place : 28 - 4 * i = 4 * (7 - i) := by omega
    have mask : (0xF : Word).toNat = 2^4 - 1 := rfl
    apply BitVec.eq_of_toNat_eq
    rw [BitVec.toNat_and,BitVec.toNat_ushiftRight,Nat.shiftRight_eq_div_pow,place,Nat.pow_mul,mask,Nat.and_two_pow_sub_one_eq_mod,
      word_toNat _ (by omega)]
  unfold blackVgaPutHex blackVgaPuts hexadecimal
  rw [List.foldl_append,List.foldl_map]
  refine List.foldl_ext _ _ _ fun s i listed => ?_
  rw [nibble i (List.mem_range.mp listed)]

theorem puts_drawn (first s : State) (p : Sheet) (drawn : Drawn first s p) (text : List Byte) :
    Drawn first (blackVgaPuts s text) (p.text text p.attr) := by
  induction text generalizing s p with
  | nil => exact drawn
  | cons c text ih =>
    obtain ⟨prints,inside,narrow,_,attr⟩ := putchar_prints s p.page drawn.prints drawn.narrow c
    rw [drawn.attr] at prints narrow
    exact ih (blackVgaPutchar s c) ⟨p.attr,Page.typed p.attr p.page c⟩
      ⟨prints,narrow,attr.trans drawn.attr,fun i outside => (inside i outside).trans (drawn.inside i outside)⟩

theorem putsColored_drawn (first s : State) (p : Sheet) (drawn : Drawn first s p) (text : List Byte) (attr : Byte) :
    Drawn first (blackVgaPutsColored s text attr) (p.text text attr) := by
  have coloured : Drawn first {s with attr := attr} {p with attr := attr} :=
    ⟨drawn.prints.keeps rfl rfl rfl,drawn.narrow,rfl,drawn.inside⟩
  have printed := puts_drawn first _ _ coloured text
  exact ⟨printed.prints.keeps rfl rfl rfl,printed.narrow,drawn.attr,printed.inside⟩

theorem run_drawn (first s : State) (p : Sheet) (drawn : Drawn first s p) (op : Op) : Drawn first (run s op) (p.run op) := by
  cases op with
  | putchar c => exact puts_drawn first s p drawn [c]
  | setColor fg bg => exact ⟨drawn.prints.keeps rfl rfl rfl,drawn.narrow,rfl,drawn.inside⟩
  | setCallback cb => exact ⟨drawn.prints.keeps rfl rfl rfl,drawn.narrow,drawn.attr,drawn.inside⟩
  | putsColored text attr => exact putsColored_drawn first s p drawn text attr
  | putsOk => exact putsColored_drawn first s p drawn okText blackVgaOkAttr
  | putsFail => exact putsColored_drawn first s p drawn failText blackVgaErrAttr
  | putDec val =>
    have text : run s (.putDec val) = blackVgaPuts s (decimal val.toNat) := putDec_decimal s val
    rw [text]
    exact puts_drawn first s p drawn _
  | putHex val =>
    have text : run s (.putHex val) = blackVgaPuts s (hexadecimal val.toNat) := putHex_hexadecimal s val
    rw [text]
    exact puts_drawn first s p drawn _

theorem text_follows (p : Sheet) (text : List Byte) (attr : Byte) : Follows p.page (p.text text attr).page := by
  change Follows p.page (text.foldl (Page.typed attr) p.page)
  generalize p.page = page
  induction text generalizing page with
  | nil => exact Follows.refl page
  | cons c text ih => exact (typed_follows attr page c).trans (ih _)

theorem run_follows (p : Sheet) (op : Op) : Follows p.page (p.run op).page := by
  cases op with
  | putchar c => exact typed_follows p.attr p.page c
  | setColor fg bg => exact Follows.refl _
  | setCallback cb => exact Follows.refl _
  | putsColored text attr => exact text_follows p text attr
  | putsOk => exact text_follows p _ _
  | putsFail => exact text_follows p _ _
  | putDec val => exact text_follows p _ _
  | putHex val => exact text_follows p _ _

theorem runs_follow (p : Sheet) (ops : List Op) : Follows p.page (ops.foldl Sheet.run p).page := by
  induction ops generalizing p with
  | nil => exact Follows.refl p.page
  | cons op ops ih => exact (run_follows p op).trans (ih (p.run op))

/-- A character that is shown as it is. -/
def Plain (c : Byte) : Prop := c ≠ 0x0A ∧ c ≠ 0x0D ∧ c ≠ 0x09 ∧ c ≠ 0x08

/-- The text in rows of eighty. -/
def laidOut (attr : Byte) (text : List Byte) (l c : Nat) : Cell := (text[80 * l + c]?.map (cellOf attr)).getD (blank attr)

structure LaidOut (attr : Byte) (text : List Byte) (p : Page Cell) : Prop where
  cells : ∀ l, ∀ c < 80, p.cell l c = laidOut attr text l c
  line : p.line = text.length / 80
  column : p.column = text.length % 80
  first : p.first = text.length / 80 - 24

theorem plain_laidOut (attr : Byte) (text : List Byte) (plain : ∀ c ∈ text, Plain c) :
    LaidOut attr text (text.foldl (Page.typed attr) (emptyPage attr)) := by
  induction text using List.reverseRecOn with
  | nil => exact ⟨fun _ _ _ => rfl,rfl,rfl,rfl⟩
  | append_singleton text c ih =>
    obtain ⟨cells,line,column,first⟩ := ih fun d listed => plain d (List.mem_append_left _ listed)
    obtain ⟨notNewline,notReturn,notTab,notBackspace⟩ := plain c (List.mem_append_right _ (List.mem_singleton_self c))
    rw [List.foldl_concat]
    generalize text.foldl (Page.typed attr) (emptyPage attr) = p at cells line column first
    have height : blackVgaHeight = 25 := rfl
    have width : blackVgaWidth = 80 := rfl
    have typed : Page.typed attr p c = if p.column + 1 ≥ blackVgaWidth then
        ((p.put (cellOf attr c)).goto (p.column + 1)).down blackVgaHeight (blank attr)
        else (p.put (cellOf attr c)).goto (p.column + 1) := by
      unfold Page.typed
      rw [if_neg notNewline,if_neg notReturn,if_neg notTab,if_neg notBackspace]
      rfl
    have written (l k : Nat) (left : k < 80) : (p.put (cellOf attr c)).cell l k = laidOut attr (text ++ [c]) l k := by
      by_cases here : l = p.line ∧ k = p.column
      · have place : 80 * p.line + p.column = text.length := by omega
        rw [here.1,here.2]
        simp [Page.put,laidOut,place]
      · have other : 80 * l + k ≠ text.length := by omega
        have same : laidOut attr (text ++ [c]) l k = laidOut attr text l k := by
          unfold laidOut
          rw [Library.Wrapped.getElem?_snoc,if_neg other]
        rw [same,← cells l k left]
        by_cases row : l = p.line
        · have apart : k ≠ p.column := fun same => here ⟨row,same⟩
          simp [Page.put,row,apart]
        · simp [Page.put,row]
    have size : (text ++ [c]).length = text.length + 1 := by simp
    rw [typed]
    by_cases full : p.column + 1 ≥ blackVgaWidth
    · rw [if_pos full]
      by_cases room : p.line + 1 < p.first + blackVgaHeight
      · have down : ((p.put (cellOf attr c)).goto (p.column + 1)).down blackVgaHeight (blank attr) =
            {p.put (cellOf attr c) with line := p.line + 1,column := 0} := if_pos room
        rw [down]
        refine ⟨written,?_,?_,?_⟩
        · dsimp only
          omega
        · dsimp only
          omega
        · change p.first = _
          omega
      · have down : ((p.put (cellOf attr c)).goto (p.column + 1)).down blackVgaHeight (blank attr) =
            ⟨Function.update (p.put (cellOf attr c)).cell (p.line + 1) fun _ => blank attr,p.line + 1,0,p.first + 1⟩ := if_neg room
        rw [down]
        refine ⟨fun l k left => ?_,?_,?_,?_⟩
        · by_cases last : l = p.line + 1
          · have beyond : (text ++ [c])[80 * l + k]? = none := List.getElem?_eq_none (by omega)
            rw [laidOut,beyond]
            simp [last]
          · simpa [last] using written l k left
        · dsimp only
          omega
        · dsimp only
          omega
        · dsimp only
          omega
    · rw [if_neg full]
      refine ⟨written,?_,?_,?_⟩
      · change p.line = _
        omega
      · change p.column + 1 = _
        omega
      · change p.first = _
        omega

/-- After the screen is cleared it shows the last rows of an endless page, whatever is printed in whatever colours: nothing
behind the screen is written, the cursor is where the next character goes, and lines above it never change. A text of plain
characters stands in rows of eighty, of which the last ones are seen. -/
theorem vga_shows (s : State) (ops : List Op) :
    let t := ops.foldl run (blackVgaClear s)
    let p := (ops.foldl Sheet.run ⟨s.attr,emptyPage s.attr⟩).page
    (∀ r < 25, ∀ c < 80, t.buffer (r * 80 + c) = p.cell (p.first + r) c) ∧ (∀ i ≥ 2000, t.buffer i = s.buffer i) ∧
      (t.x < 80 ∧ t.x = p.column) ∧ (t.y < 25 ∧ p.first + t.y = p.line) ∧ (∀ c, Cursor (blackVgaPutchar t c)) ∧
      (∀ more, Follows p ((ops ++ more).foldl Sheet.run ⟨s.attr,emptyPage s.attr⟩).page) ∧
      ∀ text : List Byte, (∀ c ∈ text, Plain c) → ∀ r < 25, ∀ c < 80,
        (blackVgaPuts (blackVgaClear s) text).buffer (r * 80 + c) = laidOut s.attr text (text.length / 80 - 24 + r) c := by
  intro t p
  have drawn : Drawn s t (ops.foldl Sheet.run ⟨s.attr,emptyPage s.attr⟩) := by
    induction ops using List.reverseRecOn with
    | nil => exact clear_drawn s
    | append_singleton ops op ih =>
      dsimp only [t]
      rw [List.foldl_concat,List.foldl_concat]
      exact run_drawn s _ _ ih op
  have row := row_lt t p drawn.prints
  have inside := drawn.prints.shows.inside
  have y := drawn.prints.row
  have x := drawn.prints.column
  refine ⟨drawn.prints.shows.cells,drawn.inside,⟨x ▸ drawn.narrow,x⟩,⟨row,?_⟩,fun c => ?_,fun more => ?_,
    fun text plain r above c left => ?_⟩
  · rw [y]
    exact Nat.add_sub_cancel' inside.1
  · exact (putchar_prints t p drawn.prints drawn.narrow c).2.2.2.1
  · rw [List.foldl_append]
    exact runs_follow _ more
  · have printed := puts_drawn s _ _ (clear_drawn s) text
    obtain ⟨cells,_,_,first⟩ := plain_laidOut s.attr text plain
    rw [← first,← cells _ c left]
    exact printed.prints.shows.cells r above c left

end BlackOS.Vga
