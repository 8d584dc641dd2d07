import BlackOS.Gui
import Mathlib.Data.Nat.Digits.Defs

/-! The mouse of `kernel/gui/desktop.c`. The functions of the file system are left open: they have no part in the tasks. -/
namespace BlackOS.GuiMouse
open BlackOS.Library.Ram BlackOS.LibcText BlackOS.Terminal BlackOS.Gui
open BlackOS.Desktop (Window maxWindows rootPath blackGuiGetFocused)

/-- `black_mouse_state_t`; nothing here reads the movement. -/
structure Mouse where
  x : Int
  y : Int
  buttons : Byte

/-- An entry that `black_vfs_readdir` gives. -/
structure Dirent where
  name : Text
  directory : Bool

/-- What the function is surrounded by. -/
structure World (Files : Type) where
  /-- `black_pit_get_uptime_ms`, by the place in the order of the window for which it is read. -/
  uptimeMs : Nat → BitVec 64
  fbWidth : Int
  fbHeight : Int
  /-- `black_vfs_mkdir`. -/
  mkdir : Files → Text → Files
  /-- `black_vfs_lookup` of a directory, and `black_vfs_readdir` until it gives none. -/
  directory : Files → Text → Option (List Dirent)
  /-- `black_vfs_lookup`, `kmalloc` and `black_vfs_read` of a file. -/
  contents : Files → Text → Option (List Byte)
  /-- `black_vfs_create`, `black_vfs_finddir`, `kmalloc` and `black_vfs_write`, and if it came to the last. -/
  save : Files → Text → List Byte → Files × Bool
  /-- What stands behind the digits in `black_filename`, which are not terminated. -/
  after : Text

variable {Files : Type} (world : World Files) (g : Screen Files) (ms : Mouse)

/-- The string in an array that begins with the given bytes. -/
def cstring (l : List Byte) : Text where
  bytes := l.takeWhile (· ≠ 0)
  terminated := fun zero => absurd (List.mem_takeWhile_imp zero) (by decide)

def blackWinTitlebar : Int := 24

def blackPointInRect (px py rx ry rw rh : Int) : Bool := rx ≤ px ∧ px < rx + rw ∧ ry ≤ py ∧ py < ry + rh

/-- The loops that put the time into `b` and take it out again, the last digit first. -/
def ticksDigits (v : BitVec 64) : List Byte :=
  ((Nat.digits 10 (v.setWidth 32).toNat).map fun digit => 0x30 + BitVec.ofNat 8 digit).reverse

section Menus

def startItemsCount : Int := 6
def ctxItemsCount : Int := 4

/-- The item of an open menu that the pointer is on. -/
def menuHover : Screen Files :=
  if g.menuState = .closed then g
  else
    let count := if g.menuState = .start then startItemsCount else ctxItemsCount
    let pos := ms.y - g.menuY - 5
    if g.menuX ≤ ms.x ∧ ms.x < g.menuX + 180 ∧ g.menuY ≤ ms.y ∧ ms.y < g.menuY + (count * 28 + 10) then
      let item := if 0 ≤ pos then pos.tdiv 28 else -1
      {g with menuHover := if count ≤ item then -1 else item}
    else {g with menuHover := -1}

def create (title : Text) (x y w h : Int) : Screen Files := (blackGuiCreateWindow g title x y w h).1

/-- "NewDir_". -/
def newDirectory : List Byte := [0x4E,0x65,0x77,0x44,0x69,0x72,0x5F]

def startItem : Screen Files :=
  if g.menuHover = 0 then create g terminal 100 100 500 350
  else if g.menuHover = 1 then create g systemMonitor 150 150 400 500
  else if g.menuHover = 2 then create g fileManager 200 100 500 400
  else if g.menuHover = 3 then create g settings 300 150 300 200
  else if g.menuHover = 4 then {g with halted := true}
  else g

def contextItem : Screen Files :=
  if g.menuHover = 0 then create g notepad ms.x ms.y 400 300
  else if g.menuHover = 1 then
    create {g with files := world.mkdir g.files (cstring (newDirectory ++ ticksDigits (world.uptimeMs 0)))}
      fileManager ms.x ms.y 500 400
  else if g.menuHover = 2 then create g terminal ms.x ms.y 500 350
  else if g.menuHover = 3 then create g systemMonitor ms.x ms.y 400 500
  else g

def menuItem : Screen Files :=
  if 0 ≤ g.menuHover then if g.menuState = .start then startItem g else contextItem world g ms
  else g

/-- A click while a menu is open. The command "halt" does not return. -/
def menuClick : Screen Files :=
  let g := menuItem world g ms
  if g.halted then g else {g with menuState := .closed,needsRedraw := true}

end Menus

section Moves

def drag : Screen Files :=
  match slot g.dragWin with
  | none => g
  | some k => {g.setWindow k fun win => {win with x := ms.x - g.dragOx,y := ms.y - g.dragOy} with needsRedraw := true}

def edgeR : Int := 2
def edgeB : Int := 4
def edgeBR : Int := 8

def resized (win : Window) : Window :=
  let w := if g.resizeEdge = edgeR ∨ g.resizeEdge = edgeBR then g.resizeOw + (ms.x - g.resizeOx) else win.w
  let h := if g.resizeEdge = edgeB ∨ g.resizeEdge = edgeBR then g.resizeOh + (ms.y - g.resizeOy) else win.h
  {win with w := if w < 100 then 100 else w,h := if h < 50 then 50 else h}

def resize : Screen Files :=
  match slot g.resizeWin with
  | none => g
  | some k => {g.setWindow k (resized g ms) with needsRedraw := true}

def bringToFront (wid : Int) : Screen Files := {g with toState := Desktop.blackGuiBringToFront g.toState wid}

/-- A click on the button of a window in the task bar. -/
def barButton (wid : Int) : Screen Files :=
  match slot wid with
  | none => g
  | some k =>
    if blackGuiGetFocused g.toState = wid ∧ (g.panes k).minimized = false then
      g.setPane k fun p => {p with minimized := true}
    else bringToFront (g.setPane k fun p => {p with minimized := false}) wid

def taskbarClick : Screen Files :=
  let g :=
    if ms.x < 84 then
      {g with menuState := .start,menuX := 0,menuY := world.fbHeight - 30 - (startItemsCount * 28 + 10)}
    else
      match (List.range g.winCount).find? fun i : Nat => 96 + 124 * (i : Int) ≤ ms.x ∧ ms.x < 96 + 124 * (i : Int) + 120 with
      | none => g
      | some i => barButton g (g.winOrder i)
  {g with needsRedraw := true}

/-- The places of `black_dicons`, and their commands. -/
def desktopIcons : List (Int × Int × Nat) := [(30,30,3),(30,110,1),(30,190,2),(30,270,4)]

def iconAt : Option (Nat × Nat) :=
  (desktopIcons.zipIdx.find? fun (icon,_) =>
    icon.1 ≤ ms.x ∧ ms.x < icon.1 + 40 ∧ icon.2.1 ≤ ms.y ∧ ms.y < icon.2.1 + 40).map fun (icon,i) => (i,icon.2.2)

def iconClick (i command : Nat) : Screen Files :=
  let g :=
    if command = 1 then create g terminal (100 + i * 20) (100 + i * 20) 500 350
    else if command = 2 then create g systemMonitor 150 150 400 500
    else if command = 3 then create g fileManager 200 100 500 400
    else if command = 4 then create g settings 300 150 300 200
    else g
  {g with needsRedraw := true}

end Moves

/-! What the loop over the windows does for one of them. -/
section Window
variable (k : Fin maxWindows)

def settingsClick : Screen Files :=
  if g.titled k settings then
    let sx := (g.windows k).x + 10
    let sy := (g.windows k).y + blackWinTitlebar + 50
    let color := g.themeColor
    let color := if blackPointInRect ms.x ms.y sx sy 50 50 then 0x00AA00 else color
    let color := if blackPointInRect ms.x ms.y (sx + 60) sy 50 50 then 0x0055FF else color
    let color := if blackPointInRect ms.x ms.y (sx + 120) sy 50 50 then 0xAA0000 else color
    let color := if blackPointInRect ms.x ms.y (sx + 180) sy 50 50 then 0x990099 else color
    {g with themeColor := color}
  else g

/-- The place of the window, as far as the list of tasks depends on it. -/
def monitorOf : SystemMonitor.Window := ⟨(g.windows k).y,(g.windows k).h⟩

def monitorClick : Screen Files :=
  if g.titled k systemMonitor then {g with sched := SystemMonitor.click g.sched (monitorOf g k) ms.y} else g

/-- The pointer is on the button "UP". -/
def upHit : Bool :=
  blackPointInRect ms.x ms.y ((g.windows k).x + (g.windows k).w - 70) ((g.windows k).y + blackWinTitlebar + 10 - 4) 50 15

def parentPath (path : Text) : Text :=
  match strrchr path.bytes 0x2F with
  | some (before,_) =>
    if before = [] then rootPath
    else
      match strrchr before 0x2F with
      | some (front,_) => cstring (front ++ [0x2F])
      | none => rootPath
  | none => rootPath

def goUp : Screen Files :=
  {g.setWindow k fun win => {win with vfsPath := parentPath win.vfsPath} with needsRedraw := true}

/-- The click follows another within half a second. -/
def isDouble (last now : BitVec 64) : Bool := now - last < 500

/-- The entry of the directory that the pointer is on. -/
def entryHit : Option Dirent :=
  let fx := (g.windows k).x + 10
  let fy := (g.windows k).y + blackWinTitlebar + 10 + 30
  (world.directory g.files (g.windows k).vfsPath).bind fun entries =>
    (entries.zipIdx.find? fun (_,idx) =>
      blackPointInRect ms.x ms.y (fx + idx % 5 * 80) (fy + idx / 5 * 70) 60 60).map Prod.fst

def openEntry (d : Dirent) : Screen Files :=
  let path := (g.windows k).vfsPath.bytes
  if d.directory then
    {g.setWindow k fun win => {win with vfsPath := cstring (path ++ d.name.bytes ++ [0x2F])} with needsRedraw := true}
  else
    let (g,wid) := blackGuiCreateWindow g notepad ms.x ms.y 400 300
    match slot wid with
    | none => g
    | some new =>
      match world.contents g.files (cstring (path ++ d.name.bytes)) with
      | none => g
      | some bytes => g.setTerm new (openText (g.term new) bytes)

/-- "Note_". -/
def notePrefix : List Byte := [0x4E,0x6F,0x74,0x65,0x5F]

/-- ".txt". -/
def noteSuffix : List Byte := [0x2E,0x74,0x78,0x74]

/-- `black_filename`: the digits overwrite the zero that was behind "Note_". -/
def noteName (now : BitVec 64) : Text :=
  let digits := ticksDigits now
  cstring (notePrefix ++ digits ++ (if digits = [] then [] else world.after.bytes) ++ noteSuffix)

/-- The pointer is on the button "SAVE". -/
def saveHit : Bool :=
  blackPointInRect ms.x ms.y ((g.windows k).x + (g.windows k).w - 24 - 20 - 20 - 50) ((g.windows k).y + 4) 46 16

def saveNote (now : BitVec 64) : Screen Files :=
  let name := noteName world now
  let (files,written) := world.save g.files name (saveText (g.term k))
  let g := {g with files := files}
  if written then {g.setWindow k fun win => {win with title := name} with needsRedraw := true} else g

def maximize : Screen Files :=
  let win := g.windows k
  let p := g.panes k
  if p.maximized then
    (g.setPane k fun p => {p with maximized := false}).setWindow k fun win =>
      {win with x := p.savedX,y := p.savedY,w := p.savedW,h := p.savedH}
  else
    (g.setPane k fun p =>
      {p with maximized := true,savedX := win.x,savedY := win.y,savedW := win.w,savedH := win.h}).setWindow k fun win =>
      {win with x := 0,y := 0,w := world.fbWidth,h := world.fbHeight - 30}

def titleHit : Bool := blackPointInRect ms.x ms.y (g.windows k).x (g.windows k).y (g.windows k).w blackWinTitlebar

def windowHit : Bool := blackPointInRect ms.x ms.y (g.windows k).x (g.windows k).y (g.windows k).w (g.windows k).h

/-- A click on the title bar of the window, which is brought to the front. -/
def titleClick (now : BitVec 64) : Screen Files :=
  let g := bringToFront g k.val
  let right := (g.windows k).x + (g.windows k).w
  if g.titled k notepad ∧ saveHit g ms k then saveNote world g k now
  else if right - 24 ≤ ms.x then {g with toState := Desktop.blackGuiDestroyWindow g.toState k.val}
  else if right - 44 ≤ ms.x then maximize world g k
  else if right - 64 ≤ ms.x then g.setPane k fun p => {p with minimized := true}
  else if (g.panes k).maximized then g
  else {g with dragWin := k.val,dragOx := ms.x - (g.windows k).x,dragOy := ms.y - (g.windows k).y}

def Hidden : Prop := (g.windows k).active = false ∨ (g.panes k).minimized = true

instance : Decidable (Hidden g k) := inferInstanceAs (Decidable (_ ∨ _))

/-- What the click does to the window, if the loop ends with it. -/
def windowClick (double : Bool) (now : BitVec 64) : Option (Screen Files) :=
  if g.titled k fileManager ∧ upHit g ms k then some (goUp g k)
  else
    match if g.titled k fileManager ∧ double then entryHit world g ms k else none with
    | some d => some (openEntry world g ms k d)
    | none =>
      if titleHit g ms k then some (titleClick world g ms k now)
      else if windowHit g ms k then some (bringToFront g k.val)
      else none

/-- What a click does to a window by its title, before the pointer is compared with the window. -/
def titleActions (now : BitVec 64) : Screen Files :=
  let g := monitorClick (settingsClick g ms k) ms k
  {g with lastClickTime := if g.titled k fileManager then now else g.lastClickTime}

end Window

/-- The loop over the windows, from the one in front on; the number is how many are left. -/
def windowLoop : Nat → Screen Files → Screen Files
  | 0,g => g
  | i+1,g =>
    match slot (g.winOrder i) with
    | none => windowLoop i g
    | some k =>
      if Hidden g k then windowLoop i g
      else
        let now := world.uptimeMs i
        let double := isDouble g.lastClickTime now
        let g := titleActions g ms k now
        match windowClick world g ms k double now with
        | some g => g
        | none => windowLoop i g

/-- The first part of `black_gui_handle_mouse`, before it looks at the buttons. -/
def noted : Screen Files :=
  let g := {g with prevButtons := ms.buttons}
  menuHover (if ms.x ≠ g.dragOx ∨ ms.y ≠ g.dragOy then {g with needsRedraw := true} else g) ms

def blackGuiHandleMouse : Screen Files :=
  let pressed := ms.buttons &&& ~~~g.prevButtons
  let g := noted g ms
  if ms.buttons &&& 1 ≠ 0 then
    if g.menuState ≠ .closed ∧ pressed &&& 1 ≠ 0 then menuClick world g ms
    else if 0 ≤ g.dragWin then drag g ms
    else if 0 ≤ g.resizeWin then resize g ms
    else if pressed &&& 1 ≠ 0 then
      let g := {g with menuState := .closed}
      if world.fbHeight - 30 ≤ ms.y then taskbarClick world g ms
      else
        match iconAt ms with
        | some (i,command) => iconClick g i command
        | none => windowLoop world ms g.winCount g
    else g
  else if ms.buttons &&& 2 ≠ 0 ∧ pressed &&& 2 ≠ 0 then
    {g with menuState := .context,menuX := ms.x,menuY := ms.y,needsRedraw := true}
  else {g with dragWin := -1,resizeWin := -1}

end BlackOS.GuiMouse
