import BlackOS.Desktop
import BlackOS.SystemMonitor
import BlackOS.Terminal

/-! The windows of `kernel/gui/desktop.c` with all that they hold, and the keys that are typed into the one in front. -/
namespace BlackOS.Gui
open BlackOS.Library.Ram BlackOS.LibcString BlackOS.LibcText BlackOS.Desktop BlackOS.Terminal

/-- The fields of `black_window_t` that the order of the windows does not need. -/
structure Pane where
  minimized : Bool
  maximized : Bool
  savedX : Int
  savedY : Int
  savedW : Int
  savedH : Int
  termbuf : Memory
  termInput : Nat → Byte

inductive Menu
  | closed
  | start
  | context
  deriving DecidableEq

/-- The variables of `desktop.c`, the tasks of the scheduler, and the files, of whatever kind they are. -/
structure Screen (Files : Type) extends Desktop.State where
  panes : Fin maxWindows → Pane
  menuState : Menu
  menuX : Int
  menuY : Int
  menuHover : Int
  dragWin : Int
  dragOx : Int
  dragOy : Int
  resizeWin : Int
  resizeOx : Int
  resizeOy : Int
  resizeOw : Int
  resizeOh : Int
  resizeEdge : Int
  prevButtons : Byte
  lastClickTime : BitVec 64
  themeColor : Word
  /-- The processor has been stopped by the command "halt". -/
  halted : Bool
  sched : Scheduler.State
  files : Files

/-- The variables as the kernel starts with them. -/
def Screen.start {Files : Type} (sched : Scheduler.State) (files : Files) : Screen Files where
  windows := fun _ => blank
  winOrder := fun _ => 0
  winCount := 0
  running := false
  needsRedraw := true
  panes := fun _ => ⟨false,false,0,0,0,0,fun _ => 0,fun _ => 0⟩
  menuState := .closed
  menuX := 0
  menuY := 0
  menuHover := -1
  dragWin := -1
  dragOx := 0
  dragOy := 0
  resizeWin := -1
  resizeOx := 0
  resizeOy := 0
  resizeOw := 0
  resizeOh := 0
  resizeEdge := 0
  prevButtons := 0
  lastClickTime := 0
  themeColor := 0x00AA00
  halted := false
  sched := sched
  files := files

/-- "System Monitor". -/
def systemMonitor : Text := ⟨[0x53,0x79,0x73,0x74,0x65,0x6D,0x20,0x4D,0x6F,0x6E,0x69,0x74,0x6F,0x72],by decide⟩

/-- "File Manager". -/
def fileManager : Text := ⟨[0x46,0x69,0x6C,0x65,0x20,0x4D,0x61,0x6E,0x61,0x67,0x65,0x72],by decide⟩

/-- "Settings". -/
def settings : Text := ⟨[0x53,0x65,0x74,0x74,0x69,0x6E,0x67,0x73],by decide⟩

/-- "Notepad". -/
def notepad : Text := ⟨[0x4E,0x6F,0x74,0x65,0x70,0x61,0x64],by decide⟩

/-- "Terminal". -/
def terminal : Text := ⟨[0x54,0x65,0x72,0x6D,0x69,0x6E,0x61,0x6C],by decide⟩

variable {Files : Type} (g : Screen Files)

/-- The window of a number from the order of the windows. -/
def slot (wid : Int) : Option (Fin maxWindows) := if valid : 0 ≤ wid ∧ wid < maxWindows then some ⟨wid.toNat,by omega⟩ else none

/-- The title is the given one, as `strcmp` has it. -/
def Screen.titled (k : Fin maxWindows) (title : Text) : Bool := strcmp (g.windows k).title.bytes title.bytes == 0

def Screen.term (k : Fin maxWindows) : Term := ⟨(g.panes k).termbuf,(g.windows k).termCx,(g.windows k).termCy⟩

def Screen.setWindow (k : Fin maxWindows) (f : Window → Window) : Screen Files :=
  {g with windows := Function.update g.windows k (f (g.windows k))}

def Screen.setPane (k : Fin maxWindows) (f : Pane → Pane) : Screen Files :=
  {g with panes := Function.update g.panes k (f (g.panes k))}

def Screen.setTerm (k : Fin maxWindows) (w : Term) : Screen Files :=
  (g.setPane k fun p => {p with termbuf := w.termbuf}).setWindow k fun win =>
    {win with termCx := w.termCx,termCy := w.termCy}

/-- The pane of a new window, which is filled with zeros. -/
def Pane.zeroed (p : Pane) : Pane := ⟨false,false,0,0,0,0,(fresh p.termbuf).termbuf,fun _ => 0⟩

def blackGuiCreateWindow (title : Text) (x y w h : Int) : Screen Files × Int :=
  let (desk,wid) := Desktop.blackGuiCreateWindow g.toState title x y w h
  let g := {g with toState := desk}
  match slot wid with
  | none => (g,wid)
  | some k => (g.setPane k Pane.zeroed,wid)

/-! `black_execute_cmd` stands here for what a command prints: the callback puts that into the window. -/
section Keys
variable (blackExecuteCmd : List Byte → List Byte)

/-- "Welcome to BlackOS PHANTOM Terminal\n". -/
def welcome : List Byte := [
  0x57,0x65,0x6C,0x63,0x6F,0x6D,0x65,0x20,0x74,0x6F,0x20,0x42,0x6C,0x61,0x63,0x6B,0x4F,0x53,0x20,0x50,0x48,0x41,0x4E,0x54,
  0x4F,0x4D,0x20,0x54,0x65,0x72,0x6D,0x69,0x6E,0x61,0x6C,0x0A]

/-- "black@phantom:/$ ". -/
def prompt : List Byte := [0x62,0x6C,0x61,0x63,0x6B,0x40,0x70,0x68,0x61,0x6E,0x74,0x6F,0x6D,0x3A,0x2F,0x24,0x20]

def Screen.puts (k : Fin maxWindows) (s : List Byte) : Screen Files := g.setTerm k (blackTermPuts (g.term k) s)

def blackTermPrompt (k : Fin maxWindows) : Screen Files :=
  (g.puts k prompt).setWindow k fun win => {win with termInputPos := 0,termHasPrompt := true}

/-- The line that has been typed; a zero stands behind it. -/
def Screen.inputLine (k : Fin maxWindows) : List Byte :=
  ((List.range (g.windows k).termInputPos.toNat).map (g.panes k).termInput).takeWhile (· ≠ 0)

def blackTermExec (k : Fin maxWindows) (cmd : List Byte) : Screen Files :=
  if cmd = [] then g else g.puts k (blackExecuteCmd cmd)

/-- A character that can be typed; `char` is signed. -/
def printable (c : Byte) : Bool := 32 ≤ c.toInt ∧ c.toInt < 127

/-- The keys of a window that is not a Notepad. -/
def terminalKey (k : Fin maxWindows) (c : Byte) : Screen Files :=
  let g := if (g.windows k).termHasPrompt then g else blackTermPrompt (g.puts k welcome) k
  if c = newline then
    let g := blackTermExec (g.puts k [newline]) blackExecuteCmd k (g.inputLine k)
    blackTermPrompt (g.setWindow k fun win => {win with termInputPos := 0}) k
  else if c = backspace then
    if 0 < (g.windows k).termInputPos then
      (g.setWindow k fun win => {win with termInputPos := win.termInputPos - 1}).puts k [backspace]
    else g
  else if printable c then
    let pos := (g.windows k).termInputPos
    let g := if pos < 255 then
        (g.setPane k fun p => {p with termInput := Function.update p.termInput pos.toNat c}).setWindow k fun win =>
          {win with termInputPos := win.termInputPos + 1}
      else g
    g.puts k [c]
  else g

def notepadKey (k : Fin maxWindows) (c : Byte) : Screen Files :=
  let g := g.setWindow k fun win => {win with termHasPrompt := true}
  if c = newline ∨ c = backspace ∨ printable c then g.puts k [c] else g

def blackGuiKeyInput (c : Byte) : Screen Files :=
  match slot (blackGuiGetFocused g.toState) with
  | none => g
  | some k =>
    let g := {g with needsRedraw := true}
    if g.titled k systemMonitor ∨ g.titled k fileManager ∨ g.titled k settings then g
    else if g.titled k notepad then notepadKey g k c
    else terminalKey g blackExecuteCmd k c

end Keys

/-- The loops of the SAVE action over a row: its characters that are not zero, and a newline. -/
def saveRow (w : Term) (y : Nat) : List Byte := ((List.range blackTermCols).map (w.cell y)).filter (· ≠ 0) ++ [newline]

/-- What the SAVE action writes. -/
def saveText (w : Term) : List Byte := (List.range (w.termCy + 1).toNat).flatMap (saveRow w)

/-- The bytes of a file, with a zero behind them, as the File Manager puts them into a window. -/
def openText (w : Term) (bytes : List Byte) : Term := blackTermPuts w (bytes.takeWhile (· ≠ 0))

end BlackOS.Gui
