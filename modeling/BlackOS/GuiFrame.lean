import BlackOS.GuiClicks
import BlackOS.Layers

/-! What `kernel/gui/desktop.c` draws: a frame is the background with the icons, the windows from the one behind to the one in
front, the task bar, a menu and the pointer. Each function is the list of its drawing calls. -/
namespace BlackOS.GuiFrame
open BlackOS.Library.Ram BlackOS.LibcText BlackOS.Terminal BlackOS.Gui BlackOS.GuiMouse BlackOS.Fb
open BlackOS.Desktop (maxWindows blackGuiGetFocused)
open BlackOS.Fb.Draw (rect char string pixel)

/-- The characters of a string constant. -/
def ascii (s : String) : List Byte := s.toList.map fun c => BitVec.ofNat 8 c.toNat

def blackGuiColorBg : Word := 0x000000
def blackGuiColorFg : Word := 0x00FF00
def blackGuiColorDim : Word := 0x003300
def blackGuiColorBright : Word := 0x00FF41
def blackGuiColorTaskbar : Word := 0x001100

/-- What is read of the rest of the kernel while a frame is drawn. -/
structure Readings where
  totalMemory : Word
  usedMemory : Word
  /-- `black_pit_get_uptime_ms` in the loop, and for the clock. -/
  now : BitVec 64
  clock : BitVec 64

section Menu

def blackStartItems : List (List Byte) := [ascii "  Terminal",ascii "  System Monitor",ascii "  File Manager",ascii "  Settings Themes",
  ascii "  Lock System",ascii "  Shutdown"]

def blackCtxItems : List (List Byte) := [ascii "  New Text Note",ascii "  New Folder",ascii "  Terminal",ascii "  Tasks View"]

def menuItemDraws (theme : Word) (hover mx my : Int) (label : List Byte) (i : Nat) : List Draw :=
  let iy := my + 5 + i * 28
  (if (i : Int) = hover then [rect (mx + 2) iy (180 - 4) 28 theme] else []) ++
    [string (mx + 10) (iy + 10) label blackGuiColorBright (if (i : Int) = hover then theme else 0x000A0A)]

def blackGuiDrawMenu (theme : Word) (hover : Int) (items : List (List Byte)) (mx my : Int) : List Draw :=
  let mh : Int := items.length * 28 + 10
  [rect mx my 180 mh 0x000A0A,rect mx my 180 1 theme,rect mx (my + mh - 1) 180 1 theme,rect mx my 1 mh theme,
    rect (mx + 180 - 1) my 1 mh theme] ++
  items.zipIdx.flatMap fun (label,i) => menuItemDraws theme hover mx my label i

end Menu

section Background

/-- `black_dicons`. -/
def iconLabels : List (List Byte) := [ascii "My OS",ascii "Terminal",ascii "System",ascii "Settings"]

def blackGuiDrawDesktopIcons : List Draw :=
  (desktopIcons.zip iconLabels).flatMap fun (icon,label) =>
    [rect icon.1 (icon.2.1 + 5) 40 30 0xCCCC00,rect icon.1 icon.2.1 15 5 0xCCCC00,rect (icon.1 + 2) (icon.2.1 + 10) 36 20 0xFFFF00,
      string (icon.1 + 20 - (label.length * 8 / 2 : Nat)) (icon.2.1 + 40) label 0xFFFFFF blackGuiColorBg]

def nextSeed (seed : Word) : Word := seed * 1103515245 + 12345

/-- The rounds of the loop over the characters of a column. -/
def columnChars (theme start col : Word) (seed : Word) (len : Nat) : List Draw × Word :=
  (List.range len).foldl (fun done r =>
    let seed := nextSeed done.2
    let c : Byte := 0x30 + ((seed >>> 16) % 10).setWidth 8
    let brightness := if r = 0 then theme else if r < 3 then theme &&& 0x777777 else theme &&& 0x333333
    (done.1 ++ [char col.toInt ((start + word r) * 8).toInt c brightness blackGuiColorBg],seed)) ([],seed)

/-- What is drawn of a column once the seed has moved on. -/
def columnFrom (theme height col seed : Word) : List Draw × Word :=
  if (seed >>> 16) % 32 = 0 then columnChars theme ((seed >>> 4) % (height / 8)) col seed ((seed >>> 8) % 20 + 5).toNat
  else ([],seed)

def matrixColumn (theme height col seed : Word) : List Draw × Word := columnFrom theme height col (nextSeed seed)

/-- The seed is kept from frame to frame. -/
def blackGuiDrawMatrixBg (theme width height seed : Word) : List Draw × Word :=
  let columns := (List.range ((width.toNat + 15) / 16)).foldl (fun done i =>
    let column := matrixColumn theme height (word (16 * i)) done.2
    (done.1 ++ column.1,column.2)) ([],seed)
  (columns.1 ++ blackGuiDrawDesktopIcons,columns.2)

end Background

variable {Files : Type} (world : World Files) (env : Readings) (g : Screen Files)

section Taskbar

/-- The button of a window, with the first characters of its title. -/
def barButtonDraws (tbY : Word) (i : Nat) (wid : Int) : List Draw :=
  match slot wid with
  | none => []
  | some k =>
    let bx : Int := 96 + 124 * i
    let bc : Word := if wid = blackGuiGetFocused g.toState ∧ (g.panes k).minimized = false then 0x004400 else 0x001100
    [rect bx (tbY + 4).toInt 120 22 bc,rect bx (tbY + 4).toInt 120 1 g.themeColor,rect bx (tbY + 25).toInt 120 1 g.themeColor,
      rect bx (tbY + 4).toInt 1 22 g.themeColor,rect (bx + 120 - 1) (tbY + 4).toInt 1 22 g.themeColor,
      string (bx + 10) (tbY + 10).toInt ((g.windows k).title.bytes.take 14) 0xFFFFFF bc]

def digit (n : Word) : Byte := 0x30 + n.setWidth 8

/-- Hours, minutes and seconds, each with two digits while it has no more. -/
def clockText (ms : BitVec 64) : List Byte :=
  let s : Word := (ms / 1000).setWidth 32
  let m := s / 60
  let s := s % 60
  let hr := m / 60
  let m := m % 60
  (cstring [digit (hr / 10),digit (hr % 10),0x3A,digit (m / 10),digit (m % 10),0x3A,digit (s / 10),digit (s % 10)]).bytes

def blackGuiDrawTaskbar (width height : Word) : List Draw :=
  let tbY := height - 30
  let startColor := if g.menuState = .start then g.themeColor else blackGuiColorDim
  [rect 0 tbY.toInt width.toInt 30 blackGuiColorTaskbar,rect 0 tbY.toInt width.toInt 2 g.themeColor,
    rect 4 (tbY + 4).toInt 80 22 startColor,string 12 (tbY + 10).toInt (ascii "[ BLACK ]") 0xFFFFFF startColor] ++
  (List.range g.winCount).flatMap (fun i => barButtonDraws g tbY i (g.winOrder i)) ++
  [string (width - 80).toInt (tbY + 10).toInt (clockText env.clock) 0xFFFFFF blackGuiColorTaskbar,
    rect (width - 90).toInt tbY.toInt 1 30 g.themeColor]

end Taskbar

/-! The contents of a window, by its title. -/
section Contents
variable (k : Fin maxWindows)

/-- Spaces up to a length. -/
def padded (n : Nat) (l : List Byte) : List Byte := l ++ List.replicate (n - l.length) 0x20

def stateName : Scheduler.TaskState → List Byte
  | .unused => ascii "UNU"
  | .running => ascii "RUN"
  | .ready => ascii "RDY"
  | .blocked => ascii "BLK"
  | .sleeping => ascii "SLP"
  | .zombie => ascii "ZOM"

def tidDigits (tid : Word) : List Byte :=
  if tid = 0 then [0x30] else ((Nat.digits 10 tid.toNat).map fun d => 0x30 + BitVec.ofNat 8 d).reverse

def taskLine (t : Scheduler.Task) : List Byte :=
  padded 23 (padded 6 (tidDigits t.tid) ++ (t.name.take 16).takeWhile (· ≠ 0)) ++ stateName t.state

/-- The loop over the tasks; it ends where the window does. -/
def taskRows (s : Scheduler.State) (sx limit : Int) : List Scheduler.Slot → Int → List Draw
  | [],_ => []
  | i::is,sy =>
    if sy < limit then
      if (s.tasks i).state = .unused then taskRows s sx limit is sy
      else string sx sy (taskLine (s.tasks i)) (if (s.tasks i).state = .zombie then 0xAA0000 else 0xFFFFFF) 0x001111 ::
        taskRows s sx limit is (sy + 12)
    else []

def monitorDraws : List Draw :=
  let win := g.windows k
  let sy := win.y + blackWinTitlebar + 10
  let sx := win.x + 10
  let tot := env.totalMemory / (1024 * 1024)
  let use := env.usedMemory / (1024 * 1024)
  let barW := win.w - 10 * 2
  let fill := (use * BitVec.ofInt 32 barW / tot).toInt
  [string sx sy (ascii "=== System Monitor (Click Task to Kill) ===") blackGuiColorBright 0x001111,
    string sx (sy + 20) (ascii "RAM Usage:") 0xFFFFFF 0x001111,rect sx (sy + 20 + 12) barW 20 0x003300] ++
  (if 0 < tot then [rect sx (sy + 20 + 12) (if barW < fill then barW else fill) 20 g.themeColor] else []) ++
  [rect sx (sy + 20 + 12) barW 1 0xFFFFFF,rect sx (sy + 20 + 12 + 19) barW 1 0xFFFFFF,rect sx (sy + 20 + 12) 1 20 0xFFFFFF,
    rect (sx + barW - 1) (sy + 20 + 12) 1 20 0xFFFFFF,
    string sx (sy + 20 + 12 + 30) (ascii "TID   NAME             STATE") g.themeColor 0x001111,
    rect sx (sy + 20 + 12 + 30 + 10) barW 1 g.themeColor] ++
  taskRows g.sched sx (win.y + win.h - 20) (List.finRange 128) (sy + 20 + 12 + 30 + 16)

/-- The picture of an entry, and its name. -/
def entryDraws (fx fy : Int) (d : Dirent) (idx : Nat) : List Draw :=
  let bx := fx + (idx % 5 : Nat) * 80
  let byy := fy + (idx / 5 : Nat) * 70
  (if d.directory then [rect bx (byy + 5) 40 30 0xCCCC00,rect bx byy 15 5 0xCCCC00,rect (bx + 2) (byy + 10) 36 20 0xFFFF00]
    else [rect (bx + 5) byy 30 35 0xEEEEEE,rect (bx + 10) (byy + 10) 20 2 0x333333,rect (bx + 10) (byy + 15) 20 2 0x333333,
      rect (bx + 10) (byy + 20) 15 2 0x333333]) ++
  [string (bx + 20 - (d.name.bytes.length * 8 / 2 : Nat)) (byy + 45) d.name.bytes 0xFFFFFF 0x001111]

def fileDraws : List Draw :=
  let win := g.windows k
  let fx := win.x + 10
  let fy := win.y + blackWinTitlebar + 10
  let upX := win.x + win.w - 70
  [string fx fy (ascii "Path: " ++ win.vfsPath.bytes) 0xFFFFFF 0x001111,rect fx (fy + 16) (win.w - 20) 1 0x555555,
    rect upX (fy - 4) 50 15 0x333333,string (upX + 5) fy (ascii "[ UP ]") 0xFFFFFF 0x333333] ++
  match world.directory g.files win.vfsPath with
  | none => [string fx (fy + 30) (ascii "Directory not found.") 0xFF0000 0x001111]
  | some entries => entries.zipIdx.flatMap fun (d,idx) => entryDraws fx (fy + 30) d idx

def settingsDraws : List Draw :=
  let sx := (g.windows k).x + 10
  let sy := (g.windows k).y + blackWinTitlebar + 20
  [string sx sy (ascii "Select System Accent Color:") 0xFFFFFF 0x001111,
    rect sx (sy + 30) 50 50 0x00AA00,string (sx + 5) (sy + 30 + 20) (ascii "Green") 0xFFFFFF 0x00AA00,
    rect (sx + 60) (sy + 30) 50 50 0x0055FF,string (sx + 65) (sy + 30 + 20) (ascii " Blue") 0xFFFFFF 0x0055FF,
    rect (sx + 120) (sy + 30) 50 50 0xAA0000,string (sx + 125) (sy + 30 + 20) (ascii " Red") 0xFFFFFF 0xAA0000,
    rect (sx + 180) (sy + 30) 50 50 0x990099,string (sx + 185) (sy + 30 + 20) (ascii "Prple") 0xFFFFFF 0x990099]

def textDraws (focused : Bool) : List Draw :=
  let win := g.windows k
  let cx := win.x + 4
  let cy := win.y + blackWinTitlebar + 4
  let maxRows := min ((win.h - blackWinTitlebar - 8).tdiv 8) blackTermRows
  let maxCols := min ((win.w - 8).tdiv 8) blackTermCols
  ((List.range maxRows.toNat).flatMap fun r => (List.range maxCols.toNat).flatMap fun c =>
    let ch := (g.term k).cell r c
    if printable ch then [char (cx + c * 8) (cy + r * 8) ch blackGuiColorFg 0x001111] else []) ++
  if focused ∧ win.termCy < maxRows ∧ win.termCx < maxCols then
    [rect (cx + win.termCx * 8) (cy + win.termCy * 8) 8 8 blackGuiColorFg]
  else []

def contentDraws (focused : Bool) : List Draw :=
  if g.titled k systemMonitor then monitorDraws env g k
  else if g.titled k fileManager then fileDraws world g k
  else if g.titled k settings then settingsDraws g k
  else textDraws g k focused

def buttonDraws : List Draw :=
  let win := g.windows k
  let btnX := win.x + win.w - 24
  let maxX := btnX - 20
  let minX := maxX - 20
  [rect btnX (win.y + 4) 16 16 0xAA0000,char (btnX + 4) (win.y + 8) 0x58 0xFFFFFF 0xAA0000,
    rect maxX (win.y + 4) 16 16 0x006600,char (maxX + 4) (win.y + 8) 0x5E 0xFFFFFF 0x006600,
    rect minX (win.y + 4) 16 16 0x000066,char (minX + 4) (win.y + 8) 0x5F 0xFFFFFF 0x000066] ++
  if g.titled k notepad then
    [rect (minX - 50) (win.y + 4) 46 16 0x333333,rect (minX - 50) (win.y + 4) 1 16 0x777777,
      string (minX - 50 + 5) (win.y + 8) (ascii "SAVE") 0xFFFFFF 0x333333]
  else []

def blackGuiDrawWindow (focused : Bool) : List Draw :=
  if Hidden g k then []
  else
    let win := g.windows k
    let tcol : Word := if focused then g.themeColor else 0x002200
    [rect (win.x + 5) (win.y + 5) win.w win.h 0x000707,rect win.x win.y win.w blackWinTitlebar tcol,
      rect win.x (win.y + blackWinTitlebar - 2) win.w 2 0xFFFFFF,string (win.x + 10) (win.y + 8) win.title.bytes 0xFFFFFF tcol] ++
    buttonDraws g k ++
    [rect win.x (win.y + blackWinTitlebar) win.w (win.h - blackWinTitlebar) 0x001111] ++
    contentDraws world env g k focused ++
    [rect win.x win.y 1 win.h g.themeColor,rect (win.x + win.w - 1) win.y 1 win.h g.themeColor,
      rect win.x (win.y + win.h - 1) win.w 1 g.themeColor]

end Contents

def windowDraws (wid : Int) : List Draw :=
  match slot wid with
  | none => []
  | some k => blackGuiDrawWindow world env g k (wid = blackGuiGetFocused g.toState)

def windowsDraws : List Draw := (List.range g.winCount).flatMap fun i => windowDraws world env g (g.winOrder i)

def menuDraws : List Draw :=
  match g.menuState with
  | .closed => []
  | .start => blackGuiDrawMenu g.themeColor g.menuHover blackStartItems g.menuX g.menuY
  | .context => blackGuiDrawMenu g.themeColor g.menuHover blackCtxItems g.menuX g.menuY

def blackGuiDrawCursor (mx my : Int) : List Draw :=
  (List.range 14).map (fun i => pixel mx (my + (i : Nat)) 0xFFFFFF) ++
  (List.range 10).map (fun i => pixel (mx + (i : Nat)) (my + (i : Nat)) 0xFFFFFF) ++
  (List.range 5).map fun i => pixel (mx + (i : Nat)) (my + 9) 0xFFFFFF

/-- The desktop with its framebuffer, and the variables that the loop and the background keep. -/
structure Desk (Files : Type) where
  screen : Screen Files
  fb : Framebuffer
  seed : Word
  lastTime : BitVec 64

def frame (width height seed : Word) (ms : Mouse) : List Draw :=
  .clear blackGuiColorBg :: (blackGuiDrawMatrixBg g.themeColor width height seed).1 ++ windowsDraws world env g ++
    blackGuiDrawTaskbar env g width height ++ menuDraws g ++ blackGuiDrawCursor ms.x ms.y

/-- The command "halt" does not come back to the loop. -/
def blackGuiLoop (d : Desk Files) (ms : Mouse) : Desk Files :=
  if d.screen.running = false then d
  else
    let g := blackGuiHandleMouse world d.screen ms
    if g.halted then {d with screen := g}
    else
      let late := 1000 < env.now - d.lastTime
      let g := if late then {g with needsRedraw := true} else g
      let d := {d with screen := g,lastTime := if late then env.now else d.lastTime}
      if g.needsRedraw = false then d
      else
        {d with
          screen := {g with needsRedraw := false}
          fb := blackFbSwap ((frame world env g d.fb.width d.fb.height d.seed ms).foldl draw d.fb)
          seed := (blackGuiDrawMatrixBg g.themeColor d.fb.width d.fb.height d.seed).2}

/-! Every call of a frame is a layer. -/
section Lays

theorem lays_append (l m : List Draw) (first : ∀ d ∈ l, d.Lays) (second : ∀ d ∈ m, d.Lays) : ∀ d ∈ l ++ m, d.Lays :=
  fun d listed => (List.mem_append.mp listed).elim (first d) (second d)

theorem lays_flatMap {ι : Type} (l : List ι) (f : ι → List Draw) (each : ∀ i ∈ l, ∀ d ∈ f i, d.Lays) : ∀ d ∈ l.flatMap f, d.Lays := by
  intro d listed
  obtain ⟨i,among,drawn⟩ := List.mem_flatMap.mp listed
  exact each i among d drawn

theorem menu_lays (theme : Word) (hover : Int) (items : List (List Byte)) (mx my : Int) :
    ∀ d ∈ blackGuiDrawMenu theme hover items mx my, d.Lays := by
  refine lays_append _ _ (by simp) (lays_flatMap _ _ fun item _ => ?_)
  refine lays_append _ _ ?_ (by simp)
  split <;> simp

theorem column_lays (theme start col seed : Word) (len : Nat) : ∀ d ∈ (columnChars theme start col seed len).1, d.Lays :=
  List.foldlRecOn (List.range len) _ (motive := fun done : List Draw × Word => ∀ d ∈ done.1, d.Lays) (by simp)
    fun _ drawn _ _ => lays_append _ _ drawn (by simp)

theorem matrix_lays (theme height col seed : Word) : ∀ d ∈ (columnFrom theme height col seed).1, d.Lays := by
  unfold columnFrom
  split
  · exact column_lays _ _ _ _ _
  · simp

theorem background_lays (theme width height seed : Word) : ∀ d ∈ (blackGuiDrawMatrixBg theme width height seed).1, d.Lays := by
  refine lays_append _ _ ?_ (lays_flatMap _ _ fun icon _ => by simp)
  exact List.foldlRecOn (List.range ((width.toNat + 15) / 16)) _ (motive := fun done : List Draw × Word => ∀ d ∈ done.1, d.Lays) (by simp)
    fun _ drawn _ _ => lays_append _ _ drawn (matrix_lays _ _ _ _)

theorem taskbar_lays (width height : Word) : ∀ d ∈ blackGuiDrawTaskbar env g width height, d.Lays := by
  refine lays_append _ _ (lays_append _ _ (by simp) (lays_flatMap _ _ fun i _ => ?_)) (by simp)
  unfold barButtonDraws
  split
  · simp
  · simp

theorem rows_lays (s : Scheduler.State) (sx limit : Int) (is : List Scheduler.Slot) (sy : Int) : ∀ d ∈ taskRows s sx limit is sy, d.Lays := by
  induction is generalizing sy with
  | nil => simp [taskRows]
  | cons i is ih =>
    unfold taskRows
    split
    · split
      · exact ih sy
      · exact List.forall_mem_cons.mpr ⟨True.intro,ih (sy + 12)⟩
    · simp

theorem content_lays (k : Fin maxWindows) (focused : Bool) : ∀ d ∈ contentDraws world env g k focused, d.Lays := by
  unfold contentDraws
  split
  · refine lays_append _ _ (lays_append _ _ (lays_append _ _ (by simp) ?_) (by simp)) (rows_lays _ _ _ _ _)
    split <;> simp
  · split
    · refine lays_append _ _ (by simp) ?_
      split
      · simp
      · refine lays_flatMap _ _ fun entry _ => lays_append _ _ ?_ (by simp)
        split <;> simp
    · split
      · simp [settingsDraws]
      · refine lays_append _ _ (lays_flatMap _ _ fun r _ => lays_flatMap _ _ fun c _ => ?_) ?_
        · dsimp only
          split <;> simp
        · split <;> simp

theorem window_lays (k : Fin maxWindows) (focused : Bool) : ∀ d ∈ blackGuiDrawWindow world env g k focused, d.Lays := by
  unfold blackGuiDrawWindow
  split
  · simp
  · refine lays_append _ _ (lays_append _ _ (lays_append _ _ (lays_append _ _ (by simp) ?_) (by simp))
      (content_lays world env g k focused)) (by simp)
    refine lays_append _ _ (by simp) ?_
    split <;> simp

theorem frame_lays (width height seed : Word) (ms : Mouse) : ∀ d ∈ frame world env g width height seed ms, d.Lays := by
  refine lays_append _ _ (lays_append _ _ (lays_append _ _ (lays_append _ _ ?_ ?_) (taskbar_lays env g width height)) ?_) ?_
  · exact List.forall_mem_cons.mpr ⟨True.intro,background_lays _ _ _ _⟩
  · refine lays_flatMap _ _ fun i _ => ?_
    unfold windowDraws
    split
    · simp
    · exact window_lays world env g _ _
  · unfold menuDraws
    split
    · simp
    · exact menu_lays _ _ _ _ _
    · exact menu_lays _ _ _ _ _
  · refine lays_append _ _ (lays_append _ _ ?_ ?_) ?_
    all_goals
      intro d listed
      obtain ⟨i,_,rfl⟩ := List.mem_map.mp listed
      exact pixel_lays _ _ _

end Lays

/-- The part of a frame that is drawn from a window on. -/
def above (width height : Word) (ms : Mouse) (i : Nat) : List Draw :=
  (List.range' i (g.winCount - i)).flatMap (fun i => windowDraws world env g (g.winOrder i)) ++
    blackGuiDrawTaskbar env g width height ++ menuDraws g ++ blackGuiDrawCursor ms.x ms.y

theorem frame_above (width height seed : Word) (ms : Mouse) (i : Nat) (within : i ≤ g.winCount) :
    ∃ below, frame world env g width height seed ms = below ++ above world env g width height ms i := by
  have windows : windowsDraws world env g = (List.range' 0 i).flatMap (fun i => windowDraws world env g (g.winOrder i)) ++
      (List.range' i (g.winCount - i)).flatMap fun i => windowDraws world env g (g.winOrder i) := by
    have parts := List.range'_append_1 (s := 0) (m := i) (n := g.winCount - i)
    rw [Nat.zero_add,Nat.add_sub_cancel' within] at parts
    rw [← List.flatMap_append,parts,windowsDraws,List.range_eq_range']
  refine ⟨.clear blackGuiColorBg :: (blackGuiDrawMatrixBg g.themeColor width height seed).1 ++
    (List.range' 0 i).flatMap (fun i => windowDraws world env g (g.winOrder i)),?_⟩
  rw [frame,windows,above]
  simp only [List.append_assoc,List.cons_append]

/-- The title bar and what is below it fill the window. -/
theorem window_covers (k : Fin maxWindows) (focused : Bool) (visible : ¬Hidden g k) (ms : Mouse) (hit : windowHit g ms k = true) :
    ∃ d ∈ blackGuiDrawWindow world env g k focused, (d.layer ms.x ms.y).isSome = true := by
  have inside : (g.windows k).x ≤ ms.x ∧ ms.x < (g.windows k).x + (g.windows k).w ∧ (g.windows k).y ≤ ms.y ∧
      ms.y < (g.windows k).y + (g.windows k).h := of_decide_eq_true hit
  have bar : blackWinTitlebar = 24 := rfl
  rw [blackGuiDrawWindow,if_neg visible]
  by_cases title : ms.y < (g.windows k).y + blackWinTitlebar
  · refine ⟨rect (g.windows k).x (g.windows k).y (g.windows k).w blackWinTitlebar (if focused then g.themeColor else 0x002200),by simp,?_⟩
    exact (rect_covers _ _ _ _ _ _ _).mpr ⟨inside.1,inside.2.1,inside.2.2.1,title⟩
  · refine ⟨rect (g.windows k).x ((g.windows k).y + blackWinTitlebar) (g.windows k).w ((g.windows k).h - blackWinTitlebar) 0x001111,by simp,?_⟩
    refine (rect_covers _ _ _ _ _ _ _).mpr ⟨inside.1,inside.2.1,?_,?_⟩
    · omega
    · omega

theorem above_covers (width height : Word) (ms : Mouse) (i : Nat) (within : i < g.winCount) (k : Fin maxWindows)
    (named : slot (g.winOrder i) = some k) (visible : ¬Hidden g k) (at_ : Mouse) (hit : windowHit g at_ k = true) :
    ∃ d ∈ above world env g width height ms i, (d.layer at_.x at_.y).isSome = true := by
  obtain ⟨d,drawn,covers⟩ := window_covers world env g k (g.winOrder i = blackGuiGetFocused g.toState) visible at_ hit
  refine ⟨d,?_,covers⟩
  have among : i ∈ List.range' i (g.winCount - i) := List.mem_range'_1.mpr ⟨le_rfl,by omega⟩
  have window : d ∈ windowDraws world env g (g.winOrder i) := by
    rw [windowDraws,named]
    exact drawn
  simp only [above,List.mem_append]
  exact Or.inl (Or.inl (Or.inl (List.mem_flatMap.mpr ⟨i,among,window⟩)))

theorem taskbar_covers (width height : Word) (ms : Mouse) (i : Nat) (x y : Nat) (wide : width.toNat < 2^31) (tall : 30 ≤ height.toNat)
    (low : height.toNat < 2^31) (left : x < width.toNat) (under : height.toNat ≤ y + 30) (above_ : y < height.toNat) :
    ∃ d ∈ above world env g width height ms i, (d.layer x y).isSome = true := by
  have thirty : (30 : Word).toNat = 30 := rfl
  have top : (height - 30).toNat = height.toNat - 30 := by
    rw [BitVec.toNat_sub,thirty]
    omega
  refine ⟨rect 0 (height - 30).toInt width.toInt 30 blackGuiColorTaskbar,by simp [above,blackGuiDrawTaskbar],?_⟩
  refine (rect_covers _ _ _ _ _ _ _).mpr ?_
  rw [BitVec.toInt_eq_toNat_of_lt (by omega),BitVec.toInt_eq_toNat_of_lt (by omega),top]
  omega

/-- What is drawn from a window on gives a pixel its colour, so that nothing behind it is seen there. -/
def Shows (shown : Nat → Word) (fb : Framebuffer) (l : List Draw) (x y : Nat) : Prop :=
  layers l x y = some (shown (y * (fb.pitch.toNat / 4) + x))

theorem shows_above (shown : Nat → Word) (fb : Framebuffer) (l m : List Draw) (x y : Nat) (shows : Shows shown fb (l ++ m) x y)
    (covers : ∃ d ∈ m, (d.layer x y).isSome = true) : Shows shown fb m x y := by
  rw [Shows,← layers_hide l m x y covers]
  exact shows

section Loop
variable (d : Desk Files) (ms : Mouse) (fits : Fits d.fb) (bb screen : Nat → Word) (buffered : d.fb.backbuffer = some bb)
  (mapped : d.fb.addr = some screen)
include fits buffered mapped

theorem drawn_shows (l : List Draw) (lay : ∀ d ∈ l, d.Lays) (c : Word) : ∃ shown, (blackFbSwap ((.clear c :: l).foldl draw d.fb)).addr = some shown ∧
    (∀ x < d.fb.width.toNat, ∀ y < d.fb.height.toNat, Shows shown d.fb (.clear c :: l) x y) ∧
    ∀ i ≥ d.fb.pitch.toNat * d.fb.height.toNat / 4, shown i = screen i := by
  have all : ∀ e ∈ .clear c :: l, e.Lays := List.forall_mem_cons.mpr ⟨clear_lays c,lay⟩
  obtain ⟨_,shown,swapped,seen,behind⟩ := drawing_clips d.fb fits bb screen buffered mapped
    (fun a b => bb (b.toNat * (d.fb.pitch.toNat / 4) + a.toNat)) (fun _ _ _ _ => rfl) (.clear c :: l) fun e listed => (all e listed).sound _
  refine ⟨shown,swapped,fun x left y above => ?_,behind⟩
  obtain ⟨v,same⟩ := Option.isSome_iff_exists.mp ((layers_isSome (.clear c :: l) x y).mpr ⟨_,List.mem_cons_self,rfl⟩)
  rw [Shows,seen x left y above,painted_layers _ _ all,same]
  rfl

/-- Once the mouse has been handled, a frame is drawn if something asks for it or a second has gone by. Each pixel of the
screen is then that of the last thing drawn there; where a window is that takes clicks it is that of this window or of what
is in front of it, never of something behind; and on the task bar it is that of the task bar, the menu or the pointer. -/
theorem frame_shown (running : d.screen.running = true) (tall : 30 ≤ d.fb.height.toNat) (g : Screen Files)
    (stepped : blackGuiHandleMouse world d.screen ms = g) :
    let next := blackGuiLoop world env d ms
    let wanted := g.halted = false ∧ (1000 < env.now - d.lastTime ∨ g.needsRedraw = true)
    (¬wanted → next.fb = d.fb) ∧
      (wanted → next.screen = {g with needsRedraw := false} ∧ ∃ shown, next.fb.addr = some shown ∧
        (∀ i ≥ d.fb.pitch.toNat * d.fb.height.toNat / 4, shown i = screen i) ∧
        ∀ x < d.fb.width.toNat, ∀ y < d.fb.height.toNat,
          Shows shown d.fb (frame world env g d.fb.width d.fb.height d.seed ms) x y ∧
          (∀ i < g.winCount, ∀ k, slot (g.winOrder i) = some k → ¬Hidden g k → ∀ buttons, windowHit g ⟨x,y,buttons⟩ k = true →
            Shows shown d.fb (above world env g d.fb.width d.fb.height ms i) x y) ∧
          (d.fb.height.toNat ≤ y + 30 → Shows shown d.fb (above world env g d.fb.width d.fb.height ms g.winCount) x y)) := by
  subst stepped
  set g := blackGuiHandleMouse world d.screen ms
  intro next wanted
  have awake : ¬d.screen.running = false := by
    rw [running]
    decide
  refine ⟨fun quiet => ?_,fun asked => ?_⟩
  · dsimp only [next]
    rw [blackGuiLoop,if_neg awake]
    by_cases halted : g.halted = true
    · rw [if_pos halted]
    · have running : g.halted = false := by simpa using halted
      have early : ¬1000 < env.now - d.lastTime := fun late => quiet ⟨running,Or.inl late⟩
      have still : g.needsRedraw = false := by
        cases redraw : g.needsRedraw with
        | false => rfl
        | true => exact absurd ⟨running,Or.inr redraw⟩ quiet
      rw [if_neg halted]
      simp only [early,if_false]
      rw [if_pos still]
  · obtain ⟨halted,cause⟩ := asked
    have goes : ¬g.halted = true := by
      rw [halted]
      decide
    have drawn : next.fb = blackFbSwap ((frame world env g d.fb.width d.fb.height d.seed ms).foldl draw d.fb) ∧
        next.screen = {g with needsRedraw := false} := by
      dsimp only [next]
      rw [blackGuiLoop,if_neg awake,if_neg goes]
      by_cases late : 1000 < env.now - d.lastTime
      · simp only [late,if_true]
        exact ⟨rfl,rfl⟩
      · simp only [late,if_false]
        have redraw := cause.resolve_left late
        rw [if_neg fun still => absurd (redraw.symm.trans still) (by decide)]
        exact ⟨rfl,rfl⟩
    have lays := frame_lays world env g d.fb.width d.fb.height d.seed ms
    obtain ⟨shown,swapped,seen,behind⟩ := drawn_shows d fits bb screen buffered mapped _
      (fun e listed => lays e (List.mem_cons_of_mem _ listed)) blackGuiColorBg
    refine ⟨drawn.2,shown,drawn.1 ▸ swapped,behind,fun x left y above_ => ⟨seen x left y above_,fun i within k named visible buttons hit => ?_,
      fun under => ?_⟩⟩
    · obtain ⟨below,parts⟩ := frame_above world env g d.fb.width d.fb.height d.seed ms i within.le
      exact shows_above shown d.fb below _ x y (parts ▸ seen x left y above_)
        (above_covers world env g _ _ ms i within k named visible ⟨x,y,buttons⟩ hit)
    · obtain ⟨below,parts⟩ := frame_above world env g d.fb.width d.fb.height d.seed ms g.winCount le_rfl
      have rows := fits.rows
      have size := fits.size
      have wide : 4 * d.fb.width.toNat * d.fb.height.toNat < 2^32 := (Nat.mul_le_mul_right _ rows).trans_lt size
      have narrow : 4 * d.fb.width.toNat * 30 ≤ 4 * d.fb.width.toNat * d.fb.height.toNat := Nat.mul_le_mul_left _ tall
      have short : 4 * d.fb.height.toNat ≤ 4 * d.fb.width.toNat * d.fb.height.toNat := Nat.mul_le_mul_right _ (by omega)
      exact shows_above shown d.fb below _ x y (parts ▸ seen x left y above_)
        (taskbar_covers world env g _ _ ms _ x y (by omega) tall (by omega) left under above_)

end Loop

/-- A desktop of four by thirty-two pixels with a window of three by three, of which a second has gone by. -/
def small : Desk Unit :=
  ⟨{(blackGuiCreateWindow (Screen.start Scheduler.unset ()) settings 0 0 3 3).1 with running := true},
    ⟨some fun _ => 0,some fun _ => 0,4,32,16,32⟩,42,0⟩

def second : Readings := ⟨0,0,1001,1001⟩

/-- A pixel of the title bar of the window in front, and one of the task bar. -/
theorem frame_shown_bar : ∃ shown, (blackGuiLoop GuiClicks.bare second small ⟨9,9,0⟩).fb.addr = some shown ∧
    shown (1 * 4 + 1) = small.screen.themeColor ∧ shown (31 * 4 + 3) = 0x001100 := by
  obtain ⟨_,shows⟩ := frame_shown GuiClicks.bare second small ⟨9,9,0⟩ ⟨by decide,by decide⟩ _ _ rfl rfl rfl (by decide) _ rfl
  obtain ⟨_,shown,swapped,_,seen⟩ := shows ⟨rfl,Or.inl (by decide)⟩
  refine ⟨shown,swapped,?_,?_⟩
  · have window := (seen 1 (by decide) 1 (by decide)).2.1 0 (by decide) ⟨0,by decide⟩ rfl (by decide) 0 (by decide)
    exact Option.some.inj (window.symm.trans rfl)
  · have bar := (seen 3 (by decide) 31 (by decide)).2.2 (by decide)
    exact Option.some.inj (bar.symm.trans rfl)

end BlackOS.GuiFrame
