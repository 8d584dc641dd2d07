import BlackOS.GuiClicks
import BlackOS.GuiFrame

/-! Where the controls of `kernel/gui/desktop.c` are drawn, and where they take the clicks of the mouse. -/
namespace BlackOS.GuiControls
open BlackOS.Library.Ram BlackOS.LibcString BlackOS.LibcText BlackOS.Gui BlackOS.GuiMouse BlackOS.GuiClicks BlackOS.Fb BlackOS.GuiFrame
open BlackOS.Desktop (maxWindows blackGuiGetFocused)
open BlackOS.Fb.Draw (rect char string pixel)

variable {Files : Type} (world : World Files) (env : Readings) (g : Screen Files) (ms : Mouse)

section Window
variable (k : Fin maxWindows)

def close : Screen Files :=
  {bringToFront g k.val with toState := Desktop.blackGuiDestroyWindow (bringToFront g k.val).toState k.val}

end Window

section Desktop

end Desktop

/-! From the button of the mouse to the control that is under the pointer. -/
section Handler

/-- What is drawn of a menu. -/
structure SameMenu (g g' : Screen Files) : Prop where
  state : g'.menuState = g.menuState
  hover : g'.menuHover = g.menuHover
  x : g'.menuX = g.menuX
  y : g'.menuY = g.menuY
  color : g'.themeColor = g.themeColor

theorem SameMenu.draws {g g' : Screen Files} (same : SameMenu g g') : menuDraws g' = menuDraws g := by
  rw [menuDraws,menuDraws,same.state,same.hover,same.x,same.y,same.color]

/-- The turn of the window at a place in the order, before the pointer is compared with it. -/
def turn (i : Nat) : Screen Files :=
  match slot (g.winOrder i) with
  | none => g
  | some k => if Hidden g k then g else titleActions g ms k (world.uptimeMs i)

/-- The windows of `n` places have their turn, down to the place `i`. -/
def turns (i : Nat) : Nat → Screen Files → Screen Files
  | 0,g => g
  | n+1,g => turns i n (turn world g ms (i + n))

/-- Only the colour, the tasks and the time of the last click may differ. -/
def Turned (g g' : Screen Files) : Prop :=
  g' = {g with themeColor := g'.themeColor,sched := g'.sched,lastClickTime := g'.lastClickTime}

theorem Turned.trans {g g' g'' : Screen Files} (first : Turned g g') (second : Turned g' g'') : Turned g g'' := by
  rw [Turned,second,first]

/-- The desktop when the windows down to the place have had their turn. -/
def reached (i : Nat) : Screen Files := turns world ms i (g.winCount - i) (noted g ms)

section Reached
variable (i : Nat) (within : i < g.winCount) (k : Fin maxWindows) (named : slot (g.winOrder i) = some k) (visible : ¬Hidden g k)
include within named visible

end Reached

section Bar
variable (height width : Word) (screen : height.toInt = world.fbHeight)
include screen

end Bar

end Handler

section Monitor
variable (s : Scheduler.State)

def used (slots : List Scheduler.Slot) : List Scheduler.Slot := slots.filter fun j => (s.tasks j).state ≠ .unused

theorem rowTask_eq (row : Int) (slots : List Scheduler.Slot) (valid : Int) (low : valid ≤ row) :
    SystemMonitor.rowTask s row slots valid = (used s slots)[(row - valid).toNat]? := by
  induction slots generalizing valid with
  | nil => rfl
  | cons j slots ih =>
    rw [SystemMonitor.rowTask]
    by_cases taken : (s.tasks j).state ≠ .unused
    · rw [if_pos taken,used,List.filter_cons_of_pos (by simpa using taken)]
      by_cases here : valid = row
      · rw [if_pos here,here,Int.sub_self]
        rfl
      · have next : (row - valid).toNat = (row - (valid + 1)).toNat + 1 := by omega
        rw [if_neg here,ih (valid + 1) (by omega),next]
        rfl
    · rw [if_neg taken,used,List.filter_cons_of_neg (by simpa using taken)]
      exact ih valid low

def rowDraw (sx sy : Int) (t : Scheduler.Slot) : Draw :=
  string sx sy (taskLine (s.tasks t)) (if (s.tasks t).state = .zombie then 0xAA0000 else 0xFFFFFF) 0x001111

theorem taskRows_eq (sx limit : Int) (slots : List Scheduler.Slot) (sy : Int) (n : Nat) : (taskRows s sx limit slots sy)[n]? =
    if sy + 12 * n < limit then ((used s slots)[n]?).map (rowDraw s sx (sy + 12 * n)) else none := by
  induction slots generalizing sy n with
  | nil => simp [taskRows,used]
  | cons j slots ih =>
    rw [taskRows]
    by_cases room : sy < limit
    · rw [if_pos room]
      by_cases unused : (s.tasks j).state = .unused
      · rw [if_pos unused,ih,used,used,List.filter_cons_of_neg (by simpa using unused)]
      · rw [if_neg unused,used,List.filter_cons_of_pos (by simpa using unused)]
        cases n with
        | zero =>
          simp only [List.getElem?_cons_zero,Option.map_some,Int.natCast_zero,Int.mul_zero,Int.add_zero,if_pos room]
          rfl
        | succ n =>
          have next : sy + 12 * ((n + 1 : Nat) : Int) = sy + 12 + 12 * n := by omega
          rw [List.getElem?_cons_succ,List.getElem?_cons_succ,ih,next]
          rfl
    · rw [if_neg room,if_neg (by omega)]
      rfl

theorem used_nodup : (used s (List.finRange 128)).Nodup := (List.nodup_finRange 128).filter _

/-- The rows of a System Monitor are the tasks of the scheduler, twelve pixels each, and a click takes the task whose row is
twenty pixels above the pointer; it is never the task of the row that the pointer is on. -/
theorem monitor_rows (k : Fin maxWindows) (my : Int) :
    let top := (g.windows k).y + 112
    let limit := (g.windows k).y + (g.windows k).h - 20
    let tasks := used g.sched (List.finRange 128)
    (∃ before, monitorDraws env g k = before ++ taskRows g.sched ((g.windows k).x + 10) limit (List.finRange 128) top) ∧
      (∀ n : Nat, (taskRows g.sched ((g.windows k).x + 10) limit (List.finRange 128) top)[n]? =
        if top + 12 * n < limit then (tasks[n]?).map (rowDraw g.sched ((g.windows k).x + 10) (top + 12 * n)) else none) ∧
      (SystemMonitor.clicked g.sched (monitorOf g k) my =
        if top + 20 ≤ my ∧ my < limit then tasks[((my - 20 - top) / 12).toNat]? else none) ∧
      ∀ (n : Nat) (t : Scheduler.Slot), tasks[n]? = some t → top + 12 * n ≤ my → my < top + 12 * n + 12 → SystemMonitor.clicked g.sched (monitorOf g k) my ≠ some t := by
  intro top limit tasks
  have clicked : SystemMonitor.clicked g.sched (monitorOf g k) my =
      if top + 20 ≤ my ∧ my < limit then tasks[((my - 20 - top) / 12).toNat]? else none := by
    have bar : SystemMonitor.blackWinTitlebar = 24 := rfl
    have base : SystemMonitor.taskBaseY (monitorOf g k) = top + 20 := by
      change (g.windows k).y + SystemMonitor.blackWinTitlebar + 10 + 20 + 12 + 20 + 30 + 16 = (g.windows k).y + 112 + 20
      omega
    have most : SystemMonitor.blackMaxTasks = 128 := rfl
    have bottom : (monitorOf g k).y + (monitorOf g k).h - 20 = limit := rfl
    unfold SystemMonitor.clicked
    rw [base,bottom]
    by_cases inside : top + 20 ≤ my ∧ my < limit
    · have row : (my - (top + 20)).tdiv 12 = (my - 20 - top) / 12 := by
        rw [Int.tdiv_eq_ediv_of_nonneg (by omega)]
        omega
      have low : 0 ≤ (my - 20 - top) / 12 := by omega
      rw [if_pos inside,if_pos inside]
      simp only [row]
      by_cases small : (my - 20 - top) / 12 < SystemMonitor.blackMaxTasks
      · rw [if_pos ⟨low,small⟩,rowTask_eq _ _ _ _ low,Int.sub_zero]
      · have few : tasks.length ≤ 128 := (List.length_filter_le _ _).trans (List.length_finRange (n := 128)).le
        rw [if_neg fun both => small both.2,List.getElem?_eq_none (by omega)]
    · rw [if_neg inside,if_neg inside]
  refine ⟨?_,taskRows_eq g.sched _ _ _ _,clicked,fun n t placed on under taken => ?_⟩
  · have place : (g.windows k).y + blackWinTitlebar + 10 + 20 + 12 + 30 + 16 = top := by
      change (g.windows k).y + 24 + 10 + 20 + 12 + 30 + 16 = (g.windows k).y + 112
      omega
    rw [monitorDraws,place]
    exact ⟨_,rfl⟩
  · rw [clicked] at taken
    split at taken
    · have once := (List.getElem?_inj (List.getElem?_eq_some_iff.mp placed).1 (used_nodup g.sched)).mp (placed.trans taken.symm)
      omega
    · cases taken

end Monitor

end BlackOS.GuiControls
