import BlackOS.GuiMouse

/-! Which tasks a click of the mouse changes. -/
namespace BlackOS.GuiClicks
open BlackOS.Library.Ram BlackOS.Gui BlackOS.GuiMouse
open BlackOS.Desktop (maxWindows)
open BlackOS.SystemMonitor (clicked click rowTask)

variable {Files : Type} (world : World Files) (g : Screen Files) (ms : Mouse)

/-- The left button goes down, and the click gets to the windows: no menu is open, no window is moved, and the pointer
is neither on the task bar nor on an icon. -/
structure Clicks : Prop where
  pressed : ms.buttons &&& ~~~g.prevButtons &&& 1 ≠ 0
  menu : g.menuState = .closed
  drag : g.dragWin < 0
  resize : g.resizeWin < 0
  bar : ms.y < world.fbHeight - 30
  icon : iconAt ms = none

/-- The click ends with the window. -/
def Ends (k : Fin maxWindows) (double : Bool) : Prop :=
  g.titled k fileManager ∧ (upHit g ms k ∨ double ∧ (entryHit world g ms k).isSome) ∨ titleHit g ms k ∨ windowHit g ms k

instance (k : Fin maxWindows) (double : Bool) : Decidable (Ends world g ms k double) := inferInstanceAs (Decidable (_ ∨ _))

/-- The windows that the click comes to, of those that are left. -/
def comes : Nat → BitVec 64 → List (Fin maxWindows)
  | 0,_ => []
  | i+1,last =>
    match slot (g.winOrder i) with
    | none => comes i last
    | some k =>
      if Hidden g k then comes i last
      else
        k :: if Ends world g ms k (isDouble last (world.uptimeMs i)) then []
          else comes i (if g.titled k fileManager then world.uptimeMs i else last)

/-- What the window does to the tasks. -/
def kill (s : Scheduler.State) (k : Fin maxWindows) : Scheduler.State :=
  if g.titled k systemMonitor then click s (monitorOf g k) ms.y else s

/-! The parts of the function that leave the tasks as they are. -/
section Quiet

theorem create_sched (title : LibcText.Text) (x y w h : Int) : (blackGuiCreateWindow g title x y w h).1.sched = g.sched := by
  rw [blackGuiCreateWindow]
  dsimp only
  split <;> rfl

theorem startItem_sched : (startItem g).sched = g.sched := by
  rw [startItem]
  split_ifs
  all_goals first | rfl | exact create_sched g _ _ _ _ _

theorem contextItem_sched : (contextItem world g ms).sched = g.sched := by
  rw [contextItem]
  split_ifs
  all_goals first | rfl | exact create_sched _ _ _ _ _ _

theorem menuItem_sched : (menuItem world g ms).sched = g.sched := by
  rw [menuItem]
  split_ifs
  · exact startItem_sched g
  · exact contextItem_sched world g ms
  · rfl

theorem menuClick_sched : (menuClick world g ms).sched = g.sched := by
  have item := menuItem_sched world g ms
  rw [menuClick]
  split
  · exact item
  · exact item

theorem drag_sched : (drag g ms).sched = g.sched := by
  rw [drag]
  split <;> rfl

theorem resize_sched : (resize g ms).sched = g.sched := by
  rw [resize]
  split <;> rfl

theorem barButton_sched (wid : Int) : (barButton g wid).sched = g.sched := by
  rw [barButton]
  split
  · rfl
  · split <;> rfl

theorem taskbarClick_sched : (taskbarClick world g ms).sched = g.sched := by
  rw [taskbarClick]
  dsimp only
  split
  · rfl
  · split
    · rfl
    · exact barButton_sched g _

theorem iconClick_sched (i command : Nat) : (iconClick g i command).sched = g.sched := by
  rw [iconClick]
  dsimp only
  split_ifs
  all_goals first | rfl | exact create_sched g _ _ _ _ _

variable (k : Fin maxWindows)

theorem openEntry_sched (d : Dirent) : (openEntry world g ms k d).sched = g.sched := by
  have made := create_sched g notepad ms.x ms.y 400 300
  rw [openEntry]
  dsimp only
  split
  · rfl
  · split
    · exact made
    · split
      · exact made
      · exact made

theorem saveNote_sched (now : BitVec 64) : (saveNote world g k now).sched = g.sched := by
  rw [saveNote]
  dsimp only
  split <;> rfl

theorem titleClick_sched (now : BitVec 64) : (titleClick world g ms k now).sched = g.sched := by
  rw [titleClick]
  dsimp only
  split_ifs
  · exact saveNote_sched world _ k now
  · rfl
  · rw [maximize]
    split <;> rfl
  · rfl
  · rfl
  · rfl

theorem windowClick_sched (double : Bool) (now : BitVec 64) (g' : Screen Files)
    (done : windowClick world g ms k double now = some g') : g'.sched = g.sched := by
  rw [windowClick] at done
  split at done
  · cases done
    rfl
  · split at done
    · cases done
      exact openEntry_sched world g ms k _
    · split at done
      · cases done
        exact titleClick_sched world g ms k now
      · split at done
        · cases done
          rfl
        · cases done

theorem windowClick_ends (double : Bool) (now : BitVec 64) :
    (windowClick world g ms k double now).isSome ↔ Ends world g ms k double := by
  rw [windowClick,Ends]
  by_cases up : g.titled k fileManager ∧ upHit g ms k
  · rw [if_pos up]
    exact iff_of_true rfl (.inl ⟨up.1,.inl up.2⟩)
  · rw [if_neg up]
    by_cases opens : g.titled k fileManager ∧ double
    · rw [if_pos opens]
      cases hit : entryHit world g ms k with
      | some d => exact iff_of_true rfl (.inl ⟨opens.1,.inr ⟨opens.2,rfl⟩⟩)
      | none =>
        rw [or_iff_right fun both => both.2.elim (fun upper => up ⟨both.1,upper⟩) fun found => nomatch found.2]
        dsimp only
        split_ifs with title window
        · exact iff_of_true rfl (.inl title)
        · exact iff_of_true rfl (.inr window)
        · exact iff_of_false nofun fun either => either.elim title window
    · rw [if_neg opens,or_iff_right fun both => both.2.elim (fun upper => up ⟨both.1,upper⟩) fun found => opens ⟨both.1,found.1⟩]
      dsimp only
      split_ifs with title window
      · exact iff_of_true rfl (.inl title)
      · exact iff_of_true rfl (.inr window)
      · exact iff_of_false nofun fun either => either.elim title window

end Quiet

/-! The loop over the windows. -/
section Loop

theorem ends_congr (g' : Screen Files) (windows : g'.windows = g.windows) (files : g'.files = g.files)
    (k : Fin maxWindows) (double : Bool) : Ends world g' ms k double ↔ Ends world g ms k double := by
  rw [Ends,Ends,Screen.titled,Screen.titled,upHit,upHit,entryHit,entryHit,titleHit,titleHit,windowHit,windowHit,windows,files]

/-- The windows that the click comes to depend on the windows and their order, the panes and the files. -/
theorem comes_congr (g' : Screen Files) (windows : g'.windows = g.windows) (order : g'.winOrder = g.winOrder)
    (panes : g'.panes = g.panes) (files : g'.files = g.files) (i : Nat) (last : BitVec 64) :
    comes world g' ms i last = comes world g ms i last := by
  have titled (k : Fin maxWindows) (title : LibcText.Text) : g'.titled k title = g.titled k title := by
    rw [Screen.titled,Screen.titled,windows]
  have hidden (k : Fin maxWindows) : Hidden g' k ↔ Hidden g k := by rw [Hidden,Hidden,windows,panes]
  have ends := ends_congr world g ms g' windows files
  induction i generalizing last with
  | zero => rfl
  | succ i ih => simp only [comes,order,titled,hidden,ends,ih]

theorem kill_congr (g' : Screen Files) (windows : g'.windows = g.windows) : kill g' ms = kill g ms := by
  funext s k
  rw [kill,kill,monitorOf,monitorOf,Screen.titled,Screen.titled,windows]

/-- What the window has changed before the pointer is compared with it. -/
structure Acted (k : Fin maxWindows) (now : BitVec 64) (g' : Screen Files) : Prop where
  desk : g'.toState = g.toState
  panes : g'.panes = g.panes
  files : g'.files = g.files
  last : g'.lastClickTime = if g.titled k fileManager then now else g.lastClickTime
  sched : g'.sched = kill g ms g.sched k

theorem titleActions_acted (k : Fin maxWindows) (now : BitVec 64) : Acted g ms k now (titleActions g ms k now) := by
  have settings : settingsClick g ms k = {g with themeColor := (settingsClick g ms k).themeColor} := by
    rw [settingsClick]
    split <;> rfl
  have monitor (g : Screen Files) : monitorClick g ms k = {g with sched := kill g ms g.sched k} := by
    rw [monitorClick,kill]
    split <;> rfl
  rw [titleActions,settings,monitor]
  exact ⟨rfl,rfl,rfl,rfl,rfl⟩

/-- The tasks that the loop leaves: each window that the click comes to has had its turn. -/
theorem loop_sched (i : Nat) :
    (windowLoop world ms i g).sched = (comes world g ms i g.lastClickTime).foldl (kill g ms) g.sched := by
  induction i generalizing g with
  | zero => rfl
  | succ i ih =>
    rw [windowLoop,comes]
    cases slot (g.winOrder i) with
    | none => exact ih g
    | some k =>
      dsimp only
      by_cases hidden : Hidden g k
      · rw [if_pos hidden,if_pos hidden]
        exact ih g
      · have acted := titleActions_acted g ms k (world.uptimeMs i)
        have windows := congrArg Desktop.State.windows acted.desk
        have ends := windowClick_ends world (titleActions g ms k (world.uptimeMs i)) ms k
          (isDouble g.lastClickTime (world.uptimeMs i)) (world.uptimeMs i)
        rw [ends_congr world g ms _ windows acted.files] at ends
        rw [if_neg hidden,if_neg hidden,List.foldl_cons,← acted.sched]
        cases done : windowClick world (titleActions g ms k (world.uptimeMs i)) ms k
            (isDouble g.lastClickTime (world.uptimeMs i)) (world.uptimeMs i) with
        | some g' =>
          rw [done] at ends
          rw [if_pos (ends.mp rfl)]
          exact windowClick_sched world _ ms k _ _ g' done
        | none =>
          rw [done] at ends
          rw [if_neg fun ended => nomatch ends.mpr ended]
          have rest := ih (titleActions g ms k (world.uptimeMs i))
          rw [comes_congr world g ms _ windows (congrArg Desktop.State.winOrder acted.desk) acted.panes acted.files,
            kill_congr g ms _ windows,acted.last] at rest
          exact rest

end Loop

/-! The tasks after some windows have had their turn. -/
section Tasks
variable (s : Scheduler.State) (t : Scheduler.Slot)

theorem rowTask_congr (s' : Scheduler.State) (same : ∀ j, (s'.tasks j).state = .unused ↔ (s.tasks j).state = .unused)
    (row : Int) (slots : List Scheduler.Slot) (valid : Int) : rowTask s' row slots valid = rowTask s row slots valid := by
  induction slots generalizing valid with
  | nil => rfl
  | cons j slots ih =>
    rw [rowTask,rowTask,ih,ih]
    exact if_congr (not_congr (same j)) rfl rfl

theorem rowTask_used (row : Int) (slots : List Scheduler.Slot) (valid : Int) (hit : rowTask s row slots valid = some t) :
    (s.tasks t).state ≠ .unused := by
  induction slots generalizing valid with
  | nil => cases hit
  | cons j slots ih =>
    rw [rowTask] at hit
    split_ifs at hit with used here
    · cases hit
      exact used
    · exact ih _ hit
    · exact ih _ hit

theorem clicked_congr (s' : Scheduler.State) (same : ∀ j, (s'.tasks j).state = .unused ↔ (s.tasks j).state = .unused)
    (w : SystemMonitor.Window) (my : Int) : clicked s' w my = clicked s w my := by
  rw [clicked,clicked]
  dsimp only
  rw [rowTask_congr s s' same]

theorem clicked_used (w : SystemMonitor.Window) (my : Int) (hit : clicked s w my = some t) :
    (s.tasks t).state ≠ .unused := by
  rw [clicked] at hit
  dsimp only at hit
  split_ifs at hit
  exact rowTask_used s t _ _ _ hit

/-- The pointer is at the height of the row of the task in the window, which is a System Monitor. -/
def AtRow (k : Fin maxWindows) : Prop := g.titled k systemMonitor ∧ clicked s (monitorOf g k) ms.y = some t

theorem kill_state (k : Fin maxWindows) :
    (AtRow g ms s t k → ((kill g ms s k).tasks t).state = .zombie) ∧
      (¬AtRow g ms s t k → ((kill g ms s k).tasks t).state = (s.tasks t).state) := by
  rw [kill,AtRow]
  by_cases monitor : g.titled k systemMonitor
  · rw [if_pos monitor,click]
    cases hit : clicked s (monitorOf g k) ms.y with
    | none => exact ⟨fun at_ => absurd at_.2 nofun,fun _ => rfl⟩
    | some j =>
      dsimp only
      rw [Scheduler.setTask_tasks]
      refine ⟨fun at_ => ?_,fun off => ?_⟩
      · rw [if_pos (Option.some.inj at_.2).symm]
      · rw [if_neg fun same => off ⟨monitor,by rw [same]⟩]
  · rw [if_neg monitor]
    exact ⟨fun at_ => absurd at_.1 monitor,fun _ => rfl⟩

theorem kill_unused (k : Fin maxWindows) : ((kill g ms s k).tasks t).state = .unused ↔ (s.tasks t).state = .unused := by
  obtain ⟨hit,miss⟩ := kill_state g ms s t k
  by_cases at_ : AtRow g ms s t k
  · rw [hit at_]
    exact iff_of_false nofun (clicked_used s t _ _ at_.2)
  · rw [miss at_]

theorem kills_state (ks : List (Fin maxWindows)) :
    ((∃ k ∈ ks, AtRow g ms s t k) → ((ks.foldl (kill g ms) s).tasks t).state = .zombie) ∧
      ((¬∃ k ∈ ks, AtRow g ms s t k) → ((ks.foldl (kill g ms) s).tasks t).state = (s.tasks t).state) := by
  induction ks generalizing s with
  | nil => exact ⟨fun ⟨k,listed,_⟩ => absurd listed List.not_mem_nil,fun _ => rfl⟩
  | cons k ks ih =>
    obtain ⟨hit,miss⟩ := kill_state g ms s t k
    have later (k' : Fin maxWindows) : AtRow g ms (kill g ms s k) t k' ↔ AtRow g ms s t k' := by
      rw [AtRow,AtRow,clicked_congr s _ fun j => kill_unused g ms s j k]
    have rest := ih (kill g ms s k)
    simp only [later] at rest
    rw [List.foldl_cons]
    refine ⟨fun some_ => ?_,fun none_ => ?_⟩
    · by_cases after : ∃ k' ∈ ks, AtRow g ms s t k'
      · exact rest.1 after
      · rw [rest.2 after]
        obtain ⟨k',listed,at_⟩ := some_
        rcases List.mem_cons.mp listed with same | other
        · exact hit (same ▸ at_)
        · exact absurd ⟨k',other,at_⟩ after
    · rw [rest.2 fun ⟨k',listed,at_⟩ => none_ ⟨k',List.mem_cons_of_mem k listed,at_⟩]
      exact miss fun at_ => none_ ⟨k,List.mem_cons_self,at_⟩

end Tasks

/-! The function from its start to the loop. -/
section Handle

/-- What is noted first leaves alone what the windows and the tasks depend on. -/
structure Noted (g' : Screen Files) : Prop where
  windows : g'.windows = g.windows
  order : g'.winOrder = g.winOrder
  count : g'.winCount = g.winCount
  panes : g'.panes = g.panes
  files : g'.files = g.files
  sched : g'.sched = g.sched
  last : g'.lastClickTime = g.lastClickTime
  menu : g'.menuState = g.menuState
  drag : g'.dragWin = g.dragWin
  resize : g'.resizeWin = g.resizeWin

theorem noted_noted : Noted g (noted g ms) := by
  rw [noted,menuHover]
  dsimp only
  split_ifs <;> exact ⟨rfl,rfl,rfl,rfl,rfl,rfl,rfl,rfl,rfl,rfl⟩

theorem pressed_down (buttons prev : Byte) (pressed : buttons &&& ~~~prev &&& 1 ≠ 0) : buttons &&& 1 ≠ 0 := by
  intro up
  refine pressed ?_
  rw [BitVec.and_assoc,BitVec.and_comm (~~~prev),← BitVec.and_assoc,up]
  exact BitVec.zero_and

theorem loop_noted (g' : Screen Files) (windows : g'.windows = g.windows) (order : g'.winOrder = g.winOrder)
    (panes : g'.panes = g.panes) (files : g'.files = g.files) (last : g'.lastClickTime = g.lastClickTime)
    (sched : g'.sched = g.sched) (i : Nat) :
    (windowLoop world ms i g').sched = (comes world g ms i g.lastClickTime).foldl (kill g ms) g.sched := by
  rw [loop_sched,comes_congr world g ms g' windows order panes files,kill_congr g ms g' windows,last,sched]

/-- The left button goes down, while no menu is open and no window is moved. -/
structure Pressed : Prop where
  pressed : ms.buttons &&& ~~~g.prevButtons &&& 1 ≠ 0
  menu : g.menuState = .closed
  drag : g.dragWin < 0
  resize : g.resizeWin < 0

theorem handle_pressed (down : Pressed g ms) : blackGuiHandleMouse world g ms =
    if world.fbHeight - 30 ≤ ms.y then taskbarClick world (noted g ms) ms
    else (iconAt ms).elim (windowLoop world ms g.winCount (noted g ms)) fun icon => iconClick (noted g ms) icon.1 icon.2 := by
  have same := noted_noted g ms
  have closed : (noted g ms).menuState = .closed := same.menu.trans down.menu
  have still : ¬0 ≤ (noted g ms).dragWin := by
    rw [same.drag]
    exact Int.not_le.mpr down.drag
  have sized : ¬0 ≤ (noted g ms).resizeWin := by
    rw [same.resize]
    exact Int.not_le.mpr down.resize
  rw [blackGuiHandleMouse,if_pos (pressed_down _ _ down.pressed),if_neg fun both => both.1 closed,if_neg still,if_neg sized,
    if_pos down.pressed,← closed,← same.count]
  cases iconAt ms with
  | none => rfl
  | some icon => rfl

theorem Clicks.down (clicks : Clicks world g ms) : Pressed g ms := ⟨clicks.pressed,clicks.menu,clicks.drag,clicks.resize⟩

theorem handle_clicks (clicks : Clicks world g ms) : (blackGuiHandleMouse world g ms).sched =
    (comes world g ms g.winCount g.lastClickTime).foldl (kill g ms) g.sched := by
  have same := noted_noted g ms
  rw [handle_pressed world g ms clicks.down,if_neg (Int.not_le.mpr clicks.bar),clicks.icon]
  exact loop_noted world g ms _ same.windows same.order same.panes same.files same.last same.sched g.winCount

theorem handle_quiet (quiet : ¬Clicks world g ms) : (blackGuiHandleMouse world g ms).sched = g.sched := by
  have same := noted_noted g ms
  rw [blackGuiHandleMouse,same.menu,same.drag,same.resize]
  split_ifs with down menu drag resize pressed bar right
  · exact (menuClick_sched world _ ms).trans same.sched
  · exact (drag_sched _ ms).trans same.sched
  · exact (resize_sched _ ms).trans same.sched
  · exact (taskbarClick_sched world _ ms).trans same.sched
  · cases icon : iconAt ms with
    | none =>
      refine absurd ⟨pressed,?_,Int.not_le.mp drag,Int.not_le.mp resize,Int.not_le.mp bar,icon⟩ quiet
      by_contra open_
      exact menu ⟨open_,pressed⟩
    | some found => exact (iconClick_sched _ found.1 found.2).trans same.sched
  · exact same.sched
  · exact same.sched
  · exact same.sched

end Handle

/-- The left button goes down at a point in a visible System Monitor, and in no visible window in front of it. -/
structure Aimed : Prop where
  pressed : ms.buttons &&& ~~~g.prevButtons &&& 1 ≠ 0
  monitor : ∃ i < g.winCount, ∃ k, slot (g.winOrder i) = some k ∧ ¬Hidden g k ∧ g.titled k systemMonitor ∧ windowHit g ms k ∧
    ∀ j < g.winCount, i < j → ∀ k', slot (g.winOrder j) = some k' → ¬Hidden g k' → ¬windowHit g ms k'

/-- A task that the mouse changes was clicked at, in a System Monitor, just when the pointer is on one, or no System
Monitor that a click comes to has a row of a task that is not ZOMBIE at the height of the pointer. -/
theorem clicks_aimed_iff :
    ((∃ t, ((blackGuiHandleMouse world g ms).sched.tasks t).state ≠ (g.sched.tasks t).state) → Aimed g ms) ↔
      (Clicks world g ms → Aimed g ms ∨ ∀ k ∈ comes world g ms g.winCount g.lastClickTime, g.titled k systemMonitor →
        ∀ t, clicked g.sched (monitorOf g k) ms.y = some t → (g.sched.tasks t).state = .zombie) := by
  by_cases clicks : Clicks world g ms
  · rw [handle_clicks world g ms clicks]
    refine ⟨fun claim _ => ?_,fun holds changed => ?_⟩
    · refine or_iff_not_imp_left.mpr fun missed k listed monitor t at_ => ?_
      by_contra alive
      refine missed (claim ⟨t,?_⟩)
      rw [(kills_state g ms g.sched t _).1 ⟨k,listed,monitor,at_⟩]
      exact fun same => alive same.symm
    · obtain ⟨t,changed⟩ := changed
      refine (holds clicks).resolve_right fun dead => changed ?_
      obtain ⟨hit,miss⟩ := kills_state g ms g.sched t (comes world g ms g.winCount g.lastClickTime)
      by_cases some_ : ∃ k ∈ comes world g ms g.winCount g.lastClickTime, AtRow g ms g.sched t k
      · obtain ⟨k,listed,monitor,at_⟩ := some_
        rw [hit ⟨k,listed,monitor,at_⟩,dead k listed monitor t at_]
      · exact miss some_
  · rw [handle_quiet world g ms clicks]
    exact iff_of_true (fun ⟨t,changed⟩ => absurd rfl changed) fun clicked => absurd clicked clicks

/-- A frame buffer of 1024 by 768, and no files. -/
def bare : World Unit where
  uptimeMs := fun _ => 1000
  fbWidth := 1024
  fbHeight := 768
  mkdir := fun files _ => files
  directory := fun _ _ => none
  contents := fun _ _ => none
  save := fun files _ _ => (files,false)
  after := ⟨[],LibcText.nil_terminated⟩

/-- The kernel's tasks, and a System Monitor as the menu opens it. -/
def monitored : Screen Unit :=
  (blackGuiCreateWindow (Screen.start SystemMonitor.bootedSystem.sched ()) systemMonitor 150 150 400 500).1

/-- A click beside the window, at the height of its first row, kills the task of that row. -/
theorem click_beside :
    ((blackGuiHandleMouse bare monitored ⟨600,282,1⟩).sched.tasks 0).state ≠ (monitored.sched.tasks 0).state ∧
      ¬Aimed monitored ⟨600,282,1⟩ := by
  refine ⟨by decide,fun aimed => ?_⟩
  obtain ⟨i,inside,k,listed,_,_,hit,_⟩ := aimed.monitor
  have only : i = 0 := Nat.lt_one_iff.mp inside
  have window : k = ⟨0,by decide⟩ := by
    rw [only] at listed
    exact (Option.some.inj listed).symm
  rw [window] at hit
  exact absurd hit (by decide)

end BlackOS.GuiClicks
