import BlackOS.Layers

/-! The windows of `kernel/gui/gui_wm.c`, which are drawn in the order in which they were made. -/
namespace BlackOS.GuiWm
open BlackOS.Library.Canvas BlackOS.Fb
open BlackOS.Library.Ram (Byte Word)

def blackMaxWindows : Nat := 16

/-- `black_window_t`; the title holds the characters up to the end of the string. -/
structure Window where
  x : Int
  y : Int
  w : Int
  h : Int
  title : List Byte
  active : Bool
  focused : Bool

structure State where
  windows : Nat → Window
  count : Nat

def blackGuiWmInit (s : State) : State :=
  ⟨fun i => if i < blackMaxWindows then {s.windows i with active := false} else s.windows i,0⟩

def blackGuiWmCreate (s : State) (title : List Byte) (x y w h : Int) : State × Int :=
  if s.count ≥ blackMaxWindows then (s,-1)
  else (⟨Function.update s.windows s.count ⟨x,y,w,h,title.take 63,true,true⟩,s.count + 1⟩,s.count)

def blackGuiWmClose (s : State) (id : Int) : State :=
  if 0 ≤ id ∧ id < blackMaxWindows then
    {s with windows := Function.update s.windows id.toNat {s.windows id.toNat with active := false}}
  else s

/-- The loops draw the bar, the title and what is below. -/
def renderWindow (fb : Framebuffer) (w : Window) : Framebuffer :=
  if !w.active then fb
  else
    let fb := blackFbFillrect fb w.x w.y w.w 20 0x003300
    let fb := blackFbDrawstring fb (w.x + 4) (w.y + 4) w.title 0x00FF00 0x003300
    blackFbFillrect fb w.x (w.y + 20) w.w (w.h - 20) 0x001100

def blackGuiWmRender (s : State) (fb : Framebuffer) : Framebuffer :=
  (List.range s.count).foldl (fun fb i => renderWindow fb (s.windows i)) fb

/-- What a window that is open shows at a point: what is below the bar, else the title, which may be longer than the window
is wide, else the bar. -/
def Window.layer (w : Window) (a b : Int) : Option Word :=
  (area w.x (w.y + 20) w.w (w.h - 20) (fun _ _ => 0x001100) a b).or
    ((stringLayer (w.x + 4) (w.y + 4) w.title 0x00FF00 0x003300 a b).or (area w.x w.y w.w 20 (fun _ _ => 0x003300) a b))

def paintWindow (p : Plane Word) (w : Window) : Plane Word :=
  if !w.active then p
  else
    let p := paint p w.x w.y w.w.toNat 20 fun _ _ => 0x003300
    let p := paintString p (w.x + 4) (w.y + 4) w.title 0x00FF00 0x003300
    paint p w.x (w.y + 20) w.w.toNat (w.h - 20).toNat fun _ _ => 0x001100

theorem window_layer (p : Plane Word) (w : Window) (a b : Int) :
    paintWindow p w a b = (if w.active then w.layer a b else none).getD (p a b) := by
  unfold paintWindow
  cases w.active with
  | false => rfl
  | true =>
    simp only [Bool.not_true,Bool.false_eq_true,if_false,if_true]
    have bar := paint_area p w.x w.y w.w 20 (fun _ _ => 0x003300) a b
    have twenty : (20 : Int).toNat = 20 := rfl
    rw [twenty] at bar
    rw [paint_area,paintString_layer,bar,Window.layer]
    cases area w.x (w.y + 20) w.w (w.h - 20) (fun _ _ => (0x001100 : Word)) a b with
    | some v => rfl
    | none => cases stringLayer (w.x + 4) (w.y + 4) w.title 0x00FF00 0x003300 a b <;> rfl

theorem window_clips (first : Framebuffer) (fits : Fits first) (fb : Framebuffer) (p : Plane Word) (clips : Clips first fb p)
    (w : Window) : Clips first (renderWindow fb w) (paintWindow p w) := by
  unfold renderWindow paintWindow
  split
  · exact clips
  · have bar := loops_clips first fits fb p clips w.x w.y w.w.toNat 20 fun _ _ => 0x003300
    have title := drawstring_clips first fits w.title _ _ bar (w.x + 4) (w.y + 4) 0x00FF00 0x003300
    exact loops_clips first fits _ _ title w.x (w.y + 20) w.w.toNat (w.h - 20).toNat fun _ _ => 0x001100

inductive Op
  | create (title : List Byte) (x y w h : Int)
  | close (id : Int)

def step (s : State) : Op → State
  | .create title x y w h => (blackGuiWmCreate s title x y w h).1
  | .close id => blackGuiWmClose s id

/-- The windows that the calls have made, each with whether it is still open. -/
def made (l : List (Window × Bool)) : Op → List (Window × Bool)
  | .create title x y w h => if l.length ≥ 16 then l else l ++ [(⟨x,y,w,h,title.take 63,true,true⟩,true)]
  | .close id => if 0 ≤ id then l.modify id.toNat fun w => (w.1,false) else l

/-- The table holds the windows, and nothing is open behind them. -/
structure Holds (s : State) (l : List (Window × Bool)) : Prop where
  count : s.count = l.length
  room : l.length ≤ 16
  listed : ∀ i w, l[i]? = some w → s.windows i = {w.1 with active := w.2}
  behind : ∀ i, l.length ≤ i → i < 16 → (s.windows i).active = false

theorem init_holds (s : State) : Holds (blackGuiWmInit s) [] := by
  refine ⟨rfl,Nat.zero_le _,fun i w some_ => ?_,fun i _ low => ?_⟩
  · cases some_
  · have inside : i < blackMaxWindows := low
    simp [blackGuiWmInit,inside]

theorem step_holds (s : State) (l : List (Window × Bool)) (holds : Holds s l) (op : Op) : Holds (step s op) (made l op) := by
  have count := holds.count
  have room := holds.room
  have most : blackMaxWindows = 16 := rfl
  cases op with
  | create title x y w h =>
    dsimp only [step,made]
    unfold blackGuiWmCreate
    by_cases full : l.length ≥ 16
    · rw [if_pos full]
      simp only [count,most,full,if_true]
      exact holds
    · rw [if_neg full]
      simp only [count,most,full,if_false]
      refine ⟨by simp,by rw [List.length_append,List.length_singleton]; omega,fun i v some_ => ?_,fun i after low => ?_⟩
      · by_cases last : i = l.length
        · subst last
          rw [List.getElem?_concat_length] at some_
          obtain rfl := Option.some.inj some_
          simp
        · have inside : i < l.length := by
            have bound := (List.getElem?_eq_some_iff.mp some_).1
            rw [List.length_append,List.length_singleton] at bound
            omega
          rw [List.getElem?_append_left inside] at some_
          simpa [last] using holds.listed i v some_
      · rw [List.length_append,List.length_singleton] at after
        have other : i ≠ l.length := by omega
        simpa [other] using holds.behind i (by omega) low
  | close id =>
    dsimp only [step,made]
    unfold blackGuiWmClose
    by_cases positive : 0 ≤ id
    · rw [if_pos positive]
      by_cases small : id < blackMaxWindows
      · rw [if_pos ⟨positive,small⟩]
        refine ⟨by simpa using count,by simpa using room,fun i v some_ => ?_,fun i after low => ?_⟩
        · rw [List.getElem?_modify] at some_
          by_cases here : id.toNat = i
          · subst here
            obtain ⟨old,before,same⟩ := Option.map_eq_some_iff.mp some_
            rw [if_pos rfl] at same
            simp [← same,holds.listed _ old before]
          · obtain ⟨old,before,same⟩ := Option.map_eq_some_iff.mp some_
            rw [if_neg here] at same
            simpa [Ne.symm here,← same] using holds.listed i old before
        · rw [List.length_modify] at after
          by_cases here : i = id.toNat
          · simp [here]
          · simpa [here] using holds.behind i after low
      · rw [if_neg fun both => small both.2]
        have beyond : l.length ≤ id.toNat := by omega
        have same : l.modify id.toNat (fun w => (w.1,false)) = l := List.modify_eq_self (by omega)
        rw [same]
        exact holds
    · rw [if_neg positive,if_neg fun both => positive both.1]
      exact holds

theorem run_holds (s : State) (ops : List Op) : Holds (ops.foldl step (blackGuiWmInit s)) (ops.foldl made []) :=
  List.foldl_rel (init_holds s) fun op _ _ _ => fun holds => step_holds _ _ holds op

def paintWindows (p : Plane Word) (s : State) : Plane Word :=
  (List.range s.count).foldl (fun p i => paintWindow p (s.windows i)) p

theorem render_clips (first : Framebuffer) (fits : Fits first) (fb : Framebuffer) (p : Plane Word) (clips : Clips first fb p)
    (s : State) : Clips first (blackGuiWmRender s fb) (paintWindows p s) :=
  List.foldl_rel clips fun i _ fb p clips => window_clips first fits fb p clips (s.windows i)

/-- What the windows show at a point is what the last of them shows that is open and has the point. -/
def topmost (l : List (Window × Bool)) (a b : Int) : Option Word :=
  l.reverse.findSome? fun w => if w.2 then w.1.layer a b else none

theorem windows_topmost (s : State) (l : List (Window × Bool)) (holds : Holds s l) (p : Plane Word) (a b : Int) :
    paintWindows p s a b = (topmost l a b).getD (p a b) := by
  have windows : (List.range s.count).map s.windows = l.map fun w => {w.1 with active := w.2} := by
    rw [holds.count]
    apply List.ext_getElem
    · simp
    · intro i left right
      rw [List.getElem_map,List.getElem_map,List.getElem_range]
      exact holds.listed i _ (List.getElem?_eq_getElem _)
  have painted : paintWindows p s = l.foldl (fun p w => paintWindow p {w.1 with active := w.2}) p := by
    have mapped := congrArg (List.foldl paintWindow p) windows
    rwa [List.foldl_map,List.foldl_map] at mapped
  rw [painted]
  exact foldl_layers l _ (fun w a b => if w.2 then w.1.layer a b else none) p a b fun w _ p => window_layer p _ a b

/-- Whatever windows are made and closed, the next one made gets the number of those before it, until there are sixteen, and
on the screen each pixel is that of the last open window that has it, or what was drawn before. -/
theorem windows_stacked (s : State) (ops : List Op) (first fb : Framebuffer) (fits : Fits first) (screen : Nat → Word)
    (mapped : first.addr = some screen) (p : Plane Word) (clips : Clips first fb p) :
    let windows := ops.foldl made []
    let last := ops.foldl step (blackGuiWmInit s)
    Holds last windows ∧
      (∀ title x y w h, (blackGuiWmCreate last title x y w h).2 = if windows.length < 16 then (windows.length : Int) else -1) ∧
      ∃ shown, (blackFbSwap (blackGuiWmRender last fb)).addr = some shown ∧
        ∀ x < first.width.toNat, ∀ y < first.height.toNat,
          shown (y * (first.pitch.toNat / 4) + x) = (topmost windows x y).getD (p x y) := by
  intro windows last
  have holds : Holds last windows := run_holds s ops
  obtain ⟨shown,swapped,seen,_⟩ := swap_shows first fits _ _ (render_clips first fits fb p clips last) screen mapped
  refine ⟨holds,fun title x y w h => ?_,shown,swapped,fun x left y above => ?_⟩
  · have most : blackMaxWindows = 16 := rfl
    unfold blackGuiWmCreate
    rw [holds.count,most]
    by_cases room : windows.length < 16
    · rw [if_pos room,if_neg (by omega)]
    · rw [if_neg room,if_pos (by omega)]
  · rw [seen x left y above]
    exact windows_topmost last windows holds p x y

/-- The second window hides the first, until it is closed. -/
theorem windows_stacked_two :
    let ops : List Op := [.create [0x21] 0 (-21) 9 40,.create [] 0 0 2 9,.close 1]
    ∃ shown, (blackFbSwap (blackGuiWmRender (ops.foldl step (blackGuiWmInit ⟨fun _ => ⟨0,0,0,0,[],false,false⟩,0⟩)) tiny)).addr =
      some shown ∧ shown 0 = 0x001100 := by
  intro ops
  have begins : Clips tiny tiny fun _ _ => 0 :=
    ⟨⟨rfl,rfl,rfl,rfl⟩,fun _ => 0,fun _ => 0,rfl,rfl,fun _ _ _ _ => rfl,fun _ _ => rfl⟩
  obtain ⟨_,_,shown,swapped,seen⟩ := windows_stacked ⟨fun _ => ⟨0,0,0,0,[],false,false⟩,0⟩ ops tiny tiny ⟨by decide,by decide⟩ _ rfl _
    begins
  exact ⟨shown,swapped,(seen 0 (by decide) 0 (by decide)).trans (by decide)⟩

end BlackOS.GuiWm
