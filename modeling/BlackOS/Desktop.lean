import BlackOS.LibcText
import BlackOS.Library.Packed
import Mathlib.Data.Fin.Basic
import Mathlib.Data.Fintype.Basic

/-! The windows of `kernel/gui/desktop.c` and the order in which they are stacked. What is drawn in
a window, and how it is moved, is left out: nothing here reads it. -/
namespace BlackOS.Desktop
open BlackOS.Library.Ram BlackOS.Library.Packed BlackOS.LibcText

def maxWindows : Nat := 16

/-- `black_window_t`. -/
structure Window where
  x : Int
  y : Int
  w : Int
  h : Int
  title : Text
  active : Bool
  termCx : Int
  termCy : Int
  termInputPos : Int
  termHasPrompt : Bool
  vfsPath : Text

/-- The variables of `desktop.c` that the windows use. -/
structure State where
  windows : Fin maxWindows → Window
  winOrder : Nat → Int
  winCount : Nat
  running : Bool
  needsRedraw : Bool

def blank : Window := ⟨0,0,0,0,⟨[],nofun⟩,false,0,0,0,false,⟨[],nofun⟩⟩

def rootPath : Text := ⟨[0x2F],by decide⟩

variable (s : State)

/-- `black_gui_init`, which leaves the order as it is. -/
def blackGuiInit : State := {s with windows := fun _ => blank,winCount := 0,running := true}

/-- The loop that looks for a window in the order. -/
def place (wid : Int) : Option Nat := (List.range s.winCount).find? fun i => s.winOrder i == wid

def blackGuiBringToFront (wid : Int) : State :=
  match place s wid with
  | none => s
  | some idx =>
    if idx = s.winCount - 1 then s
    else
      let order := shift s.winOrder idx (s.winCount - 1 - idx)
      {s with winOrder := Function.update order (s.winCount - 1) wid,needsRedraw := true}

def blackGuiGetFocused : Int := if s.winCount = 0 then -1 else s.winOrder (s.winCount - 1)

def blackGuiCreateWindow (title : Text) (x y w h : Int) : State × Int :=
  if maxWindows ≤ s.winCount then (s,-1)
  else
    match (List.finRange maxWindows).find? fun i => !(s.windows i).active with
    | none => (s,-1)
    | some idx =>
      let win := {blank with title := strncpy title 63,x := x,y := y,w := w,h := h,active := true,vfsPath := rootPath}
      ({s with
        windows := Function.update s.windows idx win
        winOrder := Function.update s.winOrder s.winCount idx.val
        winCount := s.winCount + 1
        needsRedraw := true},idx.val)

def blackGuiDestroyWindow (wid : Int) : State :=
  if valid : wid < 0 ∨ maxWindows ≤ wid then s
  else
    let slot : Fin maxWindows := ⟨wid.toNat,by omega⟩
    if (s.windows slot).active = false then s
    else
      let s := {s with windows := Function.update s.windows slot {s.windows slot with active := false}}
      match place s wid with
      | none => {s with needsRedraw := true}
      | some idx =>
        {s with
          winOrder := shift s.winOrder idx (s.winCount - 1 - idx)
          winCount := s.winCount - 1
          needsRedraw := true}

inductive Call
  | createWindow (title : Text) (x y w h : Int)
  | destroyWindow (wid : Int)
  | bringToFront (wid : Int)

def step : Call → State
  | .createWindow title x y w h => (blackGuiCreateWindow s title x y w h).1
  | .destroyWindow wid => blackGuiDestroyWindow s wid
  | .bringToFront wid => blackGuiBringToFront s wid

/-- The windows from the one at the back to the one in front. -/
def stack : List Int := contents s.winOrder s.winCount

def Active (wid : Int) : Prop := ∃ i : Fin maxWindows, (i.val : Int) = wid ∧ (s.windows i).active = true

structure Inv : Prop where
  once : (stack s).Nodup
  exactly : ∀ wid, wid ∈ stack s ↔ Active s wid

theorem init_inv : Inv (blackGuiInit s) := by
  refine ⟨List.nodup_nil,fun wid => iff_of_false (List.not_mem_nil) fun active => ?_⟩
  obtain ⟨i,_,active⟩ := active
  exact Bool.noConfusion active

theorem active_slot (i : Fin maxWindows) : Active s i.val ↔ (s.windows i).active = true := by
  constructor
  · intro active
    obtain ⟨j,same,active⟩ := active
    rw [← Fin.ext (Int.ofNat_inj.mp same)]
    exact active
  · intro active
    exact ⟨i,rfl,active⟩

/-- What a change of one window makes of the active ones. -/
theorem active_update (i : Fin maxWindows) (win : Window) (s' : State)
    (windows : s'.windows = Function.update s.windows i win) (wid : Int) :
    Active s' wid ↔ if wid = i.val then win.active = true else Active s wid := by
  by_cases same : wid = i.val
  · rw [if_pos same,same,active_slot,windows,Function.update_self]
  · rw [if_neg same,Active,Active]
    refine exists_congr fun j => and_congr_right fun number => ?_
    rw [windows,Function.update_of_ne]
    intro equal
    exact same (by rw [← number,equal])

/-- A new window is one that was not active, and it stands in front. -/
theorem create_spec (title : Text) (x y w h : Int) :
    let made := blackGuiCreateWindow s title x y w h
    made = (s,-1) ∨ ¬Active s made.2 ∧ stack made.1 = stack s ++ [made.2] ∧
      ∀ wid, Active made.1 wid ↔ wid = made.2 ∨ Active s wid := by
  rw [blackGuiCreateWindow]
  split
  · exact Or.inl rfl
  · split
    · exact Or.inl rfl
    · rename_i idx found
      have inactive := List.find?_some found
      rw [Bool.not_eq_true'] at inactive
      refine Or.inr ⟨?_,?_,fun wid => ?_⟩
      · rw [active_slot,inactive]
        exact Bool.false_ne_true
      · exact contents_append s.winOrder s.winCount idx.val
      · rw [active_update s idx _ _ rfl]
        by_cases same : wid = idx.val
        · rw [if_pos same]
          exact iff_of_true rfl (Or.inl same)
        · rw [if_neg same]
          exact (or_iff_right same).symm

theorem destroy_idle (wid : Int) (inactive : ¬Active s wid) : blackGuiDestroyWindow s wid = s := by
  rw [blackGuiDestroyWindow]
  split
  · rfl
  · rename_i valid
    refine if_pos ?_
    rw [← Bool.not_eq_true,← active_slot]
    intro active
    exact inactive (by rwa [Int.toNat_of_nonneg (by omega)] at active)

section Order
variable (inv : Inv s)
include inv

theorem place_none (wid : Int) : place s wid = none ↔ ¬Active s wid := by
  rw [place,search_none]
  exact not_congr (inv.exactly wid)

theorem place_some (wid : Int) (active : Active s wid) : ∃ idx, place s wid = some idx :=
  Option.ne_none_iff_exists'.mp fun missing => (place_none s inv wid).mp missing active

/-- What the loop that moves the later windows down leaves. -/
theorem place_erase (wid : Int) (idx : Nat) (found : place s wid = some idx) :
    idx < s.winCount ∧ s.winOrder idx = wid ∧
      contents (shift s.winOrder idx (s.winCount - 1 - idx)) (s.winCount - 1) = (stack s).erase wid := by
  obtain ⟨inside,hit,erase⟩ := search_some s.winOrder s.winCount wid inv.once idx found
  refine ⟨inside,hit,?_⟩
  have moved := shift_contents s.winOrder idx (s.winCount - 1 - idx)
  rw [show idx + (s.winCount - 1 - idx) = s.winCount - 1 by omega,show s.winCount - 1 + 1 = s.winCount by omega] at moved
  exact moved.trans erase

theorem front_idle (wid : Int) (inactive : ¬Active s wid) : blackGuiBringToFront s wid = s := by
  rw [blackGuiBringToFront,(place_none s inv wid).mpr inactive]

theorem front_spec (wid : Int) (active : Active s wid) :
    stack (blackGuiBringToFront s wid) = (stack s).erase wid ++ [wid] ∧
      (blackGuiBringToFront s wid).windows = s.windows := by
  obtain ⟨idx,found⟩ := place_some s inv wid active
  obtain ⟨inside,hit,removed⟩ := place_erase s inv wid idx found
  have count : s.winCount - 1 + 1 = s.winCount := by omega
  rw [blackGuiBringToFront,found,← removed]
  dsimp only
  by_cases last : idx = s.winCount - 1
  · -- the loop would run no round
    rw [if_pos last,last,Nat.sub_self,shift,← hit,last,← contents_succ,count]
    exact ⟨rfl,rfl⟩
  · rw [if_neg last]
    have front := contents_append (shift s.winOrder idx (s.winCount - 1 - idx)) (s.winCount - 1) wid
    rw [count] at front
    exact ⟨front,rfl⟩

theorem destroy_spec (wid : Int) (active : Active s wid) :
    stack (blackGuiDestroyWindow s wid) = (stack s).erase wid ∧
      ∀ other, Active (blackGuiDestroyWindow s wid) other ↔ other ≠ wid ∧ Active s other := by
  obtain ⟨idx,found⟩ := place_some s inv wid active
  obtain ⟨_,_,removed⟩ := place_erase s inv wid idx found
  obtain ⟨i,number,on⟩ := active
  have below := i.isLt
  have slot : (⟨wid.toNat,by omega⟩ : Fin maxWindows) = i := Fin.ext (by change wid.toNat = i.val; omega)
  rw [blackGuiDestroyWindow,dif_neg (by omega),slot,if_neg (by rw [on]; nofun)]
  unfold place at found ⊢
  dsimp only
  rw [found]
  refine ⟨removed,fun other => ?_⟩
  rw [active_update s i _ _ rfl,number]
  by_cases gone : other = wid
  · rw [if_pos gone]
    exact iff_of_false Bool.false_ne_true fun both => both.1 gone
  · rw [if_neg gone]
    exact (and_iff_right gone).symm

end Order

theorem step_inv (inv : Inv s) (call : Call) : Inv (step s call) := by
  cases call with
  | createWindow title x y w h =>
    rcases create_spec s title x y w h with refused | made
    · rw [step,refused]
      exact inv
    · obtain ⟨inactive,front,active⟩ := made
      refine ⟨?_,fun wid => ?_⟩
      · rw [step,front]
        refine List.nodup_append.mpr ⟨inv.once,List.nodup_singleton _,fun wid member new single => ?_⟩
        rw [List.mem_singleton.mp single]
        intro same
        exact inactive ((inv.exactly _).mp (same ▸ member))
      · rw [step,front,active,List.mem_append,List.mem_singleton,inv.exactly]
        exact or_comm
  | destroyWindow wid =>
    by_cases active : Active s wid
    · obtain ⟨order,others⟩ := destroy_spec s inv wid active
      refine ⟨?_,fun other => ?_⟩
      · rw [step,order]
        exact inv.once.erase wid
      · rw [step,order,others,inv.once.mem_erase_iff,inv.exactly]
    · rw [step,destroy_idle s wid active]
      exact inv
  | bringToFront wid =>
    by_cases active : Active s wid
    · obtain ⟨order,windows⟩ := front_spec s inv wid active
      have moved : List.Perm (stack (step s (.bringToFront wid))) (stack s) := by
        rw [step,order]
        exact List.perm_append_singleton wid _ |>.trans (List.perm_cons_erase ((inv.exactly wid).mpr active)).symm
      refine ⟨moved.nodup_iff.mpr inv.once,fun other => ?_⟩
      rw [moved.mem_iff,inv.exactly,Active,Active,step,windows]
    · rw [step,front_idle s inv wid active]
      exact inv

theorem Inv.count (inv : Inv s) :
    s.winCount = ((List.finRange maxWindows).filter fun i => (s.windows i).active).length := by
  have listed : List.Perm (stack s)
      (((List.finRange maxWindows).filter fun i => (s.windows i).active).map fun i => (i.val : Int)) := by
    rw [List.perm_ext_iff_of_nodup inv.once]
    · intro wid
      rw [inv.exactly,List.mem_map,Active]
      refine exists_congr fun i => ?_
      rw [List.mem_filter,and_iff_right (List.mem_finRange i)]
      exact and_comm
    · refine List.Nodup.map (fun i j same => Fin.ext (Int.ofNat_inj.mp same)) ?_
      exact (List.nodup_finRange maxWindows).filter _
  have size := listed.length_eq
  rwa [List.length_map,stack,contents_length] at size

/-- Every active window is stacked once and nothing else is, and the windows that are not moved keep
their order. -/
theorem stacked_windows (calls : List Call) :
    let s' := calls.foldl step (blackGuiInit s)
    (stack s').Nodup ∧ (∀ wid, wid ∈ stack s' ↔ Active s' wid) ∧
      s'.winCount = ((List.finRange maxWindows).filter fun i => (s'.windows i).active).length ∧
      s'.winCount ≤ maxWindows ∧
      (∀ wid, Active s' wid → stack (blackGuiBringToFront s' wid) = (stack s').erase wid ++ [wid]) ∧
      ∀ wid, stack (blackGuiDestroyWindow s' wid) = (stack s').erase wid := by
  intro s'
  have inv : Inv s' := List.foldlRecOn calls step (init_inv s) fun s inv call _ => step_inv s inv call
  refine ⟨inv.once,inv.exactly,inv.count,?_,fun wid active => (front_spec s' inv wid active).1,fun wid => ?_⟩
  · rw [inv.count]
    exact (List.length_filter_le _ _).trans (by rw [List.length_finRange])
  · by_cases active : Active s' wid
    · exact (destroy_spec s' inv wid active).1
    · rw [destroy_idle s' wid active,List.erase_of_not_mem fun member => active ((inv.exactly wid).mp member)]

end BlackOS.Desktop
