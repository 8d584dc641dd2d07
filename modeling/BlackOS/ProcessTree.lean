import BlackOS.Process
import BlackOS.Library.Run

/-! The parents of the processes over runs of creations, kills and signals. No slot is given back, so
that a process has the number of its slot. -/
namespace BlackOS.Process
open BlackOS.Library.Ram BlackOS.Library.Run BlackOS.LibcText

section Runs
variable {Node : Type}

/-- The process is neither UNUSED nor ZOMBIE. -/
def Alive (t : Table Node) (i : Slot) : Prop := (t.procs i).state ≠ .unused ∧ (t.procs i).state ≠ .zombie

inductive Event
  | create (name : Text) (ppid uptime : Word)
  | kill (pid : Word)
  | signal (pid : Word) (sig : Int)

def step (t : Table Node) : Event → Table Node
  | .create name ppid uptime => (blackProcessCreate t name ppid uptime).1
  | .kill pid => (blackProcessKill t pid).1
  | .signal pid sig => (blackProcessSignal t pid sig).1

/-- The parent of a new process is 0 or a process that is alive. -/
def Next (t : Table Node) (event : Event) (t' : Table Node) : Prop :=
  (∀ name ppid uptime, event = .create name ppid uptime → ppid = 0 ∨ ∃ j, Alive t j ∧ (t.procs j).pid = ppid) ∧
    step t event = t'

/-- Every process has parent 0 or a parent that is alive. -/
def Parented (t : Table Node) : Prop := ∀ i, (t.procs i).state ≠ .unused →
  (t.procs i).ppid = 0 ∨ ∃ j, Alive t j ∧ (t.procs j).pid = (t.procs i).ppid

structure Inv (t : Table Node) : Prop where
  most : t.nextPid.toNat ≤ 128
  used : ∀ i, (t.procs i).state ≠ .unused ↔ i.val < t.nextPid.toNat
  pid : ∀ i, (t.procs i).state ≠ .unused → (t.procs i).pid = word i.val
  parented : Parented t

theorem init_slot (uptime : Word) (i : Slot) : (blackProcessInit (image : Table Node) uptime).procs i =
    if i = 0 then {blank with pid := 0,ppid := 0,state := .running,name := blackInit,startTime := uptime}
    else blank := by
  rw [blackProcessInit]
  exact Function.update_apply (fun _ => blank) 0 _ i

theorem init_inv (uptime : Word) : Inv (blackProcessInit (image : Table Node) uptime) := by
  have used (i : Slot) : ((blackProcessInit (image : Table Node) uptime).procs i).state ≠ .unused ↔ i = 0 := by
    rw [init_slot]
    by_cases first : i = 0
    · rw [if_pos first]
      exact iff_of_true nofun first
    · rw [if_neg first]
      exact iff_of_false (fun filled => filled rfl) first
  refine ⟨(by decide : (1 : Word).toNat ≤ 128),fun i => ?_,fun i filled => ?_,fun i filled => ?_⟩
  · rw [used]
    constructor
    · intro first
      rw [first]
      exact Nat.one_pos
    · intro below
      exact Fin.ext (Nat.lt_one_iff.mp below)
  · rw [init_slot,(used i).mp filled]
    rfl
  · rw [init_slot,(used i).mp filled]
    exact Or.inl rfl

/-- What a kill of the process in slot `i` makes of every slot. -/
theorem killed_slots (t : Table Node) (pid : Word) (i : Slot) (filled : (t.procs i).state ≠ .unused) :
    let t' := blackProcessReparentChildren
      {t with procs := Function.update t.procs i {t.procs i with state := .zombie}} pid
    (∀ k, ((t'.procs k).state ≠ .unused ↔ (t.procs k).state ≠ .unused) ∧
      (k ≠ i → (t'.procs k).state = (t.procs k).state)) ∧
    (∀ k, (t'.procs k).pid = (t.procs k).pid) ∧
    ∀ k, (t.procs k).state ≠ .unused → (t'.procs k).ppid = if (t.procs k).ppid = pid then 0 else (t.procs k).ppid := by
  dsimp only [blackProcessReparentChildren]
  have each (k : Slot) :
      let p := Function.update t.procs i {t.procs i with state := .zombie} k
      (p.state ≠ .unused ↔ (t.procs k).state ≠ .unused) ∧ (k ≠ i → p.state = (t.procs k).state) ∧
        p.pid = (t.procs k).pid ∧ p.ppid = (t.procs k).ppid := by
    by_cases same : k = i
    · rw [same,Function.update_self]
      exact ⟨iff_of_true nofun filled,fun other => absurd rfl other,rfl,rfl⟩
    · rw [Function.update_of_ne same]
      exact ⟨Iff.rfl,fun _ => rfl,rfl,rfl⟩
  refine ⟨fun k => ?_,fun k => ?_,fun k used => ?_⟩
  · obtain ⟨kept,other,_⟩ := each k
    split
    · exact ⟨kept,other⟩
    · exact ⟨kept,other⟩
  · split
    · exact (each k).2.2.1
    · exact (each k).2.2.1
  · obtain ⟨kept,_,_,parent⟩ := each k
    rw [← parent]
    by_cases child : (Function.update t.procs i {t.procs i with state := .zombie} k).ppid = pid
    · rw [if_pos ⟨child,kept.mpr used⟩,if_pos child]
    · rw [if_neg fun both => child both.1,if_neg child]

/-- A parent that lives on, under its number, is a parent still. -/
theorem parent_kept (t t' : Table Node) (ppid : Word)
    (kept : ∀ j, Alive t j → (t.procs j).pid = ppid → Alive t' j ∧ (t'.procs j).pid = (t.procs j).pid)
    (known : ppid = 0 ∨ ∃ j, Alive t j ∧ (t.procs j).pid = ppid) :
    ppid = 0 ∨ ∃ j, Alive t' j ∧ (t'.procs j).pid = ppid := by
  rcases known with orphan | child
  · exact Or.inl orphan
  · obtain ⟨j,alive,number⟩ := child
    obtain ⟨still,same⟩ := kept j alive number
    exact Or.inr ⟨j,still,same.trans number⟩

section Step
variable (t : Table Node) (inv : Inv t)
include inv

theorem Inv.free_slot (free : Slot)
    (found : (List.finRange 128).find? (fun i => (t.procs i).state == .unused) = some free) :
    (t.procs free).state = .unused ∧ free.val = t.nextPid.toNat := by
  rw [← Fin.find?_eq_find?_finRange,Fin.find?_eq_some_iff] at found
  have unused : (t.procs free).state = .unused := beq_iff_eq.mp found.1
  have above : t.nextPid.toNat ≤ free.val := Nat.le_of_not_lt fun below => (inv.used free).mpr below unused
  refine ⟨unused,Nat.le_antisymm (Nat.le_of_not_lt fun later => ?_) above⟩
  have filled : (t.procs ⟨t.nextPid.toNat,later.trans free.isLt⟩).state ≠ .unused := by
    intro clear
    have miss := found.2 ⟨t.nextPid.toNat,later.trans free.isLt⟩ later
    rw [clear] at miss
    exact Bool.noConfusion miss
  exact Nat.lt_irrefl _ ((inv.used _).mp filled)

theorem Inv.congr (t' : Table Node) (next : t'.nextPid = t.nextPid)
    (same : ∀ i, (t'.procs i).state = (t.procs i).state ∧ (t'.procs i).pid = (t.procs i).pid ∧
      (t'.procs i).ppid = (t.procs i).ppid) : Inv t' := by
  refine ⟨?_,fun i => ?_,fun i used => ?_,fun i used => ?_⟩
  · rw [next]
    exact inv.most
  · rw [next,(same i).1]
    exact inv.used i
  · rw [(same i).1] at used
    rw [(same i).2.1]
    exact inv.pid i used
  · rw [(same i).1] at used
    rw [(same i).2.2]
    refine parent_kept t t' _ (fun j alive _ => ⟨?_,(same j).2.1⟩) (inv.parented i used)
    rw [Alive,(same j).1]
    exact alive

theorem create_inv (name : Text) (ppid uptime : Word)
    (parent : ppid = 0 ∨ ∃ j, Alive t j ∧ (t.procs j).pid = ppid) : Inv (blackProcessCreate t name ppid uptime).1 := by
  rw [blackProcessCreate]
  split
  · exact inv
  · rename_i free found
    obtain ⟨unused,place⟩ := inv.free_slot t free found
    have small := free.isLt
    have next : (t.nextPid + 1).toNat = free.val + 1 := by
      rw [BitVec.toNat_add,← place]
      exact Nat.mod_eq_of_lt (by change free.val + 1 < 2 ^ 32; omega)
    -- a process that is alive is in another slot, and stays there
    have stays (p : Proc Node) (j : Slot) (alive : Alive t j) :
        Alive {t with procs := Function.update t.procs free p,nextPid := t.nextPid + 1} j ∧
          (Function.update t.procs free p j).pid = (t.procs j).pid := by
      have other : j ≠ free := fun same => alive.1 (by rw [same,unused])
      rw [Alive]
      dsimp only
      rw [Function.update_of_ne other]
      exact ⟨alive,rfl⟩
    refine ⟨?_,fun i => ?_,fun i used => ?_,fun i used => ?_⟩
    · dsimp only
      rw [next]
      exact small
    · dsimp only
      rw [next]
      by_cases new : i = free
      · rw [new,Function.update_self]
        exact iff_of_true (fun same => by cases same) (Nat.lt_succ_self _)
      · rw [Function.update_of_ne new,inv.used,← place]
        have apart : i.val ≠ free.val := fun same => new (Fin.ext same)
        omega
    · dsimp only at used ⊢
      by_cases new : i = free
      · rw [new,Function.update_self,place]
        exact (toNat_word t.nextPid).symm
      · rw [Function.update_of_ne new] at used ⊢
        exact inv.pid i used
    · dsimp only at used ⊢
      by_cases new : i = free
      · rw [new,Function.update_self]
        exact parent_kept t _ ppid (fun j alive _ => stays _ j alive) parent
      · rw [Function.update_of_ne new] at used ⊢
        exact parent_kept t _ _ (fun j alive _ => stays _ j alive) (inv.parented i used)

/-- A zombie keeps its number, and the children of the process that is killed get parent 0. -/
theorem kill_inv (pid : Word) : Inv (blackProcessKill t pid).1 := by
  rw [blackProcessKill]
  split
  · exact inv
  · rename_i i found
    obtain ⟨number,_⟩ := get_spec t pid i found
    obtain ⟨states,pids,ppids⟩ := killed_slots t pid i (get_spec t pid i found).2
    refine ⟨inv.most,fun k => (states k).1.trans (inv.used k),fun k used => ?_,fun k used => ?_⟩
    · rw [pids]
      exact inv.pid k ((states k).1.mp used)
    · have before := (states k).1.mp used
      rw [ppids k before]
      by_cases orphaned : (t.procs k).ppid = pid
      · exact Or.inl (if_pos orphaned)
      · rw [if_neg orphaned]
        refine parent_kept t _ _ (fun j alive same => ⟨?_,pids j⟩) (inv.parented k before)
        have other : j ≠ i := by
          intro killed
          rw [killed,number] at same
          exact orphaned same.symm
        rw [Alive,(states j).2 other]
        exact alive

theorem signal_inv (pid : Word) (sig : Int) : Inv (blackProcessSignal t pid sig).1 := by
  rw [blackProcessSignal]
  split
  · exact inv
  · rename_i i found
    split
    · exact inv
    · split
      · exact kill_inv t inv pid
      · refine inv.congr t _ rfl fun k => ?_
        dsimp only
        by_cases same : k = i
        · rw [same,Function.update_self]
          exact ⟨rfl,rfl,rfl⟩
        · rw [Function.update_of_ne same]
          exact ⟨rfl,rfl,rfl⟩

theorem step_inv (event : Event) (t' : Table Node) (next : Next t event t') : Inv t' := by
  obtain ⟨parent,rfl⟩ := next
  cases event with
  | create name ppid uptime => exact create_inv t inv name ppid uptime (parent name ppid uptime rfl)
  | kill pid => exact kill_inv t inv pid
  | signal pid sig => exact signal_inv t inv pid sig

theorem Inv.distinct (i j : Slot) (first : (t.procs i).state ≠ .unused) (second : (t.procs j).state ≠ .unused)
    (other : i ≠ j) : (t.procs i).pid ≠ (t.procs j).pid := by
  rw [inv.pid i first,inv.pid j second]
  intro same
  exact other (Fin.ext (word_injective i.val j.val (i.isLt.trans (by decide)) (j.isLt.trans (by decide)) same))

end Step

/-- No process has a dead parent, and no two processes have one number. -/
theorem parents_alive (uptime : Word) (events : List Event) (t : Table Node)
    (run : Steps Next (blackProcessInit image uptime) events t) :
    Parented t ∧ ∀ i j, (t.procs i).state ≠ .unused → (t.procs j).state ≠ .unused → i ≠ j →
      (t.procs i).pid ≠ (t.procs j).pid := by
  have inv : Inv t := run.invariant Inv (init_inv uptime) fun t event t' inv => step_inv t inv event t'
  exact ⟨inv.parented,fun i j first second => inv.distinct t i j first second⟩

/-- Process 2 is a child of process 1, which is killed. -/
theorem parents_alive_killed :
    let create ppid := Event.create ⟨[0x73,0x68],by decide⟩ ppid 7
    let t₁ := step (blackProcessInit (image : Table Nat) 0) (create 0)
    let t₂ := step t₁ (create 1)
    let t₃ := step t₂ (.signal 1 9)
    (t₂.procs 2).ppid = 1 ∧ (t₃.procs 1).state = .zombie ∧ (t₃.procs 2).ppid = 0 ∧ Parented t₃ := by
  intro create t₁ t₂ t₃
  refine ⟨rfl,rfl,rfl,(parents_alive 0 [create 0,create 1,.signal 1 9] t₃ ?_).1⟩
  have first : Steps Next (blackProcessInit image 0) [create 0] t₁ := by
    refine Steps.snoc [] (create 0) _ t₁ Steps.nil ⟨fun _ _ _ same => Or.inl ?_,rfl⟩
    cases same
    rfl
  have second : Steps Next (blackProcessInit image 0) [create 0,create 1] t₂ := by
    refine Steps.snoc [create 0] (create 1) t₁ t₂ first ⟨fun _ _ _ same => Or.inr ⟨1,⟨nofun,nofun⟩,?_⟩,rfl⟩
    cases same
    rfl
  exact Steps.snoc [create 0,create 1] (.signal 1 9) t₂ t₃ second ⟨nofun,rfl⟩

end Runs

end BlackOS.Process
