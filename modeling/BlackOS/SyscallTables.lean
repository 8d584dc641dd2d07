import BlackOS.Syscall

/-! Whose descriptor table a system call reaches. Every call that gets past its first checks takes the
table of the process in the first slot, whichever process was made current. -/
namespace BlackOS.Syscall
open BlackOS.Library.Ram BlackOS.Library.Trace BlackOS.Library.Run BlackOS.LibcText BlackOS.Process BlackOS.Vfs

section Frame
variable {FS Node : Type} (k : Kernel FS Node)

/-- A change of the kernel that leaves the numbers and the tables of the processes, but for the tables
of the slots in the list. -/
structure Within (slots : List Slot) (k k' : Kernel FS Node) : Prop where
  keeps : Keeps k.table k'.table
  current : k'.table.currentPid = k.table.currentPid
  tables : ∀ q, q ∉ slots → (k'.table.procs q).fdTable = (k.table.procs q).fdTable

theorem within_refl (slots : List Slot) : Within slots k k := ⟨fun _ used => ⟨rfl,used⟩,rfl,fun _ _ => rfl⟩

theorem within_after (slots : List Slot) (done : Outcome FS) : Within slots k (k.after done) :=
  ⟨fun _ used => ⟨rfl,used⟩,rfl,fun _ _ => rfl⟩

theorem Within.trans {slots : List Slot} {k k₁ k₂ : Kernel FS Node} (first : Within slots k k₁)
    (second : Within slots k₁ k₂) : Within slots k k₂ := by
  refine ⟨?_,second.current.trans first.current,fun q outside => (second.tables q outside).trans (first.tables q outside)⟩
  intro i used
  obtain ⟨pid,used₁⟩ := first.keeps i used
  obtain ⟨pid₁,used₂⟩ := second.keeps i used₁
  exact ⟨pid₁.trans pid,used₂⟩

theorem within_update (slots : List Slot) (i : Slot) (p : Proc Node) (pid : p.pid = (k.table.procs i).pid)
    (used : (k.table.procs i).state ≠ .unused → p.state ≠ .unused)
    (table : i ∉ slots → p.fdTable = (k.table.procs i).fdTable) :
    Within slots k {k with table := {k.table with procs := Function.update k.table.procs i p}} := by
  refine ⟨?_,rfl,?_⟩
  · intro j usedBefore
    dsimp only
    by_cases here : j = i
    · rw [here] at usedBefore ⊢
      rw [Function.update_self]
      exact ⟨pid,used usedBefore⟩
    · rw [Function.update_of_ne here]
      exact ⟨rfl,usedBefore⟩
  · intro q outside
    dsimp only
    by_cases here : q = i
    · rw [here] at outside ⊢
      rw [Function.update_self]
      exact table outside
    · rw [Function.update_of_ne here]

theorem within_setEntry (slots : List Slot) (p : Slot) (member : p ∈ slots) (fd : Fd) (e : FdEntry Node) :
    Within slots k (k.setEntry p fd e) :=
  within_update k slots p _ rfl id fun outside => absurd member outside

theorem within_reparent (slots : List Slot) (ppid : Word) :
    Within slots k {k with table := blackProcessReparentChildren k.table ppid} := by
  refine ⟨?_,rfl,?_⟩
  · intro i used
    rw [blackProcessReparentChildren]
    dsimp only
    split
    · exact ⟨rfl,used⟩
    · exact ⟨rfl,used⟩
  · intro q _
    rw [blackProcessReparentChildren]
    dsimp only
    split
    · rfl
    · rfl

theorem within_kill (slots : List Slot) (pid : Word) :
    Within slots k {k with table := (blackProcessKill k.table pid).1} := by
  rw [blackProcessKill]
  split
  · exact within_refl k slots
  · rename_i i _
    exact (within_update k slots i {k.table.procs i with state := .zombie} rfl (fun _ => nofun) fun _ => rfl).trans
      (within_reparent _ slots pid)

theorem within_signal (slots : List Slot) (pid : Word) (sig : Int) :
    Within slots k {k with table := (blackProcessSignal k.table pid sig).1} := by
  rw [blackProcessSignal]
  split
  · exact within_refl k slots
  · rename_i i _
    split
    · exact within_refl k slots
    · split
      · exact within_kill k slots pid
      · exact within_update k slots i _ rfl id fun _ => rfl

end Frame

section Reach
variable {FS Node : Type} (d : Drivers FS Node) (k : Kernel FS Node)

/-- A call comes to a descriptor table: its descriptor is in range, or the path to open is found. -/
def Reaches (a : Word) : Sys → Prop
  | .read => a.toNat < 32
  | .write => a.toNat < 32
  | .close => a.toNat < 32
  | .openPath => lookup d k a ≠ none
  | _ => False

/-- The call logs process 0 or nothing, and changes no table that is not in its log. -/
structure Logged (reached : Prop) (x : Traced Slot (Kernel FS Node × Int)) : Prop where
  own : ∀ q ∈ x.events, q = 0
  nonempty : x.events ≠ [] ↔ reached
  done : ∃ k' v, x.result = some (k',v) ∧ Within x.events k k'

theorem logged_quiet {reached : Prop} (unreached : ¬reached) (k' : Kernel FS Node) (v : Int) (within : Within [] k k') :
    Logged k reached ⟨[],some (k',v)⟩ :=
  ⟨nofun,⟨fun filled => absurd rfl filled,fun holds => absurd holds unreached⟩,k',v,rfl,within⟩

theorem logged_one {reached : Prop} (holds : reached) (k' : Kernel FS Node) (v : Int) (within : Within [0] k k') :
    Logged k reached ⟨[0],some (k',v)⟩ :=
  ⟨fun _ member => List.mem_singleton.mp member,⟨fun _ => holds,nofun⟩,k',v,rfl,within⟩

theorem logged_two {reached : Prop} (holds : reached) (k' : Kernel FS Node) (v : Int) (within : Within [0,0] k k') :
    Logged k reached ⟨[0,0],some (k',v)⟩ :=
  ⟨fun _ member => by simpa using member,⟨fun _ => holds,nofun⟩,k',v,rfl,within⟩

theorem transfer_logged (call : Option Node → Word → Word → Word → Outcome FS) (fd buf sz : Word) :
    Logged k (fd.toNat < 32) (transfer k call fd buf sz) := by
  by_cases inside : fd.toNat < 32
  · rw [transfer_inside k call fd buf sz inside _ rfl _ rfl]
    split
    · exact logged_one k inside k (-1) (within_refl k _)
    · split
      · exact logged_two k inside _ _ ((within_after k _ _).trans (within_setEntry _ _ 0 List.mem_cons_self _ _))
      · exact logged_one k inside _ _ (within_after k _ _)
  · rw [transfer_outside k call fd buf sz inside]
    exact logged_quiet k inside k (-1) (within_refl k [])

theorem open_logged (path flags : Word) : Logged k (lookup d k path ≠ none) (blackSysOpen d k path flags) := by
  cases found : lookup d k path with
  | none =>
    rw [open_missing d k path flags found]
    exact logged_quiet k (fun missing => missing rfl) k (-1) (within_refl k [])
  | some n =>
    rw [open_found d k path flags n found]
    split
    · exact logged_one k nofun k (-1) (within_refl k _)
    · exact logged_two k nofun _ _ ((within_setEntry k _ 0 List.mem_cons_self _ _).trans (within_after _ _ _))

theorem close_logged (fd : Word) : Logged k (fd.toNat < 32) (blackSysClose d k fd) := by
  by_cases inside : fd.toNat < 32
  · rw [close_inside d k fd inside _ rfl]
    split
    · exact logged_one k inside k (-1) (within_refl k _)
    · exact logged_two k inside _ _ ((within_after k _ _).trans (within_setEntry _ _ 0 List.mem_cons_self _ _))
  · rw [close_outside d k fd inside]
    exact logged_quiet k inside k (-1) (within_refl k [])

theorem invoke_logged (a b c e f : Word) (sys : Sys) : Logged k (Reaches d k a sys) (invoke d k a b c e f sys) := by
  cases sys with
  | exit => exact logged_quiet k id _ _ (within_refl k [])
  | read => exact transfer_logged k _ a b c
  | write => exact transfer_logged k _ a b c
  | openPath => exact open_logged d k a b
  | close => exact close_logged d k a
  | getpid => exact logged_quiet k id _ _ (within_refl k [])
  | fork => exact logged_quiet k id _ _ (within_refl k [])
  | exec => exact logged_quiet k id _ _ (within_refl k [])
  | waitpid => exact logged_quiet k id _ _ (within_refl k [])
  | kill => exact logged_quiet k id _ _ (within_signal k [] a b.toInt)

end Reach

/-! The log has every table that a call reads: another table in place of one that is not logged
changes nothing but that table itself. -/
section Unread
variable {FS Node : Type} (q : Slot) (entries : Fd → FdEntry Node)

def withEntries (t : Table Node) : Table Node :=
  {t with procs := fun i => if i = q then {t.procs i with fdTable := entries} else t.procs i}

def Kernel.withEntries (k : Kernel FS Node) : Kernel FS Node := {k with table := Syscall.withEntries q entries k.table}

/-- The same call with the other table. -/
def Unread (x y : Traced Slot (Kernel FS Node × Int)) : Prop :=
  y = ⟨x.events,x.result.map fun r => (r.1.withEntries q entries,r.2)⟩

theorem withEntries_other (t : Table Node) (i : Slot) (other : i ≠ q) :
    (withEntries q entries t).procs i = t.procs i := if_neg other

theorem withEntries_get (t : Table Node) (pid : Word) :
    blackProcessGet (withEntries q entries t) pid = blackProcessGet t pid := by
  rw [blackProcessGet,blackProcessGet]
  congr 1
  funext i
  by_cases here : i = q
  · rw [withEntries]
    dsimp only
    rw [if_pos here]
  · rw [withEntries_other q entries t i here]

theorem withEntries_update (t : Table Node) (i : Slot) (change : Proc Node → Proc Node)
    (apart : ∀ p, change {p with fdTable := entries} = {change p with fdTable := entries}) :
    withEntries q entries {t with procs := Function.update t.procs i (change (t.procs i))} =
      {(withEntries q entries t) with
        procs := Function.update (withEntries q entries t).procs i (change ((withEntries q entries t).procs i))} := by
  rw [withEntries,withEntries]
  congr 1
  funext j
  dsimp only
  by_cases here : j = i
  · rw [here,Function.update_self,Function.update_self]
    split
    · exact (apart _).symm
    · rfl
  · rw [Function.update_of_ne here,Function.update_of_ne here]

theorem withEntries_reparent (t : Table Node) (ppid : Word) :
    withEntries q entries (blackProcessReparentChildren t ppid) =
      blackProcessReparentChildren (withEntries q entries t) ppid := by
  rw [withEntries,withEntries,blackProcessReparentChildren,blackProcessReparentChildren]
  congr 1
  funext j
  dsimp only
  by_cases here : j = q
  · simp only [if_pos here]
    split
    · rfl
    · rfl
  · simp only [if_neg here]

theorem withEntries_kill (t : Table Node) (pid : Word) :
    (blackProcessKill (withEntries q entries t) pid).1 = withEntries q entries (blackProcessKill t pid).1 := by
  rw [blackProcessKill,blackProcessKill,withEntries_get]
  cases blackProcessGet t pid with
  | none => rfl
  | some i =>
    dsimp only
    rw [withEntries_reparent,withEntries_update q entries t i (fun p => {p with state := .zombie}) fun _ => rfl]

theorem withEntries_signal (t : Table Node) (pid : Word) (sig : Int) :
    blackProcessSignal (withEntries q entries t) pid sig =
      (withEntries q entries (blackProcessSignal t pid sig).1,(blackProcessSignal t pid sig).2) := by
  rw [blackProcessSignal,blackProcessSignal,withEntries_get]
  cases blackProcessGet t pid with
  | none => rfl
  | some i =>
    dsimp only
    split
    · rfl
    · split
      · rw [withEntries_kill]
      · rw [withEntries_update q entries t i
          (fun p => {p with pendingSignals := p.pendingSignals ||| (1 : Word) <<< sig.toNat}) fun _ => rfl]

theorem withEntries_setEntry (k : Kernel FS Node) (p : Slot) (other : p ≠ q) (fd : Fd) (e : FdEntry Node) :
    (k.withEntries q entries).setEntry p fd e = (k.setEntry p fd e).withEntries q entries := by
  have same := withEntries_other q entries k.table p other
  rw [Kernel.setEntry,Kernel.setEntry,Kernel.withEntries,Kernel.withEntries]
  dsimp only
  congr 1
  rw [same,withEntries,withEntries]
  congr 1
  funext j
  dsimp only
  by_cases here : j = p
  · rw [here,Function.update_self,if_neg other,Function.update_self]
  · rw [Function.update_of_ne here,Function.update_of_ne here]

variable (d : Drivers FS Node) (k : Kernel FS Node)

theorem transfer_unread (call : Option Node → Word → Word → Word → Outcome FS) (fd buf sz : Word)
    (apart : fd.toNat < 32 → 0 ≠ q) :
    Unread q entries (transfer k call fd buf sz) (transfer (k.withEntries q entries) call fd buf sz) := by
  by_cases inside : fd.toNat < 32
  · have same := congrArg (fun p => p.fdTable ⟨fd.toNat,inside⟩) (withEntries_other q entries k.table 0 (apart inside))
    rw [Unread,transfer_inside k call fd buf sz inside _ rfl _ rfl,
      transfer_inside (k.withEntries q entries) call fd buf sz inside _ same _ rfl]
    split
    · rfl
    · split
      · rw [Option.map_some,← withEntries_setEntry q entries _ 0 (apart inside)]
        rfl
      · rfl
  · rw [Unread,transfer_outside k call fd buf sz inside,transfer_outside _ call fd buf sz inside]
    rfl

theorem open_unread (path flags : Word) (apart : lookup d k path ≠ none → 0 ≠ q) :
    Unread q entries (blackSysOpen d k path flags) (blackSysOpen d (k.withEntries q entries) path flags) := by
  cases found : lookup d k path with
  | none =>
    rw [Unread,open_missing d k path flags found,open_missing d (k.withEntries q entries) path flags found]
    rfl
  | some n =>
    have other := apart (by rw [found]; nofun)
    have same := congrArg Proc.fdTable (withEntries_other q entries k.table 0 other)
    have table : ((k.withEntries q entries).table.procs 0).fdTable = (k.table.procs 0).fdTable := same
    rw [Unread,open_found d k path flags n found,open_found d (k.withEntries q entries) path flags n found,table]
    split
    · rfl
    · rw [Option.map_some,withEntries_setEntry q entries _ 0 other]
      rfl

theorem close_unread (fd : Word) (apart : fd.toNat < 32 → 0 ≠ q) :
    Unread q entries (blackSysClose d k fd) (blackSysClose d (k.withEntries q entries) fd) := by
  by_cases inside : fd.toNat < 32
  · have same := congrArg (fun p => p.fdTable ⟨fd.toNat,inside⟩) (withEntries_other q entries k.table 0 (apart inside))
    rw [Unread,close_inside d k fd inside _ rfl,close_inside d (k.withEntries q entries) fd inside _ same]
    split
    · rfl
    · rw [Option.map_some,← withEntries_setEntry q entries _ 0 (apart inside)]
      rfl
  · rw [Unread,close_outside d k fd inside,close_outside d _ fd inside]
    rfl

theorem invoke_unread (a b c e f : Word) (sys : Sys) (unlogged : q ∉ (invoke d k a b c e f sys).events) :
    Unread q entries (invoke d k a b c e f sys) (invoke d (k.withEntries q entries) a b c e f sys) := by
  have apart (reached : Reaches d k a sys) : 0 ≠ q := by
    have log := invoke_logged d k a b c e f sys
    obtain ⟨first,member⟩ := List.exists_mem_of_ne_nil _ (log.nonempty.mpr reached)
    intro same
    rw [log.own first member,same] at member
    exact unlogged member
  cases sys with
  | exit => rfl
  | read => exact transfer_unread q entries k _ a b c apart
  | write => exact transfer_unread q entries k _ a b c apart
  | openPath => exact open_unread q entries d k a b apart
  | close => exact close_unread q entries d k a apart
  | getpid =>
    have same : ((k.withEntries q entries).table.procs 0).pid = (k.table.procs 0).pid := by
      rw [Kernel.withEntries,withEntries]
      dsimp only
      split
      · rfl
      · rfl
    rw [Unread,invoke,invoke,blackSysGetpid,blackProcessCurrent,same]
    rfl
  | fork => rfl
  | exec => rfl
  | waitpid => rfl
  | kill =>
    rw [Unread,invoke,invoke,blackSysKill,blackSysKill,Kernel.withEntries,withEntries_signal]
    rfl

end Unread

section Runs
variable {FS Node : Type} (d : Drivers FS Node)

/-- Processes are made and made current, and system calls are made; between them the rest of the kernel
may mount, write files and write memory. -/
inductive Event (FS Node : Type)
  | create (name : Text) (ppid uptime : Word)
  | setCurrent (pid : Word)
  | call (sys : Sys) (a b c e f : Word)
  | outside (vfs : Vfs.State Node) (fs : FS) (mem : Memory)

def Next (k : Kernel FS Node) : Event FS Node → Kernel FS Node → Prop
  | .create name ppid uptime,k' => k' = {k with table := (blackProcessCreate k.table name ppid uptime).1}
  | .setCurrent pid,k' => Live k.table pid ∧ k' = {k with table := blackProcessSetCurrent k.table pid}
  | .call sys a b c e f,k' => ∃ v, (invoke d k a b c e f sys).result = some (k',v)
  | .outside vfs fs mem,k' => k' = {k with vfs := vfs,fs := fs,mem := mem}

def started (uptime : Word) (vfs : Vfs.State Node) (fs : FS) (mem : Memory) : Kernel FS Node :=
  ⟨blackProcessInit image uptime,vfs,fs,mem⟩

def currentAfter (before : Word) : Event FS Node → Word
  | .setCurrent pid => pid
  | _ => before

/-- The process most recently made current; `black_process_init` makes process 0 current. -/
def madeCurrent (events : List (Event FS Node)) : Word := events.foldl currentAfter 0

/-- The table is booted, and the process most recently made current is live and is the one that
`black_current_pid` names. -/
structure Running (k : Kernel FS Node) (current : Word) : Prop where
  booted : Booted k.table
  live : Live k.table current
  stored : k.table.currentPid = current

theorem started_running (uptime : Word) (vfs : Vfs.State Node) (fs : FS) (mem : Memory) :
    Running (started uptime vfs fs mem) 0 :=
  ⟨init_booted image uptime,⟨0,init_booted image uptime⟩,rfl⟩

theorem Running.keeps {k k' : Kernel FS Node} {current : Word} (running : Running k current)
    (keeps : Keeps k.table k'.table) (same : k'.table.currentPid = k.table.currentPid) : Running k' current :=
  ⟨keeps.booted running.booted,keeps.live current running.live,same.trans running.stored⟩

theorem next_running (k k' : Kernel FS Node) (event : Event FS Node) (current : Word) (running : Running k current)
    (step : Next d k event k') : Running k' (currentAfter current event) := by
  cases event with
  | create name ppid uptime =>
    rw [step]
    exact running.keeps (create_keeps k.table name ppid uptime) (create_current k.table name ppid uptime)
  | setCurrent pid =>
    obtain ⟨live,same⟩ := step
    rw [same]
    exact ⟨running.booted,live,rfl⟩
  | call sys a b c e f =>
    obtain ⟨v,result⟩ := step
    obtain ⟨k₁,v₁,result₁,within⟩ := (invoke_logged d k a b c e f sys).done
    rw [result₁] at result
    cases result
    exact running.keeps within.keeps within.current
  | outside vfs fs mem =>
    rw [step]
    exact running.keeps (fun _ used => ⟨rfl,used⟩) rfl

theorem run_running (uptime : Word) (vfs : Vfs.State Node) (fs : FS) (mem : Memory) (events : List (Event FS Node))
    (k : Kernel FS Node) (run : Steps (Next d) (started uptime vfs fs mem) events k) : Running k (madeCurrent events) := by
  induction run with
  | nil => exact started_running uptime vfs fs mem
  | snoc events event middle last _ step ih =>
    rw [madeCurrent,List.foldl_concat]
    exact next_running d middle last event _ ih step

/-- The call reads and changes no descriptor table but that of the process: it logs no other, leaves
the others as they are and does the same whatever is in them. -/
structure Confined (k : Kernel FS Node) (p : Slot) (sys : Sys) (a b c e f : Word) : Prop where
  only : Only (· = p) (invoke d k a b c e f sys)
  unchanged : ∀ k' v, (invoke d k a b c e f sys).result = some (k',v) → ∀ q, q ≠ p →
    (k'.table.procs q).fdTable = (k.table.procs q).fdTable
  unread : ∀ q, q ≠ p → ∀ entries,
    Unread q entries (invoke d k a b c e f sys) (invoke d (k.withEntries q entries) a b c e f sys)

theorem confined_iff (k : Kernel FS Node) (p : Slot) (sys : Sys) (a b c e f : Word) :
    Confined d k p sys a b c e f ↔ p = 0 ∨ ¬Reaches d k a sys := by
  have log := invoke_logged d k a b c e f sys
  constructor
  · intro confined
    by_cases reached : Reaches d k a sys
    · left
      obtain ⟨first,member⟩ := List.exists_mem_of_ne_nil _ (log.nonempty.mpr reached)
      rw [← confined.only first member,log.own first member]
    · exact Or.inr reached
  · intro condition
    have only : Only (· = p) (invoke d k a b c e f sys) := by
      intro q member
      rcases condition with first | unreached
      · rw [log.own q member,first]
      · exact absurd (log.nonempty.mp (List.ne_nil_of_mem member)) unreached
    have unlogged (q : Slot) (other : q ≠ p) : q ∉ (invoke d k a b c e f sys).events :=
      fun member => other (only q member)
    refine ⟨only,?_,fun q other entries => invoke_unread q entries d k a b c e f sys (unlogged q other)⟩
    intro k' v result q other
    obtain ⟨k₁,v₁,result₁,within⟩ := log.done
    rw [result₁] at result
    cases result
    exact within.tables q (unlogged q other)

/-- A call keeps to the table of the process made current exactly when this is process 0 or the call
comes to no table at all. -/
theorem call_confined_iff (uptime : Word) (vfs : Vfs.State Node) (fs : FS) (mem : Memory)
    (events : List (Event FS Node)) (k : Kernel FS Node) (run : Steps (Next d) (started uptime vfs fs mem) events k)
    (sys : Sys) (a b c e f : Word) :
    ∃ p k' v, blackProcessGet k.table (madeCurrent events) = some p ∧
      (invoke d k a b c e f sys).result = some (k',v) ∧
      (Confined d k p sys a b c e f ↔ madeCurrent events = 0 ∨ ¬Reaches d k a sys) := by
  have running := run_running d uptime vfs fs mem events k run
  obtain ⟨p,found⟩ := (get_live k.table _).mpr running.live
  obtain ⟨k',v,result,_⟩ := (invoke_logged d k a b c e f sys).done
  refine ⟨p,k',v,found,result,(confined_iff d k p sys a b c e f).trans (or_congr_left ?_)⟩
  constructor
  · intro first
    by_contra other
    exact get_later k.table running.booted _ other p found first
  · intro zero
    rw [zero,get_zero k.table running.booted] at found
    exact (Option.some.inj found).symm

end Runs

/-- The text "/dev/null" at address 0x1000. -/
def devNull : Memory := fun a =>
  ([0x2F,0x64,0x65,0x76,0x2F,0x6E,0x75,0x6C,0x6C] : List Byte).getD (a - 0x1000).toNat 0

def devMounted : Vfs.State Device := (blackVfsMount blackVfsInit ⟨[0x2F,0x64,0x65,0x76],by decide⟩ (some .root)).1

/-- The kernel after process 0 has opened `/dev/null`. -/
def opened : Kernel Clock Device := (started 0 devMounted 0 devNull).setEntry 0 0 ⟨some .null,0,0,true⟩

def handedOver : Kernel Clock Device :=
  {opened with table := blackProcessSetCurrent (blackProcessCreate opened.table ⟨[0x61],by decide⟩ 0 0).1 1}

def handover : List (Event Clock Device) := [.call .openPath 0x1000 0 0 0 0,.create ⟨[0x61],by decide⟩ 0 0,.setCurrent 1]

theorem handover_run : Steps (Next devfs) (started 0 devMounted 0 devNull) handover handedOver := by
  have openStep : Next devfs (started 0 devMounted 0 devNull) (.call .openPath 0x1000 0 0 0 0) opened := ⟨0,rfl⟩
  have live : Live (blackProcessCreate opened.table ⟨[0x61],by decide⟩ 0 0).1 1 := ⟨1,by decide,by decide⟩
  exact .snoc [_,_] _ _ _ (.snoc [_] _ _ _ (.snoc [] _ _ _ .nil openStep) rfl) ⟨live,rfl⟩

theorem call_confined_iff_outside : madeCurrent handover = 1 ∧ ∃ p, blackProcessGet handedOver.table 1 = some p ∧
    Confined devfs handedOver p .close 40 0 0 0 0 := by
  obtain ⟨p,_,_,found,_,confined⟩ := call_confined_iff devfs 0 devMounted 0 devNull handover handedOver handover_run
    .close 40 0 0 0 0
  have outside : ¬(40 : Word).toNat < 32 := by decide
  exact ⟨rfl,p,found,confined.mpr (Or.inr outside)⟩

/-- Process 1, just made current, closes its descriptor 0, which it never opened: that of process 0 is
closed. -/
theorem other_descriptor_closed : Steps (Next devfs) (started 0 devMounted 0 devNull) handover handedOver ∧
    madeCurrent handover = 1 ∧ blackProcessGet handedOver.table 1 = some 1 ∧
    ((handedOver.table.procs 0).fdTable 0).inUse = true ∧
    ∃ k', (invoke devfs handedOver 0 0 0 0 0 .close).result = some (k',0) ∧
      ((k'.table.procs 0).fdTable 0).inUse = false :=
  ⟨handover_run,rfl,rfl,rfl,_,rfl,rfl⟩

end BlackOS.Syscall
