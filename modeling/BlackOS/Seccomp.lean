import BlackOS.SyscallTables

/-! The filter of `kernel/security/seccomp.c` beside the dispatch of system calls. The dispatch does not
ask the filter, so a denied call is without effect only where the call itself is. -/
namespace BlackOS.Seccomp
open BlackOS.Library.Ram BlackOS.Library.Trace BlackOS.Library.Run BlackOS.Process BlackOS.Vfs BlackOS.Syscall

def blackSeccompAllow : Byte := 0
def blackSeccompDenied : Byte := 1

abbrev Filter := Fin 256 → Byte

def blackSeccompInit : Filter := fun _ => blackSeccompAllow

def blackSeccompCheck (filter : Filter) (num : Word) : Byte :=
  if inside : num.toNat < 256 then filter ⟨num.toNat,inside⟩ else blackSeccompDenied

def blackSeccompDeny (filter : Filter) (num : Word) : Filter :=
  if inside : num.toNat < 256 then Function.update filter ⟨num.toNat,inside⟩ blackSeccompDenied else filter

section Filters
variable (filter : Filter) (num : Word)

theorem deny_self : blackSeccompCheck (blackSeccompDeny filter num) num = blackSeccompDenied := by
  rw [blackSeccompCheck,blackSeccompDeny]
  by_cases inside : num.toNat < 256
  · rw [dif_pos inside,dif_pos inside,Function.update_self]
  · rw [dif_neg inside]

theorem deny_keeps (n : Word) (denied : blackSeccompCheck filter n = blackSeccompDenied) :
    blackSeccompCheck (blackSeccompDeny filter num) n = blackSeccompDenied := by
  by_cases same : n = num
  · rw [same,deny_self]
  · rw [← denied,blackSeccompCheck,blackSeccompCheck,blackSeccompDeny]
    by_cases inside : n.toNat < 256
    · rw [dif_pos inside,dif_pos inside]
      by_cases target : num.toNat < 256
      · rw [dif_pos target,Function.update_of_ne]
        intro equal
        exact same (BitVec.eq_of_toNat_eq (Fin.mk.inj equal))
      · rw [dif_neg target]
    · rw [dif_neg inside,dif_neg inside]

end Filters

section Effects
variable {FS Node : Type} (d : Drivers FS Node) (k : Kernel FS Node)

/-- The call returns a negative value and leaves the processes, their descriptors and the files. -/
def NoEffect (x : Traced Slot (Kernel FS Node × Int)) : Prop :=
  ∃ k' v, x.result = some (k',v) ∧ v < 0 ∧ k'.table = k.table ∧ k'.vfs = k.vfs ∧ k'.fs = k.fs

def Fails (fs : FS) (fn : Option (Memory → Word → Word → Word → Outcome FS)) (mem : Memory) (off sz buf : Word) : Prop :=
  ∀ run, fn = some run → (run mem off sz buf).value.toInt < 0 ∧ (run mem off sz buf).fs = fs

/-- The descriptor is out of range, not in use, or of a node on which the transfer fails. -/
def TransferFails (fn : Node → Option (Memory → Word → Word → Word → Outcome FS)) (fd buf sz : Word) : Prop :=
  ∀ inside : fd.toNat < 32, ∀ entry, (k.table.procs 0).fdTable ⟨fd.toNat,inside⟩ = entry → entry.inUse = true →
    Fails k.fs (entry.node.bind fn) k.mem entry.offset sz buf

def Refuses (a b c : Word) : Sys → Prop
  | .exit => False
  | .read => TransferFails k (d.readFn k.fs) a b c
  | .write => TransferFails k (d.writeFn k.fs) a b c
  | .openPath => lookup d k a = none ∨ ∀ fd, ((k.table.procs 0).fdTable fd).inUse = true
  | .close => ∀ inside : a.toNat < 32, ((k.table.procs 0).fdTable ⟨a.toNat,inside⟩).inUse = false
  | .getpid => (k.table.procs 0).pid.toInt < 0
  | .fork => True
  | .exec => True
  | .waitpid => True
  | .kill => ¬Live k.table a ∨ 32 ≤ b.toNat

def Harmless (num a b c : Word) : Prop := ∀ sys, blackSyscallInit num.toNat = some sys → Refuses d k a b c sys

theorem noEffect_some (events : List Slot) (k' : Kernel FS Node) (v : Int) :
    NoEffect k ⟨events,some (k',v)⟩ ↔ v < 0 ∧ k'.table = k.table ∧ k'.vfs = k.vfs ∧ k'.fs = k.fs := by
  constructor
  · intro quiet
    obtain ⟨k₁,v₁,same,rest⟩ := quiet
    cases same
    exact rest
  · intro rest
    exact ⟨k',v,rfl,rest⟩

theorem noEffect_self (events : List Slot) (v : Int) : NoEffect k ⟨events,some (k,v)⟩ ↔ v < 0 := by
  rw [noEffect_some]
  exact ⟨fun quiet => quiet.1,fun negative => ⟨negative,rfl,rfl,rfl⟩⟩

/-- What `black_vfs_read` and `black_vfs_write` make of the function of a node. -/
theorem outcome_fails (fn : Option (Memory → Word → Word → Word → Outcome FS)) (off sz buf : Word) (done : Outcome FS)
    (made : done = match fn with
      | some run => run k.mem off sz buf
      | none => ⟨k.fs,k.mem,-1⟩) :
    (done.value.toInt < 0 ∧ done.fs = k.fs) ↔ Fails k.fs fn k.mem off sz buf := by
  rw [made]
  cases fn with
  | none => exact iff_of_true ⟨(by decide : (-1 : Word).toInt < 0),rfl⟩ nofun
  | some run =>
    refine ⟨fun failed _ same => ?_,fun fails => fails run rfl⟩
    cases same
    exact failed

theorem transfer_noEffect (call : Option Node → Word → Word → Word → Outcome FS)
    (fn : Node → Option (Memory → Word → Word → Word → Outcome FS))
    (agree : ∀ n off sz buf, ((call n off sz buf).value.toInt < 0 ∧ (call n off sz buf).fs = k.fs) ↔
      Fails k.fs (n.bind fn) k.mem off sz buf) (fd buf sz : Word) :
    NoEffect k (transfer k call fd buf sz) ↔ TransferFails k fn fd buf sz := by
  by_cases inside : fd.toNat < 32
  · generalize here : (k.table.procs 0).fdTable ⟨fd.toNat,inside⟩ = entry
    have condition : TransferFails k fn fd buf sz ↔
        (entry.inUse = true → Fails k.fs (entry.node.bind fn) k.mem entry.offset sz buf) := by
      refine ⟨fun fails => fails inside entry here,fun fails _ other same => ?_⟩
      rw [← same,here]
      exact fails
    rw [transfer_inside k call fd buf sz inside entry here _ rfl,condition,← agree]
    split
    · rename_i free
      rw [noEffect_self,free]
      exact iff_of_true (by decide) nofun
    · rename_i used
      have taken : entry.inUse = true := Bool.not_eq_false _ ▸ used
      split
      · rename_i positive
        rw [noEffect_some]
        exact iff_of_false (fun quiet => absurd quiet.1 (by omega)) fun fails => absurd (fails taken).1 (by omega)
      · rw [noEffect_some]
        exact ⟨fun quiet _ => ⟨quiet.1,quiet.2.2.2⟩,fun fails => ⟨(fails taken).1,rfl,rfl,(fails taken).2⟩⟩
  · rw [transfer_outside k call fd buf sz inside,noEffect_self]
    exact iff_of_true (by decide) fun within => absurd within inside

theorem open_noEffect (path flags : Word) : NoEffect k (blackSysOpen d k path flags) ↔
    lookup d k path = none ∨ ∀ fd, ((k.table.procs 0).fdTable fd).inUse = true := by
  cases found : lookup d k path with
  | none =>
    rw [open_missing d k path flags found,noEffect_self]
    exact iff_of_true (by decide) (Or.inl rfl)
  | some n =>
    rw [open_found d k path flags n found]
    split
    · rename_i full
      rw [noEffect_self]
      refine iff_of_true (by decide) (Or.inr fun fd => ?_)
      simpa using List.find?_eq_none.mp full fd (List.mem_finRange fd)
    · rename_i i free
      rw [noEffect_some]
      refine iff_of_false (fun quiet => absurd quiet.1 (by omega)) fun refused => ?_
      rcases refused with missing | full
      · cases missing
      · have unused := List.find?_some free
        rw [full i] at unused
        cases unused

theorem close_noEffect (fd : Word) : NoEffect k (blackSysClose d k fd) ↔
    ∀ inside : fd.toNat < 32, ((k.table.procs 0).fdTable ⟨fd.toNat,inside⟩).inUse = false := by
  by_cases inside : fd.toNat < 32
  · rw [close_inside d k fd inside _ rfl]
    split
    · rename_i free
      rw [noEffect_self]
      exact iff_of_true (by decide) fun _ => free
    · rename_i used
      rw [noEffect_some]
      exact iff_of_false (fun quiet => absurd quiet.1 (by decide)) fun free => used (free inside)
  · rw [close_outside d k fd inside,noEffect_self]
    exact iff_of_true (by decide) fun within => absurd within inside

theorem signal_range (sig : Word) : (sig.toInt < 0 ∨ nsig ≤ sig.toInt) ↔ 32 ≤ sig.toNat := by
  rw [BitVec.toInt_eq_toNat_cond,nsig]
  have bound := sig.isLt
  split
  · omega
  · omega

theorem kill_noEffect (pid sig : Word) :
    NoEffect k (pure (blackSysKill k pid sig)) ↔ ¬Live k.table pid ∨ 32 ≤ sig.toNat := by
  change NoEffect k ⟨[],some ({k with table := (blackProcessSignal k.table pid sig.toInt).1},_)⟩ ↔ _
  rw [noEffect_some,← signal_range,blackProcessSignal]
  cases found : blackProcessGet k.table pid with
  | none =>
    have dead : ¬Live k.table pid := by
      rw [← get_live,found]
      rintro ⟨i,some_⟩
      cases some_
    exact iff_of_true ⟨(by decide : (-1 : Int) < 0),rfl,rfl,rfl⟩ (Or.inl dead)
  | some i =>
    have live := (get_live k.table pid).mp ⟨i,found⟩
    dsimp only
    split
    · rename_i refused
      exact iff_of_true ⟨(by decide : (-1 : Int) < 0),rfl,rfl,rfl⟩ (Or.inr refused)
    · rename_i accepted
      refine iff_of_false ?_ fun condition => ?_
      · split
        · exact fun quiet => absurd quiet.1 (Int.lt_irrefl 0)
        · exact fun quiet => absurd quiet.1 (Int.lt_irrefl 0)
      · rcases condition with dead | refused
        · exact dead live
        · exact accepted refused

theorem invoke_noEffect (a b c e f : Word) (sys : Sys) : NoEffect k (invoke d k a b c e f sys) ↔ Refuses d k a b c sys := by
  cases sys with
  | exit => exact (noEffect_self k [] 0).trans (iff_of_false (Int.lt_irrefl 0) id)
  | read => exact transfer_noEffect k _ _ (fun _ off sz buf => outcome_fails k _ off sz buf _ rfl) a b c
  | write => exact transfer_noEffect k _ _ (fun _ off sz buf => outcome_fails k _ off sz buf _ rfl) a b c
  | openPath => exact open_noEffect d k a b
  | close => exact close_noEffect d k a
  | getpid => exact noEffect_self k [] _
  | fork => exact (noEffect_self k [] (-1)).trans (iff_of_true (by decide) trivial)
  | exec => exact (noEffect_self k [] (-1)).trans (iff_of_true (by decide) trivial)
  | waitpid => exact (noEffect_self k [] (-1)).trans (iff_of_true (by decide) trivial)
  | kill => exact kill_noEffect k a b

theorem init_last (n : Nat) (large : 256 ≤ n) : blackSyscallInit n = none := by
  rw [blackSyscallInit]
  all_goals omega

theorem dispatch_noEffect (num a b c e f : Word) :
    NoEffect k (blackSyscallDispatch d k blackSyscallInit num a b c e f) ↔ Harmless d k num a b c := by
  rw [blackSyscallDispatch,blackMaxSyscalls]
  by_cases large : 256 ≤ num.toNat
  · rw [if_pos large]
    refine iff_of_true ((noEffect_self k [] (-1)).mpr (by decide)) fun sys handler => ?_
    rw [init_last num.toNat large] at handler
    cases handler
  · rw [if_neg large]
    cases handler : blackSyscallInit num.toNat with
    | none =>
      refine iff_of_true ((noEffect_self k [] (-1)).mpr (by decide)) fun sys found => ?_
      rw [handler] at found
      cases found
    | some sys =>
      refine (invoke_noEffect d k a b c e f sys).trans ⟨fun refuses other found => ?_,fun harmless => harmless sys handler⟩
      rw [handler] at found
      cases found
      exact refuses

end Effects

section Runs
variable {FS Node : Type} (d : Drivers FS Node)

structure State (FS Node : Type) where
  kernel : Kernel FS Node
  filter : Filter

inductive Event
  | init
  | deny (num : Word)
  | dispatch (num a b c e f : Word)

def Next (s : State FS Node) : Event → State FS Node → Prop
  | .init,s' => s' = {s with filter := blackSeccompInit}
  | .deny num,s' => s' = {s with filter := blackSeccompDeny s.filter num}
  | .dispatch num a b c e f,s' =>
    ∃ v, (blackSyscallDispatch d s.kernel blackSyscallInit num a b c e f).result = some (s'.kernel,v) ∧
      s'.filter = s.filter

def deniedAfter (before : List Word) : Event → List Word
  | .init => []
  | .deny num => num :: before
  | .dispatch .. => before

/-- The numbers denied since the last `black_seccomp_init`. -/
def denied (events : List Event) : List Word := events.foldl deniedAfter []

theorem next_denied (s s' : State FS Node) (event : Event) (before : List Word)
    (holds : ∀ n ∈ before, blackSeccompCheck s.filter n = blackSeccompDenied) (step : Next d s event s') :
    ∀ n ∈ deniedAfter before event, blackSeccompCheck s'.filter n = blackSeccompDenied := by
  cases event with
  | init => exact nofun
  | deny num =>
    rw [step]
    intro n member
    rcases List.mem_cons.mp member with same | earlier
    · rw [same]
      exact deny_self s.filter num
    · exact deny_keeps s.filter num n (holds n earlier)
  | dispatch num a b c e f =>
    obtain ⟨_,_,same⟩ := step
    rw [same]
    exact holds

theorem run_denied (first last : State FS Node) (events : List Event) (run : Steps (Next d) first events last) :
    ∀ n ∈ denied events, blackSeccompCheck last.filter n = blackSeccompDenied := by
  induction run with
  | nil => exact nofun
  | snoc events event middle last _ step ih =>
    rw [denied,List.foldl_concat]
    exact next_denied d middle last event _ ih step

/-- The filter has every denied number, and yet a denied call is without effect exactly when its handler
is missing or refuses the arguments by itself. -/
theorem denied_noEffect_iff (first last : State FS Node) (events : List Event) (run : Steps (Next d) first events last)
    (num : Word) (isDenied : num ∈ denied events) (a b c e f : Word) :
    blackSeccompCheck last.filter num = blackSeccompDenied ∧
      (NoEffect last.kernel (blackSyscallDispatch d last.kernel blackSyscallInit num a b c e f) ↔
        Harmless d last.kernel num a b c) :=
  ⟨run_denied d first last events run num isDenied,dispatch_noEffect d last.kernel num a b c e f⟩

end Runs

theorem close_denied_run : Steps (Next devfs) ⟨opened,blackSeccompInit⟩ [.deny 6] ⟨opened,blackSeccompDeny blackSeccompInit 6⟩ :=
  .snoc [] _ _ _ .nil rfl

theorem denied_noEffect_iff_close : NoEffect opened (blackSyscallDispatch devfs opened blackSyscallInit 6 40 0 0 0 0) := by
  have iff := denied_noEffect_iff devfs _ _ _ close_denied_run 6 List.mem_cons_self 40 0 0 0 0
  refine iff.2.mpr fun sys handler => ?_
  cases handler
  exact fun inside => absurd inside (by decide)

/-- The denied call closes the descriptor and returns 0. -/
theorem denied_close_closes : Steps (Next devfs) ⟨opened,blackSeccompInit⟩ [.init,.deny 6]
      ⟨opened,blackSeccompDeny blackSeccompInit 6⟩ ∧
    (6 : Word) ∈ denied [.init,.deny 6] ∧ ((opened.table.procs 0).fdTable 0).inUse = true ∧
    ∃ k, (blackSyscallDispatch devfs opened blackSyscallInit 6 0 0 0 0 0).result = some (k,0) ∧
      ((k.table.procs 0).fdTable 0).inUse = false :=
  ⟨.snoc [_] _ _ _ (.snoc [] _ _ _ .nil rfl) rfl,List.mem_cons_self,rfl,_,rfl,rfl⟩

end BlackOS.Seccomp
