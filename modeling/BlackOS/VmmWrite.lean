import BlackOS.VmmSpace

/-! Writes to user memory, one byte at a time and by `memset` and `memcpy`. -/
namespace BlackOS.Vmm
open BlackOS.Library.Ram BlackOS.Library.Paging BlackOS.Library.Bitmap

section Writing
variable (own : Nat → Owner) (s : Machine) (space : Space own s) (a : Word) (user : User a)
  (table : present (s.pde a) = true) (page : present (s.pte a) = true) (x : Byte)
include space user table page

/-- A write to a user page changes no frame of another owner. -/
theorem write_spared (b : Word) (other : own (b.toNat / 4096) ≠ .page (a.toNat / 4096)) :
    write8 s.mem (s.place a) x b = s.mem b := by
  refine if_neg fun same => other ?_
  rw [same,place_frame]
  exact space.page a user table page

theorem write_directory (i : Nat) (inside : i < 1024) :
    entry (write8 s.mem (s.place a) x) s.dir i = entry s.mem s.dir i :=
  change_directory own s space _ _ (write_spared own s space a user table page x) nofun i inside

theorem write_keeps : Keeps own own s {s with mem := write8 s.mem (s.place a) x} where
  space := change_space own s space _ _ (write_spared own s space a user table page x) nofun nofun
  kernel := change_kernel own s space _ _ (write_spared own s space a user table page x) nofun nofun
  grows := fun _ on => on
  idle := by
    intro b low off
    exact write_spared own s space a user table page x b (by rw [space.free _ low off]; nofun)

theorem write_load (b : Word) (low : User b) :
    Machine.load8 {s with mem := write8 s.mem (s.place a) x} b =
      if b = a then some x else s.load8 b := by
  have spared := write_spared own s space a user table page x
  by_cases here : b = a
  · subst here
    have pde := change_pde own s space _ _ spared nofun b
    have pte := change_user_pte own s space _ _ spared nofun nofun b low table
    have place : Machine.place {s with mem := write8 s.mem (s.place b) x} b = s.place b :=
      congrArg (fun e => address (frame e) (b.toNat % 4096)) pte
    rw [if_pos rfl,load_eq,pde,pte,if_pos table,if_pos page,place]
    exact congrArg some (if_pos rfl)
  · rw [if_neg here]
    refine change_load own s space _ _ spared nofun nofun b low fun mapped linked => if_neg ?_
    -- Another address in the same place would be on the same page, at the same offset.
    intro same
    have frames := congrArg (fun p : Word => p.toNat / 4096) same
    simp only [place_frame] at frames
    have owner := space.page b low mapped linked
    rw [frames,space.page a user table page] at owner
    have pages := Owner.page.inj owner
    have offsets := (address_inj _ _ _ _ (frame_lt _) (Nat.mod_lt _ (by decide)) (frame_lt _)
      (Nat.mod_lt _ (by decide)) same).2
    exact here (BitVec.eq_of_toNat_eq (by omega))

end Writing

/-- Writes to user memory keep the space, the frames and the page directory. -/
structure Writes (own : Nat → Owner) (s s' : Machine) : Prop where
  keeps : Keeps own own s s'
  pmm : s'.pmm = s.pmm
  tables : ∀ i < 1024, entry s'.mem s'.dir i = entry s.mem s.dir i

theorem writes_refl (own : Nat → Owner) (s : Machine) (space : Space own s) : Writes own s s :=
  ⟨keeps_refl own s space,rfl,fun _ _ => rfl⟩

theorem writes_trans (own : Nat → Owner) (s s' s'' : Machine) (first : Writes own s s')
    (second : Writes own s' s'') : Writes own s s'' :=
  ⟨keeps_trans own own own s s' s'' first.keeps second.keeps,second.pmm.trans first.pmm,
    fun i inside => (second.tables i inside).trans (first.tables i inside)⟩

theorem store_user (own : Nat → Owner) (s : Machine) (space : Space own s) (a : Word) (user : User a)
    (mapped : s.load8 a ≠ none) (x : Byte) :
    ∃ s', s.store8 a x = some s' ∧ Writes own s s' ∧
      ∀ b, User b → s'.load8 b = if b = a then some x else s.load8 b := by
  obtain ⟨y,found⟩ := Option.ne_none_iff_exists'.mp mapped
  obtain ⟨table,page,_⟩ := load_some s a y found
  refine ⟨{s with mem := write8 s.mem (s.place a) x},?_,⟨?_,rfl,?_⟩,?_⟩
  · rw [Machine.store8,translate_eq,if_pos table,if_pos page,Option.map_some]
  · exact write_keeps own s space a user table page x
  · exact write_directory own s space a user table page x
  · exact write_load own s space a user table page x

theorem store_fault (s : Machine) (a : Word) (x : Byte) (unmapped : s.load8 a = none) :
    s.store8 a x = none := by
  rw [Machine.load8,Option.map_eq_none_iff] at unmapped
  rw [Machine.store8,unmapped,Option.map_none]

theorem next_user (d : Word) (n : Nat) (inside : d.toNat + (n + 1) ≤ 0xC0000000) :
    (d + 1).toNat = d.toNat + 1 := by
  bv_omega

/-- The loop that `memset` and `memcpy` share, with the bytes given. -/
def storeLoop (bytes : Nat → Byte) : Nat → Machine → Word → Option Machine
  | 0,s,_ => some s
  | n+1,s,d => (s.store8 d (bytes 0)).bind fun s => storeLoop (fun i => bytes (i + 1)) n s (d + 1)

theorem memsetLoop_eq (value : Byte) (n : Nat) (s : Machine) (d : Word) :
    memsetLoop value n s d = storeLoop (fun _ => value) n s d := by
  induction n generalizing s d with
  | zero => rfl
  | succ n ih =>
    rw [memsetLoop,storeLoop,Option.bind_eq_bind]
    exact congrArg _ (funext fun s => ih s (d + 1))

/-- The first byte of a source in kernel memory, and the rest of it after a step. -/
theorem load_first (own : Nat → Owner) (s : Machine) (src : Word) (bytes : Nat → Byte) (n : Nat)
    (source : ∀ i < n + 1, Kernel own s (src + word i) (bytes i)) : s.load8 src = some (bytes 0) := by
  have byte := kernel_load own s _ _ (source 0 (by omega))
  have here : src + word 0 = src := BitVec.add_zero src
  rw [here] at byte
  exact byte

theorem place_next (d : Word) (i : Nat) : d + 1 + word i = d + word (i + 1) := by
  rw [BitVec.add_assoc,Nat.add_comm i 1]
  exact congrArg (d + ·) (word_add 1 i)

theorem source_next (own : Nat → Owner) (s s' : Machine) (kept : Keeps own own s s') (src : Word)
    (bytes : Nat → Byte) (n : Nat) (source : ∀ i < n + 1, Kernel own s (src + word i) (bytes i)) :
    ∀ i < n, Kernel own s' (src + 1 + word i) (bytes (i + 1)) := by
  intro i small
  rw [place_next src i]
  exact kept.kernel _ _ (source (i + 1) (by omega))

theorem memcpyLoop_eq (own : Nat → Owner) (bytes : Nat → Byte) (n : Nat) (s : Machine) (d src : Word)
    (space : Space own s) (inside : d.toNat + n ≤ 0xC0000000)
    (source : ∀ i < n, Kernel own s (src + word i) (bytes i)) :
    memcpyLoop n s d src = storeLoop bytes n s d := by
  induction n generalizing s d src bytes with
  | zero => rfl
  | succ n ih =>
    have next := next_user d n inside
    have first := load_first own s src bytes n source
    rw [memcpyLoop,first,Option.bind_eq_bind,Option.bind_some,storeLoop]
    by_cases hole : s.load8 d = none
    · rw [store_fault s d _ hole]
      rfl
    · obtain ⟨s₁,stored,kept,_⟩ := store_user own s space d (by unfold User; omega) hole (bytes 0)
      rw [stored,Option.bind_eq_bind,Option.bind_some,Option.bind_some]
      exact ih _ s₁ (d + 1) (src + 1) kept.keeps.space (by omega)
        (source_next own s s₁ kept.keeps src bytes n source)

theorem storeLoop_user (own : Nat → Owner) (bytes : Nat → Byte) (n : Nat) (s : Machine) (d : Word)
    (space : Space own s) (inside : d.toNat + n ≤ 0xC0000000)
    (mapped : ∀ b : Word, d.toNat ≤ b.toNat → b.toNat < d.toNat + n → s.load8 b ≠ none) :
    ∃ s', storeLoop bytes n s d = some s' ∧ Writes own s s' ∧
      ∀ b, User b → s'.load8 b =
        if d.toNat ≤ b.toNat ∧ b.toNat < d.toNat + n then some (bytes (b.toNat - d.toNat))
        else s.load8 b := by
  induction n generalizing s d bytes with
  | zero =>
    refine ⟨s,rfl,writes_refl own s space,fun b user => ?_⟩
    rw [if_neg (by omega)]
  | succ n ih =>
    have next := next_user d n inside
    obtain ⟨s₁,stored,kept,view⟩ := store_user own s space d (by unfold User; omega)
      (mapped d (Nat.le_refl _) (by omega)) (bytes 0)
    have still : ∀ b : Word, (d + 1).toNat ≤ b.toNat → b.toNat < (d + 1).toNat + n → s₁.load8 b ≠ none := by
      intro b low high
      rw [view b (by unfold User; omega)]
      split
      · exact Option.some_ne_none _
      · exact mapped b (by omega) (by omega)
    obtain ⟨s₂,copied,rest,final⟩ := ih (fun i => bytes (i + 1)) s₁ (d + 1) kept.keeps.space (by omega)
      still
    refine ⟨s₂,?_,writes_trans own s s₁ s₂ kept rest,fun b user => ?_⟩
    · rw [storeLoop,stored,Option.bind_some,copied]
    · rw [final b user,view b user]
      by_cases start : b = d
      · rw [start,if_neg (by omega),if_pos rfl,if_pos (by omega),Nat.sub_self]
      · have apart : b.toNat ≠ d.toNat := fun same => start (BitVec.eq_of_toNat_eq same)
        rw [if_neg start]
        by_cases member : (d + 1).toNat ≤ b.toNat ∧ b.toNat < (d + 1).toNat + n
        · have index : b.toNat - (d + 1).toNat + 1 = b.toNat - d.toNat := by omega
          rw [if_pos member,if_pos (by omega),index]
        · rw [if_neg member,if_neg (by omega)]

theorem storeLoop_fault (own : Nat → Owner) (bytes : Nat → Byte) (n : Nat) (s : Machine) (d b : Word)
    (space : Space own s) (inside : d.toNat + n ≤ 0xC0000000) (low : d.toNat ≤ b.toNat)
    (high : b.toNat < d.toNat + n) (hole : s.load8 b = none) : storeLoop bytes n s d = none := by
  induction n generalizing s d bytes with
  | zero => omega
  | succ n ih =>
    have next := next_user d n inside
    by_cases unmapped : s.load8 d = none
    · rw [storeLoop,store_fault s d _ unmapped]
      rfl
    · obtain ⟨s₁,stored,kept,view⟩ := store_user own s space d (by unfold User; omega) unmapped (bytes 0)
      have apart : b ≠ d := by
        intro same
        exact unmapped (same ▸ hole)
      have later : b.toNat ≠ d.toNat := fun same => apart (BitVec.eq_of_toNat_eq same)
      rw [storeLoop,stored,Option.bind_some]
      refine ih _ s₁ (d + 1) kept.keeps.space (by omega) (by omega) (by omega) ?_
      rw [view b (by unfold User; omega),if_neg apart]
      exact hole

end BlackOS.Vmm
