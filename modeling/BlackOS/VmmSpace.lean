import BlackOS.VmmTables

/-! An address space in order: every frame has one owner, so that no two user pages share
a frame and none shows a page table. Mapping a user page keeps it so. -/
namespace BlackOS.Vmm
open BlackOS.Library.Ram BlackOS.Library.Paging BlackOS.Library.Bitmap
open BlackOS.Pmm (maxFrames Takes)

/-- The directory entry, the table entry and the physical place of an address. -/
def Machine.pde (s : Machine) (a : Word) : Word := entry s.mem s.dir (a.toNat / 2^22)

def Machine.pte (s : Machine) (a : Word) : Word :=
  entry s.mem (frame (s.pde a)) (a.toNat / 4096 % 1024)

def Machine.place (s : Machine) (a : Word) : Word := address (frame (s.pte a)) (a.toNat % 4096)

/-- What a frame is for. -/
inductive Owner
  | free
  | directory
  | table (i : Nat)
  | page (p : Nat)
  | kernel
  deriving DecidableEq

def User (a : Word) : Prop := a.toNat < 0xC0000000

/-- The user half, its tables and the free frames, by an assignment of owners. -/
structure Space (own : Nat → Owner) (s : Machine) : Prop where
  recursive : Recursive s.mem s.dir
  directory : own s.dir = .directory
  zero : isSet s.pmm.bitmap 0 = true
  table : ∀ a, User a → present (s.pde a) = true → own (frame (s.pde a)) = .table (a.toNat / 2^22)
  page : ∀ a, User a → present (s.pde a) = true → present (s.pte a) = true →
    own (frame (s.pte a)) = .page (a.toNat / 4096)
  free : ∀ f < maxFrames, isSet s.pmm.bitmap f = false → own f = .free

/-- A byte of kernel memory, behind a table and in a frame that are the kernel's. -/
structure Kernel (own : Nat → Owner) (s : Machine) (a : Word) (x : Byte) : Prop where
  high : ¬ User a
  table : present (s.pde a) = true
  tableOwner : own (frame (s.pde a)) = .kernel
  page : present (s.pte a) = true
  pageOwner : own (frame (s.pte a)) = .kernel
  byte : s.mem (s.place a) = x

theorem translate_eq (s : Machine) (a : Word) :
    translate s.mem s.dir a = if present (s.pde a) = true then
      if present (s.pte a) = true then some (s.place a) else none else none := rfl

theorem load_eq (s : Machine) (a : Word) :
    s.load8 a = if present (s.pde a) = true then
      if present (s.pte a) = true then some (s.mem (s.place a)) else none else none := by
  rw [Machine.load8,translate_eq]
  by_cases table : present (s.pde a) = true
  · by_cases page : present (s.pte a) = true
    · rw [if_pos table,if_pos page,if_pos table,if_pos page,Option.map_some]
    · rw [if_pos table,if_neg page,if_pos table,if_neg page,Option.map_none]
  · rw [if_neg table,if_neg table,Option.map_none]

theorem load_some (s : Machine) (a : Word) (x : Byte) (found : s.load8 a = some x) :
    present (s.pde a) = true ∧ present (s.pte a) = true ∧ s.mem (s.place a) = x := by
  rw [load_eq] at found
  split at found
  · split at found
    · rename_i table page
      exact ⟨table,page,Option.some.inj found⟩
    · cases found
  · cases found

theorem kernel_load (own : Nat → Owner) (s : Machine) (a : Word) (x : Byte)
    (kernel : Kernel own s a x) : s.load8 a = some x := by
  rw [load_eq,if_pos kernel.table,if_pos kernel.page,kernel.byte]

theorem place_frame (s : Machine) (a : Word) : (s.place a).toNat / 4096 = frame (s.pte a) := by
  rw [Machine.place,address_toNat _ _ (frame_lt _) (Nat.mod_lt _ (by decide))]
  omega

/-- A load depends on the directory entry, the table entry and the byte alone. -/
theorem load_congr (s s' : Machine) (a : Word) (table : present (s'.pde a) = present (s.pde a))
    (rest : present (s.pde a) = true → s'.pte a = s.pte a ∧
      (present (s.pte a) = true → s'.mem (s.place a) = s.mem (s.place a))) :
    s'.load8 a = s.load8 a := by
  rw [load_eq,load_eq,table]
  split
  · rename_i mapped
    obtain ⟨slots,bytes⟩ := rest mapped
    rw [slots]
    split
    · rename_i linked
      rw [Machine.place,slots]
      exact congrArg some (bytes linked)
    · rfl
  · rfl

-- Memory that differs in the frames of one owner only, who is not the kernel and holds no
-- table.
section Change
variable (own : Nat → Owner) (s : Machine) (space : Space own s) (m : Memory) (o : Owner)
  (spared : ∀ a : Word, own (a.toNat / 4096) ≠ o → m a = s.mem a)
include spared

theorem change_entry (f i : Nat) (low : f < 2^20) (inside : i < 1024) (other : own f ≠ o) :
    entry m f i = entry s.mem f i :=
  entry_congr _ _ f i low inside fun a within => spared a (by rw [within]; exact other)

theorem change_byte (b : Word) (other : own (frame (s.pte b)) ≠ o) : m (s.place b) = s.mem (s.place b) :=
  spared _ (by rw [place_frame]; exact other)

variable (notDirectory : o ≠ .directory)
include space notDirectory

theorem change_directory (i : Nat) (inside : i < 1024) : entry m s.dir i = entry s.mem s.dir i :=
  change_entry own s m o spared _ _ (frame_lt _) inside
    (by rw [space.directory]; exact notDirectory.symm)

theorem change_pde (b : Word) : Machine.pde {s with mem := m} b = s.pde b := by
  have bound := b.isLt
  exact change_directory own s space m o spared notDirectory _ (by omega)

theorem change_pte (b : Word) (other : own (frame (s.pde b)) ≠ o) :
    Machine.pte {s with mem := m} b = s.pte b := by
  rw [Machine.pte,change_pde own s space m o spared notDirectory b]
  exact change_entry own s m o spared _ _ (frame_lt _) (Nat.mod_lt _ (by decide)) other

theorem change_kernel (notKernel : o ≠ .kernel) (b : Word) (x : Byte) (kernel : Kernel own s b x) :
    Kernel own {s with mem := m} b x := by
  have pde := change_pde own s space m o spared notDirectory b
  have pte := change_pte own s space m o spared notDirectory b
    (by rw [kernel.tableOwner]; exact notKernel.symm)
  refine ⟨kernel.high,?_,?_,?_,?_,?_⟩
  · rw [pde]
    exact kernel.table
  · rw [pde]
    exact kernel.tableOwner
  · rw [pte]
    exact kernel.page
  · rw [pte]
    exact kernel.pageOwner
  · rw [Machine.place,pte,← kernel.byte]
    exact change_byte own s m o spared b (by rw [kernel.pageOwner]; exact notKernel.symm)

variable (notTable : ∀ i, o ≠ .table i)
include notTable

theorem change_user_pte (b : Word) (low : User b) (mapped : present (s.pde b) = true) :
    Machine.pte {s with mem := m} b = s.pte b :=
  change_pte own s space m o spared notDirectory b
    (by rw [space.table b low mapped]; exact (notTable _).symm)

theorem change_space : Space own {s with mem := m} where
  recursive := space.recursive.kept rfl (change_directory own s space m o spared notDirectory 1023 (by decide))
  directory := space.directory
  zero := space.zero
  table := by
    intro b low mapped
    rw [change_pde own s space m o spared notDirectory b] at mapped ⊢
    exact space.table b low mapped
  page := by
    intro b low mapped linked
    rw [change_pde own s space m o spared notDirectory b] at mapped
    rw [change_user_pte own s space m o spared notDirectory notTable b low mapped] at linked ⊢
    exact space.page b low mapped linked
  free := space.free

theorem change_load (b : Word) (low : User b) (same : present (s.pde b) = true →
      present (s.pte b) = true → m (s.place b) = s.mem (s.place b)) :
    Machine.load8 {s with mem := m} b = s.load8 b := by
  have pde := change_pde own s space m o spared notDirectory b
  refine load_congr s _ b (congrArg present pde) fun mapped => ?_
  exact ⟨change_user_pte own s space m o spared notDirectory notTable b low mapped,same mapped⟩

end Change

/-- From one machine to the next the space stays in order, kernel memory stays as it is,
and frames that are still free have not been written. -/
structure Keeps (own own' : Nat → Owner) (s s' : Machine) : Prop where
  space : Space own' s'
  kernel : ∀ a x, Kernel own s a x → Kernel own' s' a x
  grows : ∀ f, isSet s.pmm.bitmap f = true → isSet s'.pmm.bitmap f = true
  idle : ∀ a : Word, a.toNat / 4096 < maxFrames → isSet s'.pmm.bitmap (a.toNat / 4096) = false →
    s'.mem a = s.mem a

theorem keeps_refl (own : Nat → Owner) (s : Machine) (space : Space own s) : Keeps own own s s :=
  ⟨space,fun _ _ kernel => kernel,fun _ on => on,fun _ _ _ => rfl⟩

theorem keeps_trans (own own' own'' : Nat → Owner) (s s' s'' : Machine)
    (first : Keeps own own' s s') (second : Keeps own' own'' s' s'') : Keeps own own'' s s'' where
  space := second.space
  kernel := fun a x kernel => second.kernel a x (first.kernel a x kernel)
  grows := fun f on => second.grows f (first.grows f on)
  idle := by
    intro a low off
    have before : isSet s'.pmm.bitmap (a.toNat / 4096) = false := by
      by_contra on
      rw [second.grows _ (Bool.eq_true_of_not_eq_false on)] at off
      cases off
    exact (second.idle a low off).trans (first.idle a low before)

theorem owned_taken (own : Nat → Owner) (s : Machine) (space : Space own s) (f : Nat)
    (owned : own f ≠ .free) (low : f < maxFrames) : isSet s.pmm.bitmap f = true := by
  by_contra off
  exact owned (space.free f low (Bool.eq_false_of_not_eq_true off))

def linkOwner (own : Nat → Owner) (v : Word) (t f : Nat) : Nat → Owner :=
  fun g => if g = f then .page (v.toNat / 4096) else if g = t then .table (v.toNat / 2^22) else own g

section Entries
variable (s s' : Machine) (v : Word) (t f : Nat)
  (links : Links s s' (v.toNat / 2^22) (v.toNat / 4096 % 1024) t f)
include links

theorem link_dir : s'.dir = s.dir := congrArg frame links.cr3

theorem link_pde_other (a : Word) (apart : a.toNat / 2^22 ≠ v.toNat / 2^22) : s'.pde a = s.pde a := by
  have bound := a.isLt
  rw [Machine.pde,link_dir s s' v t f links]
  exact links.otherTables _ (by omega) apart

theorem link_pde_here (a : Word) (same : a.toNat / 2^22 = v.toNat / 2^22) :
    present (s'.pde a) = true ∧ frame (s'.pde a) = t := by
  rw [Machine.pde,link_dir s s' v t f links,same]
  exact links.directory

theorem link_pte_other (a : Word) (apart : a.toNat / 2^22 ≠ v.toNat / 2^22)
    (notDir : frame (s.pde a) ≠ s.dir) (notTable : frame (s.pde a) ≠ t) : s'.pte a = s.pte a := by
  rw [Machine.pte,link_pde_other s s' v t f links a apart]
  refine entry_congr _ _ _ _ (frame_lt _) (Nat.mod_lt _ (by decide)) fun b inside => ?_
  exact links.elsewhere b (by rw [inside]; exact notDir) (by rw [inside]; exact notTable)

theorem link_pte_here (a : Word) (same : a.toNat / 4096 = v.toNat / 4096) :
    present (s'.pte a) = true ∧ frame (s'.pte a) = f := by
  have table := link_pde_here s s' v t f links a (by omega)
  rw [Machine.pte,table.2,same]
  exact links.slot

/-- Another page behind the same table: as before, or not mapped either way. -/
theorem link_pte_beside (a : Word) (same : a.toNat / 2^22 = v.toNat / 2^22)
    (apart : a.toNat / 4096 ≠ v.toNat / 4096) :
    (present (s.pde a) = true ∧ s'.pte a = s.pte a) ∨
      (present (s.pde a) = false ∧ present (s'.pte a) = false) := by
  have table := link_pde_here s s' v t f links a same
  have slot : a.toNat / 4096 % 1024 ≠ v.toNat / 4096 % 1024 := by omega
  rcases links.origin with ⟨was,here,_,kept⟩ | ⟨was,_,_,_,empty⟩
  · left
    have before : s.pde a = entry s.mem s.dir (v.toNat / 2^22) := by rw [Machine.pde,same]
    refine ⟨by rw [before]; exact was,?_⟩
    rw [Machine.pte,Machine.pte,table.2,before,here]
    exact kept _ (Nat.mod_lt _ (by decide)) slot
  · right
    refine ⟨by rw [Machine.pde,same]; exact was,?_⟩
    rw [Machine.pte,table.2,empty _ (Nat.mod_lt _ (by decide)) slot]
    decide

end Entries

/-- A frame that was allocated for a user page of a space in order is linked in. -/
structure Linking (own : Nat → Owner) (s s' : Machine) (v : Word) (t f : Nat) : Prop where
  space : Space own s
  user : User v
  links : Links s s' (v.toNat / 2^22) (v.toNat / 4096 % 1024) t f
  unowned : own f = .free
  taken : isSet s.pmm.bitmap f = true
  apart : t ≠ s.dir

section Linking
variable (own : Nat → Owner) (s s' : Machine) (v : Word) (t f : Nat)
  (linking : Linking own s s' v t f)
include linking

/-- The table is the one that was there or was nobody's. -/
theorem link_table : own t = .table (v.toNat / 2^22) ∨ (own t = .free ∧ isSet s.pmm.bitmap t = false) := by
  rcases linking.links.origin with ⟨was,same,_⟩ | ⟨was,low,off,_⟩
  · left
    rw [← same]
    exact linking.space.table v linking.user was
  · exact .inr ⟨linking.space.free t low off,off⟩

theorem link_frame_ne : f ≠ t := by
  intro same
  rcases link_table own s s' v t f linking with mine | ⟨nobody,off⟩
  · rw [← same,linking.unowned] at mine
    cases mine
  · rw [← same,linking.taken] at off
    cases off

/-- An owner other than the linked table's keeps its frame, and the table is not it. -/
theorem link_owner (g : Nat) (o : Owner) (owner : own g = o) (owned : o ≠ .free)
    (apart : o ≠ .table (v.toNat / 2^22)) : g ≠ t ∧ linkOwner own v t f g = o := by
  have notTable : g ≠ t := by
    intro same
    rw [same] at owner
    rcases link_table own s s' v t f linking with mine | ⟨nobody,_⟩
    · exact apart (owner.symm.trans mine)
    · exact owned (owner.symm.trans nobody)
  have notFrame : g ≠ f := by
    intro same
    exact owned (owner.symm.trans (same ▸ linking.unowned))
  refine ⟨notTable,?_⟩
  rw [linkOwner,if_neg notFrame,if_neg notTable]
  exact owner

theorem link_table_owner : linkOwner own v t f t = .table (v.toNat / 2^22) := by
  rw [linkOwner,if_neg (link_frame_ne own s s' v t f linking).symm,if_pos rfl]

theorem link_not_dir (g : Nat) (o : Owner) (owner : own g = o) (owned : o ≠ .directory) : g ≠ s.dir := by
  intro same
  rw [same,linking.space.directory] at owner
  exact owned owner.symm

theorem link_bits (g : Nat) (on : isSet s.pmm.bitmap g = true) : isSet s'.pmm.bitmap g = true := by
  rcases linking.links.origin with ⟨_,_,same,_⟩ | ⟨_,_,_,takes,_⟩
  · rw [same]
    exact on
  · rw [takes.bits,on,Bool.true_or]

theorem link_user_apart (a : Word) (user : User a) (apart : a.toNat / 2^22 ≠ v.toNat / 2^22)
    (mapped : present (s.pde a) = true) : s'.pte a = s.pte a := by
  have owner := linking.space.table a user mapped
  have notTable := (link_owner own s s' v t f linking _ _ owner nofun
    (by intro same; exact apart (Owner.table.inj same))).1
  exact link_pte_other s s' v t f linking.links a apart
    (link_not_dir own s s' v t f linking _ _ owner nofun) notTable

theorem link_free : ∀ g < maxFrames, isSet s'.pmm.bitmap g = false → linkOwner own v t f g = .free := by
  intro g low off
  have before : isSet s.pmm.bitmap g = false := by
    by_contra on
    rw [link_bits own s s' v t f linking g (Bool.eq_true_of_not_eq_false on)] at off
    cases off
  have notFrame : g ≠ f := by
    intro same
    rw [same,linking.taken] at before
    cases before
  have notTable : g ≠ t := by
    intro same
    rcases linking.links.origin with ⟨was,here,_,_⟩ | ⟨_,_,_,takes,_⟩
    · have mine := linking.space.table v linking.user was
      have nobody := linking.space.free g low before
      rw [same,← here] at nobody
      rw [Machine.pde,nobody] at mine
      cases mine
    · rw [takes.bits,same] at off
      simp [Pmm.mem_frames_one] at off
  rw [linkOwner,if_neg notFrame,if_neg notTable]
  exact linking.space.free g low before

theorem link_space : Space (linkOwner own v t f) s' where
  recursive := by
    have user := linking.user
    unfold User at user
    rw [link_dir s s' v t f linking.links]
    exact linking.space.recursive.kept rfl (linking.links.otherTables 1023 (by decide) (by omega))
  directory := by
    rw [link_dir s s' v t f linking.links]
    exact (link_owner own s s' v t f linking _ _ linking.space.directory nofun nofun).2
  zero := link_bits own s s' v t f linking 0 linking.space.zero
  table := by
    intro a user mapped
    by_cases same : a.toNat / 2^22 = v.toNat / 2^22
    · rw [(link_pde_here s s' v t f linking.links a same).2,same]
      exact link_table_owner own s s' v t f linking
    · rw [link_pde_other s s' v t f linking.links a same] at mapped ⊢
      exact (link_owner own s s' v t f linking _ _ (linking.space.table a user mapped) nofun
        (by intro equal; exact same (Owner.table.inj equal))).2
  page := by
    intro a user mapped linked
    have kept : ∀ b, User b → present (s.pde b) = true → present (s.pte b) = true →
        linkOwner own v t f (frame (s.pte b)) = .page (b.toNat / 4096) :=
      fun b user mapped linked => (link_owner own s s' v t f linking _ _
        (linking.space.page b user mapped linked) nofun nofun).2
    by_cases table : a.toNat / 2^22 = v.toNat / 2^22
    · by_cases same : a.toNat / 4096 = v.toNat / 4096
      · rw [(link_pte_here s s' v t f linking.links a same).2,same]
        exact if_pos rfl
      · rcases link_pte_beside s s' v t f linking.links a table same with ⟨was,slot⟩ | ⟨_,absent⟩
        · rw [slot] at linked ⊢
          exact kept a user was linked
        · rw [absent] at linked
          cases linked
    · rw [link_pde_other s s' v t f linking.links a table] at mapped
      rw [link_user_apart own s s' v t f linking a user table mapped] at linked ⊢
      exact kept a user mapped linked
  free := link_free own s s' v t f linking

theorem link_kernel (a : Word) (x : Byte) (kernel : Kernel own s a x) :
    Kernel (linkOwner own v t f) s' a x := by
  have apart : a.toNat / 2^22 ≠ v.toNat / 2^22 := by
    have user := linking.user
    have high := kernel.high
    unfold User at user high
    omega
  have table := link_owner own s s' v t f linking _ _ kernel.tableOwner nofun nofun
  have page := link_owner own s s' v t f linking _ _ kernel.pageOwner nofun nofun
  have pde := link_pde_other s s' v t f linking.links a apart
  have pte := link_pte_other s s' v t f linking.links a apart
    (link_not_dir own s s' v t f linking _ _ kernel.tableOwner nofun) table.1
  have place : s'.place a = s.place a := by rw [Machine.place,Machine.place,pte]
  refine ⟨kernel.high,?_,?_,?_,?_,?_⟩
  · rw [pde]
    exact kernel.table
  · rw [pde]
    exact table.2
  · rw [pte]
    exact kernel.page
  · rw [pte]
    exact page.2
  · rw [place,← kernel.byte]
    refine linking.links.elsewhere _ ?_ ?_
    · rw [place_frame]
      exact link_not_dir own s s' v t f linking _ _ kernel.pageOwner nofun
    · rw [place_frame]
      exact page.1

theorem link_keeps : Keeps own (linkOwner own v t f) s s' where
  space := link_space own s s' v t f linking
  kernel := link_kernel own s s' v t f linking
  grows := link_bits own s s' v t f linking
  idle := by
    intro a low off
    have space := link_space own s s' v t f linking
    have nobody := space.free _ low off
    refine linking.links.elsewhere a ?_ ?_
    · intro same
      rw [same,← link_dir s s' v t f linking.links,space.directory] at nobody
      cases nobody
    · intro same
      rw [same,link_table_owner own s s' v t f linking] at nobody
      cases nobody

theorem link_load_here (a : Word) (same : a.toNat / 4096 = v.toNat / 4096) :
    s'.load8 a = some (s.mem (address f (a.toNat % 4096))) := by
  have table := link_pde_here s s' v t f linking.links a (by omega)
  have page := link_pte_here s s' v t f linking.links a same
  have notDir := link_not_dir own s s' v t f linking _ _ linking.unowned nofun
  have low : f < 2^20 := by
    rw [← page.2]
    exact frame_lt _
  have place : (address f (a.toNat % 4096)).toNat / 4096 = f := by
    rw [address_toNat f _ low (Nat.mod_lt _ (by decide))]
    omega
  rw [load_eq,if_pos table.1,if_pos page.1,Machine.place,page.2]
  refine congrArg some (linking.links.elsewhere _ ?_ ?_)
  · rw [place]
    exact notDir
  · rw [place]
    exact link_frame_ne own s s' v t f linking

theorem link_load_other (a : Word) (user : User a) (apart : a.toNat / 4096 ≠ v.toNat / 4096) :
    s'.load8 a = s.load8 a := by
  have bytes : present (s.pde a) = true → present (s.pte a) = true →
      s'.mem (s.place a) = s.mem (s.place a) := by
    intro mapped linked
    have owner := linking.space.page a user mapped linked
    refine linking.links.elsewhere _ ?_ ?_
    · rw [place_frame]
      exact link_not_dir own s s' v t f linking _ _ owner nofun
    · rw [place_frame]
      exact (link_owner own s s' v t f linking _ _ owner nofun nofun).1
  by_cases table : a.toNat / 2^22 = v.toNat / 2^22
  · rcases link_pte_beside s s' v t f linking.links a table apart with ⟨was,slot⟩ | ⟨was,absent⟩
    · refine load_congr s s' a ?_ fun mapped => ⟨slot,bytes mapped⟩
      rw [was]
      exact (link_pde_here s s' v t f linking.links a table).1
    · rw [load_eq,load_eq,was,absent]
      split
      · rfl
      · rfl
  · refine load_congr s s' a ?_ fun mapped => ⟨?_,bytes mapped⟩
    · rw [link_pde_other s s' v t f linking.links a table]
    · exact link_user_apart own s s' v t f linking a user table mapped

end Linking

end BlackOS.Vmm
