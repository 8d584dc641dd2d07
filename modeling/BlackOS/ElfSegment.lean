import BlackOS.Elf
import BlackOS.VmmWrite
import BlackOS.Library.Overlay

/-! One segment of the loader: its pages are mapped to frames that hold what was left in
them, and its bytes are then written over. -/
namespace BlackOS.Elf
open BlackOS.Library.Ram BlackOS.Library.Paging BlackOS.Library.Bitmap BlackOS.Vmm
open BlackOS.Pmm (maxFrames Takes)

def pageOf (a : Word) : Nat := a.toNat / 4096

/-- A byte of a free frame. -/
def Leftover (s : Machine) (x : Byte) : Prop :=
  ∃ a : Word, a.toNat / 4096 < maxFrames ∧ isSet s.pmm.bitmap (a.toNat / 4096) = false ∧ s.mem a = x

theorem leftover_before (own own' : Nat → Owner) (s s' : Machine) (kept : Keeps own own' s s') (x : Byte)
    (left : Leftover s' x) : Leftover s x := by
  obtain ⟨a,low,off,byte⟩ := left
  refine ⟨a,low,?_,?_⟩
  · by_contra on
    rw [kept.grows _ (Bool.eq_true_of_not_eq_false on)] at off
    cases off
  · rw [← kept.idle a low off]
    exact byte

def freeFrames (s : Machine) : Nat := (clearBits maxFrames s.pmm.bitmap).card

/-- The page tables that mapping the pages would need anew. -/
def missing (s : Machine) (pages : List Nat) : Finset Nat :=
  (pages.map (· / 1024)).toFinset.filter fun i => present (entry s.mem s.dir i) = false

/-- There is a frame for each page and for each missing table. -/
def Enough (s : Machine) (pages : List Nat) : Prop :=
  pages.length + (missing s pages).card ≤ freeFrames s

/-- Only the allocator and the page directory matter. -/
theorem enough_same (s s' : Machine) (pages : List Nat) (low : ∀ p ∈ pages, p / 1024 < 1024)
    (pmm : s'.pmm = s.pmm) (tables : ∀ i < 1024, entry s'.mem s'.dir i = entry s.mem s.dir i)
    (enough : Enough s pages) : Enough s' pages := by
  have same : missing s' pages = missing s pages := by
    refine Finset.filter_congr fun i member => ?_
    obtain ⟨p,within,index⟩ := List.mem_map.mp (List.mem_toFinset.mp member)
    rw [tables i (by rw [← index]; exact low p within)]
  unfold Enough freeFrames
  rw [same,pmm]
  exact enough

theorem takes_one (s s' : Pmm.State) (f : Nat) (low : f < maxFrames) (off : isSet s.bitmap f = false)
    (takes : Takes s s' f 1) :
    (clearBits maxFrames s.bitmap).card = (clearBits maxFrames s'.bitmap).card + 1 := by
  have counted := card_clearBits maxFrames s.bitmap s'.bitmap {f}
    (fun g member => by rw [Finset.mem_singleton.mp member]; exact low)
    (fun g member => by rw [Finset.mem_singleton.mp member]; exact off)
    (fun g member => by
      rw [takes.bits,Finset.mem_singleton.mp member]
      simp [Pmm.mem_frames_one])
    (fun g outside => by
      rw [takes.bits]
      simp [Pmm.mem_frames_one,Finset.mem_singleton.not.mp outside])
  rw [Finset.card_singleton] at counted
  exact counted

theorem full_frames (s : Machine) (full : ∀ f, f < maxFrames → isSet s.pmm.bitmap f = true) :
    freeFrames s = 0 := by
  rw [freeFrames,Finset.card_eq_zero,clearBits,Finset.filter_eq_empty_iff]
  intro g member
  rw [full g (Finset.mem_range.mp member)]
  decide

theorem alloc_free (s : Machine) (zero : isSet s.pmm.bitmap 0 = true) (some : 0 < freeFrames s) :
    ∃ f pmm, Pmm.blackPmmAllocFrame s.pmm = (pmm,word f * Pmm.blackPageSize) ∧ f < maxFrames ∧
      f ≠ 0 ∧ isSet s.pmm.bitmap f = false ∧ Takes s.pmm pmm f 1 := by
  rcases Pmm.allocFrame_spec s.pmm with ⟨_,full⟩ | ⟨f,pmm,got,low,off,takes⟩
  · rw [full_frames s full] at some
    exact absurd some (Nat.lt_irrefl 0)
  · refine ⟨f,pmm,got,low,?_,off,takes⟩
    intro same
    rw [same,zero] at off
    cases off

/-- With frames enough for a page and the rest, there are enough for its table and the rest
when its own frame has been taken. -/
theorem enough_taken (s : Machine) (v : Word) (rest : List Nat) (enough : Enough s (pageOf v::rest))
    (f : Nat) (pmm : Pmm.State) (low : f < maxFrames) (off : isSet s.pmm.bitmap f = false)
    (takes : Takes s.pmm pmm f 1) :
    rest.length + (missing {s with pmm := pmm} (pageOf v::rest)).card ≤ freeFrames {s with pmm := pmm} := by
  have length : (pageOf v::rest).length = rest.length + 1 := List.length_cons
  have frames : freeFrames s = freeFrames {s with pmm := pmm} + 1 := takes_one s.pmm pmm f low off takes
  have unchanged : missing {s with pmm := pmm} (pageOf v::rest) = missing s (pageOf v::rest) := rfl
  unfold Enough at enough
  rw [unchanged]
  omega

theorem enough_some (s : Machine) (p : Nat) (rest : List Nat) (enough : Enough s (p::rest)) :
    0 < freeFrames s := by
  have length : (p::rest).length = rest.length + 1 := List.length_cons
  unfold Enough at enough
  omega

theorem alloc_keeps (own : Nat → Owner) (s : Machine) (space : Space own s) (f : Nat) (pmm : Pmm.State)
    (takes : Takes s.pmm pmm f 1) : Keeps own own s {s with pmm := pmm} := by
  have grows : ∀ g, isSet s.pmm.bitmap g = true → isSet pmm.bitmap g = true := by
    intro g on
    rw [takes.bits,on,Bool.true_or]
  have before : ∀ g, isSet pmm.bitmap g = false → isSet s.pmm.bitmap g = false := by
    intro g off
    by_contra on
    rw [grows g (Bool.eq_true_of_not_eq_false on)] at off
    cases off
  exact {
    space := {
      recursive := space.recursive
      directory := space.directory
      zero := grows 0 space.zero
      table := space.table
      page := space.page
      free := fun g low off => space.free g low (before g off)}
    kernel := fun a x kernel => ⟨kernel.high,kernel.table,kernel.tableOwner,kernel.page,kernel.pageOwner,
      kernel.byte⟩
    grows := grows
    idle := fun _ _ _ => rfl}

theorem missing_linked (s s' : Machine) (v : Word) (t f : Nat) (rest : List Nat)
    (links : Links s s' (v.toNat / 2^22) (v.toNat / 4096 % 1024) t f)
    (low : ∀ p ∈ rest, p / 1024 < 1024) :
    missing s' rest ⊆ (missing s (pageOf v::rest)).erase (v.toNat / 2^22) := by
  have dir := link_dir s s' v t f links
  intro i member
  simp only [missing,Finset.mem_filter,List.mem_toFinset,List.mem_map] at member
  obtain ⟨⟨p,within,index⟩,absent⟩ := member
  rw [dir] at absent
  have other : i ≠ v.toNat / 2^22 := by
    intro same
    rw [same,links.directory.1] at absent
    cases absent
  rw [Finset.mem_erase]
  refine ⟨other,?_⟩
  simp only [missing,Finset.mem_filter,List.mem_toFinset,List.mem_map]
  refine ⟨⟨p,List.mem_cons_of_mem _ within,index⟩,?_⟩
  rw [← links.otherTables i (by rw [← index]; exact low p within) other]
  exact absent

theorem missing_here (s : Machine) (v : Word) (rest : List Nat)
    (absent : present (entry s.mem s.dir (v.toNat / 2^22)) = false) :
    v.toNat / 2^22 ∈ missing s (pageOf v::rest) := by
  simp only [missing,Finset.mem_filter,List.mem_toFinset,List.mem_map]
  refine ⟨⟨pageOf v,List.mem_cons_self,?_⟩,absent⟩
  unfold pageOf
  omega

theorem enough_linked (s s' : Machine) (v : Word) (t f : Nat) (rest : List Nat)
    (links : Links s s' (v.toNat / 2^22) (v.toNat / 4096 % 1024) t f)
    (low : ∀ p ∈ rest, p / 1024 < 1024)
    (enough : rest.length + (missing s (pageOf v::rest)).card ≤ freeFrames s) : Enough s' rest := by
  have fewer := Finset.card_le_card (missing_linked s s' v t f rest links low)
  unfold Enough
  rcases links.origin with ⟨_,_,same,_⟩ | ⟨absent,lowTable,off,takes,_⟩
  · have frames : freeFrames s' = freeFrames s := by rw [freeFrames,same,freeFrames]
    have smaller := Finset.card_le_card (Finset.erase_subset (v.toNat / 2^22) (missing s (pageOf v::rest)))
    omega
  · have frames : freeFrames s = freeFrames s' + 1 := takes_one s.pmm s'.pmm t lowTable off takes
    have member := missing_here s v rest absent
    have dropped := Finset.card_erase_of_mem member
    have positive := Finset.card_pos.mpr ⟨_,member⟩
    omega

/-- With frames enough for the tables, the table of a page does not want for a frame. -/
theorem enough_table (s : Machine) (v : Word) (rest : List Nat)
    (enough : rest.length + (missing s (pageOf v::rest)).card ≤ freeFrames s)
    (absent : present (entry s.mem s.dir (v.toNat / 2^22)) = false) :
    ¬ ∀ f, f < maxFrames → isSet s.pmm.bitmap f = true := by
  intro full
  have some := Finset.card_pos.mpr ⟨_,missing_here s v rest absent⟩
  have none := full_frames s full
  omega

theorem leftover_frame (s : Machine) (f k : Nat) (low : f < maxFrames) (off : isSet s.pmm.bitmap f = false)
    (inside : k < 4096) : Leftover s (s.mem (address f k)) := by
  have most : maxFrames = 262144 := rfl
  have place : (address f k).toNat / 4096 = f := by
    rw [address_toNat f k (by omega) inside]
    omega
  refine ⟨_,?_,?_,rfl⟩
  · rw [place]
    exact low
  · rw [place]
    exact off

/-- A frame is allocated and given to `black_vmm_map_page`: it is linked in, or it is lost for
want of a table. -/
theorem map_outcome (own : Nat → Owner) (s : Machine) (space : Space own s) (v flags : Word) (user : User v)
    (f : Nat) (pmm : Pmm.State) (low : f < maxFrames) (off : isSet s.pmm.bitmap f = false)
    (takes : Takes s.pmm pmm f 1) :
    (blackVmmMapPage {s with pmm := pmm} v (word f * Pmm.blackPageSize) flags = some {s with pmm := pmm} ∧
      present (entry s.mem s.dir (v.toNat / 2^22)) = false ∧
      ∀ g, g < maxFrames → isSet pmm.bitmap g = true) ∨
    ∃ s' t, blackVmmMapPage {s with pmm := pmm} v (word f * Pmm.blackPageSize) flags = some s' ∧
      Linking own {s with pmm := pmm} s' v t f := by
  have kept := alloc_keeps own s space f pmm takes
  have taken : isSet pmm.bitmap f = true := by
    rw [takes.bits]
    simp [Pmm.mem_frames_one]
  have below : v.toNat / 2^22 < 768 := by
    unfold User at user
    omega
  rcases mapPage_links {s with pmm := pmm} space.recursive
      (fun inside => owned_taken own _ kept.space _ (by rw [kept.space.directory]; nofun) inside)
      kept.space.zero v (word f * Pmm.blackPageSize) flags (by omega)
      (fun present same => by
        have owner := space.table v user present
        have dir := space.directory
        rw [Machine.pde] at owner
        rw [show frame (entry s.mem s.dir (v.toNat / 2^22)) = s.dir from same,dir] at owner
        cases owner) with
    lost | ⟨s',t,mapped,apart,links⟩
  · exact .inl lost
  · rw [frame_address f low] at links
    exact .inr ⟨s',t,mapped,kept.space,user,links,space.free f low off,taken,apart⟩

theorem map_round (own : Nat → Owner) (s : Machine) (space : Space own s) (v flags : Word) (user : User v)
    (rest : List Nat) (low : ∀ p ∈ rest, p / 1024 < 1024) (enough : Enough s (pageOf v::rest)) :
    ∃ f pmm own' s', Pmm.blackPmmAllocFrame s.pmm = (pmm,word f * Pmm.blackPageSize) ∧
      word f * Pmm.blackPageSize ≠ 0 ∧
      blackVmmMapPage {s with pmm := pmm} v (word f * Pmm.blackPageSize) flags = some s' ∧
      Keeps own own' s s' ∧ Enough s' rest ∧
      (∀ a, User a → pageOf a ≠ pageOf v → s'.load8 a = s.load8 a) ∧
      ∀ a, pageOf a = pageOf v → ∃ x, Leftover s x ∧ s'.load8 a = some x := by
  obtain ⟨f,pmm,got,lowFrame,positive,off,takes⟩ := alloc_free s space.zero (enough_some s _ rest enough)
  have kept := alloc_keeps own s space f pmm takes
  have left := enough_taken s v rest enough f pmm lowFrame off takes
  refine ⟨f,pmm,?_⟩
  rcases map_outcome own s space v flags user f pmm lowFrame off takes with
    ⟨_,absent,full⟩ | ⟨s',t,mapped,linking⟩
  · exact absurd full (enough_table {s with pmm := pmm} v rest left absent)
  · have links := linking.links
    refine ⟨linkOwner own v t f,s',got,frame_address_ne f lowFrame positive,mapped,?_,?_,?_,?_⟩
    · exact keeps_trans own own _ s _ s' kept (link_keeps own _ s' v t f linking)
    · exact enough_linked {s with pmm := pmm} s' v t f rest links low left
    · intro a userA other
      exact link_load_other own _ s' v t f linking a userA other
    · intro a same
      exact ⟨_,leftover_frame s f _ lowFrame off (Nat.mod_lt a.toNat (by decide)),
        link_load_here own _ s' v t f linking a same⟩

/-- The number of pages the mapping loop visits. -/
def pageCount (memsz : Word) : Nat := (memsz.toNat + 4095) / 4096

theorem off_next (k : Nat) : word (4096 * k) + pageSize = word (4096 * (k + 1)) := by
  have step := word_add (4096 * k) 4096
  rw [Nat.mul_add]
  exact step

/-- The page of a round of the mapping loop. -/
theorem round_target (vaddr memsz : Word) (inside : vaddr.toNat + memsz.toNat ≤ 0xC0000000) (k : Nat)
    (before : 4096 * k < memsz.toNat) :
    word (4096 * k) < memsz ∧ User (vaddr + word (4096 * k)) ∧
      pageOf (vaddr + word (4096 * k)) = pageOf vaddr + k := by
  have off : (word (4096 * k)).toNat = 4096 * k := word_toNat _ (by omega)
  have target : (vaddr + word (4096 * k)).toNat = vaddr.toNat + 4096 * k := by
    rw [BitVec.toNat_add,off]
    exact Nat.mod_eq_of_lt (by omega)
  refine ⟨?_,?_,?_⟩
  · rw [BitVec.lt_def,off]
    exact before
  · unfold User
    omega
  · unfold pageOf
    omega

/-- The mapping loop after `k` rounds, with `n` to go. -/
theorem mapSegment_maps (vaddr memsz flags : Word) (inside : vaddr.toNat + memsz.toNat ≤ 0xC0000000)
    (rest : List Nat) (low : ∀ p ∈ rest, p / 1024 < 1024) (n : Nat) :
    ∀ (k fuel : Nat) (own : Nat → Owner) (s : Machine), n + k = pageCount memsz → n < fuel →
      Space own s → Enough s (List.range' (pageOf vaddr + k) n ++ rest) →
      ∃ own' s', mapSegment vaddr memsz flags fuel (word (4096 * k)) s = some (s',true) ∧
        Keeps own own' s s' ∧ Enough s' rest ∧
        (∀ a, User a → (pageOf a < pageOf vaddr + k ∨ pageOf vaddr + k + n ≤ pageOf a) →
          s'.load8 a = s.load8 a) ∧
        ∀ a, User a → pageOf vaddr + k ≤ pageOf a → pageOf a < pageOf vaddr + k + n →
          ∃ x, Leftover s x ∧ s'.load8 a = some x := by
  induction n with
  | zero =>
    intro k fuel own s count enoughFuel space enough
    obtain ⟨fuel,rfl⟩ := Nat.exists_eq_add_of_lt enoughFuel
    have off : (word (4096 * k)).toNat = 4096 * k := word_toNat _ (by unfold pageCount at count; omega)
    have done : ¬ word (4096 * k) < memsz := by
      rw [BitVec.lt_def,off]
      unfold pageCount at count
      omega
    refine ⟨own,s,?_,keeps_refl own s space,enough,fun a user outside => rfl,?_⟩
    · rw [mapSegment,if_neg done]
    · intro a user above under
      omega
  | succ n ih =>
    intro k fuel own s count enoughFuel space enough
    obtain ⟨fuel,rfl⟩ : ∃ m, fuel = m + 1 := ⟨fuel - 1,by omega⟩
    have before : 4096 * k < memsz.toNat := by
      unfold pageCount at count
      omega
    obtain ⟨more,user,page⟩ := round_target vaddr memsz inside k before
    rw [List.range'_succ,List.cons_append,← page] at enough
    obtain ⟨f,pmm,own₁,s₁,got,found,mapped,kept,left,others,here⟩ := map_round own s space
      (vaddr + word (4096 * k)) flags user
      (List.range' (pageOf (vaddr + word (4096 * k)) + 1) n ++ rest)
      (by
        intro p member
        rcases List.mem_append.mp member with later | last
        · have range := List.mem_range'_1.mp later
          unfold pageOf pageCount at *
          omega
        · exact low p last)
      enough
    rw [page,Nat.add_assoc] at left
    obtain ⟨own₂,s₂,run,kept₂,final,others₂,here₂⟩ := ih (k + 1) fuel own₁ s₁ (by omega) (by omega)
      kept.space left
    refine ⟨own₂,s₂,?_,keeps_trans own own₁ own₂ s s₁ s₂ kept kept₂,final,?_,?_⟩
    · rw [mapSegment,if_pos more,got]
      simp only [if_neg found,mapped,Option.bind_eq_bind,Option.bind_some,off_next,run]
    · intro a user outside
      rw [others₂ a user (by omega)]
      exact others a user (by omega)
    · intro a user above under
      by_cases same : pageOf a = pageOf (vaddr + word (4096 * k))
      · obtain ⟨x,stale,value⟩ := here a same
        refine ⟨x,stale,?_⟩
        rw [others₂ a user (by omega)]
        exact value
      · obtain ⟨x,stale,value⟩ := here₂ a user (by omega) (by omega)
        exact ⟨x,leftover_before own own₁ s s₁ kept x stale,value⟩

end BlackOS.Elf
