import BlackOS.MmapRun

/-! The ranges of mappings made without an address. The kernel's choice of a place does not
depend on what is mapped. -/
namespace BlackOS.Mmap
open BlackOS.Library.Ram BlackOS.Library.Run BlackOS.Vmm

/-- The mappings made without an address, and the ranges of those that are live. -/
structure Mappings where
  machine : Machine
  live : List (Word × Word)

inductive Request
  | mmap (size flags : Word)
  | munmap (addr size : Word)

def Mappings.step (s : Mappings) : Request → Option Mappings
  | .mmap size flags =>
    if 1 ≤ size.toNat ∧ size.toNat ≤ 0x1000000 then
      (blackMmap s.machine 0 size flags).map fun r => ⟨r.1,(r.2.1,size) :: s.live⟩
    else none
  | .munmap addr size => (blackMunmap s.machine addr size).map fun r => ⟨r.1,s.live.erase (addr,size)⟩

/-- Two ranges without a common address. -/
def Apart (a b : Word × Word) : Prop :=
  a.1.toNat + a.2.toNat ≤ b.1.toNat ∨ b.1.toNat + b.2.toNat ≤ a.1.toNat

theorem mmap_virt (s : Machine) (addr size flags : Word) (r : Machine × Word × List Word)
    (mapped : blackMmap s addr size flags = some r) : r.2.1 = virtOf addr := by
  obtain ⟨⟨s',frames⟩,_,returned⟩ := Option.bind_eq_some_iff.mp mapped
  obtain rfl := Option.some.inj returned
  rfl

/-- Live ranges are not empty and all start at one address. -/
def Together (live : List (Word × Word)) : Prop := ∀ r ∈ live, r.1 = 0xB0000000 ∧ 1 ≤ r.2.toNat

theorem request_together (s : Mappings) (together : Together s.live) (c : Request) (s' : Mappings)
    (step : s.step c = some s') : Together s'.live := by
  cases c with
  | mmap size flags =>
    obtain ⟨bounds,done⟩ := Option.ite_none_right_eq_some.mp step
    obtain ⟨r,mapped,rfl⟩ := Option.map_eq_some_iff.mp done
    intro q listed
    rcases List.mem_cons.mp listed with new | old
    · rw [new]
      exact ⟨mmap_virt _ _ _ _ r mapped,bounds.1⟩
    · exact together q old
  | munmap addr size =>
    obtain ⟨r,_,rfl⟩ := Option.map_eq_some_iff.mp step
    exact fun q listed => together q (List.mem_of_mem_erase listed)

theorem together_overlap (a b : Word × Word) (left : a.1 = 0xB0000000 ∧ 1 ≤ a.2.toNat)
    (right : b.1 = 0xB0000000 ∧ 1 ≤ b.2.toNat) : ¬ Apart a b := by
  intro apart
  rw [Apart,left.1,right.1] at apart
  omega

/-- A mapping is made only while none is live. -/
def Alone (s : Mappings) : Request → Prop
  | .mmap _ _ => s.live = []
  | .munmap _ _ => True

def AloneNext (s : Mappings) (c : Request) (s' : Mappings) : Prop := Alone s c ∧ s.step c = some s'

theorem alone_step (s : Mappings) (few : s.live.length ≤ 1) (c : Request) (s' : Mappings)
    (next : AloneNext s c s') : s'.live.length ≤ 1 := by
  obtain ⟨alone,step⟩ := next
  cases c with
  | mmap size flags =>
    obtain ⟨_,done⟩ := Option.ite_none_right_eq_some.mp step
    obtain ⟨r,_,rfl⟩ := Option.map_eq_some_iff.mp done
    have none : s.live = [] := alone
    dsimp only
    rw [none]
    exact Nat.le_refl 1
  | munmap addr size =>
    obtain ⟨r,_,rfl⟩ := Option.map_eq_some_iff.mp step
    exact Nat.le_trans List.length_erase_le few

/-- In a run that maps only while nothing is mapped no two live mappings overlap, and in
every state of such a run one more mapping keeps it so exactly when none is live. -/
theorem mappings_apart (m : Machine) (calls : List Request) (s : Mappings)
    (run : Steps AloneNext ⟨m,[]⟩ calls s) :
    s.live.Pairwise Apart ∧ ∀ size flags s', s.step (.mmap size flags) = some s' →
      (s'.live.Pairwise Apart ↔ s.live = []) := by
  obtain ⟨together,few⟩ := run.invariant (fun s => Together s.live ∧ s.live.length ≤ 1) ⟨fun _ listed => absurd listed List.not_mem_nil,Nat.zero_le 1⟩
    fun s c s' held next => ⟨request_together s held.1 c s' next.2,alone_step s held.2 c s' next⟩
  refine ⟨?_,fun size flags s' step => ?_⟩
  · cases live : s.live with
    | nil => exact .nil
    | cons r rest =>
      rw [live,List.length_cons] at few
      rw [List.eq_nil_of_length_eq_zero (Nat.le_zero.mp (Nat.le_of_succ_le_succ few))]
      exact List.pairwise_singleton _ _
  · have after := request_together s together _ s' step
    obtain ⟨_,done⟩ := Option.ite_none_right_eq_some.mp step
    obtain ⟨r,_,rfl⟩ := Option.map_eq_some_iff.mp done
    refine ⟨fun apart => ?_,fun none => ?_⟩
    · cases live : s.live with
      | nil => rfl
      | cons q rest =>
        rw [live] at apart after
        have first := List.rel_of_pairwise_cons apart List.mem_cons_self
        exact absurd first (together_overlap _ _ (after _ List.mem_cons_self)
          (after _ (List.mem_cons_of_mem _ List.mem_cons_self)))
    · dsimp only
      rw [none]
      exact List.pairwise_singleton _ _

theorem request_returns (s : Machine) (order : InOrder s) (live : List (Word × Word)) :
    ∃ s', InOrder s' ∧ Mappings.step ⟨s,live⟩ (.mmap 0x1000 0) = some ⟨s',(0xB0000000,0x1000) :: live⟩ := by
  obtain ⟨s',frames,mapped,kept⟩ := mmapLoop_inOrder 0xB0000000 0 1 0 s (by decide) order
  have one : (pagesOf 0x1000).toNat = 1 := by decide
  have place : virtOf 0 = 0xB0000000 := by decide
  have zero : word 0 = 0 := rfl
  have bounds : 1 ≤ (0x1000 : Word).toNat ∧ (0x1000 : Word).toNat ≤ 0x1000000 := by decide
  rw [zero] at mapped
  have returned : blackMmap s 0 0x1000 0 = some (s',0xB0000000,frames) := by
    simp only [blackMmap,one,place,mapped,Option.bind_eq_bind,Option.bind_some]
    rfl
  refine ⟨s',kept,?_⟩
  rw [Mappings.step,if_pos bounds,returned,Option.map_some]

theorem mappings_apart_bare : ∃ s, Steps AloneNext ⟨bare,[]⟩ [.mmap 0x1000 0] s ∧ s.live.Pairwise Apart := by
  obtain ⟨m,_,step⟩ := request_returns bare bare_inOrder []
  have run : Steps AloneNext ⟨bare,[]⟩ [.mmap 0x1000 0] _ := .snoc [] _ _ _ .nil ⟨rfl,step⟩
  exact ⟨_,run,(mappings_apart bare _ _ run).1⟩

/-- Two mappings, both live, at one address. -/
theorem mappings_overlap : ∃ s, Steps (fun s c s' => Mappings.step s c = some s') ⟨bare,[]⟩
    [.mmap 0x1000 0,.mmap 0x1000 0] s ∧ ¬ s.live.Pairwise Apart := by
  obtain ⟨m,order,first⟩ := request_returns bare bare_inOrder []
  obtain ⟨m',_,second⟩ := request_returns m order [(0xB0000000,0x1000)]
  refine ⟨_,.snoc [_] _ _ _ (.snoc [] _ _ _ .nil first) second,fun apart => ?_⟩
  have overlap := List.rel_of_pairwise_cons apart List.mem_cons_self
  exact together_overlap _ _ ⟨rfl,by decide⟩ ⟨rfl,by decide⟩ overlap

end BlackOS.Mmap
