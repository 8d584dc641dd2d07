import Mathlib.Data.Finset.Insert
import Mathlib.Data.Finset.Filter
import Mathlib.Data.Fintype.Basic
import Mathlib.Data.List.Basic
import Mathlib.Data.BitVec

/-! Two interrupt controllers of eight lines each, the second one on line 2 of the first: how they are set up, which
interrupts they let through, and how an end of interrupt ends the one with the highest priority. -/
namespace BlackOS.Library.Pic

/-- `awaits` is the number of the initialization word that the data port takes next, zero for the mask. -/
structure Chip where
  awaits : Nat
  offset : BitVec 8
  mask : BitVec 8
  inService : Finset (Fin 8)

def Chip.endOfInterrupt (c : Chip) : Chip := {c with inService := {l ∈ c.inService | ∃ k ∈ c.inService, k < l}}

def Chip.command (c : Chip) (v : BitVec 8) : Chip :=
  if v.getLsbD 4 then {c with awaits := 2,mask := 0,inService := ∅}
  else if v = 0x20 then c.endOfInterrupt
  else c

def Chip.data (c : Chip) (v : BitVec 8) : Chip :=
  match c.awaits with
  | 2 => {c with awaits := 3,offset := v &&& 0xF8}
  | 3 => {c with awaits := 4}
  | 4 => {c with awaits := 0}
  | _ => {c with mask := v}

structure Pair where
  master : Chip
  slave : Chip

def Pair.outb (p : Pair) (port : Nat) (v : BitVec 8) : Pair :=
  match port with
  | 0x20 => {p with master := p.master.command v}
  | 0x21 => {p with master := p.master.data v}
  | 0xA0 => {p with slave := p.slave.command v}
  | 0xA1 => {p with slave := p.slave.data v}
  | _ => p

def Pair.outputs (p : Pair) (written : List (Nat × BitVec 8)) : Pair := written.foldl (fun p w => p.outb w.1 w.2) p

/-- The line of the first controller on which an interrupt comes. -/
def line (k : Fin 16) : Fin 8 := if k.val < 8 then Fin.ofNat 8 k.val else 2

/-- The line of its own controller. -/
def own (k : Fin 16) : Fin 8 := Fin.ofNat 8 k.val

/-- The processor may take an interrupt that comes before all that are in service. -/
def Pair.Accepts (p : Pair) (k : Fin 16) : Prop :=
  p.master.mask.getLsbD (line k) = false ∧ (∀ l ∈ p.master.inService, line k < l) ∧
    (8 ≤ k.val → p.slave.mask.getLsbD (own k) = false ∧ ∀ l ∈ p.slave.inService, own k < l)

instance (p : Pair) (k : Fin 16) : Decidable (p.Accepts k) :=
  inferInstanceAs (Decidable (p.master.mask.getLsbD (line k) = false ∧ (∀ l ∈ p.master.inService, line k < l) ∧
    (8 ≤ k.val → p.slave.mask.getLsbD (own k) = false ∧ ∀ l ∈ p.slave.inService, own k < l)))

def Pair.accept (p : Pair) (k : Fin 16) : Pair where
  master := {p.master with inService := insert (line k) p.master.inService}
  slave := if 8 ≤ k.val then {p.slave with inService := insert (own k) p.slave.inService} else p.slave

def Pair.vector (p : Pair) (k : Fin 16) : Nat :=
  if k.val < 8 then p.master.offset.toNat + k.val else p.slave.offset.toNat + (k.val - 8)

/-- The lines in service are those of interrupts of which each one came before those that it interrupted. -/
structure Nested (p : Pair) (active : List (Fin 16)) : Prop where
  master : p.master.inService = (active.map line).toFinset
  slave : p.slave.inService = ((active.filter fun k => 8 ≤ k.val).map own).toFinset
  order : active.Pairwise fun inner outer => line inner < line outer

theorem endOfInterrupt_first (c : Chip) (l : Fin 8) (rest : List (Fin 8)) (least : ∀ k ∈ rest, l < k)
    (service : c.inService = (l::rest).toFinset) : c.endOfInterrupt.inService = rest.toFinset := by
  ext k
  simp only [Chip.endOfInterrupt,service,Finset.mem_filter,List.mem_toFinset,List.mem_cons]
  constructor
  · rintro ⟨rfl | among,j,first | later,before⟩
    · exact absurd before (first ▸ lt_irrefl _)
    · exact absurd before (lt_asymm (least j later))
    · exact among
    · exact among
  · intro among
    exact ⟨.inr among,l,.inl rfl,least k among⟩

variable {p : Pair} {active : List (Fin 16)}

theorem Nested.accept (nested : Nested p active) (k : Fin 16) (accepts : p.Accepts k) : Nested (p.accept k) (k::active) := by
  obtain ⟨_,first,_⟩ := accepts
  refine ⟨?_,?_,List.pairwise_cons.mpr ⟨fun j among => ?_,nested.order⟩⟩
  · simp [Pair.accept,nested.master]
  · by_cases high : 8 ≤ k.val
    · simp [Pair.accept,high,nested.slave]
    · simp [Pair.accept,high,nested.slave]
  · apply first
    rw [nested.master,List.mem_toFinset]
    exact List.mem_map_of_mem among

/-- What a handler writes to the controllers for the end of its interrupt. -/
def ended (k : Fin 16) : List (Nat × BitVec 8) := (if 8 ≤ k.val then [(0xA0,0x20)] else []) ++ [(0x20,0x20)]

theorem outputs_ended (k : Fin 16) : p.outputs (ended k) =
    ⟨p.master.endOfInterrupt,if 8 ≤ k.val then p.slave.endOfInterrupt else p.slave⟩ := by
  by_cases high : 8 ≤ k.val
  · simp [ended,high,Pair.outputs,Pair.outb,Chip.command]
  · simp [ended,high,Pair.outputs,Pair.outb,Chip.command]

/-- The end of the innermost interrupt leaves the others in service. -/
theorem Nested.finish (k : Fin 16) (nested : Nested p (k::active)) : Nested (p.outputs (ended k)) active := by
  obtain ⟨first,order⟩ := List.pairwise_cons.mp nested.order
  have lines : ∀ l ∈ active.map line, line k < l := by
    intro l among
    obtain ⟨j,inside,rfl⟩ := List.mem_map.mp among
    exact first j inside
  rw [outputs_ended]
  refine ⟨endOfInterrupt_first p.master (line k) _ lines nested.master,?_,order⟩
  have service := nested.slave
  by_cases high : 8 ≤ k.val
  · -- Any other interrupt of the second controller would be on the same line of the first one.
    have none : active.filter (fun k => 8 ≤ k.val) = [] := by
      rw [List.filter_eq_nil_iff]
      intro j among above
      have same := first j among
      simp only [decide_eq_true_eq] at above
      simp [line,Nat.not_lt.mpr high,Nat.not_lt.mpr above] at same
    rw [List.filter_cons_of_pos (by simp [high]),none] at service
    simp only [high,if_true,none]
    exact endOfInterrupt_first p.slave (own k) [] (fun l absent => by cases absent) service
  · rw [List.filter_cons_of_neg (by simpa using high)] at service
    simpa [high] using service

end BlackOS.Library.Pic
