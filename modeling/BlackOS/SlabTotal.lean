import BlackOS.Slab
import BlackOS.Library.Checked

/-! The calls of the slab with their arithmetic checked. A call without a result has divided by zero, or a sum or a
product in it is no `usize`. -/
namespace BlackOS.Slab
open BlackOS.Library.Ram BlackOS.Library.Bitmap BlackOS.Library

section Calls
variable (s : State)

def allocChecked : Option (State × Option Word) :=
  match (List.range blackSlabEntries).find? (isClear s) with
  | none => some (s,none)
  | some i =>
    if s.count + 1 < 2^32 then do
      let addr ← (Checked.mul (word i) s.objSize).bind (Checked.add s.base)
      return ({s with bitmap := set s.bitmap i,count := s.count + 1},some addr)
    else none

def freeChecked (addr : Word) : Option (State × Bool) :=
  if addr < s.base then some (s,false) else do
  let offset := addr - s.base
  let remainder ← Checked.rem offset s.objSize
  if remainder ≠ 0 then return (s,false) else
  let quotient ← Checked.div offset s.objSize
  let idx := quotient.toNat
  if blackSlabEntries ≤ idx then return (s,false) else
  if isClear s idx then return (s,false) else
  return ({s with bitmap := clear s.bitmap idx,count := s.count - 1},true)

def blackSlabAlloc : Option (State × Word) := do
  let (s,got) ← allocChecked s
  match got with
  | some addr => return (s,addr)
  | none => return (s,0)

def blackSlabFree (addr : Word) : Option (State × Int) := do
  let (s,freed) ← freeChecked s addr
  return (s,if freed then 0 else -1)

end Calls

def stepChecked (s : System) : Op → Option System
  | .alloc => do
    let (slab,got) ← allocChecked s.slab
    return ⟨slab,s.live ++ got.toList⟩
  | .free addr => do
    let (slab,code) ← blackSlabFree s.slab addr
    return ⟨slab,if code = 0 then s.live.erase addr else s.live⟩

def run (objSize base : Word) (ops : List Op) : Option System :=
  ops.foldlM stepChecked ⟨blackSlabCreate objSize base,[]⟩

/-- Every sequence of calls runs, and `black_slab_alloc` then returns 0 only if 256 objects are live. -/
def Total (objSize base : Word) : Prop :=
  ∀ ops, ∃ s, run objSize base ops = some s ∧
    ∀ next, blackSlabAlloc s.slab = some next → next.2 = 0 → s.live.length = 256

section Checked
variable (s : State)

theorem ne_zero_iff (a : Word) : a ≠ 0 ↔ 0 < a.toNat := by
  rw [Nat.pos_iff_ne_zero,ne_eq,← BitVec.toNat_inj]
  rfl

theorem found_inside (i : Nat) (found : (List.range blackSlabEntries).find? (isClear s) = some i) : i < 256 :=
  List.mem_range.mp (List.mem_of_find?_eq_some found)

/-- The checked call has the result of the plain one, if the address of the object is a word. -/
theorem allocChecked_iff (few : s.count ≤ 256) (next : State × Option Word) :
    allocChecked s = some next ↔ blackAlloc s = next ∧
      ∀ i, (List.range blackSlabEntries).find? (isClear s) = some i → s.base.toNat + i * s.objSize.toNat < 2^32 := by
  rw [allocChecked,blackAlloc]
  cases found : (List.range blackSlabEntries).find? (isClear s) with
  | none =>
    rw [Option.some_inj]
    exact ⟨fun same => ⟨same,fun i some_ => by cases some_⟩,fun both => both.1⟩
  | some i =>
    have inside := found_inside s i found
    have sum := Checked.mul_add_eq_some (word i) s.objSize s.base
    rw [word_toNat i (by omega)] at sum
    dsimp only
    rw [if_pos (by omega),Option.bind_eq_bind,Option.bind_eq_some_iff]
    constructor
    · intro both
      obtain ⟨addr,computed,same⟩ := both
      obtain ⟨small,rfl⟩ := (sum addr).mp computed
      refine ⟨Option.some.inj same,fun j equal => ?_⟩
      rw [← Option.some.inj equal]
      exact small
    · intro both
      obtain ⟨same,small⟩ := both
      exact ⟨_,(sum _).mpr ⟨small i rfl,rfl⟩,congrArg some same⟩

theorem freeChecked_eq (nonzero : s.objSize ≠ 0) (addr : Word) : freeChecked s addr = some (blackFree s addr) := by
  rw [freeChecked,blackFree]
  dsimp only
  rw [Checked.rem_some _ _ nonzero,Checked.div_some _ _ nonzero]
  dsimp only [Option.bind_eq_bind,Option.bind_some,Option.pure_def]
  simp only [apply_ite some]

end Checked

theorem run_append (objSize base : Word) (ops : List Op) (op : Op) :
    run objSize base (ops ++ [op]) = (run objSize base ops).bind (stepChecked · op) := by
  rw [run,List.foldlM_append,← run]
  refine congrArg _ (funext fun s => ?_)
  rw [List.foldlM_cons]
  exact Option.bind_fun_some _

theorem after_append (objSize base : Word) (ops : List Op) (op : Op) :
    after objSize base (ops ++ [op]) = step (after objSize base ops) op :=
  List.foldl_append

section Reaches
variable (objSize base : Word) (reaches : Reaches objSize base) (s : System) (inv : Inv objSize base s)
include reaches inv

theorem allocChecked_eq : allocChecked s.slab = some (blackAlloc s.slab) := by
  have most := setBits_le s.slab
  have last := reaches.last
  refine (allocChecked_iff s.slab (inv.count ▸ most) _).mpr ⟨rfl,fun i found => ?_⟩
  have product : i * objSize.toNat ≤ 255 * objSize.toNat :=
    Nat.mul_le_mul_right _ (Nat.le_of_lt_succ (found_inside s.slab i found))
  rw [inv.base,inv.objSize]
  omega

theorem stepChecked_eq (op : Op) : stepChecked s op = some (step s op) := by
  cases op with
  | alloc =>
    rw [stepChecked,allocChecked_eq objSize base reaches s inv]
    rfl
  | free addr =>
    have nonzero : s.slab.objSize ≠ 0 := by
      rw [inv.objSize]
      exact (ne_zero_iff objSize).mpr reaches.positive
    rw [stepChecked,blackSlabFree,freeChecked_eq s.slab nonzero,step]
    generalize blackFree s.slab addr = result
    obtain ⟨slab,freed⟩ := result
    cases freed with
    | true => rfl
    | false => rfl

/-- The live addresses are at or above the base. -/
theorem alloc_zero (nonzero : base ≠ 0) (next : State × Word) (returned : blackSlabAlloc s.slab = some next)
    (zero : next.2 = 0) : s.live.length = 256 := by
  have placed := inv_reaches objSize base reaches s inv
  rw [blackSlabAlloc,allocChecked_eq objSize base reaches s inv] at returned
  refine (alloc_exhausted objSize base s inv).mp ?_
  rcases alloc_cases s.slab with ⟨fails,_⟩ | ⟨i,inside,_,_,succeeds⟩
  · rw [fails]
  · rw [succeeds] at returned
    obtain rfl := Option.some.inj returned
    have place := address_toNat s.slab placed i inside
    have least : (address s.slab i).toNat = 0 := congrArg BitVec.toNat zero
    have positive := (ne_zero_iff base).mp nonzero
    rw [inv.base] at place
    omega

end Reaches

theorem run_eq (objSize base : Word) (reaches : Reaches objSize base) (ops : List Op) :
    run objSize base ops = some (after objSize base ops) := by
  induction ops using List.reverseRecOn with
  | nil => rfl
  | append_singleton ops op ih =>
    have inv := after_inv objSize base reaches ops
    rw [run_append,ih,Option.bind_some,after_append]
    exact stepChecked_eq objSize base reaches _ inv op

/-- After `k` calls of `black_slab_alloc` the first `k` objects are in use. -/
structure Filled (objSize base : Word) (k : Nat) (s : State) : Prop where
  objSize : s.objSize = objSize
  base : s.base = base
  count : s.count = k
  bits : ∀ i, isSet s.bitmap i = decide (i < k)

section Filled
variable (objSize base : Word) (k : Nat) (s : State) (filled : Filled objSize base k s)
include filled

theorem filled_found (inside : k < 256) : (List.range blackSlabEntries).find? (isClear s) = some k := by
  rw [List.find?_range_eq_some]
  refine ⟨?_,List.mem_range.mpr inside,fun j below => ?_⟩
  · rw [isClear_iff,filled.bits]
    exact decide_eq_false (Nat.lt_irrefl k)
  · rw [Bool.not_eq_true',← Bool.not_eq_true,isClear_iff,filled.bits]
    exact ne_of_eq_of_ne (decide_eq_true below) (by decide)

/-- A checked call on `k` objects is one that gives out the next. -/
theorem filled_alloc (inside : k < 256) (next : State × Option Word) (done : allocChecked s = some next) :
    base.toNat + k * objSize.toNat < 2^32 ∧ Filled objSize base (k + 1) next.1 := by
  have count := filled.count
  have found := filled_found objSize base k s filled inside
  obtain ⟨same,small⟩ := (allocChecked_iff s (by omega) next).mp done
  have last := small k found
  rw [filled.base,filled.objSize] at last
  rw [blackAlloc,found] at same
  subst same
  refine ⟨last,filled.objSize,filled.base,congrArg (· + 1) count,fun i => ?_⟩
  rw [isSet_set (by decide),filled.bits,← Bool.decide_or]
  exact decide_eq_decide.mpr Nat.lt_succ_iff_lt_or_eq.symm

end Filled

theorem create_filled (objSize base : Word) : Filled objSize base 0 (blackSlabCreate objSize base) := by
  refine ⟨rfl,rfl,rfl,fun i => ?_⟩
  rw [isSet,blackSlabCreate]
  simp

theorem run_filled (objSize base : Word) (k : Nat) (inside : k ≤ 256) : ∀ s,
    run objSize base (List.replicate k .alloc) = some s → Filled objSize base k s.slab ∧
      (0 < k → base.toNat + (k - 1) * objSize.toNat < 2^32) := by
  induction k with
  | zero =>
    intro s ran
    obtain rfl := Option.some.inj ran
    exact ⟨create_filled objSize base,fun impossible => absurd impossible (by decide)⟩
  | succ k ih =>
    intro s ran
    rw [List.replicate_succ',run_append,Option.bind_eq_some_iff] at ran
    obtain ⟨before,ran,done⟩ := ran
    rw [stepChecked,Option.bind_eq_bind,Option.bind_eq_some_iff] at done
    obtain ⟨next,allocated,same⟩ := done
    obtain rfl := Option.some.inj same
    obtain ⟨last,filled⟩ := filled_alloc objSize base k before.slab (ih (by omega) before ran).1 (by omega) next allocated
    exact ⟨filled,fun _ => last⟩

/-- The first object of a slab at the address 0 is given out as that address. -/
theorem alloc_first (objSize : Word) : ∃ s, blackSlabAlloc (blackSlabCreate objSize 0) = some (s,0) := by
  have found := filled_found objSize 0 0 _ (create_filled objSize 0) (by decide)
  have small : ∀ i, (List.range blackSlabEntries).find? (isClear (blackSlabCreate objSize 0)) = some i →
      (0 : Word).toNat + i * objSize.toNat < 2^32 := by
    intro i first
    rw [← Option.some.inj (found.symm.trans first),Nat.zero_mul]
    decide
  have allocated := (allocChecked_iff (blackSlabCreate objSize 0) (Nat.zero_le _) _).mpr ⟨rfl,small⟩
  have place : address (blackSlabCreate objSize 0) 0 = 0 := by
    rw [address]
    exact (BitVec.zero_add _).trans BitVec.zero_mul
  rw [blackSlabAlloc,allocated,blackAlloc,found]
  exact ⟨_,congrArg (fun addr => some (_,addr)) place⟩

/-- The calls are total exactly if objects have a size, none has the address 0 and the address of the last is a word. -/
theorem slab_total (objSize base : Word) :
    Total objSize base ↔ objSize ≠ 0 ∧ base ≠ 0 ∧ base.toNat + 255 * objSize.toNat < 2^32 := by
  constructor
  · intro total
    refine ⟨?_,?_,?_⟩
    · rintro rfl
      obtain ⟨s,ran,_⟩ := total [.free base]
      have divides : freeChecked (blackSlabCreate 0 base) base = none := if_neg (BitVec.lt_irrefl base)
      rw [run,List.foldlM_cons,stepChecked,blackSlabFree,divides] at ran
      cases ran
    · rintro rfl
      obtain ⟨s,ran,zero⟩ := total []
      obtain rfl := Option.some.inj ran
      obtain ⟨next,first⟩ := alloc_first objSize
      exact absurd (zero _ first rfl) Nat.noConfusion
    · obtain ⟨s,ran,_⟩ := total (List.replicate 256 .alloc)
      exact (run_filled objSize base 256 (Nat.le_refl _) s ran).2 (by decide)
  · intro fits ops
    obtain ⟨sized,based,last⟩ := fits
    have reaches : Reaches objSize base := ⟨(ne_zero_iff objSize).mp sized,last⟩
    exact ⟨after objSize base ops,run_eq objSize base reaches ops,
      alloc_zero objSize base reaches _ (after_inv objSize base reaches ops) based⟩

/-- Objects without a size: freeing the first address divides by zero. -/
theorem not_slab_total : ¬Total 0 0x1000 := by
  intro total
  obtain ⟨s,ran,_⟩ := total [.free 0x1000]
  have faults : run 0 0x1000 [.free 0x1000] = none := by decide
  rw [faults] at ran
  cases ran

end BlackOS.Slab
