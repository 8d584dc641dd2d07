import BlackOS.Library.Ram
import BlackOS.Library.Xorshift

/-! The generator of `rust/black_core`. Arithmetic that overflows or divides by zero has no result. -/
namespace BlackOS.SecureRandom
open BlackOS.Library.Ram BlackOS.Library.Xorshift

abbrev State := BitVec 64

def blackXorshiftState : State := 0x4242424242424242

def checkedSub (x y : Word) : Option Word := if y ≤ x then some (x - y) else none

def checkedRem (x y : Word) : Option Word := if y = 0 then none else some (x % y)

def checkedAdd (x y : Word) : Option Word := if x.toNat + y.toNat < 2^32 then some (x + y) else none

section Calls
variable (state : State)

def blackSecureRandomSeed (seed : Word) : State := if seed = 0 then 1 else seed.setWidth 64

def blackSecureRandom : State × Word :=
  let state := state ^^^ (state <<< 13)
  let state := state ^^^ (state >>> 7)
  let state := state ^^^ (state <<< 17)
  (state,state.setWidth 32)

def blackSecureRandomRange (min max : Word) : Option (State × Word) :=
  if max ≤ min then some (state,min) else do
  let range ← checkedSub max min
  let (state,random) := blackSecureRandom state
  let offset ← checkedRem random range
  let value ← checkedAdd min offset
  return (state,value)

end Calls

inductive Call
  | seed (seed : Word)
  | random
  | range (min max : Word)

def step (state : State) : Call → Option State
  | .seed seed => some (blackSecureRandomSeed seed)
  | .random => some (blackSecureRandom state).1
  | .range min max => (blackSecureRandomRange state min max).map Prod.fst

theorem random_injective (s t : State) (same : (blackSecureRandom s).1 = (blackSecureRandom t).1) : s = t := by
  apply shiftLeft_injective 13 (by decide)
  apply ushiftRight_injective 7 (by decide)
  apply shiftLeft_injective 17 (by decide)
  exact same

/-- Zero is its own successor, so that no other state leads there. -/
theorem random_nonzero (s : State) (nonzero : s ≠ 0) : (blackSecureRandom s).1 ≠ 0 := by
  intro zero
  have absorbs : (blackSecureRandom 0).1 = 0 := by decide
  exact nonzero (random_injective s 0 (zero.trans absorbs.symm))

theorem seed_nonzero (seed : Word) : blackSecureRandomSeed seed ≠ 0 := by
  rw [blackSecureRandomSeed]
  by_cases zero : seed = 0
  · rw [if_pos zero]
    decide
  · rw [if_neg zero]
    intro none_
    apply zero
    apply BitVec.eq_of_toNat_eq
    have value := congrArg BitVec.toNat none_
    have bound := seed.isLt
    rw [BitVec.toNat_setWidth,Nat.mod_eq_of_lt (by omega)] at value
    exact value

/-- Between two bounds that are in order the arithmetic is exact. -/
theorem range_between (s : State) (min max : Word) (order : min < max) :
    ∃ value, blackSecureRandomRange s min max = some ((blackSecureRandom s).1,value) ∧ min ≤ value ∧ value < max := by
  rw [BitVec.lt_def] at order
  have range : (max - min).toNat = max.toNat - min.toNat := BitVec.toNat_sub_of_le (BitVec.le_def.mpr (by omega))
  have positive : max - min ≠ 0 := by
    intro zero
    rw [zero] at range
    have none_ : (0 : Word).toNat = 0 := rfl
    omega
  have below : ((blackSecureRandom s).2 % (max - min)).toNat < max.toNat - min.toNat := by
    rw [BitVec.toNat_umod,range]
    exact Nat.mod_lt _ (by omega)
  have bound := max.isLt
  have sum : (min + (blackSecureRandom s).2 % (max - min)).toNat =
      min.toNat + ((blackSecureRandom s).2 % (max - min)).toNat := by
    rw [BitVec.toNat_add]
    exact Nat.mod_eq_of_lt (by omega)
  refine ⟨min + (blackSecureRandom s).2 % (max - min),?_,?_,?_⟩
  · have more : ¬max ≤ min := by
      rw [BitVec.le_def]
      omega
    have upper : min ≤ max := by
      rw [BitVec.le_def]
      omega
    rw [blackSecureRandomRange,if_neg more,checkedSub,if_pos upper]
    simp only [checkedRem,if_neg positive,checkedAdd,Option.bind_eq_bind,Option.bind_some]
    rw [if_pos (by omega)]
    rfl
  · rw [BitVec.le_def,sum]
    omega
  · rw [BitVec.lt_def,sum]
    omega

theorem step_nonzero (s : State) (call : Call) (nonzero : s ≠ 0) : ∃ s', step s call = some s' ∧ s' ≠ 0 := by
  cases call with
  | seed seed => exact ⟨_,rfl,seed_nonzero seed⟩
  | random => exact ⟨_,rfl,random_nonzero s nonzero⟩
  | range min max =>
    by_cases order : min < max
    · obtain ⟨value,returned,_⟩ := range_between s min max order
      rw [step,returned]
      exact ⟨_,rfl,random_nonzero s nonzero⟩
    · rw [step,blackSecureRandomRange,if_pos (BitVec.not_lt.mp order)]
      exact ⟨s,rfl,nonzero⟩

theorem run_nonzero (calls : List Call) : ∀ s : State, s ≠ 0 → ∃ s', calls.foldlM step s = some s' ∧ s' ≠ 0 := by
  induction calls with
  | nil => exact fun s nonzero => ⟨s,rfl,nonzero⟩
  | cons call calls ih =>
    intro s nonzero
    obtain ⟨s₁,first,kept⟩ := step_nonzero s call nonzero
    obtain ⟨s',rest,still⟩ := ih s₁ kept
    refine ⟨s',?_,still⟩
    rw [List.foldlM_cons,first]
    exact rest

/-- After any calls the state is not zero and a value between two bounds that are in order is found there; no two
states have the same successor. -/
theorem random_never_stuck :
    (∀ calls : List Call, ∃ s, calls.foldlM step blackXorshiftState = some s ∧ s ≠ 0 ∧
      ∀ min max, min < max →
        ∃ s' value, blackSecureRandomRange s min max = some (s',value) ∧ min ≤ value ∧ value < max) ∧
    ∀ s t : State, s ≠ t → (blackSecureRandom s).1 ≠ (blackSecureRandom t).1 := by
  refine ⟨fun calls => ?_,fun s t other same => other (random_injective s t same)⟩
  obtain ⟨s,done,nonzero⟩ := run_nonzero calls blackXorshiftState (by decide)
  refine ⟨s,done,nonzero,fun min max order => ?_⟩
  obtain ⟨value,returned,between⟩ := range_between s min max order
  exact ⟨_,value,returned,between⟩

/-- After a zero seed and a call. -/
theorem random_never_stuck_seeded : (blackSecureRandom 1).1 ≠ (blackSecureRandom 2).1 ∧
    ∃ s, [Call.seed 0,Call.random].foldlM step blackXorshiftState = some s ∧ s ≠ 0 := by
  obtain ⟨s,done,nonzero,_⟩ := random_never_stuck.1 [.seed 0,.random]
  exact ⟨random_never_stuck.2 1 2 (by decide),s,done,nonzero⟩

end BlackOS.SecureRandom
