import Mathlib.Data.BitVec
import Mathlib.Tactic.Common

/-! A cursor over the words of some width, which moves on from each place by a step read there, as long as it is
before an end. Places are words, so that a step past the last word leads to the first ones. -/
namespace BlackOS.Library.Cursor

variable {w : Nat} (step : BitVec w → BitVec w) (last p : BitVec w)

/-- The place after so many steps. -/
def place (p : BitVec w) : Nat → BitVec w
  | 0 => p
  | k+1 => place (p + step p) k

/-- The cursor is before the end at its first places, up to this one. -/
def Before (k : Nat) : Prop := ∀ j ≤ k, place step p j < last

/-- The places that the cursor comes to in so many turns. -/
def places : Nat → BitVec w → List (BitVec w)
  | 0,_ => []
  | n+1,p => if p < last then p::places n (p + step p) else []

/-- Every step from a place before the end moves the cursor, and not past the last word. -/
def Advances : Prop := ∀ k, Before step last p k →
  step (place step p k) ≠ 0 ∧ (place step p k).toNat + (step (place step p k)).toNat < 2^w

theorem place_add (k m : Nat) : place step p (k + m) = place step (place step p k) m := by
  induction k generalizing p with
  | zero => rw [Nat.zero_add,place]
  | succ k ih => rw [Nat.succ_add,place,place,ih]

theorem place_succ (k : Nat) : place step p (k + 1) = place step p k + step (place step p k) :=
  place_add step p k 1

theorem before_zero : Before step last p 0 ↔ p < last :=
  ⟨fun before => before 0 (Nat.le_refl 0),fun first j least => by rw [Nat.le_zero.mp least]; exact first⟩

theorem before_mono (j k : Nat) (early : j ≤ k) (before : Before step last p k) : Before step last p j :=
  fun i least => before i (Nat.le_trans least early)

theorem before_add (k m : Nat) (before : Before step last p k) (after : Before step last (place step p k) m) :
    Before step last p (k + m) := by
  intro j least
  rcases Nat.le_total j k with early | late
  · exact before j early
  · obtain ⟨i,rfl⟩ := Nat.exists_eq_add_of_le late
    rw [place_add]
    exact after i (by omega)

theorem before_succ (k : Nat) :
    Before step last p (k + 1) ↔ p < last ∧ Before step last (p + step p) k := by
  constructor
  · exact fun before => ⟨before 0 (Nat.zero_le _),fun j least => before (j + 1) (Nat.succ_le_succ least)⟩
  · intro both j least
    cases j with
    | zero => exact both.1
    | succ j => exact both.2 j (Nat.le_of_succ_le_succ least)

theorem places_getElem? (n k : Nat) (q : BitVec w) :
    (places step last n p)[k]? = some q ↔ k < n ∧ Before step last p k ∧ place step p k = q := by
  induction n generalizing p k with
  | zero => exact iff_of_false nofun fun both => absurd both.1 (Nat.not_lt_zero k)
  | succ n ih =>
    rw [places]
    by_cases first : p < last
    · rw [if_pos first]
      cases k with
      | zero =>
        rw [List.getElem?_cons_zero,Option.some_inj,before_zero,place]
        exact ⟨fun same => ⟨Nat.succ_pos n,first,same⟩,fun all => all.2.2⟩
      | succ k =>
        rw [List.getElem?_cons_succ,ih,before_succ,place,Nat.succ_lt_succ_iff,and_iff_right first]
    · rw [if_neg first]
      exact iff_of_false nofun fun all => first (all.2.1 0 (Nat.zero_le k))

theorem mem_places (n : Nat) (q : BitVec w) :
    q ∈ places step last n p ↔ ∃ k < n, Before step last p k ∧ place step p k = q := by
  rw [List.mem_iff_getElem?]
  exact exists_congr fun k => places_getElem? step last p n k q

/-- A cursor that does not move from a place before the end stays before it. -/
theorem before_stuck (k : Nat) (before : Before step last p k) (still : step (place step p k) = 0) (m : Nat) :
    Before step last p m := by
  have stays (m : Nat) : place step (place step p k) m = place step p k := by
    induction m with
    | zero => rfl
    | succ m ih =>
      rw [place_succ,ih,still]
      exact BitVec.add_zero _
  refine before_mono step last p m (k + m) (Nat.le_add_left m k) (before_add step last p k m before fun j _ => ?_)
  rw [stays]
  exact before k (Nat.le_refl k)

section Advances
variable (advances : Advances step last p)
include advances

theorem place_next (k : Nat) (before : Before step last p k) :
    (place step p (k + 1)).toNat = (place step p k).toNat + (step (place step p k)).toNat := by
  rw [place_succ,BitVec.toNat_add]
  exact Nat.mod_eq_of_lt (advances k before).2

theorem place_grows (k : Nat) (before : Before step last p k) : (place step p k).toNat < (place step p (k + 1)).toNat := by
  have moves := (advances k before).1
  have value : (step (place step p k)).toNat ≠ 0 := fun zero => moves (BitVec.eq_of_toNat_eq zero)
  rw [place_next step last p advances k before]
  omega

theorem place_far (j k : Nat) (early : j ≤ k) (before : Before step last p k) :
    (place step p j).toNat + (k - j) ≤ (place step p k).toNat := by
  induction k with
  | zero =>
    rw [Nat.le_zero.mp early]
    exact Nat.le_refl _
  | succ k ih =>
    have earlier := before_mono step last p k (k + 1) (Nat.le_succ k) before
    have grows := place_grows step last p advances k earlier
    by_cases same : j = k + 1
    · rw [same]
      omega
    · have sum := ih (by omega) earlier
      omega

/-- The cursor comes to the end in as many turns as there are words up to it. -/
theorem advances_ends : ¬Before step last p (last.toNat - p.toNat) := by
  intro before
  have far := place_far step last p advances 0 _ (Nat.zero_le _) before
  have inside := before _ (Nat.le_refl _)
  rw [BitVec.lt_def] at inside
  rw [place] at far
  omega

end Advances

section Bounded
variable (b : Nat) (bounded : ∀ q, (step q).toNat ≤ b)
include bounded

/-- Steps of at most `b` words do not lead to an end that is further away than so many of them. -/
theorem before_far (n : Nat) (far : p.toNat + b * n < last.toNat) : Before step last p n := by
  induction n generalizing p with
  | zero =>
    rw [before_zero,BitVec.lt_def]
    omega
  | succ n ih =>
    rw [Nat.mul_succ] at far
    have low := last.isLt
    have most := bounded p
    have sum : (p + step p).toNat = p.toNat + (step p).toNat := by
      rw [BitVec.toNat_add]
      exact Nat.mod_eq_of_lt (by omega)
    rw [before_succ,BitVec.lt_def]
    exact ⟨by omega,ih (p + step p) (by omega)⟩

/-- A cursor that comes to the end in so few turns has not gone past the last word. -/
theorem ends_advances (n : Nat) (few : b * (n + 2) ≤ 2^w) (ends : ¬Before step last p n) : Advances step last p := by
  intro k before
  have here := before k (Nat.le_refl k)
  rw [BitVec.lt_def] at here
  refine ⟨fun still => ends (before_stuck step last p k before still n),?_⟩
  by_contra past
  have most := bounded (place step p k)
  have next : (place step p (k + 1)).toNat + 2^w = (place step p k).toNat + (step (place step p k)).toNat := by
    have low := (place step p k).isLt
    have small := (step (place step p k)).isLt
    rw [place_succ,BitVec.toNat_add,Nat.mod_eq_sub_mod (by omega),Nat.mod_eq_of_lt (by omega)]
    omega
  rw [Nat.mul_add] at few
  have low := (place step p k).isLt
  have rest : Before step last (place step p (k + 1)) n := before_far step last _ b bounded n (by omega)
  have start := rest 0 (Nat.zero_le n)
  have onward : Before step last p (k + 1) := by
    refine before_add step last p k 1 before fun j least => ?_
    rcases Nat.le_one_iff_eq_zero_or_eq_one.mp least with zero | one
    · rw [zero]
      exact before k (Nat.le_refl k)
    · rw [one,← place_add]
      exact start
  exact ends (before_mono step last p n (k + 1 + n) (by omega) (before_add step last p (k + 1) n onward rest))

end Bounded

end BlackOS.Library.Cursor
