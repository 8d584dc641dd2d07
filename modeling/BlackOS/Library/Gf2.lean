import Mathlib.Algebra.Polynomial.Div
import Mathlib.Algebra.Polynomial.Inductions
import Mathlib.Algebra.CharP.Two
import Mathlib.Data.ZMod.Basic
import Mathlib.Data.Nat.Size
import Mathlib.Data.List.GetD
import Mathlib.Algebra.Field.ZMod
import Mathlib.RingTheory.Coprime.Lemmas
import Mathlib.Data.BitVec
import Mathlib.Tactic.LinearCombination
import Mathlib.Tactic.Common

/-! Polynomials over the field of two elements, their division in a shift register, and cyclic
redundancy checks. -/
namespace BlackOS.Library.Gf2
open Polynomial

def bit (b : Bool) : ZMod 2 := if b then 1 else 0

theorem bit_xor (a b : Bool) : bit (a ^^ b) = bit a + bit b := by
  revert a b
  decide

theorem bit_injective (a b : Bool) (same : bit a = bit b) : a = b := by
  revert a b
  decide

/-- The polynomial with the given coefficients below a power. -/
noncomputable def polynomial (n : Nat) (f : Nat → Bool) : (ZMod 2)[X] :=
  ∑ k ∈ Finset.range n, C (bit (f k)) * X ^ k

theorem coeff_polynomial (n : Nat) (f : Nat → Bool) (k : Nat) :
    (polynomial n f).coeff k = if k < n then bit (f k) else 0 := by
  rw [polynomial,finsetSum_coeff]
  simp only [coeff_C_mul_X_pow]
  rw [Finset.sum_ite_eq]
  simp only [Finset.mem_range]

theorem degree_polynomial (n : Nat) (f : Nat → Bool) : (polynomial n f).degree < n := by
  rw [degree_lt_iff_coeff_zero]
  intro k high
  rw [coeff_polynomial,if_neg (by omega)]

/-- The binary digits of a number as coefficients. -/
noncomputable def ofNat (n : Nat) : (ZMod 2)[X] := polynomial n.size n.testBit

/-- The bits of a message as coefficients; the first bit has the highest power. -/
noncomputable def ofBits (bs : List Bool) : (ZMod 2)[X] :=
  polynomial bs.length fun k => bs.getD (bs.length - 1 - k) false

/-- The bits of a word as coefficients; the lowest bit has the highest power. -/
noncomputable def reflected {w : Nat} (x : BitVec w) : (ZMod 2)[X] :=
  polynomial w fun k => x.getLsbD (w - 1 - k)

/-- The word with the given coefficients, in the same order. -/
noncomputable def unreflected (w : Nat) (p : (ZMod 2)[X]) : BitVec w :=
  (BitVec.ofBoolListLE ((List.range w).map fun i => decide (p.coeff (w - 1 - i) = 1))).setWidth w

theorem coeff_ofNat (n k : Nat) : (ofNat n).coeff k = bit (n.testBit k) := by
  rw [ofNat,coeff_polynomial]
  by_cases inside : k < n.size
  · rw [if_pos inside]
  · have beyond : n < 2 ^ k :=
      lt_of_lt_of_le (Nat.lt_size_self n) (Nat.pow_le_pow_right (by decide) (by omega))
    rw [if_neg inside,Nat.testBit_lt_two_pow beyond]
    rfl

theorem ofBits_append (xs ys : List Bool) : ofBits (xs ++ ys) = X ^ ys.length * ofBits xs + ofBits ys := by
  ext k
  rw [coeff_add,coeff_X_pow_mul',ofBits,ofBits,ofBits,coeff_polynomial,coeff_polynomial,coeff_polynomial,
    List.length_append]
  by_cases low : k < ys.length
  · have place : xs.length + ys.length - 1 - k = xs.length + (ys.length - 1 - k) := by omega
    rw [if_pos (by omega),if_neg (by omega),if_pos low,zero_add,place,List.getD_append_right _ _ _ _ (by omega),
      Nat.add_sub_cancel_left]
  · rw [if_neg low,if_pos (by omega : ys.length ≤ k),add_zero]
    by_cases high : k < xs.length + ys.length
    · have place : xs.length + ys.length - 1 - k = xs.length - 1 - (k - ys.length) := by omega
      rw [if_pos high,if_pos (by omega),place,List.getD_append _ _ _ _ (by omega)]
    · rw [if_neg high,if_neg (by omega)]

section Words
variable {w : Nat} (x y : BitVec w)

theorem coeff_reflected (k : Nat) :
    (reflected x).coeff k = if k < w then bit (x.getLsbD (w - 1 - k)) else 0 := coeff_polynomial _ _ _

theorem degree_reflected : (reflected x).degree < w := degree_polynomial _ _

theorem reflected_xor : reflected (x ^^^ y) = reflected x + reflected y := by
  ext k
  rw [coeff_add,coeff_reflected,coeff_reflected,coeff_reflected,BitVec.getLsbD_xor,bit_xor]
  split_ifs
  · rfl
  · rw [add_zero]

theorem getLsbD_unreflected (p : (ZMod 2)[X]) (i : Nat) :
    (unreflected w p).getLsbD i = (decide (i < w) && decide (p.coeff (w - 1 - i) = 1)) := by
  rw [unreflected,BitVec.getLsbD_setWidth,BitVec.getLsbD_ofBoolListLE,List.getD_eq_getElem?_getD,List.getElem?_map]
  by_cases inside : i < w
  · rw [List.getElem?_range inside,Option.map_some,Option.getD_some]
  · rw [decide_eq_false inside,Bool.false_and,Bool.false_and]

theorem unreflected_reflected : unreflected w (reflected x) = x := by
  apply BitVec.eq_of_getLsbD_eq
  intro i inside
  have place : w - 1 - (w - 1 - i) = i := by omega
  have digit (b : Bool) : decide (bit b = 1) = b := by
    cases b with
    | false => decide
    | true => decide
  rw [getLsbD_unreflected,decide_eq_true inside,Bool.true_and,coeff_reflected,if_pos (by omega),place,digit]

theorem reflected_unreflected (p : (ZMod 2)[X]) (small : p.degree < w) : reflected (unreflected w p) = p := by
  have digit (a : ZMod 2) : bit (decide (a = 1)) = a := by
    revert a
    decide
  ext k
  rw [coeff_reflected]
  by_cases inside : k < w
  · have place : w - 1 - (w - 1 - k) = k := by omega
    rw [if_pos inside,getLsbD_unreflected,decide_eq_true (by omega),Bool.true_and,place,digit]
  · rw [if_neg inside,(degree_lt_iff_coeff_zero p w).mp small k (by omega)]

/-- Moving a word down multiplies by the variable, but for the bit that falls out. -/
theorem reflected_ushiftRight (positive : 0 < w) :
    X * reflected x = reflected (x >>> 1) + C (bit (x.getLsbD 0)) * X ^ w := by
  ext k
  rw [coeff_add,coeff_C_mul_X_pow,coeff_reflected,BitVec.getLsbD_ushiftRight]
  cases k with
  | zero =>
    have past : 1 + (w - 1 - 0) = w := by omega
    rw [coeff_X_mul_zero,if_pos positive,if_neg (by omega),past,BitVec.getLsbD_of_ge x w (Nat.le_refl w)]
    rfl
  | succ k =>
    rw [coeff_X_mul,coeff_reflected]
    by_cases last : k + 1 = w
    · have first : w - 1 - k = 0 := by omega
      rw [if_pos (by omega),if_neg (by omega),if_pos last,first,zero_add]
    · rw [if_neg last,add_zero]
      by_cases inside : k + 1 < w
      · have place : 1 + (w - 1 - (k + 1)) = w - 1 - k := by omega
        rw [if_pos (by omega),if_pos inside,place]
      · rw [if_neg (by omega),if_neg inside]

end Words

/-! A register that is moved down, with taps for the bit that falls out, divides by a polynomial of its own
degree. -/
section Registers
variable {w : Nat} (taps : BitVec w)

def shift (x : BitVec w) : BitVec w := if x.getLsbD 0 then (x >>> 1) ^^^ taps else x >>> 1

def shifts (n : Nat) (x : BitVec w) : BitVec w := (shift taps)^[n] x

noncomputable def modulus : (ZMod 2)[X] := X ^ w + reflected taps

/-- The register holds the remainder of a polynomial. -/
def Holds (x : BitVec w) (p : (ZMod 2)[X]) : Prop := modulus taps ∣ p - reflected x

theorem modulus_monic : (modulus taps).Monic := monic_X_pow_add (degree_reflected taps)

theorem modulus_degree : (modulus taps).degree = w := by
  have low := degree_reflected taps
  rw [modulus,degree_add_eq_left_of_degree_lt]
  · exact degree_X_pow w
  · rw [degree_X_pow]
    exact low

theorem holds_remainder (x : BitVec w) (p : (ZMod 2)[X]) (holds : Holds taps x p) :
    p %ₘ modulus taps = reflected x := by
  have monic := modulus_monic taps
  rw [modByMonic_eq_of_dvd_sub monic holds,modByMonic_eq_self_iff monic,modulus_degree]
  exact degree_reflected x

theorem holds_some (p : (ZMod 2)[X]) : ∃ x, Holds taps x p := by
  have small := degree_modByMonic_lt p (modulus_monic taps)
  rw [modulus_degree] at small
  refine ⟨unreflected w (p %ₘ modulus taps),p /ₘ modulus taps,?_⟩
  rw [reflected_unreflected _ small]
  linear_combination -modByMonic_add_div p (modulus taps)

theorem holds_start (x : BitVec w) : Holds taps x (reflected x) := by
  rw [Holds,sub_self]
  exact dvd_zero _

theorem holds_xor (x y : BitVec w) (p : (ZMod 2)[X]) (holds : Holds taps x p) :
    Holds taps (x ^^^ y) (p + reflected y) := by
  rw [Holds,reflected_xor,add_sub_add_right_eq_sub]
  exact holds

theorem holds_shift (positive : 0 < w) (x : BitVec w) (p : (ZMod 2)[X]) (holds : Holds taps x p) :
    Holds taps (shift taps x) (X * p) := by
  have moved := reflected_ushiftRight x positive
  obtain ⟨q,multiple⟩ := holds
  unfold Holds shift
  generalize x.getLsbD 0 = out at moved ⊢
  cases out with
  | false =>
    refine ⟨X * q,?_⟩
    rw [bit,if_neg Bool.false_ne_true,C_0,zero_mul,add_zero] at moved
    rw [if_neg Bool.false_ne_true]
    linear_combination X * multiple + moved
  | true =>
    refine ⟨X * q + 1,?_⟩
    have twice := CharTwo.add_self_eq_zero (reflected taps)
    rw [bit,if_pos rfl,C_1,one_mul] at moved
    rw [if_pos rfl,reflected_xor]
    unfold modulus at multiple ⊢
    linear_combination X * multiple + moved - twice

theorem holds_shifts (positive : 0 < w) (n : Nat) (x : BitVec w) (p : (ZMod 2)[X]) (holds : Holds taps x p) :
    Holds taps (shifts taps n x) (X ^ n * p) := by
  induction n with
  | zero =>
    rw [pow_zero,one_mul]
    exact holds
  | succ n ih =>
    rw [shifts,Function.iterate_succ_apply',pow_succ',mul_assoc]
    exact holds_shift taps positive _ _ ih

end Registers

/-- The check word of a message: the remainder of the message, moved up by the width, with the initial word
added to its first bits. -/
noncomputable def crc (generator : (ZMod 2)[X]) {w : Nat} (initial final : BitVec w) (bs : List Bool) : BitVec w :=
  unreflected w ((X ^ bs.length * reflected initial + X ^ w * ofBits bs) %ₘ generator) ^^^ final

section Crc
variable {w : Nat} (taps initial final : BitVec w)

theorem crc_held (bs : List Bool) (x : BitVec w)
    (holds : Holds taps x (X ^ bs.length * reflected initial + X ^ w * ofBits bs)) :
    crc (modulus taps) initial final bs = x ^^^ final := by
  rw [crc,holds_remainder taps x _ holds,unreflected_reflected]

/-- A generator with a constant term has no factor in common with a power of the variable. -/
theorem modulus_coprime (constant : taps.getLsbD (w - 1) = true) (n : Nat) : IsCoprime (modulus taps) (X ^ n) := by
  have positive : 0 < w := by
    by_contra empty
    rw [BitVec.getLsbD_of_ge taps _ (by omega)] at constant
    cases constant
  have one : (modulus taps).coeff 0 = 1 := by
    rw [modulus,coeff_add,coeff_X_pow,if_neg (by omega),coeff_reflected,if_pos positive,Nat.sub_zero,constant]
    rfl
  refine IsCoprime.pow_right ⟨1,-divX (modulus taps),?_⟩
  have parts := divX_mul_X_add (modulus taps)
  rw [one,C_1] at parts
  linear_combination -parts

/-- A polynomial whose coefficients lie in a window is a small one, moved up. -/
theorem window_factor (p : (ZMod 2)[X]) (a n : Nat) (outside : ∀ k, k < a ∨ a + n ≤ k → p.coeff k = 0) :
    ∃ q : (ZMod 2)[X], p = X ^ a * q ∧ q.degree < n := by
  obtain ⟨q,rfl⟩ := X_pow_dvd_iff.mpr fun k low => outside k (.inl low)
  refine ⟨q,rfl,(degree_lt_iff_coeff_zero q n).mpr fun k high => ?_⟩
  rw [← coeff_X_pow_mul q a k]
  exact outside (k + a) (.inr (by omega))

theorem ofBits_injective (xs ys : List Bool) (length : xs.length = ys.length) (same : ofBits xs = ofBits ys) :
    xs = ys := by
  refine List.ext_getElem length fun j inside inside' => ?_
  have coefficient := congrArg (fun p => p.coeff (xs.length - 1 - j)) same
  have place : xs.length - 1 - (xs.length - 1 - j) = j := by omega
  simp only [ofBits,coeff_polynomial,← length] at coefficient
  rw [if_pos (by omega),if_pos (by omega),place,List.getD_eq_getElem _ _ inside,List.getD_eq_getElem _ _ inside']
    at coefficient
  exact bit_injective _ _ coefficient

/-- Messages whose difference is a burst no longer than the check word have different check words. -/
theorem crc_burst (constant : taps.getLsbD (w - 1) = true) (xs ys : List Bool) (length : xs.length = ys.length)
    (s : Nat) (burst : ∀ j, xs.getD j false ≠ ys.getD j false → s ≤ j ∧ j < s + w)
    (same : crc (modulus taps) initial final xs = crc (modulus taps) initial final ys) : xs = ys := by
  obtain ⟨x,left⟩ := holds_some taps (X ^ xs.length * reflected initial + X ^ w * ofBits xs)
  obtain ⟨y,right⟩ := holds_some taps (X ^ ys.length * reflected initial + X ^ w * ofBits ys)
  rw [crc_held taps initial final xs x left,crc_held taps initial final ys y right] at same
  obtain rfl := (BitVec.xor_left_inj final).mp same
  have divides : modulus taps ∣ X ^ w * (ofBits xs - ofBits ys) := by
    have both := dvd_sub left right
    rw [length] at both
    convert both using 1
    ring
  have difference := (modulus_coprime taps constant w).dvd_of_dvd_mul_left divides
  obtain ⟨q,shape,small⟩ := window_factor (ofBits xs - ofBits ys) (xs.length - (s + w)) w (by
    intro k outside
    rw [coeff_sub,ofBits,ofBits,coeff_polynomial,coeff_polynomial,← length]
    by_cases inside : k < xs.length
    · rw [if_pos inside,if_pos inside,sub_eq_zero]
      by_contra apart
      have within := burst (xs.length - 1 - k) fun equal => apart (congrArg bit equal)
      omega
    · rw [if_neg inside,if_neg inside,sub_zero])
  rw [shape] at difference
  have factor := (modulus_coprime taps constant _).dvd_of_dvd_mul_left difference
  have zero : q = 0 := by
    by_contra nonzero
    have large := degree_le_of_dvd factor nonzero
    rw [modulus_degree] at large
    exact absurd small (not_lt.mpr large)
  rw [zero,mul_zero,sub_eq_zero] at shape
  exact ofBits_injective xs ys length shape

end Crc

end BlackOS.Library.Gf2
