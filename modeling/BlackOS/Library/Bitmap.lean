import Mathlib.Data.BitVec
import Mathlib.Data.Finset.Card
import Mathlib.Tactic.Common

/-! Bitmaps stored in fixed-width words: single bits, their updates, and the number
of clear bits below a bound. -/
namespace BlackOS.Library.Bitmap

variable {w : Nat}

abbrev Bits (w : Nat) := Nat → BitVec w

def isSet (b : Bits w) (f : Nat) : Bool := (b (f / w)).getLsbD (f % w)

def set (b : Bits w) (f : Nat) : Bits w :=
  fun i => if i = f / w then b i ||| 1#w <<< (f % w) else b i

def clear (b : Bits w) (f : Nat) : Bits w :=
  fun i => if i = f / w then b i &&& ~~~(1#w <<< (f % w)) else b i

private theorem oneBit (positive : 0 < w) (j k : Nat) (inside : j < w) :
    (1#w <<< k).getLsbD j = decide (j = k) := by
  rw [BitVec.getLsbD_shiftLeft,BitVec.getLsbD_one]
  by_cases same : j = k
  · simp [same,positive,same ▸ inside]
  · simp [same,inside]
    omega

private theorem same_place (f g : Nat) :
    g = f ↔ g / w = f / w ∧ g % w = f % w := by
  constructor
  · intro equal
    rw [equal]
    exact ⟨rfl,rfl⟩
  · intro both
    rw [← Nat.div_add_mod g w,← Nat.div_add_mod f w,both.1,both.2]

theorem isSet_set (positive : 0 < w) (b : Bits w) (f g : Nat) :
    isSet (set b f) g = (isSet b g || decide (g = f)) := by
  have place := same_place (w := w) f g
  have inside := Nat.mod_lt g positive
  unfold isSet set
  by_cases here : g / w = f / w
  · rw [if_pos here,BitVec.getLsbD_or,oneBit positive _ _ inside]
    simp only [place,here,true_and]
  · rw [if_neg here]
    simp only [place,here,false_and,decide_false,Bool.or_false]

theorem isSet_clear (positive : 0 < w) (b : Bits w) (f g : Nat) :
    isSet (clear b f) g = (isSet b g && !decide (g = f)) := by
  have place := same_place (w := w) f g
  have inside := Nat.mod_lt g positive
  unfold isSet clear
  by_cases here : g / w = f / w
  · rw [if_pos here,BitVec.getLsbD_and,BitVec.getLsbD_not,oneBit positive _ _ inside]
    simp only [place,here,true_and,inside,decide_true,Bool.true_and]
  · rw [if_neg here]
    simp only [place,here,false_and,decide_false,Bool.not_false,Bool.and_true]

/-- Bitmaps with the same bits are the same words. -/
theorem ext_isSet (positive : 0 < w) (b b' : Bits w) (same : ∀ f, isSet b f = isSet b' f) : b = b' := by
  funext i
  apply BitVec.eq_of_getLsbD_eq
  intro j inside
  have bit := same (w * i + j)
  rw [isSet,isSet,Nat.mul_add_div positive,Nat.mul_add_mod,Nat.div_eq_of_lt inside,
    Nat.mod_eq_of_lt inside,Nat.add_zero] at bit
  exact bit

theorem mask_eq_zero (positive : 0 < w) (x : BitVec w) (j : Nat) (inside : j < w) :
    x &&& 1#w <<< j = 0 ↔ x.getLsbD j = false := by
  constructor
  · intro zero
    have bit := congrArg (fun y => y.getLsbD j) zero
    simpa [oneBit positive j j inside] using bit
  · intro off
    apply BitVec.eq_of_getLsbD_eq
    intro i low
    rw [BitVec.getLsbD_and,oneBit positive i j low]
    by_cases same : i = j
    · simp [same,off]
    · simp [same]

def clearBits (n : Nat) (b : Bits w) : Finset Nat := (Finset.range n).filter (fun f => isSet b f = false)

/-- Bits of one bitmap that are the only difference to another account for the
difference of their clear bits. -/
theorem card_clearBits (n : Nat) (b b' : Bits w) (s : Finset Nat) (inside : ∀ f ∈ s, f < n)
    (wasClear : ∀ f ∈ s, isSet b f = false) (nowSet : ∀ f ∈ s, isSet b' f = true)
    (same : ∀ f, f ∉ s → isSet b' f = isSet b f) :
    (clearBits n b).card = (clearBits n b').card + s.card := by
  have split : clearBits n b = clearBits n b' ∪ s := by
    ext f
    simp only [clearBits,Finset.mem_union,Finset.mem_filter,Finset.mem_range]
    by_cases member : f ∈ s
    · simp [member,inside f member,wasClear f member]
    · simp [member,same f member]
  have apart : Disjoint (clearBits n b') s := by
    rw [Finset.disjoint_left]
    intro f isClear member
    simp [clearBits,nowSet f member] at isClear
  rw [split,Finset.card_union_of_disjoint apart]

end BlackOS.Library.Bitmap
