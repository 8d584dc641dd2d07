import Mathlib.Algebra.Order.BigOperators.Group.Finset
import Mathlib.Tactic.Common

/-! Queues threaded through one link field: the elements hold the link to the one
behind them, and a family of queues shares the field. An element is in at most one
queue when its occurrences over the family are at most one. -/
namespace BlackOS.Library.Linked

variable {Node Index : Type}

/-- Following the links from `start` visits exactly the nodes of the list. -/
def Visits (next : Node → Option Node) : Option Node → List Node → Prop
  | start,[] => start = none
  | start,n::ns => start = some n ∧ Visits next (next n) ns

theorem visits_congr (next next' : Node → Option Node) (ns : List Node)
    (same : ∀ n ∈ ns, next' n = next n) (start : Option Node) (visits : Visits next start ns) :
    Visits next' start ns := by
  induction ns generalizing start with
  | nil => exact visits
  | cons n ns ih =>
    obtain ⟨here,rest⟩ := visits
    refine ⟨here,?_⟩
    rw [same n (by simp)]
    exact ih (fun x member => same x (by simp [member])) _ rest

theorem visits_snoc (next next' : Node → Option Node) (ns : List Node) (last n : Node)
    (atEnd : ns.getLast? = some last) (nodup : ns.Nodup) (link : next' last = some n) (ends : next' n = none)
    (same : ∀ x ∈ ns, x ≠ last → next' x = next x) (start : Option Node) (visits : Visits next start ns) :
    Visits next' start (ns ++ [n]) := by
  induction ns generalizing start with
  | nil => cases atEnd
  | cons x xs ih =>
    obtain ⟨here,rest⟩ := visits
    obtain ⟨notLater,nodup⟩ := List.nodup_cons.mp nodup
    refine ⟨here,?_⟩
    cases xs with
    | nil =>
      have isLast : x = last := by simpa using atEnd
      rw [isLast,link]
      exact ⟨rfl,ends⟩
    | cons y ys =>
      have later : (y::ys).getLast? = some last := by simpa using atEnd
      have other : x ≠ last := by
        intro equal
        exact notLater (equal ▸ List.mem_of_getLast? later)
      rw [same x (by simp) other]
      exact ih later nodup (fun z member => same z (by simp [member])) _ rest

variable [DecidableEq Node] [Fintype Index]

/-- How often a node occurs in the queues of a family. -/
def occurrences (q : Index → List Node) (n : Node) : Nat := ∑ i, (q i).count n

theorem occurrences_zero (q : Index → List Node) (n : Node) :
    occurrences q n = 0 ↔ ∀ i, n ∉ q i := by
  simp [occurrences,List.count_eq_zero]

theorem occurrences_update [DecidableEq Index] (q : Index → List Node) (i : Index) (ns : List Node) (n : Node) :
    occurrences (Function.update q i ns) n + (q i).count n = occurrences q n + ns.count n := by
  unfold occurrences
  rw [← Finset.add_sum_erase _ _ (Finset.mem_univ i),
    ← Finset.add_sum_erase _ (fun i => (q i).count n) (Finset.mem_univ i)]
  have rest : ∑ j ∈ Finset.univ.erase i, (Function.update q i ns j).count n =
      ∑ j ∈ Finset.univ.erase i, (q j).count n := by
    apply Finset.sum_congr rfl
    intro j member
    rw [Function.update_of_ne (Finset.ne_of_mem_erase member)]
  rw [rest,Function.update_self]
  omega

theorem count_le_occurrences (q : Index → List Node) (i : Index) (n : Node) :
    (q i).count n ≤ occurrences q n :=
  Finset.single_le_sum (f := fun i => (q i).count n) (fun _ _ => Nat.zero_le _) (Finset.mem_univ i)

theorem occurrences_unique [DecidableEq Index] (q : Index → List Node) (n : Node) (once : occurrences q n ≤ 1) (i j : Index)
    (left : n ∈ q i) (right : n ∈ q j) : i = j := by
  by_contra distinct
  have first := List.count_pos_iff.mpr left
  have second := List.count_pos_iff.mpr right
  unfold occurrences at once
  rw [← Finset.add_sum_erase _ _ (Finset.mem_univ i)] at once
  have other := Finset.single_le_sum (f := fun i => (q i).count n) (fun _ _ => Nat.zero_le _)
    (Finset.mem_erase.mpr ⟨Ne.symm distinct,Finset.mem_univ j⟩)
  omega

end BlackOS.Library.Linked
