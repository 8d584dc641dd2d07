import BlackOS.Library.Run
import Mathlib.Data.List.Basic
import Mathlib.Data.Set.Basic

/-! Pieces laid one after the other over a paged view of memory. A piece first takes its
pages, which then hold leftover values, and then writes its own values. -/
namespace BlackOS.Library.Overlay
open BlackOS.Library.Run

variable {A P B : Type} (page : A → P) (leftover : B → Prop)

structure Piece (A P B : Type) where
  pages : Set P
  bytes : A → Option B

/-- The piece can be written once its pages are taken, and what the view is then. -/
structure Lays (before : A → Option B) (x : Piece A P B) (after : A → Option B) : Prop where
  reached : ∀ a b, x.bytes a = some b → page a ∈ x.pages ∨ before a ≠ none
  written : ∀ a b, x.bytes a = some b → after a = some b
  taken : ∀ a, x.bytes a = none → page a ∈ x.pages → ∃ b, leftover b ∧ after a = some b
  kept : ∀ a, x.bytes a = none → page a ∉ x.pages → after a = before a

def Apart (x y : Piece A P B) : Prop := ∀ a b, x.bytes a = some b → y.bytes a = none

/-- The later piece takes no page that holds a value of the earlier one. -/
def Spares (x y : Piece A P B) : Prop := ∀ a b, x.bytes a = some b → page a ∉ y.pages

/-- Every place of a piece is on a page that the piece or an earlier one takes, or is
there from the start. -/
def Reached (first : A → Option B) (pieces : List (Piece A P B)) : Prop :=
  ∀ before x after, pieces = before ++ x::after → ∀ a b, x.bytes a = some b →
    first a ≠ none ∨ ∃ y ∈ before ++ [x], page a ∈ y.pages

variable {page} {leftover} {first last : A → Option B} {pieces : List (Piece A P B)}

theorem lays_present (before after : A → Option B) (x : Piece A P B)
    (lays : Lays page leftover before x after) (a : A) :
    after a ≠ none ↔ before a ≠ none ∨ page a ∈ x.pages := by
  cases value : x.bytes a with
  | some b =>
    have reached := lays.reached a b value
    rw [lays.written a b value]
    exact iff_of_true (Option.some_ne_none b) reached.symm
  | none =>
    by_cases member : page a ∈ x.pages
    · obtain ⟨b,_,stale⟩ := lays.taken a value member
      rw [stale]
      exact iff_of_true (Option.some_ne_none b) (.inr member)
    · rw [lays.kept a value member]
      exact ⟨.inl,fun either => either.resolve_right member⟩

theorem run_present (run : Steps (Lays page leftover) first pieces last) (a : A) :
    last a ≠ none ↔ first a ≠ none ∨ ∃ x ∈ pieces, page a ∈ x.pages := by
  induction run with
  | nil => simp
  | snoc pieces x middle last before step ih =>
    rw [lays_present middle last x step a,ih]
    simp only [List.mem_append,List.mem_singleton]
    constructor
    · intro present
      rcases present with (old | ⟨y,member,taken⟩) | taken
      · exact .inl old
      · exact .inr ⟨y,.inl member,taken⟩
      · exact .inr ⟨x,.inr rfl,taken⟩
    · intro present
      rcases present with old | ⟨y,member | same,taken⟩
      · exact .inl (.inl old)
      · exact .inl (.inr ⟨y,member,taken⟩)
      · subst same
        exact .inr taken

theorem run_reached (run : Steps (Lays page leftover) first pieces last) :
    Reached page first pieces := by
  induction run with
  | nil =>
    intro before x after split
    simp at split
  | snoc pieces z middle last run step ih =>
    intro before x after split a b value
    rcases List.eq_nil_or_concat after with rfl | ⟨rest,y,rfl⟩
    · obtain ⟨same,final⟩ := List.append_inj' split rfl
      obtain rfl : z = x := by simpa using final
      rcases step.reached a b value with here | there
      · exact .inr ⟨z,by simp,here⟩
      · rcases (run_present run a).mp there with old | ⟨y,member,taken⟩
        · exact .inl old
        · exact .inr ⟨y,by simp [← same,member],taken⟩
    · have shorter : pieces = before ++ x::rest := by
        rw [List.concat_eq_append,← List.cons_append,← List.append_assoc] at split
        exact (List.append_inj' split rfl).1
      exact ih before x rest shorter a b value

/-- If no later piece takes a page of an earlier one, every piece is in place at the end. -/
theorem run_faithful (run : Steps (Lays page leftover) first pieces last)
    (apart : pieces.Pairwise Apart) (spared : pieces.Pairwise (Spares page)) :
    ∀ x ∈ pieces, ∀ a b, x.bytes a = some b → last a = some b := by
  induction run with
  | nil =>
    intro x member
    exact absurd member List.not_mem_nil
  | snoc pieces z middle last run step ih =>
    rw [List.pairwise_append] at apart spared
    intro x member a b value
    rcases List.mem_append.mp member with earlier | final
    · have elsewhere := apart.2.2 x earlier z (List.mem_singleton_self z) a b value
      have untouched := spared.2.2 x earlier z (List.mem_singleton_self z) a b value
      rw [step.kept a elsewhere untouched]
      exact ih apart.1 spared.1 x earlier a b value
    · rw [List.mem_singleton.mp final] at value
      exact step.written a b value

/-- A value on a page that a later piece takes is lost. -/
theorem run_lost (run : Steps (Lays page leftover) first pieces last)
    (apart : pieces.Pairwise Apart) (x y : Piece A P B) (order : [x,y].Sublist pieces) (a : A) (b : B)
    (value : x.bytes a = some b) (taken : page a ∈ y.pages) :
    ∃ c, leftover c ∧ last a = some c := by
  induction run with
  | nil => exact absurd order (by simp)
  | snoc pieces z middle last run step ih =>
    rw [List.pairwise_append] at apart
    obtain ⟨left,right,split,before,final⟩ := List.sublist_append_iff.mp order
    have earlier : x ∈ pieces → z.bytes a = none :=
      fun member => apart.2.2 x member z (List.mem_singleton_self z) a b value
    rcases List.sublist_singleton.mp final with rfl | rfl
    · rw [List.append_nil] at split
      subst split
      have none := earlier (before.subset (by simp))
      obtain ⟨c,stale,found⟩ := ih apart.1 before
      by_cases again : page a ∈ z.pages
      · exact step.taken a none again
      · rw [step.kept a none again]
        exact ⟨c,stale,found⟩
    · have joined : [x] ++ [y] = left ++ [z] := split
      obtain ⟨rfl,same⟩ := List.append_inj' joined rfl
      obtain rfl : y = z := by simpa using same
      exact step.taken a (earlier (before.subset (by simp))) taken

end BlackOS.Library.Overlay
