import Mathlib.Data.List.Infix

/-! Lists cut into components at a separator, and the order in which one list is under
another when its components start with the other's. -/
namespace BlackOS.Library.Separated

variable {α : Type} [DecidableEq α] (sep : α)

/-- The components of `b` start with those of `a`. -/
def Under (a b : List α) : Prop := a.splitOn sep <+: b.splitOn sep

instance (a b : List α) : Decidable (Under sep a b) := inferInstanceAs (Decidable (_ <+: _))

theorem splitOn_injective (a b : List α) (same : a.splitOn sep = b.splitOn sep) : a = b := by
  have joined := congrArg (List.intercalate [sep]) same
  rwa [List.intercalate_splitOn,List.intercalate_splitOn] at joined

theorem mem_of_mem_splitOn (l part : List α) (listed : part ∈ l.splitOn sep) (a : α) (inside : a ∈ part) : a ∈ l := by
  induction size : l.length using Nat.strong_induction_on generalizing l with
  | _ n ih =>
    by_cases separated : sep ∈ l
    · obtain ⟨before,after,shape,absent⟩ := List.eq_append_cons_of_mem separated
      rw [shape,List.length_append,List.length_cons] at size
      rw [shape,List.splitOn_append_cons_self_of_not_mem absent] at listed
      rw [shape]
      rcases List.mem_cons.mp listed with first | later
      · rw [first] at inside
        exact List.mem_append_left _ inside
      · exact List.mem_append_right _ (List.mem_cons_of_mem _ (ih after.length (by omega) after later rfl))
    · rw [List.splitOn_eq_singleton separated] at listed
      rw [List.mem_singleton.mp listed] at inside
      exact inside

theorem under_refl (a : List α) : Under sep a a := List.prefix_refl _

theorem under_trans (a b c : List α) (first : Under sep a b) (second : Under sep b c) : Under sep a c :=
  List.IsPrefix.trans first second

/-- Two lists that a third is under are under one another. -/
theorem under_linear (a b c : List α) (left : Under sep a c) (right : Under sep b c) :
    Under sep a b ∨ Under sep b a :=
  List.prefix_or_prefix_of_prefix left right

theorem under_depth (a b : List α) (under : Under sep a b) :
    (a.splitOn sep).length ≤ (b.splitOn sep).length := List.IsPrefix.length_le under

/-- A list that is under another with as many components is the other. -/
theorem under_eq (a b : List α) (under : Under sep a b)
    (deep : (b.splitOn sep).length ≤ (a.splitOn sep).length) : a = b :=
  splitOn_injective sep a b (List.IsPrefix.eq_of_length_le under deep)

theorem under_append (a t : List α) : Under sep a (a ++ sep :: t) :=
  ⟨t.splitOn sep,(List.splitOn_append_cons_self a t).symm⟩

omit [DecidableEq α] in
theorem intercalate_append (parts more : List (List α)) (some_ : parts ≠ []) (rest : more ≠ []) :
    [sep].intercalate (parts ++ more) = [sep].intercalate parts ++ sep :: [sep].intercalate more := by
  induction parts with
  | nil => exact absurd rfl some_
  | cons head tail ih =>
    cases tail with
    | nil =>
      rw [List.singleton_append,List.intercalate_cons_of_ne_nil rest,List.intercalate_singleton,
        List.append_assoc,List.singleton_append]
    | cons next tail =>
      have filled := List.cons_ne_nil next tail
      rw [List.cons_append,List.intercalate_cons_of_ne_nil (List.append_ne_nil_of_left_ne_nil filled _),
        ih filled,List.intercalate_cons_of_ne_nil filled]
      simp only [List.append_assoc]

/-- Under another is the other itself, or the other followed by the separator. -/
theorem under_iff (a b : List α) : Under sep a b ↔ b = a ∨ ∃ t, b = a ++ sep :: t := by
  refine ⟨fun under => ?_,fun shape => ?_⟩
  · obtain ⟨more,parts⟩ := under
    cases more with
    | nil =>
      rw [List.append_nil] at parts
      exact .inl (splitOn_injective sep a b parts).symm
    | cons head tail =>
      right
      refine ⟨List.intercalate [sep] (head :: tail),?_⟩
      have joined := congrArg (List.intercalate [sep]) parts
      rw [intercalate_append sep _ _ (List.splitOn_ne_nil _ _) (List.cons_ne_nil _ _),List.intercalate_splitOn,
        List.intercalate_splitOn] at joined
      exact joined.symm
  · rcases shape with same | ⟨t,rfl⟩
    · rw [same]
      exact under_refl sep a
    · exact under_append sep a t

end BlackOS.Library.Separated
