import Mathlib.Data.List.Basic

/-! Computations that may fail and that log their effects. A failed computation keeps its
log. -/
namespace BlackOS.Library.Trace

structure Traced (E α : Type) where
  events : List E
  result : Option α

variable {E α β : Type}

def Traced.bind (x : Traced E α) (f : α → Traced E β) : Traced E β :=
  match x.result with
  | none => ⟨x.events,none⟩
  | some a => ⟨x.events ++ (f a).events,(f a).result⟩

instance : Monad (Traced E) where
  pure a := ⟨[],some a⟩
  bind := Traced.bind

/-- A computation without an effect. -/
def quiet (x : Option α) : Traced E α := ⟨[],x⟩

/-- A computation with one effect, which is logged even if it fails. -/
def logged (e : E) (x : Option α) : Traced E α := ⟨[e],x⟩

@[simp] theorem result_pure (a : α) : (pure a : Traced E α).result = some a := rfl

@[simp] theorem result_quiet (x : Option α) : (quiet x : Traced E α).result = x := rfl

@[simp] theorem result_logged (e : E) (x : Option α) : (logged e x).result = x := rfl

@[simp] theorem result_bind (x : Traced E α) (f : α → Traced E β) :
    (x >>= f).result = x.result.bind fun a => (f a).result := by
  obtain ⟨events,result⟩ := x
  cases result with
  | none => rfl
  | some a => rfl

theorem events_bind (x : Traced E α) (f : α → Traced E β) (a : α) (done : x.result = some a) :
    (x >>= f).events = x.events ++ (f a).events := by
  obtain ⟨events,result⟩ := x
  cases done
  rfl

/-- All effects are of a kind. -/
def Only (P : E → Prop) (x : Traced E α) : Prop := ∀ e ∈ x.events, P e

theorem only_pure (P : E → Prop) (a : α) : Only P (pure a) := fun _ member => absurd member List.not_mem_nil

theorem only_return (P : E → Prop) (a : α) : Only P (pure a) ↔ True := iff_true_intro (only_pure P a)

theorem only_ite (P : E → Prop) (c : Prop) [Decidable c] (x y : Traced E α) :
    Only P (if c then x else y) ↔ (c → Only P x) ∧ (¬c → Only P y) := by
  by_cases held : c
  · rw [if_pos held,forall_prop_of_true held]
    exact (and_iff_left fun refuted => absurd held refuted).symm
  · rw [if_neg held,forall_prop_of_true held]
    exact (and_iff_right fun asserted => absurd asserted held).symm

theorem only_quiet (P : E → Prop) (x : Option α) : Only P (quiet x) :=
  fun _ member => absurd member List.not_mem_nil

theorem only_logged (P : E → Prop) (e : E) (x : Option α) : Only P (logged e x) ↔ P e :=
  List.forall_mem_singleton

theorem only_bind (P : E → Prop) (x : Traced E α) (f : α → Traced E β) :
    Only P (x >>= f) ↔ Only P x ∧ ∀ a, x.result = some a → Only P (f a) := by
  obtain ⟨events,result⟩ := x
  cases result with
  | none =>
    refine ⟨fun only => ⟨only,fun a impossible => nomatch impossible⟩,fun both => both.1⟩
  | some a =>
    refine List.forall_mem_append.trans ⟨fun both => ⟨both.1,fun b same => ?_⟩,
      fun both => ⟨both.1,both.2 a rfl⟩⟩
    rw [← Option.some.inj same]
    exact both.2

theorem result_foldlM (f : β → α → Traced E β) (g : β → α → β) (items : List α)
    (same : ∀ b, ∀ a ∈ items, (f b a).result = some (g b a)) (b : β) :
    (items.foldlM f b).result = some (items.foldl g b) := by
  induction items generalizing b with
  | nil => rfl
  | cons a items ih =>
    rw [List.foldlM_cons,List.foldl_cons,result_bind,same b a List.mem_cons_self,Option.bind_some]
    exact ih (fun b c member => same b c (List.mem_cons_of_mem a member)) (g b a)

theorem only_foldlM (P : E → Prop) (f : β → α → Traced E β) (items : List α)
    (only : ∀ b, ∀ a ∈ items, Only P (f b a)) (b : β) : Only P (items.foldlM f b) := by
  induction items generalizing b with
  | nil => exact only_pure P b
  | cons a items ih =>
    rw [List.foldlM_cons,only_bind]
    refine ⟨only b a List.mem_cons_self,fun next _ => ?_⟩
    exact ih (fun b c member => only b c (List.mem_cons_of_mem a member)) next

/-- The effects of a fold whose steps always succeed, and whose effects are of a kind whatever comes before or not. -/
theorem only_foldlM_iff (P : E → Prop) (Q : α → Prop) (f : β → α → Traced E β) (items : List α)
    (succeeds : ∀ b, ∀ a ∈ items, (f b a).result.isSome) (step : ∀ b, ∀ a ∈ items, Only P (f b a) ↔ Q a) (b : β) :
    Only P (items.foldlM f b) ↔ ∀ a ∈ items, Q a := by
  induction items generalizing b with
  | nil => exact iff_of_true (only_pure P b) fun a member => absurd member List.not_mem_nil
  | cons a items ih =>
    obtain ⟨next,done⟩ := Option.isSome_iff_exists.mp (succeeds b a List.mem_cons_self)
    have rest := ih (fun b c member => succeeds b c (List.mem_cons_of_mem a member))
      (fun b c member => step b c (List.mem_cons_of_mem a member)) next
    rw [List.foldlM_cons,only_bind,step b a List.mem_cons_self,List.forall_mem_cons,← rest]
    refine and_congr_right fun _ => ⟨fun each => each next done,fun only c same => ?_⟩
    rw [← Option.some.inj (done.symm.trans same)]
    exact only

/-! Loops with fuel over a cursor: while a condition holds of the cursor, a round runs and the cursor advances. -/
section While
variable {γ : Type} (more : γ → Prop) [DecidablePred more] (advance : γ → γ) (round : γ → β → Traced E β)
  (walk : Nat → γ → β → Traced E β) (last : ∀ c b, walk 0 c b = quiet none)
  (next : ∀ fuel c b, walk (fuel + 1) c b = if more c then round c b >>= walk fuel (advance c) else pure b)
include last next

theorem result_while (plain : γ → β → Option β) (loop : Nat → γ → β → Option β) (ends : ∀ c b, loop 0 c b = none)
    (runs : ∀ fuel c b, loop (fuel + 1) c b = if more c then (plain c b).bind (loop fuel (advance c)) else some b)
    (same : ∀ c b, (round c b).result = plain c b) (fuel : Nat) (c : γ) (b : β) :
    (walk fuel c b).result = loop fuel c b := by
  induction fuel generalizing c b with
  | zero =>
    rw [last,ends]
    rfl
  | succ fuel ih =>
    rw [next,runs]
    by_cases onward : more c
    · rw [if_pos onward,if_pos onward,result_bind,same]
      exact congrArg _ (funext fun b => ih (advance c) b)
    · rw [if_neg onward,if_neg onward,result_pure]

theorem only_while (P : E → Prop) (only : ∀ c b, Only P (round c b)) (fuel : Nat) (c : γ) (b : β) :
    Only P (walk fuel c b) := by
  induction fuel generalizing c b with
  | zero =>
    rw [last]
    exact only_quiet P none
  | succ fuel ih =>
    rw [next,only_ite,only_bind]
    exact ⟨fun _ => ⟨only c b,fun b _ => ih (advance c) b⟩,fun _ => only_pure P b⟩

end While

end BlackOS.Library.Trace
