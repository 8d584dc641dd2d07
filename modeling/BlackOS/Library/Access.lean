import Mathlib.Logic.Function.Basic
import Mathlib.Tactic.Common

/-! Computations that load and store values at addresses. Over a flat memory each of them has a result; a machine
that backs a region of such a memory runs the ones that stay in the region to the same results. -/
namespace BlackOS.Library.Access

inductive Program (A V α : Type)
  | done (result : α)
  | load (place : A) (next : V → Program A V α)
  | store (place : A) (value : V) (next : Program A V α)

variable {A V S α β : Type}

def Program.bind : Program A V α → (α → Program A V β) → Program A V β
  | .done result,then_ => then_ result
  | .load place next,then_ => .load place fun v => (next v).bind then_
  | .store place value next,then_ => .store place value (next.bind then_)

instance : Monad (Program A V) where
  pure := .done
  bind := .bind

def load (place : A) : Program A V V := .load place .done

def store (place : A) (value : V) : Program A V Unit := .store place value (.done ())

/-- The result over a flat memory, and the memory that is left. -/
def eval [DecidableEq A] : Program A V α → (A → V) → α × (A → V)
  | .done result,m => (result,m)
  | .load place next,m => eval (next (m place)) m
  | .store place value next,m => eval next (Function.update m place value)

/-- The run on a machine, whose accesses may fail. -/
def exec (fetch : S → A → Option V) (put : S → A → V → Option S) : Program A V α → S → Option (α × S)
  | .done result,s => some (result,s)
  | .load place next,s => (fetch s place).bind fun v => exec fetch put (next v) s
  | .store place value next,s => (put s place value).bind fun s' => exec fetch put next s'

/-- Over the flat memory every access is to the region. -/
def Within [DecidableEq A] (region : A → Prop) : Program A V α → (A → V) → Prop
  | .done _,_ => True
  | .load place next,m => region place ∧ Within region (next (m place)) m
  | .store place value next,m => region place ∧ Within region next (Function.update m place value)

/-- States of a machine that stand for flat memories, as far as the region can tell. -/
structure Backs [DecidableEq A] (fetch : S → A → Option V) (put : S → A → V → Option S) (region : A → Prop)
    (Holds : S → (A → V) → Prop) : Prop where
  load : ∀ s m a, Holds s m → region a → fetch s a = some (m a)
  store : ∀ s m a v, Holds s m → region a → ∃ s', put s a v = some s' ∧ Holds s' (Function.update m a v)

section Flat
variable [DecidableEq A] (m : A → V)

@[simp] theorem eval_pure (a : α) : eval (pure a : Program A V α) m = (a,m) := by
  simp only [pure,eval]

@[simp] theorem eval_load (a : A) : eval (load a) m = (m a,m) := by
  simp only [load,eval]

@[simp] theorem eval_store (a : A) (v : V) : eval (store a v) m = ((),Function.update m a v) := by
  simp only [store,eval]

@[simp] theorem eval_bind (p : Program A V α) (k : α → Program A V β) :
    eval (p >>= k) m = eval (k (eval p m).1) (eval p m).2 := by
  change eval (p.bind k) m = _
  induction p generalizing m with
  | done result => rfl
  | load place next ih => exact ih (m place) m
  | store place value next ih => exact ih (Function.update m place value)

variable (region : A → Prop)

@[simp] theorem within_pure (a : α) : Within region (pure a : Program A V α) m := trivial

@[simp] theorem within_load (a : A) : Within region (load a) m ↔ region a := by
  simp [Within,load]

@[simp] theorem within_store (a : A) (v : V) : Within region (store a v) m ↔ region a := by
  simp [Within,store]

@[simp] theorem within_bind (p : Program A V α) (k : α → Program A V β) :
    Within region (p >>= k) m ↔ Within region p m ∧ Within region (k (eval p m).1) (eval p m).2 := by
  change Within region (p.bind k) m ↔ _
  induction p generalizing m with
  | done result => simp [Within,eval,Program.bind]
  | load place next ih => simp only [Program.bind,Within,eval,ih,and_assoc]
  | store place value next ih => simp only [Program.bind,Within,eval,ih,and_assoc]

end Flat

/-- A run that stays in the region has the result of the flat memory. -/
theorem Backs.exec_eval [DecidableEq A] {fetch : S → A → Option V} {put : S → A → V → Option S} {region : A → Prop}
    {Holds : S → (A → V) → Prop} (backs : Backs fetch put region Holds) (p : Program A V α) (s : S) (m : A → V)
    (held : Holds s m) (within : Within region p m) :
    ∃ s', exec fetch put p s = some ((eval p m).1,s') ∧ Holds s' (eval p m).2 := by
  induction p generalizing s m with
  | done result => exact ⟨s,rfl,held⟩
  | load place next ih =>
    obtain ⟨inside,rest⟩ := within
    obtain ⟨s',done,held'⟩ := ih (m place) s m held rest
    refine ⟨s',?_,held'⟩
    rw [exec,backs.load s m place held inside,Option.bind_some]
    exact done
  | store place value next ih =>
    obtain ⟨inside,rest⟩ := within
    obtain ⟨s₁,stored,held₁⟩ := backs.store s m place value held inside
    obtain ⟨s',done,held'⟩ := ih s₁ _ held₁ rest
    refine ⟨s',?_,held'⟩
    rw [exec,stored,Option.bind_some]
    exact done

end BlackOS.Library.Access
