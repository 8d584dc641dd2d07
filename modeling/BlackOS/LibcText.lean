import BlackOS.Library.Ram

/-! The string routines of `libc/string/string.c`. A string is the bytes before its
terminating zero, so that no byte of it is zero and reading past the bytes gives zero. -/
namespace BlackOS.LibcText
open BlackOS.Library.Ram

@[ext] structure Text where
  bytes : List Byte
  terminated : 0 ∉ bytes
  deriving DecidableEq

theorem nil_terminated : (0 : Byte) ∉ ([] : List Byte) := List.not_mem_nil

theorem slash_terminated : (0 : Byte) ∉ ([0x2F] : List Byte) := by decide

theorem Text.take_terminated (t : Text) (n : Nat) : 0 ∉ t.bytes.take n := fun zero =>
  t.terminated (List.mem_of_mem_take zero)

/-- `strcmp`, on what is left of the two strings. -/
def strcmp : List Byte → List Byte → Int
  | [],[] => 0
  | [],y::_ => 0 - y.toNat
  | x::_,[] => x.toNat - 0
  | x::a,y::b => if x = y then strcmp a b else x.toNat - y.toNat

def strncmp : List Byte → List Byte → Nat → Int
  | _,_,0 => 0
  | [],[],_+1 => 0
  | [],y::_,_+1 => 0 - y.toNat
  | x::_,[],_+1 => x.toNat - 0
  | x::a,y::b,n+1 => if x = y then strncmp a b n else x.toNat - y.toNat

/-- `strncpy` into a buffer of zeros that is longer than `n`. -/
def strncpy (src : Text) (n : Nat) : Text where
  bytes := src.bytes.take n
  terminated := fun zero => src.terminated (List.mem_of_mem_take zero)

/-- `strchr`: what stands before the first `c`, and what after it. -/
def strchr : List Byte → Byte → Option (List Byte × List Byte)
  | [],_ => none
  | x::s,c => if x = c then some ([],s) else (strchr s c).map fun found => (x :: found.1,found.2)

/-- `strrchr` of a byte that is not zero: what stands before the last `c`, and what after it. -/
def strrchr : List Byte → Byte → Option (List Byte × List Byte)
  | [],_ => none
  | x::s,c =>
    match strrchr s c with
    | some (before,after) => some (x::before,after)
    | none => if x = c then some ([],s) else none

/-- What stands behind a byte of a string is without a zero too. -/
theorem Text.behind (t : Text) (before rest : List Byte) (x : Byte) (shape : t.bytes = before ++ x :: rest) : 0 ∉ rest := by
  intro zero
  refine t.terminated ?_
  rw [shape]
  exact List.mem_append_right before (List.mem_cons_of_mem x zero)

theorem byte_positive (x : Byte) (nonzero : x ≠ 0) : (x.toNat : Int) ≠ 0 := by
  intro zero
  exact nonzero (BitVec.eq_of_toNat_eq (Int.ofNat_eq_zero.mp zero))

theorem strcmp_zero (a b : List Byte) (left : 0 ∉ a) (right : 0 ∉ b) : strcmp a b = 0 ↔ a = b := by
  induction a generalizing b with
  | nil =>
    cases b with
    | nil => exact ⟨fun _ => rfl,fun _ => rfl⟩
    | cons y b =>
      have nonzero := byte_positive y fun zero => right (zero ▸ List.mem_cons_self)
      rw [strcmp]
      refine ⟨fun same => absurd same (by omega),nofun⟩
  | cons x a ih =>
    cases b with
    | nil =>
      have nonzero := byte_positive x fun zero => left (zero ▸ List.mem_cons_self)
      rw [strcmp]
      refine ⟨fun same => absurd same (by omega),nofun⟩
    | cons y b =>
      rw [strcmp]
      by_cases same : x = y
      · rw [if_pos same,ih b (fun zero => left (List.mem_cons_of_mem _ zero))
          fun zero => right (List.mem_cons_of_mem _ zero),same]
        exact ⟨fun equal => by rw [equal],fun equal => (List.cons.inj equal).2⟩
      · rw [if_neg same]
        refine ⟨fun zero => absurd (BitVec.eq_of_toNat_eq ?_) same,fun equal => absurd (List.cons.inj equal).1 same⟩
        omega

/-- Comparing as many bytes as the second string has compares with its start. -/
theorem strncmp_zero (a b : List Byte) (right : 0 ∉ b) : strncmp a b b.length = 0 ↔ b <+: a := by
  induction b generalizing a with
  | nil => exact ⟨fun _ => List.nil_prefix,fun _ => by cases a <;> rfl⟩
  | cons y b ih =>
    cases a with
    | nil =>
      have nonzero := byte_positive y fun zero => right (zero ▸ List.mem_cons_self)
      rw [List.length_cons,strncmp]
      refine ⟨fun same => absurd same (by omega),fun short => absurd (List.prefix_nil.mp short) nofun⟩
    | cons x a =>
      rw [List.length_cons,strncmp]
      by_cases same : x = y
      · rw [if_pos same,ih a fun zero => right (List.mem_cons_of_mem _ zero),same,List.prefix_cons_inj]
      · rw [if_neg same]
        refine ⟨fun zero => absurd (BitVec.eq_of_toNat_eq ?_) same,fun start => ?_⟩
        · omega
        · exact absurd (List.cons_prefix_cons.mp start).1.symm same

theorem strchr_none (s : List Byte) (c : Byte) : strchr s c = none ↔ c ∉ s := by
  induction s with
  | nil => exact ⟨fun _ => nofun,fun _ => rfl⟩
  | cons x s ih =>
    rw [strchr]
    by_cases here : x = c
    · rw [if_pos here,here]
      exact ⟨nofun,fun absent => absurd List.mem_cons_self absent⟩
    · rw [if_neg here,Option.map_eq_none_iff,ih,List.mem_cons]
      refine ⟨fun absent either => ?_,fun absent there => absent (.inr there)⟩
      rcases either with first | later
      · exact here first.symm
      · exact absent later

theorem strchr_some (s : List Byte) (c : Byte) (before after : List Byte)
    (found : strchr s c = some (before,after)) : s = before ++ c :: after ∧ c ∉ before := by
  induction s generalizing before with
  | nil => cases found
  | cons x s ih =>
    rw [strchr] at found
    by_cases here : x = c
    · rw [if_pos here] at found
      obtain ⟨rfl,rfl⟩ := Prod.mk.inj (Option.some.inj found)
      exact ⟨by rw [here]; rfl,nofun⟩
    · rw [if_neg here] at found
      obtain ⟨⟨front,back⟩,later,same⟩ := Option.map_eq_some_iff.mp found
      obtain ⟨rfl,rfl⟩ := Prod.mk.inj same
      obtain ⟨shape,absent⟩ := ih front later
      refine ⟨by rw [shape]; rfl,fun there => ?_⟩
      rcases List.mem_cons.mp there with first | rest
      · exact here first.symm
      · exact absent rest

theorem strrchr_none (s : List Byte) (c : Byte) : strrchr s c = none ↔ c ∉ s := by
  induction s with
  | nil => exact ⟨fun _ => nofun,fun _ => rfl⟩
  | cons x s ih =>
    rw [strrchr,List.mem_cons,not_or,← ih]
    cases strrchr s c with
    | some found => exact iff_of_false nofun fun both => nomatch both.2
    | none =>
      dsimp only
      by_cases here : x = c
      · rw [if_pos here]
        exact iff_of_false nofun fun both => both.1 here.symm
      · rw [if_neg here]
        exact iff_of_true rfl ⟨fun same => here same.symm,rfl⟩

theorem strrchr_some (s : List Byte) (c : Byte) (before after : List Byte)
    (found : strrchr s c = some (before,after)) : s = before ++ c :: after ∧ c ∉ after := by
  induction s generalizing before with
  | nil => cases found
  | cons x s ih =>
    rw [strrchr] at found
    cases later : strrchr s c with
    | some cut =>
      rw [later] at found
      obtain ⟨rfl,rfl⟩ := Prod.mk.inj (Option.some.inj found)
      obtain ⟨shape,absent⟩ := ih cut.1 later
      exact ⟨congrArg (List.cons x) shape,absent⟩
    | none =>
      rw [later] at found
      obtain ⟨here,same⟩ := Option.ite_none_right_eq_some.mp found
      obtain ⟨rfl,rfl⟩ := Prod.mk.inj (Option.some.inj same)
      exact ⟨by rw [here]; rfl,(strrchr_none s c).mp later⟩

end BlackOS.LibcText
