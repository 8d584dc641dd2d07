import BlackOS.Library.Ram
import BlackOS.Library.Bitmap

/-! The bitset of `rust/black_core`. An access to a word outside the array panics and has no result. -/
namespace BlackOS.Bitset
open BlackOS.Library.Ram BlackOS.Library.Bitmap

def words : Nat := 1024

/-- `black_bitset`. -/
structure State where
  bits : Bits 32
  size : Nat

section Calls
variable (bs : State)

def load (i : Nat) : Option Word := if i < words then some (bs.bits i) else none

def store (i : Nat) (word : Word) : Option State :=
  if i < words then some {bs with bits := Function.update bs.bits i word} else none

def blackBitsetInit (size : Nat) : Option State :=
  (List.range words).foldlM (fun bs i => store bs i 0) {bs with size := if 32768 < size then 32768 else size}

def blackBitsetSet (idx : Nat) : Option State :=
  if idx < bs.size then do
    let word ← load bs (idx / 32)
    store bs (idx / 32) (word ||| 1#32 <<< (idx % 32))
  else some bs

def blackBitsetClear (idx : Nat) : Option State :=
  if idx < bs.size then do
    let word ← load bs (idx / 32)
    store bs (idx / 32) (word &&& ~~~(1#32 <<< (idx % 32)))
  else some bs

def blackBitsetTest (idx : Nat) : Option Int :=
  if idx < bs.size then do
    let word ← load bs (idx / 32)
    return if word &&& 1#32 <<< (idx % 32) ≠ 0 then 1 else 0
  else some 0

/-- The loop of `black_bitset_first_free` from an index on. -/
def findFree : Nat → Nat → Option Int
  | 0,_ => some (-1)
  | left+1,i => do
    let bits ← load bs (i / 32)
    if bits &&& 1#32 <<< (i % 32) = 0 then return (word i).toInt else findFree left (i + 1)

def blackBitsetFirstFree : Option Int := findFree bs bs.size 0

end Calls

inductive Op
  | set (idx : Nat)
  | clear (idx : Nat)
  deriving DecidableEq

def Op.index : Op → Nat
  | .set idx => idx
  | .clear idx => idx

def step (bs : State) : Op → Option State
  | .set idx => blackBitsetSet bs idx
  | .clear idx => blackBitsetClear bs idx

/-- The last call about the index was a set. -/
def LastSet (ops : List Op) (i : Nat) : Prop := (ops.filter fun op => op.index = i).getLast? = some (.set i)

instance (ops : List Op) (i : Nat) : Decidable (LastSet ops i) := inferInstanceAs (Decidable (_ = _))

/-- A set of numbers below a bound. -/
def apply (n : Nat) (s : Finset Nat) : Op → Finset Nat
  | .set idx => if idx < n then insert idx s else s
  | .clear idx => s.erase idx

/-- The bits are those of the set. -/
structure Represents (bs : State) (n : Nat) (s : Finset Nat) : Prop where
  size : bs.size = n
  small : n ≤ 32768
  bits : ∀ i, i ∈ s ↔ i < n ∧ isSet bs.bits i = true

section Steps
variable (bs : State) (n : Nat) (s : Finset Nat) (represents : Represents bs n s)
include represents

theorem word_inside (i : Nat) (inside : i < n) : i < bs.size ∧ i / 32 < words := by
  have small := represents.small
  refine ⟨lt_of_lt_of_eq inside represents.size.symm,?_⟩
  unfold words
  omega

theorem load_inside (i : Nat) (inside : i < n) : load bs (i / 32) = some (bs.bits (i / 32)) :=
  if_pos (word_inside bs n s represents i inside).2

/-- A word of the array is loaded, changed and stored. -/
theorem change_inside (i : Nat) (inside : i < n) (change : Word → Word) :
    (do
      let word ← load bs (i / 32)
      store bs (i / 32) (change word)) =
      some {bs with bits := fun k => if k = i / 32 then change (bs.bits k) else bs.bits k} := by
  rw [load_inside bs n s represents i inside,Option.bind_eq_bind,Option.bind_some,store,
    if_pos (word_inside bs n s represents i inside).2]
  refine congrArg (fun bits => some {bs with bits := bits}) (funext fun k => ?_)
  rw [Function.update_apply]
  by_cases here : k = i / 32
  · rw [if_pos here,if_pos here,here]
  · rw [if_neg here,if_neg here]

theorem set_eq (i : Nat) (inside : i < n) : blackBitsetSet bs i = some {bs with bits := set bs.bits i} := by
  rw [blackBitsetSet,if_pos (word_inside bs n s represents i inside).1,change_inside bs n s represents i inside]
  rfl

theorem clear_eq (i : Nat) (inside : i < n) : blackBitsetClear bs i = some {bs with bits := clear bs.bits i} := by
  rw [blackBitsetClear,if_pos (word_inside bs n s represents i inside).1,
    change_inside bs n s represents i inside (· &&& ~~~(1#32 <<< (i % 32)))]
  rfl

/-- An index at or beyond the size changes nothing. -/
theorem step_beyond (op : Op) (beyond : n ≤ op.index) : step bs op = some bs := by
  have outside : ¬op.index < bs.size := by
    rw [represents.size]
    omega
  cases op with
  | set idx => exact if_neg outside
  | clear idx => exact if_neg outside

theorem step_represents (op : Op) : ∃ bs', step bs op = some bs' ∧ Represents bs' n (apply n s op) := by
  by_cases inside : op.index < n
  · cases op with
    | set idx =>
      have inside : idx < n := inside
      refine ⟨_,set_eq bs n s represents idx inside,represents.size,represents.small,fun i => ?_⟩
      rw [apply,if_pos inside,Finset.mem_insert,represents.bits,isSet_set (by decide),Bool.or_eq_true,
        decide_eq_true_iff]
      constructor
      · intro either
        rcases either with rfl | ⟨low,on⟩
        · exact ⟨inside,.inr rfl⟩
        · exact ⟨low,.inl on⟩
      · intro both
        obtain ⟨low,on | rfl⟩ := both
        · exact .inr ⟨low,on⟩
        · exact .inl rfl
    | clear idx =>
      have inside : idx < n := inside
      refine ⟨_,clear_eq bs n s represents idx inside,represents.size,represents.small,fun i => ?_⟩
      rw [apply,Finset.mem_erase,represents.bits,isSet_clear (by decide),Bool.and_eq_true,Bool.not_eq_true',
        decide_eq_false_iff_not]
      constructor
      · intro both
        exact ⟨both.2.1,both.2.2,both.1⟩
      · intro both
        exact ⟨both.2.2,both.1,both.2.1⟩
  · refine ⟨bs,step_beyond bs n s represents op (by omega),represents.size,represents.small,fun i => ?_⟩
    cases op with
    | set idx =>
      have outside : ¬idx < n := inside
      rw [apply,if_neg outside]
      exact represents.bits i
    | clear idx =>
      have absent : idx ∉ s := fun member => inside ((represents.bits idx).mp member).1
      rw [apply,Finset.erase_eq_of_notMem absent]
      exact represents.bits i

theorem test_eq (i : Nat) : blackBitsetTest bs i = some (if i ∈ s then 1 else 0) := by
  rw [blackBitsetTest,represents.size]
  by_cases inside : i < n
  · have mask := mask_eq_zero (by decide) (bs.bits (i / 32)) (i % 32) (Nat.mod_lt i (by decide))
    have member := represents.bits i
    rw [if_pos inside,load_inside bs n s represents i inside,Option.bind_eq_bind,Option.bind_some]
    by_cases on : isSet bs.bits i = true
    · have present : bs.bits (i / 32) &&& 1#32 <<< (i % 32) ≠ 0 := by
        rw [ne_eq,mask]
        exact ne_of_eq_of_ne on (by decide)
      rw [if_pos present,if_pos (member.mpr ⟨inside,on⟩)]
      rfl
    · have absent : ¬bs.bits (i / 32) &&& 1#32 <<< (i % 32) ≠ 0 := not_not_intro (mask.mpr (Bool.eq_false_iff.mpr on))
      rw [if_neg absent,if_neg (fun held => on (member.mp held).2)]
      rfl
  · rw [if_neg inside,if_neg (fun held => inside ((represents.bits i).mp held).1)]

/-- The search from an index on finds the least free one, or there is none. -/
theorem findFree_least (left : Nat) : ∀ i, i + left = n →
    (∃ f, f < n ∧ findFree bs left i = some (f : Int) ∧ f ∉ s ∧ ∀ j, i ≤ j → j < f → j ∈ s) ∨
      (findFree bs left i = some (-1) ∧ ∀ j, i ≤ j → j < n → j ∈ s) := by
  have small := represents.small
  induction left with
  | zero => exact fun i last => .inr ⟨rfl,fun j low high => by omega⟩
  | succ left ih =>
    intro i last
    have inside : i < n := by omega
    have mask := mask_eq_zero (by decide) (bs.bits (i / 32)) (i % 32) (Nat.mod_lt i (by decide))
    have member := represents.bits i
    rw [findFree,load_inside bs n s represents i inside,Option.bind_eq_bind,Option.bind_some]
    by_cases on : isSet bs.bits i = true
    · have taken : ¬bs.bits (i / 32) &&& 1#32 <<< (i % 32) = 0 := by
        rw [mask]
        exact ne_of_eq_of_ne on (by decide)
      rw [if_neg taken]
      have here := member.mpr ⟨inside,on⟩
      have each (j : Nat) (low : i ≤ j) (later : i + 1 ≤ j → j ∈ s) : j ∈ s := by
        by_cases first : j = i
        · rw [first]
          exact here
        · exact later (by omega)
      rcases ih (i + 1) (by omega) with ⟨f,low,found,free,earlier⟩ | ⟨none_,all⟩
      · exact .inl ⟨f,low,found,free,fun j above below => each j above fun past => earlier j past below⟩
      · exact .inr ⟨none_,fun j above below => each j above fun past => all j past below⟩
    · have value : (word i).toInt = i := by
        rw [BitVec.toInt_eq_toNat_of_lt (by rw [word_toNat i (by omega)]; omega),word_toNat i (by omega)]
      rw [if_pos (mask.mpr (Bool.eq_false_iff.mpr on)),value]
      exact .inl ⟨i,inside,rfl,fun held => on (member.mp held).2,fun j above below => by omega⟩

end Steps

theorem zeros_spec (count : Nat) (few : count ≤ words) (bs : State) :
    ∃ bs', (List.range count).foldlM (fun bs i => store bs i 0) bs = some bs' ∧ bs'.size = bs.size ∧
      ∀ i < count, bs'.bits i = 0 := by
  induction count with
  | zero => exact ⟨bs,rfl,rfl,fun i inside => by omega⟩
  | succ count ih =>
    obtain ⟨bs₁,zeroed,size,zero⟩ := ih (by omega)
    refine ⟨{bs₁ with bits := Function.update bs₁.bits count 0},?_,size,fun i inside => ?_⟩
    · rw [List.range_succ,List.foldlM_append,zeroed,Option.bind_eq_bind,Option.bind_some,List.foldlM_cons,store,
        if_pos (by omega)]
      rfl
    · change Function.update bs₁.bits count 0 i = 0
      rw [Function.update_apply]
      by_cases last : i = count
      · rw [if_pos last]
      · rw [if_neg last]
        exact zero i (by omega)

theorem init_represents (bs : State) (size : Nat) :
    ∃ start, blackBitsetInit bs size = some start ∧ Represents start (min size 32768) ∅ := by
  obtain ⟨start,done,kept,zero⟩ := zeros_spec words (Nat.le_refl _)
    {bs with size := if 32768 < size then 32768 else size}
  refine ⟨start,done,?_,Nat.min_le_right _ _,fun i => ?_⟩
  · rw [kept]
    by_cases large : 32768 < size
    · rw [if_pos large,Nat.min_eq_right (by omega)]
    · rw [if_neg large,Nat.min_eq_left (by omega)]
  · refine iff_of_false (Finset.notMem_empty i) fun both => ?_
    obtain ⟨low,on⟩ := both
    have inside : i / 32 < words := by
      unfold words
      omega
    rw [isSet,zero _ inside] at on
    exact absurd on (by simp)

theorem run_represents (n : Nat) (ops : List Op) : ∀ (bs : State) (s : Finset Nat), Represents bs n s →
    ∃ bs', ops.foldlM step bs = some bs' ∧ Represents bs' n (ops.foldl (apply n) s) := by
  induction ops with
  | nil => exact fun bs s represents => ⟨bs,rfl,represents⟩
  | cons op ops ih =>
    intro bs s represents
    obtain ⟨bs₁,first,kept⟩ := step_represents bs n s represents op
    obtain ⟨bs',rest,final⟩ := ih bs₁ _ kept
    refine ⟨bs',?_,final⟩
    rw [List.foldlM_cons,first]
    exact rest

/-- An element is in the set if the last call about it put it there. -/
theorem mem_run (n : Nat) (ops : List Op) (i : Nat) : i ∈ ops.foldl (apply n) ∅ ↔ i < n ∧ LastSet ops i := by
  induction ops using List.reverseRecOn with
  | nil => exact iff_of_false (Finset.notMem_empty i) fun both => nomatch both.2
  | append_singleton ops op ih =>
    rw [List.foldl_append,List.foldl_cons,List.foldl_nil]
    by_cases about : op.index = i
    · have last : (ops ++ [op]).filter (fun op => op.index = i) = ops.filter (fun op => op.index = i) ++ [op] := by
        rw [List.filter_append,List.filter_cons_of_pos (by simpa using about),List.filter_nil]
      rw [LastSet,last,List.getLast?_append,List.getLast?_singleton,Option.some_or,Option.some_inj]
      cases op with
      | set idx =>
        obtain rfl : idx = i := about
        rw [apply]
        by_cases inside : idx < n
        · rw [if_pos inside]
          exact iff_of_true (Finset.mem_insert_self idx _) ⟨inside,rfl⟩
        · rw [if_neg inside,ih]
          exact iff_of_false (fun both => inside both.1) fun both => inside both.1
      | clear idx =>
        obtain rfl : idx = i := about
        exact iff_of_false (Finset.notMem_erase idx _) fun both => nomatch both.2
    · have same : (ops ++ [op]).filter (fun op => op.index = i) = ops.filter (fun op => op.index = i) := by
        rw [List.filter_append,List.filter_cons_of_neg (by simpa using about),List.filter_nil,List.append_nil]
      rw [LastSet,same,← LastSet,← ih]
      cases op with
      | set idx =>
        have other : i ≠ idx := fun equal => about equal.symm
        rw [apply]
        by_cases inside : idx < n
        · rw [if_pos inside,Finset.mem_insert]
          exact or_iff_right other
        · rw [if_neg inside]
      | clear idx =>
        have other : i ≠ idx := fun equal => about equal.symm
        rw [apply,Finset.mem_erase]
        exact and_iff_right other

/-- After any sets and clears the members are the indices below the size whose last call was a set, the search
finds the least index that is not a member, and the indices from the size on change nothing. -/
theorem bitset_is_set (bs : State) (size : Nat) (ops : List Op) :
    ∃ start bs', blackBitsetInit bs size = some start ∧ ops.foldlM step start = some bs' ∧
      (∀ i, blackBitsetTest bs' i = some (if i < min size 32768 ∧ LastSet ops i then 1 else 0)) ∧
      ((∃ i, i < min size 32768 ∧ blackBitsetFirstFree bs' = some (i : Int) ∧ blackBitsetTest bs' i = some 0 ∧
          ∀ j < i, blackBitsetTest bs' j = some 1) ∨
        (blackBitsetFirstFree bs' = some (-1) ∧ ∀ i < min size 32768, blackBitsetTest bs' i = some 1)) ∧
      ∀ op : Op, min size 32768 ≤ op.index → step bs' op = some bs' := by
  obtain ⟨start,done,empty⟩ := init_represents bs size
  obtain ⟨bs',ran,represents⟩ := run_represents (min size 32768) ops start ∅ empty
  have member := mem_run (min size 32768) ops
  have test (i : Nat) := test_eq bs' _ _ represents i
  refine ⟨start,bs',done,ran,fun i => ?_,?_,step_beyond bs' _ _ represents⟩
  · rw [test]
    exact congrArg some (if_congr (member i) rfl rfl)
  · have search := findFree_least bs' _ _ represents (min size 32768) 0 (Nat.zero_add _)
    rw [blackBitsetFirstFree,represents.size]
    rcases search with ⟨f,inside,found,free,earlier⟩ | ⟨none_,all⟩
    · refine .inl ⟨f,inside,found,?_,fun j below => ?_⟩
      · rw [test,if_neg free]
      · rw [test,if_pos (earlier j (Nat.zero_le j) below)]
    · refine .inr ⟨none_,fun i inside => ?_⟩
      rw [test,if_pos (all i (Nat.zero_le i) inside)]

end BlackOS.Bitset
