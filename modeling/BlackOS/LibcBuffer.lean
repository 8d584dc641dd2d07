import BlackOS.LibcText
import Mathlib.Logic.Function.Basic
import Mathlib.Data.List.GetD

/-! The string routines of `libc/string/string.c` on objects of known size. A byte of a local array has no value
before it is written. An access beyond the object, or of a byte without a value, gives no result. A loop over a
string reads a further byte of the object in every round. -/
namespace BlackOS.LibcBuffer
open BlackOS.Library.Ram BlackOS.LibcText

structure Buffer where
  size : Nat
  cells : Nat → Option Byte

namespace Buffer

def read (b : Buffer) (i : Nat) : Option Byte := if i < b.size then b.cells i else none

def write (b : Buffer) (i : Nat) (x : Byte) : Option Buffer :=
  if i < b.size then some ⟨b.size,Function.update b.cells i (some x)⟩ else none

/-- A local array without an initializer. -/
def fresh (size : Nat) : Buffer := ⟨size,fun _ => none⟩

/-- An array with an initializer: the bytes that it does not give are zero. -/
def initial (size : Nat) (bytes : List Byte) : Buffer := ⟨size,fun i => some (bytes.getD i 0)⟩

/-- A string of the caller. -/
def ofText (t : Text) : Buffer := initial (t.bytes.length + 1) t.bytes

end Buffer

section Loops
variable (b : Buffer)

def strlenLoop (s : Nat) : Nat → Nat → Option Nat
  | 0,_ => none
  | fuel+1,len => do
    let x ← b.read (s + len)
    if x = 0 then return len else strlenLoop s fuel (len + 1)

def strlen (s : Nat) : Option Nat := strlenLoop b s (b.size + 1) 0

def strchrLoop (c : Byte) : Nat → Nat → Option (Option Nat)
  | 0,_ => none
  | fuel+1,s => do
    let x ← b.read s
    if x = 0 then return if c = 0 then some s else none
    else if x = c then return some s
    else strchrLoop c fuel (s + 1)

def strchr (s : Nat) (c : Byte) : Option (Option Nat) := strchrLoop b c (b.size + 1) s

def strrchrLoop (c : Byte) : Nat → Option Nat → Nat → Option (Option Nat)
  | 0,_,_ => none
  | fuel+1,last,s => do
    let x ← b.read s
    if x = 0 then return if c = 0 then some s else last
    else strrchrLoop c fuel (if x = c then some s else last) (s + 1)

def strrchr (s : Nat) (c : Byte) : Option (Option Nat) := strrchrLoop b c (b.size + 1) none s

/-- The string from `s` on, as a function that is called with it reads it. -/
def textLoop : Nat → Nat → Option (List Byte)
  | 0,_ => none
  | fuel+1,s => do
    let x ← b.read s
    if x = 0 then return [] else return x :: (← textLoop fuel (s + 1))

def text (s : Nat) : Option (List Byte) := textLoop b (b.size + 1) s

def strcmpLoop (c : Buffer) : Nat → Nat → Option Int
  | 0,_ => none
  | fuel+1,i => do
    let x ← b.read i
    let y ← c.read i
    if x ≠ 0 ∧ x = y then strcmpLoop c fuel (i + 1) else return x.toNat - y.toNat

/-- Of the strings at the start of two objects. -/
def strcmp (c : Buffer) : Option Int := strcmpLoop b c (b.size + 1) 0

/-- The first loop of `strncpy`, with as many rounds left; the index at its end. -/
def copyLoop (s d : Nat) : Nat → Nat → Buffer → Option (Buffer × Nat)
  | 0,i,dst => some (dst,i)
  | left+1,i,dst => do
    let x ← b.read (s + i)
    if x = 0 then return (dst,i) else copyLoop s d left (i + 1) (← dst.write (d + i) x)

def fillLoop (d : Nat) : Nat → Nat → Buffer → Option Buffer
  | 0,_,dst => some dst
  | left+1,i,dst => do fillLoop d left (i + 1) (← dst.write (d + i) 0)

/-- `strncpy(dst + d, src + s, n)`. -/
def strncpy (dst : Buffer) (d : Nat) (src : Buffer) (s n : Nat) : Option Buffer := do
  let (dst,i) ← copyLoop src s d n 0 dst
  fillLoop d (n - i) i dst

/-- The second loop of `strcat`, which copies the terminating zero as well. -/
def appendLoop : Nat → Nat → Nat → Buffer → Option Buffer
  | 0,_,_,_ => none
  | fuel+1,s,d,dst => do
    let x ← b.read s
    let dst ← dst.write d x
    if x = 0 then return dst else appendLoop fuel (s + 1) (d + 1) dst

/-- `strcat(dst, src + s)`. The first loop is the one of `strlen`. -/
def strcat (dst src : Buffer) (s : Nat) : Option Buffer := do
  let d ← strlen dst 0
  appendLoop src (src.size + 1) s d dst

end Loops

/-- The bytes from `i` on, none of them zero, and what reading the one behind them gives. -/
def Reads (b : Buffer) (last : Option Byte) : Nat → List Byte → Prop
  | i,[] => b.read i = last
  | i,x::s => b.read i = some x ∧ x ≠ 0 ∧ Reads b last (i + 1) s

/-- The string from `i` on. -/
def Holds (b : Buffer) (i : Nat) (s : List Byte) : Prop := Reads b (some 0) i s

section Reads
variable (b : Buffer) (last : Option Byte)

theorem read_inside (i : Nat) (x : Byte) (found : b.read i = some x) : i < b.size :=
  (Option.ite_none_right_eq_some.mp found).1

theorem reads_drop (i : Nat) (s t : List Byte) (reads : Reads b last i (s ++ t)) : Reads b last (i + s.length) t := by
  induction s generalizing i with
  | nil => exact reads
  | cons x s ih =>
    rw [List.length_cons,Nat.add_comm s.length,← Nat.add_assoc]
    exact ih (i + 1) reads.2.2

theorem reads_clean (i : Nat) (s : List Byte) (reads : Reads b last i s) : 0 ∉ s := by
  induction s generalizing i with
  | nil => exact List.not_mem_nil
  | cons x s ih =>
    rw [List.mem_cons,not_or]
    exact ⟨reads.2.1.symm,ih (i + 1) reads.2.2⟩

theorem reads_size (i : Nat) (s : List Byte) (start : i ≤ b.size) (reads : Reads b last i s) :
    i + s.length ≤ b.size := by
  induction s generalizing i with
  | nil => exact start
  | cons x s ih =>
    have rest := ih (i + 1) (read_inside b i x reads.1) reads.2.2
    rw [List.length_cons]
    omega

theorem holds_size (i : Nat) (s : List Byte) (holds : Holds b i s) : i + s.length < b.size := by
  have terminated := reads_drop b (some 0) i s [] (by rw [List.append_nil]; exact holds)
  exact read_inside b _ 0 terminated

theorem reads_intro (i : Nat) (s : List Byte) (clean : 0 ∉ s) (each : ∀ k < s.length, b.read (i + k) = s[k]?)
    (behind : b.read (i + s.length) = last) : Reads b last i s := by
  induction s generalizing i with
  | nil => exact behind
  | cons x s ih =>
    rw [List.mem_cons,not_or] at clean
    refine ⟨each 0 (Nat.zero_lt_succ _),fun zero => clean.1 zero.symm,?_⟩
    refine ih (i + 1) clean.2 (fun k inside => ?_) ?_
    · rw [Nat.add_assoc,Nat.add_comm 1]
      exact each (k + 1) (Nat.succ_lt_succ inside)
    · rw [Nat.add_assoc,Nat.add_comm 1]
      exact behind

theorem read_initial (size : Nat) (bytes : List Byte) (i : Nat) :
    (Buffer.initial size bytes).read i = if i < size then some (bytes.getD i 0) else none := rfl

theorem initial_holds (size : Nat) (bytes : List Byte) (clean : 0 ∉ bytes) (room : bytes.length < size) :
    Holds (Buffer.initial size bytes) 0 bytes := by
  refine reads_intro _ _ 0 bytes clean (fun k inside => ?_) ?_
  · rw [read_initial,Nat.zero_add,if_pos (Nat.lt_trans inside room),List.getElem?_eq_getElem inside]
    exact congrArg some (List.getD_eq_getElem _ _ inside)
  · rw [read_initial,Nat.zero_add,if_pos room]
    exact congrArg some (List.getD_eq_default _ _ (Nat.le_refl _))

theorem ofText_holds (t : Text) : Holds (Buffer.ofText t) 0 t.bytes :=
  initial_holds _ t.bytes t.terminated (Nat.lt_succ_self _)

end Reads

section Write
variable (b : Buffer) (last : Option Byte)

theorem write_some (i : Nat) (x : Byte) (inside : i < b.size) : b.write i x = some ⟨b.size,Function.update b.cells i (some x)⟩ :=
  if_pos inside

theorem read_write (b' : Buffer) (i j : Nat) (x : Byte) (written : b.write i x = some b') :
    b'.size = b.size ∧ b'.read j = if j = i then some x else b.read j := by
  obtain ⟨inside,same⟩ := Option.ite_none_right_eq_some.mp written
  cases same
  refine ⟨rfl,?_⟩
  rw [Buffer.read]
  dsimp only
  by_cases here : j = i
  · rw [if_pos here,here,Function.update_self,if_pos inside]
  · rw [if_neg here,Function.update_of_ne here,Buffer.read]

/-- A zero behind the first bytes of a string ends it there. -/
theorem write_cuts (b' : Buffer) (i : Nat) (s t : List Byte) (reads : Reads b last i (s ++ t))
    (written : b.write (i + s.length) 0 = some b') : Holds b' i s := by
  induction s generalizing i with
  | nil =>
    rw [Holds,Reads,(read_write b b' i i 0 written).2,if_pos rfl]
  | cons y s ih =>
    rw [List.length_cons] at written
    have next : i + 1 + s.length = i + (s.length + 1) := by omega
    refine ⟨?_,reads.2.1,ih (i + 1) reads.2.2 (by rw [next]; exact written)⟩
    rw [(read_write b b' _ i 0 written).2,if_neg (by omega)]
    exact reads.1

/-- A byte in front of a string does not change it. -/
theorem write_keeps (b' : Buffer) (i j : Nat) (x : Byte) (t : List Byte) (before : j < i) (reads : Reads b last i t)
    (written : b.write j x = some b') : Reads b' last i t := by
  induction t generalizing i with
  | nil =>
    rw [Reads,(read_write b b' j i x written).2,if_neg (by omega)]
    exact reads
  | cons y t ih =>
    refine ⟨?_,reads.2.1,ih (i + 1) (by omega) reads.2.2⟩
    rw [(read_write b b' j i x written).2,if_neg (by omega)]
    exact reads.1

end Write

/-- The rule for a loop over a string with fuel for its rounds: what it does where the string ends, and from one
byte to the next. -/
theorem reads_rounds (b : Buffer) (last : Option Byte) (P : Nat → Nat → List Byte → Prop)
    (stop : ∀ fuel i, b.read i = last → P (fuel + 1) i [])
    (turn : ∀ fuel i x s, b.read i = some x → x ≠ 0 → P fuel (i + 1) s → P (fuel + 1) i (x :: s))
    (fuel i : Nat) (s : List Byte) (reads : Reads b last i s) (room : s.length < fuel) : P fuel i s := by
  induction s generalizing fuel i with
  | nil =>
    obtain ⟨fuel,rfl⟩ := Nat.exists_eq_succ_of_ne_zero (Nat.ne_of_gt room)
    exact stop fuel i reads
  | cons x s ih =>
    obtain ⟨fuel,rfl⟩ := Nat.exists_eq_succ_of_ne_zero (Nat.ne_of_gt (Nat.zero_lt_of_lt room))
    exact turn fuel i x s reads.1 reads.2.1 (ih fuel (i + 1) reads.2.2 (Nat.lt_of_succ_lt_succ room))

section Strings
variable (b : Buffer) (i : Nat) (s : List Byte) (holds : Holds b i s)
include holds

/-- A round for each byte of the object is enough. -/
theorem holds_rounds : s.length < b.size + 1 := by
  have size := holds_size b i s holds
  omega

theorem strlen_eq : strlen b i = some s.length := by
  have loop := reads_rounds b (some 0)
    (fun fuel j s => ∀ len, j = i + len → strlenLoop b i fuel len = some (len + s.length))
    (fun fuel j end_ len place => by
      rw [strlenLoop,← place,end_]
      rfl)
    (fun fuel j x s here nonzero rest len place => by
      rw [strlenLoop,← place,here,Option.bind_eq_bind,Option.bind_some,if_neg nonzero,rest (len + 1) (by omega),
        List.length_cons]
      exact congrArg some (by omega))
    (b.size + 1) i s holds (holds_rounds b i s holds) 0 rfl
  rw [strlen,loop,Nat.zero_add]

theorem text_eq : text b i = some s :=
  reads_rounds b (some 0) (fun fuel i s => textLoop b fuel i = some s)
    (fun fuel i end_ => by
      rw [textLoop,end_]
      rfl)
    (fun fuel i x s here nonzero rest => by
      rw [textLoop,here,Option.bind_eq_bind,Option.bind_some,if_neg nonzero,rest]
      rfl)
    (b.size + 1) i s holds (holds_rounds b i s holds)

theorem strchr_eq (c : Byte) (nonzero : c ≠ 0) :
    strchr b i c = some ((LibcText.strchr s c).map fun found => i + found.1.length) := by
  refine reads_rounds b (some 0)
    (fun fuel i s => strchrLoop b c fuel i = some ((LibcText.strchr s c).map fun found => i + found.1.length))
    (fun fuel i end_ => ?_) (fun fuel i x s here filled rest => ?_) (b.size + 1) i s holds (holds_rounds b i s holds)
  · rw [strchrLoop,end_,Option.bind_eq_bind,Option.bind_some,if_pos rfl,if_neg nonzero]
    rfl
  · rw [strchrLoop,here,Option.bind_eq_bind,Option.bind_some,if_neg filled,LibcText.strchr]
    by_cases found : x = c
    · rw [if_pos found,if_pos found]
      rfl
    · rw [if_neg found,if_neg found,rest,Option.map_map]
      refine congrArg some (congrFun (congrArg Option.map (funext fun found => ?_)) _)
      rw [Function.comp_apply,List.length_cons]
      omega

end Strings

/-- `strrchr` gives no result on bytes that end where none can be read. -/
theorem strrchr_eq (b : Buffer) (end_ : Option Byte) (i : Nat) (s : List Byte) (c : Byte) (nonzero : c ≠ 0)
    (start : i ≤ b.size) (behind : end_ = some 0 ∨ end_ = none) (reads : Reads b end_ i s) :
    strrchr b i c = end_.map fun _ => (LibcText.strrchr s c).map fun found => i + found.1.length := by
  have size := reads_size b end_ i s start reads
  have loop := reads_rounds b end_ (fun fuel i s => ∀ last, strrchrLoop b c fuel last i =
    end_.map fun _ => ((LibcText.strrchr s c).map fun found => i + found.1.length) <|> last)
    (fun fuel i read last => by
      rw [strrchrLoop,read]
      rcases behind with zero | none_
      · rw [zero,Option.bind_eq_bind,Option.bind_some,if_pos rfl,if_neg nonzero]
        rfl
      · rw [none_]
        rfl)
    (fun fuel i x s here filled rest last => by
      rw [strrchrLoop,here,Option.bind_eq_bind,Option.bind_some,if_neg filled,rest,LibcText.strrchr]
      cases LibcText.strrchr s c with
      | some found =>
        have place : i + 1 + found.1.length = i + (x :: found.1).length := by
          rw [List.length_cons]
          omega
        dsimp only [Option.map_some]
        rw [place]
        rfl
      | none =>
        dsimp only
        by_cases found : x = c
        · rw [if_pos found,if_pos found]
          rfl
        · rw [if_neg found,if_neg found]
          rfl)
    (b.size + 1) i s reads (by omega) none
  rw [strrchr,loop]
  cases end_ with
  | none => rfl
  | some x => simp only [Option.orElse_eq_orElse,Option.orElse_eq_or,Option.or_none,Option.map_some]

theorem strcmp_eq (b c : Buffer) (s t : List Byte) (left : Holds b 0 s) (right : Holds c 0 t) :
    strcmp b c = some (LibcText.strcmp s t) := by
  refine reads_rounds b (some 0)
    (fun fuel i s => ∀ t, Holds c i t → strcmpLoop b c fuel i = some (LibcText.strcmp s t))
    (fun fuel i end_ t right => ?_) (fun fuel i x s here filled rest t right => ?_)
    (b.size + 1) 0 s left (holds_rounds b 0 s left) t right
  · cases t with
    | nil =>
      rw [strcmpLoop,end_,right]
      rfl
    | cons y t =>
      rw [strcmpLoop,end_,right.1]
      rfl
  · cases t with
    | nil =>
      have behind : c.read i = some 0 := right
      rw [strcmpLoop,here,behind]
      simp only [Option.bind_eq_bind,Option.bind_some]
      rw [if_neg fun both => filled both.2,LibcText.strcmp]
      rfl
    | cons y t =>
      rw [strcmpLoop,here,right.1,LibcText.strcmp]
      simp only [Option.bind_eq_bind,Option.bind_some]
      by_cases same : x = y
      · rw [if_pos ⟨filled,same⟩,if_pos same]
        exact rest t right.2.2
      · rw [if_neg fun both => same both.2,if_neg same]
        rfl

/-- The object with the first `n` bytes of a string at `d`, and zeros behind the string. -/
def Buffer.stored (dst : Buffer) (d n : Nat) (t : List Byte) : Buffer :=
  ⟨dst.size,fun j => if d ≤ j ∧ j < d + n then some (t.getD (j - d) 0) else dst.cells j⟩

section Stored
variable (dst : Buffer) (d : Nat) (t : List Byte)

theorem stored_none : dst.stored d 0 t = dst := by
  rw [Buffer.stored]
  congr 1
  funext j
  rw [if_neg (by omega)]

theorem stored_write (i : Nat) (x : Byte) (next : t.getD i 0 = x) (inside : d + i < dst.size) :
    (dst.stored d i t).write (d + i) x = some (dst.stored d (i + 1) t) := by
  rw [write_some (dst.stored d i t) _ _ inside,Buffer.stored,Buffer.stored]
  congr 2
  funext j
  by_cases here : j = d + i
  · rw [here,Function.update_self,if_pos (by omega),Nat.add_sub_cancel_left,next]
  · rw [Function.update_of_ne here]
    dsimp only
    by_cases below : d ≤ j ∧ j < d + i
    · rw [if_pos below,if_pos (by omega)]
    · rw [if_neg below,if_neg (by omega)]

theorem stored_full (i : Nat) (x : Byte) (outside : dst.size ≤ d + i) : (dst.stored d i t).write (d + i) x = none :=
  if_neg (Nat.not_lt_of_le outside)

theorem getD_middle (u v : List Byte) (x : Byte) : (u ++ x :: v).getD u.length 0 = x := by
  rw [List.getD_eq_getElem?_getD,List.getElem?_append_right (Nat.le_refl _),Nat.sub_self]
  rfl

/-- The first loop ends behind the string or with its last round. -/
theorem copyLoop_eq (src : Buffer) (last : Option Byte) (s n : Nat) (room : d + n ≤ dst.size) (left : Nat) (u v : List Byte)
    (reads : Reads src last (s + u.length) v) (enough : left ≤ v.length ∨ last = some 0) (rounds : u.length + left = n) :
    ∃ k ≤ n, copyLoop src s d left u.length (dst.stored d u.length (u ++ v)) = some (dst.stored d k (u ++ v),k) ∧
      (k = n ∨ (u ++ v).length ≤ k) := by
  induction left generalizing u v with
  | zero => exact ⟨u.length,by omega,rfl,.inl (by omega)⟩
  | succ left ih =>
    cases v with
    | nil =>
      have zero := enough.resolve_left (Nat.not_succ_le_zero left)
      have behind : src.read (s + u.length) = some 0 := (show _ = last from reads).trans zero
      refine ⟨u.length,by omega,?_,.inr (by rw [List.append_nil])⟩
      rw [copyLoop,behind]
      rfl
    | cons x v =>
      have whole : u ++ x :: v = (u ++ [x]) ++ v := (List.append_cons u x v)
      have length : (u ++ [x]).length = u.length + 1 := by rw [List.length_append,List.length_singleton]
      obtain ⟨k,least,done,ended⟩ := ih (u ++ [x]) v (by rw [length]; exact reads.2.2)
        (enough.imp_left Nat.le_of_succ_le_succ) (by omega)
      rw [← whole,length] at done
      rw [← whole] at ended
      refine ⟨k,least,?_,ended⟩
      rw [copyLoop,reads.1,Option.bind_eq_bind,Option.bind_some,if_neg reads.2.1,
        stored_write dst d _ u.length x (getD_middle u v x) (by omega)]
      exact done

theorem fillLoop_eq (left i : Nat) (room : d + (i + left) ≤ dst.size) (behind : t.length ≤ i) :
    fillLoop d left i (dst.stored d i t) = some (dst.stored d (i + left) t) := by
  induction left generalizing i with
  | zero => rfl
  | succ left ih =>
    rw [fillLoop,stored_write dst d t i 0 (List.getD_eq_default _ _ behind) (by omega)]
    have rest := ih (i + 1) (by omega) (by omega)
    rw [show i + 1 + left = i + (left + 1) by omega] at rest
    exact rest

/-- `strncpy` reads `n` bytes of the source at most. -/
theorem strncpy_eq (src : Buffer) (last : Option Byte) (s n : Nat) (room : d + n ≤ dst.size) (reads : Reads src last s t)
    (enough : n ≤ t.length ∨ last = some 0) : strncpy dst d src s n = some (dst.stored d n t) := by
  obtain ⟨k,least,copied,ended⟩ := copyLoop_eq dst d src last s n room n [] t reads enough (Nat.zero_add n)
  rw [List.length_nil,List.nil_append,stored_none] at copied
  rw [List.nil_append] at ended
  rw [strncpy,copied]
  change fillLoop d (n - k) k (dst.stored d k t) = some (dst.stored d n t)
  rcases ended with all | behind
  · rw [all,Nat.sub_self]
    rfl
  · rw [fillLoop_eq dst d t (n - k) k (by omega) behind,Nat.add_sub_cancel' least]

theorem appendLoop_eq (src : Buffer) (s fuel : Nat) (v : List Byte) (holds : Holds src s v) (enough : v.length < fuel) :
    appendLoop src fuel s d dst =
      if d + v.length < dst.size then some (dst.stored d (v.length + 1) v) else none := by
  -- `u` has been copied
  have loop := reads_rounds src (some 0)
    (fun fuel j v => ∀ u, appendLoop src fuel j (d + u.length) (dst.stored d u.length (u ++ v)) =
      if d + (u ++ v).length < dst.size then some (dst.stored d ((u ++ v).length + 1) (u ++ v)) else none)
    (fun fuel j behind u => by
      rw [appendLoop,behind,Option.bind_eq_bind,Option.bind_some,List.append_nil]
      by_cases room : d + u.length < dst.size
      · rw [if_pos room,stored_write dst d u u.length 0 (List.getD_eq_default _ _ (Nat.le_refl _)) room]
        rfl
      · rw [if_neg room,stored_full dst d u u.length 0 (Nat.le_of_not_lt room)]
        rfl)
    (fun fuel j x v here filled rest u => by
      have whole : u ++ x :: v = (u ++ [x]) ++ v := List.append_cons u x v
      have length : (u ++ [x]).length = u.length + 1 := by rw [List.length_append,List.length_singleton]
      have long : u.length + 1 ≤ (u ++ x :: v).length := by
        rw [List.length_append,List.length_cons]
        omega
      rw [appendLoop,here,Option.bind_eq_bind,Option.bind_some]
      by_cases room : d + u.length < dst.size
      · have next := rest (u ++ [x])
        rw [← whole,length] at next
        rw [stored_write dst d _ u.length x (getD_middle u v x) room,Option.bind_eq_bind,Option.bind_some,if_neg filled]
        exact next
      · rw [stored_full dst d _ u.length x (Nat.le_of_not_lt room),if_neg (by omega)]
        rfl)
    fuel s v holds enough []
  rw [List.length_nil,List.nil_append,stored_none] at loop
  exact loop

/-- `strcat` needs room for both strings and the terminating zero. -/
theorem strcat_eq (src : Buffer) (s : Nat) (a : List Byte) (first : Holds dst 0 a) (second : Holds src s t) :
    strcat dst src s = if a.length + t.length < dst.size then some (dst.stored a.length (t.length + 1) t) else none := by
  rw [strcat,strlen_eq dst 0 a first]
  exact appendLoop_eq dst a.length src s (src.size + 1) t second (holds_rounds src s t second)

end Stored

/-- The first `n` bytes of a string and zeros behind it. -/
theorem reads_copied (b : Buffer) (d n : Nat) (t : List Byte) (clean : 0 ∉ t)
    (value : ∀ j < n, b.read (d + j) = some (t.getD j 0)) :
    Reads b (if t.length < n then some 0 else b.read (d + n)) d (t.take n) := by
  refine reads_intro _ _ d (t.take n) (fun zero => clean (List.mem_of_mem_take zero)) (fun k inside => ?_) ?_
  · rw [List.length_take] at inside
    rw [value k (by omega),List.getElem?_take_of_lt (by omega),List.getElem?_eq_getElem (by omega)]
    exact congrArg some (List.getD_eq_getElem _ _ (by omega))
  · rw [List.length_take]
    by_cases short : t.length < n
    · rw [if_pos short,Nat.min_eq_right (Nat.le_of_lt short),value t.length short]
      exact congrArg some (List.getD_eq_default _ _ (Nat.le_refl _))
    · rw [if_neg short,Nat.min_eq_left (Nat.le_of_not_lt short)]

section Left
variable (dst : Buffer) (d n : Nat) (t : List Byte) (room : d + n ≤ dst.size)
include room

theorem read_stored (j : Nat) : (dst.stored d n t).read j =
    if d ≤ j ∧ j < d + n then some (t.getD (j - d) 0) else dst.read j := by
  rw [Buffer.read,Buffer.stored,Buffer.read]
  dsimp only
  by_cases inside : d ≤ j ∧ j < d + n
  · rw [if_pos inside,if_pos inside,if_pos (by omega)]
  · rw [if_neg inside,if_neg inside]

/-- A copy that is cut off is not terminated: what stood behind it is read on. -/
theorem stored_reads (clean : 0 ∉ t) :
    Reads (dst.stored d n t) (if t.length < n then some 0 else dst.read (d + n)) d (t.take n) := by
  have behind : (dst.stored d n t).read (d + n) = dst.read (d + n) := by
    rw [read_stored dst d n t room,if_neg (by omega)]
  rw [← behind]
  refine reads_copied _ d n t clean fun j inside => ?_
  rw [read_stored dst d n t room,if_pos (by omega),Nat.add_sub_cancel_left]

/-- The string that a whole copy leaves. -/
theorem stored_holds (clean : 0 ∉ t) (whole : t.length < n) : Holds (dst.stored d n t) d t := by
  have reads := stored_reads dst d n t room clean
  rw [if_pos whole,List.take_of_length_le (Nat.le_of_lt whole)] at reads
  exact reads

end Left

end BlackOS.LibcBuffer
