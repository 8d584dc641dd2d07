import BlackOS.LibcText
import Mathlib.Logic.Function.Basic
import Mathlib.Data.Fin.Basic

/-! The user accounts of `kernel/security/security.c`: the table of 32 accounts, how one is added and
how a user is recognised. -/
namespace BlackOS.Security
open BlackOS.Library.Ram BlackOS.LibcText

abbrev Index := Fin 32

def maxUsernameLen : Nat := 32

/-- `black_user_t`. -/
structure User where
  uid : Word
  gid : Word
  username : Text
  passwordHash : List Byte
  homeDir : List Byte
  shell : List Byte
  active : Bool
  deriving DecidableEq

abbrev Users := Index → User

def emptyUsers : Users := fun _ => ⟨0,0,⟨[],nil_terminated⟩,[],[],[],false⟩

def ascii (text : String) : List Byte := text.toList.map (fun c => BitVec.ofNat 8 c.toNat)

def fnvLoop (hash : Word) : List Byte → Word
  | [] => hash
  | c::rest => fnvLoop ((hash ^^^ c.setWidth 32) * 0x01000193) rest

def hexDigit (n : Nat) : Byte := BitVec.ofNat 8 (if n < 10 then 48 + n else 97 + n - 10)

def hexWord (v : Word) : List Byte :=
  [7,6,5,4,3,2,1,0].map (fun i => hexDigit ((v >>> (i * 4)) &&& 0xF).toNat)

/-- `black_sha256_simple`: an FNV hash of the text and a mix of it, as 32 hexadecimal digits. -/
def blackSha256Simple (input : Text) : List Byte :=
  let hash := fnvLoop 0x811C9DC5 input.bytes
  let h2 := hash ^^^ (hash >>> 16)
  let h2 := h2 * 0x45d9f3b
  let h2 := h2 ^^^ (h2 >>> 16)
  hexWord hash ++ hexWord h2 ++ hexWord (hash ^^^ 0xDEADBEEF) ++ hexWord (h2 ^^^ 0xCAFEBABE)

def newUser (name pass : Text) (uid gid : Word) : User where
  uid := uid
  gid := gid
  username := strncpy name (maxUsernameLen - 1)
  passwordHash := blackSha256Simple pass
  homeDir := ascii "/home/" ++ name.bytes
  shell := ascii "/bin/sh"
  active := true

/-- `black_user_add`. There is no result where `strcat` writes past the 128 bytes of the home
directory, which C leaves undefined. -/
def blackUserAdd (users : Users) (name pass : Text) (uid gid : Word) : Option (Users × Int) :=
  if (List.finRange 32).any (fun i => (users i).active && (users i).uid == uid) then some (users,-1) else
  match (List.finRange 32).find? (fun i => !(users i).active) with
  | none => some (users,-2)
  | some i =>
    let user := newUser name pass uid gid
    if user.homeDir.length < 128 then some (Function.update users i user,0) else none

def blackUserAuthenticate (users : Users) (name pass : Text) : Int :=
  match (List.finRange 32).find? (fun i => (users i).active && strcmp (users i).username.bytes name.bytes == 0) with
  | none => -1
  | some i => if strcmp (users i).passwordHash (blackSha256Simple pass) = 0 then (users i).uid.toInt else -1

structure Request where
  name : Text
  pass : Text
  uid : Word
  gid : Word

/-- The table after calls of `black_user_add`, where none is undefined. -/
def addAll (users : Users) : List Request → Option Users
  | [] => some users
  | r::rest => (blackUserAdd users r.name r.pass r.uid r.gid).bind fun made => addAll made.1 rest

theorem strcmp_self (a : List Byte) : strcmp a a = 0 := by
  induction a with
  | nil => rfl
  | cons x a ih =>
    rw [strcmp,if_pos rfl]
    exact ih

theorem username_matches (user : User) (name : Text) :
    (user.active && strcmp user.username.bytes name.bytes == 0) = true ↔ user.active = true ∧ user.username = name := by
  rw [Bool.and_eq_true,beq_iff_eq,strcmp_zero _ _ user.username.terminated name.terminated]
  exact and_congr_right fun _ => Text.ext_iff.symm

section Find
variable {p : Index → Bool}

theorem first_some (i : Index) : (List.finRange 32).find? p = some i ↔ p i = true ∧ ∀ j, j < i → p j = false := by
  rw [← Fin.find?_eq_find?_finRange,Fin.find?_eq_some_iff]

theorem first_none : (List.finRange 32).find? p = none ↔ ∀ i, p i = false := by
  rw [← Fin.find?_eq_find?_finRange,Fin.find?_eq_none_iff]

end Find

/-- The accounts fill the table from its start, and no stored name is longer than its field. -/
structure Stacked (users : Users) : Prop where
  filled : ∀ i j, j < i → (users i).active = true → (users j).active = true
  short : ∀ i, (users i).active = true → (users i).username.bytes.length ≤ 31

section Add
variable (users : Users) (r : Request) (made : Users) (code : Int)
  (added : blackUserAdd users r.name r.pass r.uid r.gid = some (made,code))
include added

/-- A call that is defined changes nothing and fails, or takes the first free slot. -/
theorem add_cases : (made = users ∧ code ≠ 0) ∨
    (∃ i, (users i).active = false ∧ (∀ j, j < i → (users j).active = true) ∧
      (∀ j, (users j).active = true → (users j).uid ≠ r.uid) ∧
      made = Function.update users i (newUser r.name r.pass r.uid r.gid)) := by
  unfold blackUserAdd at added
  split at added
  · cases added
    exact Or.inl ⟨rfl,by decide⟩
  · rename_i fresh
    have unique (j : Index) (active : (users j).active = true) : (users j).uid ≠ r.uid := by
      intro same
      refine fresh (List.any_eq_true.mpr ⟨j,List.mem_finRange j,?_⟩)
      rw [active,same,Bool.true_and,beq_iff_eq]
    split at added
    · cases added
      exact Or.inl ⟨rfl,by decide⟩
    · rename_i i found
      obtain ⟨free,before⟩ := (first_some i).mp found
      dsimp only at added
      split at added
      · cases added
        exact Or.inr ⟨i,by simpa using free,fun j below => by simpa using before j below,unique,rfl⟩
      · cases added

theorem add_keeps (i : Index) (active : (users i).active = true) : made i = users i := by
  rcases add_cases users r made code added with ⟨same,_⟩ | ⟨free,inactive,_,_,same⟩
  · rw [same]
  · rw [same,Function.update_of_ne]
    intro here
    rw [here,inactive] at active
    cases active

theorem add_stacked (stacked : Stacked users) : Stacked made := by
  rcases add_cases users r made code added with ⟨same,_⟩ | ⟨free,_,before,_,same⟩
  · rw [same]
    exact stacked
  · rw [same]
    constructor
    · intro i j below active
      by_cases target : j = free
      · rw [target,Function.update_self]
        rfl
      · rw [Function.update_of_ne target]
        by_cases here : i = free
        · exact before j (by rw [← here]; exact below)
        · rw [Function.update_of_ne here] at active
          exact stacked.filled i j below active
    · intro i active
      by_cases here : i = free
      · rw [here,Function.update_self]
        exact List.length_take_le _ _
      · rw [Function.update_of_ne here] at active ⊢
        exact stacked.short i active

end Add

section Runs
variable (users : Users) (requests : List Request) (final : Users) (run : addAll users requests = some final)
include run

theorem addAll_keeps (i : Index) (active : (users i).active = true) : final i = users i := by
  induction requests generalizing users with
  | nil =>
    cases run
    rfl
  | cons r rest ih =>
    obtain ⟨⟨made,code⟩,added,further⟩ := Option.bind_eq_some_iff.mp run
    have kept := add_keeps users r made code added i active
    rw [← kept] at active ⊢
    exact ih made further active

theorem addAll_stacked (stacked : Stacked users) : Stacked final := by
  induction requests generalizing users with
  | nil =>
    cases run
    exact stacked
  | cons r rest ih =>
    obtain ⟨⟨made,code⟩,added,further⟩ := Option.bind_eq_some_iff.mp run
    exact ih made further (add_stacked users r made code added stacked)

end Runs

theorem empty_stacked : Stacked emptyUsers := ⟨nofun,nofun⟩

theorem signed_eq (uid : Word) (n : Nat) (same : uid.toInt = n) : uid.toNat = n ∧ uid.toNat < 2^31 := by
  rw [BitVec.toInt_eq_toNat_cond] at same
  have bound := uid.isLt
  split at same
  · omega
  · omega

theorem authenticate_some (users : Users) (name pass : Text) (i : Index) (active : (users i).active = true)
    (named : (users i).username = name)
    (earlier : ∀ j, j < i → (users j).active = true → (users j).username ≠ name) :
    blackUserAuthenticate users name pass =
      if strcmp (users i).passwordHash (blackSha256Simple pass) = 0 then (users i).uid.toInt else -1 := by
  have found : (List.finRange 32).find?
      (fun i => (users i).active && strcmp (users i).username.bytes name.bytes == 0) = some i := by
    refine (first_some i).mpr ⟨(username_matches _ _).mpr ⟨active,named⟩,fun j below => ?_⟩
    rw [Bool.eq_false_iff]
    intro hit
    obtain ⟨isActive,isNamed⟩ := (username_matches _ _).mp hit
    exact earlier j below isActive isNamed
  simp only [blackUserAuthenticate,found]

theorem authenticate_none (users : Users) (name pass : Text)
    (absent : ∀ j, (users j).active = true → (users j).username ≠ name) : blackUserAuthenticate users name pass = -1 := by
  have found : (List.finRange 32).find?
      (fun i => (users i).active && strcmp (users i).username.bytes name.bytes == 0) = none := by
    refine first_none.mpr (fun j => ?_)
    rw [Bool.eq_false_iff]
    intro hit
    obtain ⟨isActive,isNamed⟩ := (username_matches _ _).mp hit
    exact absent j isActive isNamed
  simp only [blackUserAuthenticate,found]

section Login
variable (users made final : Users) (r : Request) (later : List Request) (stacked : Stacked users)
  (added : blackUserAdd users r.name r.pass r.uid r.gid = some (made,0)) (further : addAll made later = some final)
include stacked added further

/-- An account with the same name answers first, and it has another uid. -/
theorem taken_fails (i : Index) (active : (users i).active = true) (named : (users i).username = r.name) :
    blackUserAuthenticate final r.name r.pass ≠ r.uid.toNat := by
  have kept (j : Index) (isActive : (users j).active = true) : final j = users j := by
    have same := add_keeps users r made 0 added j isActive
    rw [addAll_keeps made later final further j (by rw [same]; exact isActive),same]
  obtain ⟨k,⟨isActive,isNamed⟩,minimal⟩ :=
    (Fin.exists_iff_exists_minimal (fun j => (users j).active = true ∧ (users j).username = r.name)).mp ⟨i,active,named⟩
  have first : ∀ j, j < k → (final j).active = true → (final j).username ≠ r.name := by
    intro j below _ isNamed'
    have before := stacked.filled k j below isActive
    rw [kept j before] at isNamed'
    exact minimal j below ⟨before,isNamed'⟩
  have unique : (users k).uid ≠ r.uid := by
    rcases add_cases users r made 0 added with ⟨_,fails⟩ | ⟨_,_,_,unique,_⟩
    · exact absurd rfl fails
    · exact unique k isActive
  have same := kept k isActive
  rw [authenticate_some final r.name r.pass k (by rw [same]; exact isActive) (by rw [same]; exact isNamed) first,same]
  split
  · intro answer
    exact unique (BitVec.eq_of_toNat_eq (signed_eq _ _ answer).1)
  · omega

omit stacked in
theorem fresh_answers (short : r.name.bytes.length ≤ 31)
    (fresh : ∀ i, (users i).active = true → (users i).username ≠ r.name) :
    blackUserAuthenticate final r.name r.pass = r.uid.toInt := by
  rcases add_cases users r made 0 added with ⟨_,fails⟩ | ⟨i,_,before,_,same⟩
  · exact absurd rfl fails
  · have own : final i = newUser r.name r.pass r.uid r.gid := by
      have written : made i = newUser r.name r.pass r.uid r.gid := by rw [same,Function.update_self]
      rw [addAll_keeps made later final further i (by rw [written]; rfl),written]
    have named : (newUser r.name r.pass r.uid r.gid).username = r.name :=
      Text.ext (List.take_of_length_le short)
    have first : ∀ j, j < i → (final j).active = true → (final j).username ≠ r.name := by
      intro j below _
      have kept := add_keeps users r made 0 added j (before j below)
      rw [addAll_keeps made later final further j (by rw [kept]; exact before j below),kept]
      exact fresh j (before j below)
    rw [authenticate_some final r.name r.pass i (by rw [own]; rfl) (by rw [own]; exact named) first,own]
    exact if_pos (strcmp_self _)

theorem long_fails (long : 31 < r.name.bytes.length) : blackUserAuthenticate final r.name r.pass = -1 := by
  have short := (addAll_stacked made later final further (add_stacked users r made 0 added stacked)).short
  refine authenticate_none final r.name r.pass (fun j active same => ?_)
  have length := short j active
  rw [same] at length
  omega

end Login

/-- After any run of additions, an account that was added can log in exactly when its name fits the
field and was not taken, and its uid is not negative as an `int`. -/
theorem login_iff (before later : List Request) (r : Request) (users made final : Users)
    (start : addAll emptyUsers before = some users)
    (added : blackUserAdd users r.name r.pass r.uid r.gid = some (made,0)) (further : addAll made later = some final) :
    blackUserAuthenticate final r.name r.pass = r.uid.toNat ↔
      r.name.bytes.length ≤ 31 ∧ r.uid.toNat < 2^31 ∧ ∀ i, (users i).active = true → (users i).username ≠ r.name := by
  have stacked := addAll_stacked emptyUsers before users start empty_stacked
  constructor
  · intro answer
    have fresh (i : Index) (active : (users i).active = true) : (users i).username ≠ r.name := fun named =>
      taken_fails users made final r later stacked added further i active named answer
    by_cases short : r.name.bytes.length ≤ 31
    · rw [fresh_answers users made final r later added further short fresh] at answer
      exact ⟨short,(signed_eq _ _ answer).2,fresh⟩
    · rw [long_fails users made final r later stacked added further (by omega)] at answer
      omega
  · intro conditions
    obtain ⟨short,positive,fresh⟩ := conditions
    rw [fresh_answers users made final r later added further short fresh,BitVec.toInt_eq_toNat_of_lt (by omega)]

def root : Request := ⟨⟨ascii "root",by decide⟩,⟨ascii "black",by decide⟩,0,0⟩

theorem login_iff_root : ∃ made, blackUserAdd emptyUsers root.name root.pass root.uid root.gid = some (made,0) ∧
    blackUserAuthenticate made root.name root.pass = 0 := by
  have added : blackUserAdd emptyUsers root.name root.pass root.uid root.gid =
      some (Function.update emptyUsers 0 (newUser root.name root.pass root.uid root.gid),0) := rfl
  refine ⟨_,added,?_⟩
  exact (login_iff [] [] root emptyUsers _ _ rfl added rfl).mpr ⟨by decide,by decide,nofun⟩

/-- A second account with the name of the first: its owner cannot log in. -/
theorem second_root_fails : ∃ users made, addAll emptyUsers [root] = some users ∧
    blackUserAdd users root.name ⟨ascii "other",by decide⟩ 1 0 = some (made,0) ∧
    blackUserAuthenticate made root.name ⟨ascii "other",by decide⟩ = -1 :=
  ⟨_,_,rfl,rfl,by decide⟩

end BlackOS.Security
