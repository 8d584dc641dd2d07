import BlackOS.Library.Ram
import Mathlib.Logic.Function.Basic

/-! `kernel/fs/ramfs.c`, and the two calls of `kernel/fs/vfs.c` that change a file's length.
A file's buffer is the memory from its first byte on, by offset on the 32-bit circle; what
`kmalloc` returns is an argument of each call, nothing or a block with the bytes that
happen to be in it. -/
namespace BlackOS.Ramfs
open BlackOS.Library.Ram

abbrev Block := Word → Byte

def vfsDirectory : Word := 0x02
def vfsMaxName : Nat := 128
def blackRamfsMaxChildren : Nat := 64
def blackRamfsMaxFilesize : Word := 1024 * 1024

/-- `black_ramfs_entry_t`. The children are entries of the same file system, and `data` is
`none` for the null pointer. -/
structure Entry where
  name : List Byte
  flags : Word
  length : Word
  data : Option Block
  capacity : Word
  children : List Nat

/-- What `kcalloc` returns. -/
def Entry.zero : Entry := ⟨[],0,0,none,0,[]⟩

/-- `black_ramfs_create` sets the `read` and `write` functions of these entries only. -/
def Entry.isFile (e : Entry) : Bool := e.flags &&& vfsDirectory = 0

/-- The entries of a file system, and the one that `kcalloc` yields next. -/
structure Tree where
  entries : Nat → Entry
  next : Nat

def blackRamfsInit : Tree where
  entries := Function.update (fun _ => Entry.zero) 0 {Entry.zero with name := [0x2F], flags := vfsDirectory}
  next := 1

def blackRamfsCreate (s : Tree) (n : Nat) (name : List Byte) (type : Word) (kcalloc : Bool) :
    Tree × Int :=
  let e := s.entries n
  if e.children.length ≥ blackRamfsMaxChildren then (s,-1)
  else if kcalloc = false then (s,-1)
  else
    let child := {Entry.zero with name := name.take (vfsMaxName - 1), flags := type}
    let entries := Function.update s.entries s.next child
    (⟨Function.update entries n {e with children := e.children ++ [s.next]},s.next + 1⟩,0)

/-- `memcpy` of `n` bytes to an offset of a block. -/
def copyTo (d : Block) (off n : Word) (src : Block) : Block :=
  fun i => if i - off < n then src (i - off) else d i

def blackRamfsRead (e : Entry) (off sz : Word) : List Byte × Int :=
  match e.data with
  | none => ([],0)
  | some d =>
    if off ≥ e.length then ([],0)
    else
      let avail := e.length - off
      let sz := if sz > avail then avail else sz
      ((List.range sz.toNat).map fun i => d (off + word i),sz.toInt)

/-- `while (black_newcap < black_needed) black_newcap *= 2`. Thirty-two rounds leave
nothing of the capacity, and from there the loop does not end. -/
def double : Nat → Word → Word → Option Word
  | 0,_,_ => none
  | n+1,newcap,needed => if newcap < needed then double n (newcap * 2) needed else some newcap

/-- What a write leaves and returns, and the offsets and lengths of the copies it makes
into the file's buffer. -/
structure Outcome where
  entry : Entry
  result : Int
  stores : List (Word × Word)

/-- The part of `black_ramfs_write` that makes room. The buffer is `none` when `kmalloc`
returns the null pointer. -/
def grow (e : Entry) (needed : Word) (kmalloc : Option Block) :
    Option (Option (Entry × List (Word × Word))) := do
  if needed > e.capacity then
    let newcap ← double 32 (if e.capacity ≠ 0 then e.capacity else 512) needed
    let newcap := if newcap > blackRamfsMaxFilesize then blackRamfsMaxFilesize else newcap
    match kmalloc with
    | none => return none
    | some newdata =>
      match e.data with
      | none => return some ({e with data := some newdata, capacity := newcap},[])
      | some d =>
        return some ({e with data := some (copyTo newdata 0 e.length d), capacity := newcap},[(0,e.length)])
  else return some (e,[])

def blackRamfsWrite (e : Entry) (off sz : Word) (buf : Block) (kmalloc : Option Block) :
    Option Outcome := do
  let needed := off + sz
  if needed > blackRamfsMaxFilesize then return ⟨e,-1,[]⟩
  match ← grow e needed kmalloc with
  | none => return ⟨e,-1,[]⟩
  | some (e,copied) =>
    let e := {e with data := e.data.map fun d => copyTo d off sz buf}
    let e := if off + sz > e.length then {e with length := off + sz} else e
    return ⟨e,sz.toInt,copied ++ [(off,sz)]⟩

def blackVfsAppend (e : Entry) (sz : Word) (buf : Block) (kmalloc : Option Block) : Option Outcome :=
  if e.isFile then blackRamfsWrite e e.length sz buf kmalloc else return ⟨e,-1,[]⟩

def blackVfsTruncate (e : Entry) : Entry := {e with length := 0}

/-- A buffer that is not there, or one of a power of two between 512 bytes and a megabyte
that the length does not pass. -/
def Sound (e : Entry) : Prop :=
  (e.data = none ∧ e.capacity = 0 ∧ e.length = 0) ∨
    ∃ d, e.data = some d ∧ ∃ k ≤ 11, e.capacity = word (512 * 2^k) ∧ e.length ≤ e.capacity

theorem sound_zero : Sound Entry.zero := .inl ⟨rfl,rfl,rfl⟩

theorem power_small (k : Nat) (small : k ≤ 11) : (word (512 * 2^k)).toNat = 512 * 2^k := by
  have most : 2^k ≤ 2^11 := Nat.pow_le_pow_right (by decide) small
  exact word_toNat _ (by omega)

theorem sound_bounds (e : Entry) (sound : Sound e) :
    e.length ≤ e.capacity ∧ e.capacity ≤ blackRamfsMaxFilesize := by
  rcases sound with ⟨_,capacity,length⟩ | ⟨_,_,k,small,capacity,length⟩
  · rw [capacity,length]
    decide
  · refine ⟨length,?_⟩
    have most : 2^k ≤ 2^11 := Nat.pow_le_pow_right (by decide) small
    have limit : blackRamfsMaxFilesize.toNat = 2^20 := by decide
    rw [BitVec.le_def,capacity,power_small k small,limit]
    omega

/-- From a power of two the doubling loop ends, at a power of two. -/
theorem double_ends (needed : Word) (fits : needed.toNat ≤ 2^20) (k n : Nat) (small : k ≤ 11)
    (fuel : 11 < k + n) :
    ∃ j ≤ 11, double n (word (512 * 2^k)) needed = some (word (512 * 2^j)) ∧ needed ≤ word (512 * 2^j) := by
  induction n generalizing k with
  | zero => omega
  | succ n ih =>
    rw [double]
    by_cases more : word (512 * 2^k) < needed
    · have lower : k < 11 := by
        by_contra last
        have top : k = 11 := by omega
        rw [BitVec.lt_def,power_small k small,top] at more
        omega
      have twice : word (512 * 2^k) * 2 = word (512 * 2^(k+1)) := by
        apply BitVec.eq_of_toNat_eq
        have most : 2^k ≤ 2^10 := Nat.pow_le_pow_right (by decide) (by omega)
        have two : (2 : Word).toNat = 2 := rfl
        rw [BitVec.toNat_mul,power_small k small,power_small (k+1) (by omega),two,Nat.pow_succ]
        omega
      rw [if_pos more,twice]
      exact ih (k+1) (by omega) (by omega)
    · rw [if_neg more]
      refine ⟨k,small,rfl,?_⟩
      rw [BitVec.le_def]
      rw [BitVec.lt_def] at more
      omega

/-- The buffer that a write of `needed` bytes goes to: the present one, or the start of the
present one in front of what a new block holds. -/
structure Grown (e e' : Entry) (needed : Word) (kmalloc : Option Block) (copied : List (Word × Word)) :
    Prop where
  sound : Sound e'
  room : needed ≤ e'.capacity
  kept : e' = {e with data := e'.data, capacity := e'.capacity}
  origin : (needed ≤ e.capacity ∧ e' = e ∧ copied = []) ∨
    ∃ junk, e.capacity < needed ∧ kmalloc = some junk ∧
      e'.data = some (e.data.elim junk (copyTo junk 0 e.length)) ∧ ∀ c ∈ copied, c = (0,e.length)

theorem Grown.length_eq {e e' : Entry} {needed : Word} {kmalloc : Option Block}
    {copied : List (Word × Word)} (grown : Grown e e' needed kmalloc copied) : e'.length = e.length := by
  have same := congrArg Entry.length grown.kept
  exact same

/-- The doubling loop of a sound entry ends at a power of two within the limit. -/
theorem capacity_doubles (e : Entry) (sound : Sound e) (needed : Word) (small : needed.toNat ≤ 2^20) :
    ∃ j ≤ 11, double 32 (if e.capacity ≠ 0 then e.capacity else 512) needed = some (word (512 * 2^j)) ∧
      needed ≤ word (512 * 2^j) := by
  rcases sound with ⟨_,capacity,_⟩ | ⟨_,_,k,low,capacity,_⟩
  · rw [capacity,if_neg (by decide)]
    exact double_ends needed small 0 32 (by decide) (by decide)
  · have positive : word (512 * 2^k) ≠ 0 := by
      intro zero
      have value := power_small k low
      have power := Nat.two_pow_pos k
      rw [zero] at value
      have none : (0 : Word).toNat = 0 := rfl
      omega
    rw [capacity,if_pos positive]
    exact double_ends needed small k 32 low (by omega)

theorem grow_outcome (e : Entry) (sound : Sound e) (needed : Word) (fits : needed ≤ blackRamfsMaxFilesize)
    (kmalloc : Option Block) :
    (e.capacity < needed ∧ kmalloc = none ∧ grow e needed kmalloc = some none) ∨
    ∃ e' copied, grow e needed kmalloc = some (some (e',copied)) ∧ Grown e e' needed kmalloc copied := by
  by_cases more : needed > e.capacity
  · have limit : blackRamfsMaxFilesize.toNat = 2^20 := by decide
    have small : needed.toNat ≤ 2^20 := by
      rw [BitVec.le_def] at fits
      omega
    obtain ⟨j,lowJ,ends,room⟩ := capacity_doubles e sound needed small
    have most : ¬ word (512 * 2^j) > blackRamfsMaxFilesize := by
      have power : 2^j ≤ 2^11 := Nat.pow_le_pow_right (by decide) lowJ
      rw [GT.gt,BitVec.lt_def,power_small j lowJ,limit]
      omega
    cases kmalloc with
    | none =>
      left
      refine ⟨more,rfl,?_⟩
      simp only [grow,if_pos more,ends,Option.bind_eq_bind,Option.bind_some]
      rfl
    | some junk =>
      right
      have length : e.length ≤ word (512 * 2^j) := by
        have bounds := (sound_bounds e sound).1
        rw [GT.gt,BitVec.lt_def] at more
        rw [BitVec.le_def] at bounds room ⊢
        omega
      cases data : e.data with
      | none =>
        refine ⟨{e with data := some junk, capacity := word (512 * 2^j)},[],?_,?_⟩
        · simp only [grow,if_pos more,ends,Option.bind_eq_bind,Option.bind_some,if_neg most,data]
          rfl
        · exact ⟨.inr ⟨junk,rfl,j,lowJ,rfl,length⟩,room,rfl,.inr ⟨junk,more,rfl,by rw [data]; rfl,nofun⟩⟩
      | some d =>
        refine ⟨{e with data := some (copyTo junk 0 e.length d), capacity := word (512 * 2^j)},
          [(0,e.length)],?_,?_⟩
        · simp only [grow,if_pos more,ends,Option.bind_eq_bind,Option.bind_some,if_neg most,data]
          rfl
        · exact ⟨.inr ⟨_,rfl,j,lowJ,rfl,length⟩,room,rfl,
            .inr ⟨junk,more,rfl,by rw [data]; rfl,fun c only => List.mem_singleton.mp only⟩⟩
  · right
    refine ⟨e,[],?_,sound,BitVec.not_lt.mp more,rfl,.inl ⟨BitVec.not_lt.mp more,rfl,rfl⟩⟩
    simp only [grow,if_neg more]
    rfl

/-- A write fails and changes nothing, or copies into a buffer with room for it. -/
theorem write_outcome (e : Entry) (sound : Sound e) (off sz : Word) (buf : Block)
    (kmalloc : Option Block) :
    ((blackRamfsMaxFilesize < off + sz ∨ (e.capacity < off + sz ∧ kmalloc = none)) ∧
      blackRamfsWrite e off sz buf kmalloc = some ⟨e,-1,[]⟩) ∨
    ∃ e' copied, off + sz ≤ blackRamfsMaxFilesize ∧ Grown e e' (off + sz) kmalloc copied ∧
      blackRamfsWrite e off sz buf kmalloc =
        some ⟨{e' with data := e'.data.map fun d => copyTo d off sz buf,
                       length := if off + sz > e.length then off + sz else e.length},
          sz.toInt,copied ++ [(off,sz)]⟩ := by
  by_cases large : off + sz > blackRamfsMaxFilesize
  · left
    refine ⟨.inl large,?_⟩
    simp only [blackRamfsWrite,if_pos large]
    rfl
  · have fits := BitVec.not_lt.mp large
    rcases grow_outcome e sound (off + sz) fits kmalloc with ⟨more,failed,grown⟩ | ⟨e',copied,grown,spec⟩
    · left
      refine ⟨.inr ⟨more,failed⟩,?_⟩
      simp only [blackRamfsWrite,if_neg large,grown,Option.bind_eq_bind,Option.bind_some]
      rfl
    · right
      refine ⟨e',copied,fits,spec,?_⟩
      have same := spec.length_eq
      simp only [blackRamfsWrite,if_neg large,grown,Option.bind_eq_bind,Option.bind_some]
      rw [← same]
      by_cases longer : off + sz > e'.length
      · rw [if_pos longer,if_pos longer]
        rfl
      · rw [if_neg longer,if_neg longer]
        rfl

theorem write_sound (e : Entry) (sound : Sound e) (off sz : Word) (buf : Block) (kmalloc : Option Block) :
    ∃ o, blackRamfsWrite e off sz buf kmalloc = some o ∧ Sound o.entry := by
  rcases write_outcome e sound off sz buf kmalloc with ⟨_,failed⟩ | ⟨e',copied,_,grown,written⟩
  · exact ⟨_,failed,sound⟩
  · refine ⟨_,written,?_⟩
    have room := grown.room
    have same := grown.length_eq
    have length : (if off + sz > e.length then off + sz else e.length) ≤ e'.capacity := by
      split
      · exact room
      · rw [← same]
        exact (sound_bounds e' grown.sound).1
    rcases grown.sound with ⟨data,capacity,_⟩ | ⟨d,data,k,small,capacity,_⟩
    · left
      rw [capacity] at length
      exact ⟨by rw [data]; rfl,capacity,BitVec.le_zero_iff.mp length⟩
    · right
      exact ⟨copyTo d off sz buf,by rw [data]; rfl,k,small,capacity,length⟩

end BlackOS.Ramfs
