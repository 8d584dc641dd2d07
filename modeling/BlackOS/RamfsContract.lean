import BlackOS.Ramfs
import BlackOS.Library.Run

/-! Runs of calls on the files of a ramfs, beside a record of the writes that each file has
taken since it was created or last truncated. -/
namespace BlackOS.Ramfs
open BlackOS.Library.Ram BlackOS.Library.Run

structure Record where
  off : Word
  sz : Word
  buf : Block

def Record.Covers (r : Record) (i : Word) : Prop :=
  r.off.toNat ≤ i.toNat ∧ i.toNat < r.off.toNat + r.sz.toNat

instance (r : Record) (i : Word) : Decidable (r.Covers i) := inferInstanceAs (Decidable (_ ∧ _))

/-- The byte that the latest write over a position put there; the latest record is first. -/
def latest : List Record → Word → Option Byte
  | [],_ => none
  | r::log,i => if r.Covers i then some (r.buf (i - r.off)) else latest log i

/-- The largest end of a write. -/
def extent : List Record → Nat
  | [] => 0
  | r::log => max (r.off.toNat + r.sz.toNat) (extent log)

inductive Call
  | create (n : Nat) (name : List Byte) (type : Word) (kcalloc : Bool)
  | read (f : Nat) (off sz : Word)
  | write (f : Nat) (off sz : Word) (buf : Block) (kmalloc : Option Block)
  | append (f : Nat) (sz : Word) (buf : Block) (kmalloc : Option Block)
  | truncate (f : Nat)

structure System where
  tree : Tree
  log : Nat → List Record

def Tree.IsFile (s : Tree) (f : Nat) : Prop := f < s.next ∧ (s.entries f).isFile = true

def Tree.IsDirectory (s : Tree) (n : Nat) : Prop := n < s.next ∧ (s.entries n).isFile = false

instance (s : Tree) (f : Nat) : Decidable (s.IsFile f) := inferInstanceAs (Decidable (_ ∧ _))
instance (s : Tree) (n : Nat) : Decidable (s.IsDirectory n) := inferInstanceAs (Decidable (_ ∧ _))

def System.written (s : System) (f : Nat) (r : Record) (o : Outcome) : System where
  tree := {s.tree with entries := Function.update s.tree.entries f o.entry}
  log := if o.result = -1 then s.log else Function.update s.log f (r :: s.log f)

/-- A call goes through a function of the node, so that only a directory is asked to
create and only a file to write. -/
def System.step (s : System) : Call → Option System
  | .create n name type kcalloc =>
    if s.tree.IsDirectory n then some {s with tree := (blackRamfsCreate s.tree n name type kcalloc).1}
    else none
  | .read f _ _ => if s.tree.IsFile f then some s else none
  | .write f off sz buf kmalloc =>
    if s.tree.IsFile f then
      (blackRamfsWrite (s.tree.entries f) off sz buf kmalloc).map (s.written f ⟨off,sz,buf⟩)
    else none
  | .append f sz buf kmalloc =>
    if s.tree.IsFile f then
      (blackVfsAppend (s.tree.entries f) sz buf kmalloc).map
        (s.written f ⟨(s.tree.entries f).length,sz,buf⟩)
    else none
  | .truncate f =>
    if s.tree.IsFile f then
      some ⟨{s.tree with entries := Function.update s.tree.entries f (blackVfsTruncate (s.tree.entries f))},
        Function.update s.log f []⟩
    else none

def System.start : System := ⟨blackRamfsInit,fun _ => []⟩

theorem latest_extent (log : List Record) (i : Word) (b : Byte) (covered : latest log i = some b) :
    i.toNat < extent log := by
  induction log with
  | nil => cases covered
  | cons r log ih =>
    rw [latest] at covered
    rw [extent]
    by_cases here : r.Covers i
    · have inside := here.2
      omega
    · rw [if_neg here] at covered
      have before := ih covered
      omega

/-- The entry of a file that has taken the writes of the log. -/
structure Tracks (e : Entry) (log : List Record) : Prop where
  sound : Sound e
  length : e.length.toNat = extent log
  bytes : ∀ i b, latest log i = some b → ∃ d, e.data = some d ∧ d i = b

theorem tracks_zero (name : List Byte) (flags : Word) :
    Tracks {Entry.zero with name := name, flags := flags} [] :=
  ⟨sound_zero,rfl,nofun⟩

theorem copyTo_inside (d : Block) (off n : Word) (src : Block) (i : Word) (low : off.toNat ≤ i.toNat)
    (high : i.toNat < off.toNat + n.toNat) : copyTo d off n src i = src (i - off) := by
  have value : (i - off).toNat = i.toNat - off.toNat := BitVec.toNat_sub_of_le low
  rw [copyTo,if_pos]
  rw [BitVec.lt_def,value]
  omega

theorem copyTo_outside (d : Block) (off n : Word) (src : Block) (i : Word)
    (exact_ : off.toNat + n.toNat < 2^32) (outside : i.toNat < off.toNat ∨ off.toNat + n.toNat ≤ i.toNat) :
    copyTo d off n src i = d i := by
  have bound := i.isLt
  rw [copyTo,if_neg]
  rw [BitVec.lt_def,BitVec.toNat_sub]
  omega

/-- What is below the length is still there in a grown buffer. -/
theorem grown_bytes (e e' : Entry) (needed : Word) (kmalloc : Option Block) (copied : List (Word × Word))
    (grown : Grown e e' needed kmalloc copied) (d : Block) (data : e.data = some d) (i : Word)
    (low : i.toNat < e.length.toNat) : ∃ d', e'.data = some d' ∧ d' i = d i := by
  rcases grown.origin with ⟨_,same,_⟩ | ⟨junk,_,_,new,_⟩
  · exact ⟨d,by rw [same]; exact data,rfl⟩
  · rw [data] at new
    refine ⟨_,new,?_⟩
    have zero : (0 : Word).toNat = 0 := rfl
    have there := copyTo_inside junk 0 e.length d i (by omega) (by omega)
    have shifted : i - 0 = i := BitVec.sub_zero i
    rw [shifted] at there
    exact there

section Written
variable (e e' : Entry) (log : List Record) (tracks : Tracks e log) (off sz : Word) (buf : Block)
  (exact_ : off.toNat + sz.toNat < 2^32)
include tracks exact_

theorem written_extent :
    (if off + sz > e.length then off + sz else e.length).toNat = extent (⟨off,sz,buf⟩ :: log) := by
  have sum : (off + sz).toNat = off.toNat + sz.toNat := BitVec.toNat_add_of_lt exact_
  rw [extent,← tracks.length]
  dsimp only
  split
  · rename_i longer
    have above := BitVec.lt_def.mp longer
    rw [sum] at above ⊢
    omega
  · rename_i shorter
    have below := BitVec.le_def.mp (BitVec.not_lt.mp shorter)
    rw [sum] at below
    omega

/-- A byte of the new write is in the buffer, and one of an earlier write is still there. -/
theorem written_bytes (kmalloc : Option Block) (copied : List (Word × Word))
    (grown : Grown e e' (off + sz) kmalloc copied) (i : Word) (b : Byte)
    (covered : latest (⟨off,sz,buf⟩ :: log) i = some b) :
    ∃ d, (e'.data.map fun d => copyTo d off sz buf) = some d ∧ d i = b := by
  have sum : (off + sz).toNat = off.toNat + sz.toNat := BitVec.toNat_add_of_lt exact_
  rw [latest] at covered
  by_cases here : (⟨off,sz,buf⟩ : Record).Covers i
  · rw [if_pos here] at covered
    obtain ⟨low,high⟩ := here
    dsimp only at low high
    have room := grown.room
    rw [BitVec.le_def,sum] at room
    rcases grown.sound with ⟨_,capacity,_⟩ | ⟨d,data,_⟩
    · have none : (0 : Word).toNat = 0 := rfl
      rw [capacity] at room
      omega
    · refine ⟨copyTo d off sz buf,by rw [data]; rfl,?_⟩
      rw [copyTo_inside d off sz buf i low high]
      exact Option.some.inj covered
  · rw [if_neg here] at covered
    obtain ⟨d,data,value⟩ := tracks.bytes i b covered
    have low := latest_extent log i b covered
    rw [← tracks.length] at low
    obtain ⟨d',new,same⟩ := grown_bytes e e' _ kmalloc copied grown d data i low
    refine ⟨copyTo d' off sz buf,by rw [new]; rfl,?_⟩
    have outside : i.toNat < off.toNat ∨ off.toNat + sz.toNat ≤ i.toNat := by
      by_contra neither
      exact here ⟨by dsimp only; omega,by dsimp only; omega⟩
    rw [copyTo_outside d' off sz buf i exact_ outside,same,value]

end Written

theorem write_tracks (e : Entry) (log : List Record) (tracks : Tracks e log) (off sz : Word) (buf : Block)
    (kmalloc : Option Block) (exact_ : off.toNat + sz.toNat < 2^32) :
    ((2^20 < off.toNat + sz.toNat ∨ (e.capacity.toNat < off.toNat + sz.toNat ∧ kmalloc = none)) ∧
      blackRamfsWrite e off sz buf kmalloc = some ⟨e,-1,[]⟩) ∨
    ∃ o, off.toNat + sz.toNat ≤ 2^20 ∧ (off.toNat + sz.toNat ≤ e.capacity.toNat ∨ kmalloc ≠ none) ∧
      blackRamfsWrite e off sz buf kmalloc = some o ∧ o.result ≠ -1 ∧ Tracks o.entry (⟨off,sz,buf⟩ :: log) := by
  have sum : (off + sz).toNat = off.toNat + sz.toNat := BitVec.toNat_add_of_lt exact_
  have limit : blackRamfsMaxFilesize.toNat = 2^20 := by decide
  obtain ⟨o,kept,sound⟩ := write_sound e tracks.sound off sz buf kmalloc
  rcases write_outcome e tracks.sound off sz buf kmalloc with ⟨why,failed⟩ | ⟨e',copied,fits,grown,written⟩
  · left
    rw [BitVec.lt_def,BitVec.lt_def,sum,limit] at why
    exact ⟨why,failed⟩
  · right
    rw [BitVec.le_def,sum,limit] at fits
    obtain rfl := Option.some.inj (kept.symm.trans written)
    refine ⟨_,fits,?_,written,?_,sound,?_,?_⟩
    · rcases grown.origin with ⟨room,_,_⟩ | ⟨junk,_,given,_⟩
      · rw [BitVec.le_def,sum] at room
        exact .inl room
      · rw [given]
        exact .inr nofun
    · have value := BitVec.toInt_eq_toNat_of_lt (x := sz) (by omega)
      dsimp only
      omega
    · exact written_extent e log tracks off sz buf exact_
    · exact written_bytes e e' log tracks off sz buf exact_ kmalloc copied grown

theorem read_bytes (e : Entry) (sound : Sound e) (off sz : Word) :
    (blackRamfsRead e off sz).1.length = min sz.toNat (e.length.toNat - off.toNat) ∧
    (blackRamfsRead e off sz).2 = (blackRamfsRead e off sz).1.length ∧
    ∀ k < (blackRamfsRead e off sz).1.length, ∃ d, e.data = some d ∧
      (blackRamfsRead e off sz).1[k]? = some (d (off + word k)) := by
  have bounds := sound_bounds e sound
  have limit : blackRamfsMaxFilesize.toNat = 2^20 := by decide
  rw [BitVec.le_def,BitVec.le_def,limit] at bounds
  rcases sound with ⟨data,_,length⟩ | ⟨d,data,_⟩
  · have read : blackRamfsRead e off sz = ([],0) := by rw [blackRamfsRead,data]
    have zero : (0 : Word).toNat = 0 := rfl
    rw [read,length,zero,Nat.zero_sub,Nat.min_zero]
    exact ⟨rfl,rfl,nofun⟩
  · by_cases past : off ≥ e.length
    · have read : blackRamfsRead e off sz = ([],0) := by
        simp only [blackRamfsRead,data,if_pos past]
      have none : e.length.toNat - off.toNat = 0 := Nat.sub_eq_zero_of_le (BitVec.le_def.mp past)
      rw [read,none,Nat.min_zero]
      exact ⟨rfl,rfl,nofun⟩
    · have before := BitVec.lt_def.mp (BitVec.not_le.mp past)
      have avail : (e.length - off).toNat = e.length.toNat - off.toNat :=
        BitVec.toNat_sub_of_le (BitVec.le_def.mpr (Nat.le_of_lt before))
      obtain ⟨n,read,value⟩ : ∃ n : Word, blackRamfsRead e off sz =
          ((List.range n.toNat).map fun i => d (off + word i),n.toInt) ∧
          n.toNat = min sz.toNat (e.length.toNat - off.toNat) := by
        refine ⟨if sz > e.length - off then e.length - off else sz,?_,?_⟩
        · simp only [blackRamfsRead,data,if_neg past]
        · split
          · rename_i more
            have above := BitVec.lt_def.mp more
            rw [avail] at above ⊢
            omega
          · rename_i less
            have below := BitVec.le_def.mp (BitVec.not_lt.mp less)
            rw [avail] at below
            omega
      have signed := BitVec.toInt_eq_toNat_of_lt (x := n) (by omega)
      rw [read]
      dsimp only
      rw [List.length_map,List.length_range]
      refine ⟨value,signed,fun k inside => ⟨d,data,?_⟩⟩
      rw [List.getElem?_map,List.getElem?_range inside]
      rfl

structure System.Inv (s : System) : Prop where
  fresh : ∀ f, s.tree.next ≤ f → s.log f = []
  files : ∀ f, Tracks (s.tree.entries f) (s.log f)

theorem start_inv : System.start.Inv := by
  refine ⟨fun _ _ => rfl,fun f => ?_⟩
  by_cases root : f = 0
  · rw [root]
    exact tracks_zero _ _
  · have other : System.start.tree.entries f = Entry.zero :=
      Function.update_of_ne root _ fun _ => Entry.zero
    rw [other]
    exact tracks_zero _ _

/-- The write that a call makes: the file, what goes where, and what `kmalloc` returns. -/
def Call.writing (s : System) : Call → Option (Nat × Record × Option Block)
  | .write f off sz buf kmalloc => some (f,⟨off,sz,buf⟩,kmalloc)
  | .append f sz buf kmalloc => some (f,⟨(s.tree.entries f).length,sz,buf⟩,kmalloc)
  | _ => none

/-- The end of a write does not pass the last offset. -/
def Call.Fits (s : System) (c : Call) : Prop :=
  ∀ f r kmalloc, c.writing s = some (f,r,kmalloc) → r.off.toNat + r.sz.toNat < 2^32

def Call.target : Call → Option Nat
  | .create _ _ _ _ => none
  | .read f _ _ => some f
  | .write f _ _ _ _ => some f
  | .append f _ _ _ => some f
  | .truncate f => some f

theorem append_file (e : Entry) (file : e.isFile = true) (sz : Word) (buf : Block) (kmalloc : Option Block) :
    blackVfsAppend e sz buf kmalloc = blackRamfsWrite e e.length sz buf kmalloc := by
  rw [blackVfsAppend,if_pos file]

theorem step_writing (s : System) (c : Call) (s' : System) (step : s.step c = some s') (f : Nat) (r : Record)
    (kmalloc : Option Block) (writing : c.writing s = some (f,r,kmalloc)) :
    ∃ o, c.target = some f ∧ s.tree.IsFile f ∧
      blackRamfsWrite (s.tree.entries f) r.off r.sz r.buf kmalloc = some o ∧ s' = s.written f r o := by
  cases c with
  | create n name type kcalloc => cases writing
  | read g off sz => cases writing
  | write g off sz buf k =>
    cases writing
    obtain ⟨file,wrote⟩ := Option.ite_none_right_eq_some.mp step
    obtain ⟨o,written,rfl⟩ := Option.map_eq_some_iff.mp wrote
    exact ⟨o,rfl,file,written,rfl⟩
  | append g sz buf k =>
    cases writing
    obtain ⟨file,wrote⟩ := Option.ite_none_right_eq_some.mp step
    obtain ⟨o,written,rfl⟩ := Option.map_eq_some_iff.mp wrote
    rw [append_file _ file.2] at written
    exact ⟨o,rfl,file,written,rfl⟩
  | truncate g => cases writing

/-- Everything a call can do: create an entry, empty a file, write to a file, or nothing. -/
theorem step_cases (s : System) (c : Call) (s' : System) (step : s.step c = some s') :
    s' = s ∨
    (∃ n name type, c.target = none ∧ s.tree.IsDirectory n ∧
      s' = {s with tree := (blackRamfsCreate s.tree n name type true).1} ∧
      (s.tree.entries n).children.length < blackRamfsMaxChildren) ∨
    (∃ f r kmalloc o, c.target = some f ∧ c.writing s = some (f,r,kmalloc) ∧ s.tree.IsFile f ∧
      blackRamfsWrite (s.tree.entries f) r.off r.sz r.buf kmalloc = some o ∧ s' = s.written f r o) ∨
    ∃ f, c = .truncate f ∧ s.tree.IsFile f ∧
      s' = ⟨{s.tree with entries := Function.update s.tree.entries f (blackVfsTruncate (s.tree.entries f))},
        Function.update s.log f []⟩ := by
  cases c with
  | create n name type kcalloc =>
    obtain ⟨directory,made⟩ := Option.ite_none_right_eq_some.mp step
    obtain rfl := Option.some.inj made
    by_cases many : (s.tree.entries n).children.length ≥ blackRamfsMaxChildren
    · left
      rw [blackRamfsCreate,if_pos many]
    · cases kcalloc with
      | false =>
        left
        rw [blackRamfsCreate,if_neg many,if_pos rfl]
      | true => exact .inr (.inl ⟨n,name,type,rfl,directory,rfl,by omega⟩)
  | read f off sz =>
    obtain ⟨_,same⟩ := Option.ite_none_right_eq_some.mp step
    exact .inl (Option.some.inj same).symm
  | write f off sz buf kmalloc =>
    obtain ⟨o,target,rest⟩ := step_writing s _ s' step f ⟨off,sz,buf⟩ kmalloc rfl
    exact .inr (.inr (.inl ⟨f,⟨off,sz,buf⟩,kmalloc,o,target,rfl,rest⟩))
  | append f sz buf kmalloc =>
    obtain ⟨o,target,rest⟩ := step_writing s _ s' step f ⟨_,sz,buf⟩ kmalloc rfl
    exact .inr (.inr (.inl ⟨f,⟨_,sz,buf⟩,kmalloc,o,target,rfl,rest⟩))
  | truncate f =>
    obtain ⟨file,emptied⟩ := Option.ite_none_right_eq_some.mp step
    obtain rfl := Option.some.inj emptied
    exact .inr (.inr (.inr ⟨f,rfl,file,rfl⟩))

theorem create_entries (s : Tree) (n : Nat) (name : List Byte) (type : Word)
    (few : (s.entries n).children.length < blackRamfsMaxChildren) (g : Nat) :
    (blackRamfsCreate s n name type true).1.entries g =
      if g = n then {s.entries n with children := (s.entries n).children ++ [s.next]}
      else if g = s.next then {Entry.zero with name := name.take (vfsMaxName - 1), flags := type}
      else s.entries g := by
  have many : ¬ (s.entries n).children.length ≥ blackRamfsMaxChildren := by omega
  rw [blackRamfsCreate,if_neg many,if_neg nofun]
  dsimp only
  by_cases parent : g = n
  · rw [parent,if_pos rfl,Function.update_self]
  · rw [if_neg parent,Function.update_of_ne parent]
    by_cases child : g = s.next
    · rw [child,if_pos rfl,Function.update_self]
    · rw [if_neg child,Function.update_of_ne child]

theorem create_next (s : Tree) (n : Nat) (name : List Byte) (type : Word)
    (few : (s.entries n).children.length < blackRamfsMaxChildren) :
    (blackRamfsCreate s n name type true).1.next = s.next + 1 := by
  have many : ¬ (s.entries n).children.length ≥ blackRamfsMaxChildren := by omega
  rw [blackRamfsCreate,if_neg many,if_neg nofun]

theorem create_inv (s : System) (inv : s.Inv) (n : Nat) (name : List Byte) (type : Word)
    (few : (s.tree.entries n).children.length < blackRamfsMaxChildren) :
    System.Inv {s with tree := (blackRamfsCreate s.tree n name type true).1} := by
  have entries := create_entries s.tree n name type few
  refine ⟨fun f above => ?_,fun f => ?_⟩
  · dsimp only at above
    rw [create_next s.tree n name type few] at above
    exact inv.fresh f (by omega)
  · dsimp only
    rw [entries f]
    split
    · rename_i parent
      have before := inv.files n
      rw [parent]
      exact ⟨before.sound,before.length,before.bytes⟩
    · split
      · rename_i child
        rw [child,inv.fresh s.tree.next (Nat.le_refl _)]
        exact tracks_zero _ _
      · exact inv.files f

theorem written_inv (s : System) (inv : s.Inv) (f : Nat) (file : s.tree.IsFile f) (r : Record) (o : Outcome)
    (done : (o.result = -1 ∧ o.entry = s.tree.entries f) ∨ (o.result ≠ -1 ∧ Tracks o.entry (r :: s.log f))) :
    (s.written f r o).Inv := by
  rcases done with ⟨failed,same⟩ | ⟨success,tracks⟩
  · rw [System.written,if_pos failed,same,Function.update_eq_self]
    exact inv
  · rw [System.written,if_neg success]
    refine ⟨fun g above => ?_,fun g => ?_⟩
    · have other : g ≠ f := by
        have low := file.1
        dsimp only at above
        omega
      dsimp only
      rw [Function.update_of_ne other]
      exact inv.fresh g above
    · dsimp only
      by_cases same : g = f
      · rw [same,Function.update_self,Function.update_self]
        exact tracks
      · rw [Function.update_of_ne same,Function.update_of_ne same]
        exact inv.files g

theorem truncate_tracks (e : Entry) (sound : Sound e) : Tracks (blackVfsTruncate e) [] := by
  refine ⟨?_,rfl,nofun⟩
  rcases sound with ⟨data,capacity,_⟩ | ⟨d,data,k,small,capacity,_⟩
  · exact .inl ⟨data,capacity,rfl⟩
  · exact .inr ⟨d,data,k,small,capacity,BitVec.le_def.mpr (Nat.zero_le _)⟩

theorem step_inv (s : System) (inv : s.Inv) (c : Call) (fits : c.Fits s) (s' : System)
    (step : s.step c = some s') : s'.Inv := by
  rcases step_cases s c s' step with rfl | ⟨n,name,type,_,_,rfl,few⟩ |
    ⟨f,r,kmalloc,o,_,writing,file,written,rfl⟩ | ⟨f,_,file,rfl⟩
  · exact inv
  · exact create_inv s inv n name type few
  · have inside := fits f r kmalloc writing
    rcases write_tracks _ _ (inv.files f) r.off r.sz r.buf kmalloc inside with
      ⟨_,failed⟩ | ⟨o',_,_,done,success,tracks⟩
    · obtain rfl := Option.some.inj (failed.symm.trans written)
      exact written_inv s inv f file r _ (.inl ⟨rfl,rfl⟩)
    · obtain rfl := Option.some.inj (done.symm.trans written)
      exact written_inv s inv f file r _ (.inr ⟨success,tracks⟩)
  · refine ⟨fun g above => ?_,fun g => ?_⟩
    · dsimp only
      by_cases same : g = f
      · rw [same,Function.update_self]
      · rw [Function.update_of_ne same]
        exact inv.fresh g above
    · dsimp only
      by_cases same : g = f
      · rw [same,Function.update_self,Function.update_self]
        exact truncate_tracks _ (inv.files f).sound
      · rw [Function.update_of_ne same,Function.update_of_ne same]
        exact inv.files g

/-- A call leaves every other file and its writes as they are. -/
theorem step_other (s : System) (c : Call) (s' : System) (step : s.step c = some s') (g : Nat)
    (file : s.tree.IsFile g) (other : c.target ≠ some g) :
    s'.tree.entries g = s.tree.entries g ∧ s'.log g = s.log g := by
  rcases step_cases s c s' step with rfl | ⟨n,name,type,_,directory,rfl,few⟩ |
    ⟨f,r,kmalloc,o,target,_,_,_,rfl⟩ | ⟨f,rfl,_,rfl⟩
  · exact ⟨rfl,rfl⟩
  · have notParent : g ≠ n := by
      intro same
      have kind := file.2
      rw [same,directory.2] at kind
      cases kind
    have old := file.1
    refine ⟨?_,rfl⟩
    dsimp only
    rw [create_entries s.tree n name type few g,if_neg notParent,if_neg (by omega)]
  · have apart : g ≠ f := by
      intro same
      rw [same] at other
      exact other target
    refine ⟨Function.update_of_ne apart _ _,?_⟩
    rw [System.written]
    dsimp only
    split
    · rfl
    · exact Function.update_of_ne apart _ _
  · have apart : g ≠ f := by
      intro same
      rw [same] at other
      exact other rfl
    exact ⟨Function.update_of_ne apart _ _,Function.update_of_ne apart _ _⟩

/-- A call without truncation whose write, if it makes one, ends within the offsets. -/
def PlainNext (s : System) (c : Call) (s' : System) : Prop :=
  c.Fits s ∧ (∀ f, c ≠ .truncate f) ∧ s.step c = some s'

/-- A read returns the bytes that there are, and where a write has been, its byte. -/
def Reads (e : Entry) (log : List Record) (off sz : Word) : Prop :=
  (blackRamfsRead e off sz).1.length = min sz.toNat (e.length.toNat - off.toNat) ∧
  (blackRamfsRead e off sz).2 = (blackRamfsRead e off sz).1.length ∧
  ∀ k < (blackRamfsRead e off sz).1.length, ∀ b, latest log (off + word k) = some b →
    (blackRamfsRead e off sz).1[k]? = some b

/-- A write ends; it fails when it passes a megabyte or finds no block, and then changes nothing. -/
def Writes (e : Entry) (off sz : Word) (buf : Block) (kmalloc : Option Block) : Prop :=
  ∃ o, blackRamfsWrite e off sz buf kmalloc = some o ∧ (o.result = -1 → o.entry = e) ∧
    (o.result = -1 ↔ 2^20 < off.toNat + sz.toNat ∨
      (e.capacity.toNat < off.toNat + sz.toNat ∧ kmalloc = none))

theorem tracks_reads (e : Entry) (log : List Record) (tracks : Tracks e log) (off sz : Word) :
    Reads e log off sz := by
  obtain ⟨length,result,bytes⟩ := read_bytes e tracks.sound off sz
  refine ⟨length,result,fun k inside b covered => ?_⟩
  obtain ⟨d,data,here⟩ := bytes k inside
  obtain ⟨d',data',value⟩ := tracks.bytes _ b covered
  obtain rfl := Option.some.inj (data.symm.trans data')
  rw [here,value]

theorem tracks_writes (e : Entry) (log : List Record) (tracks : Tracks e log) (off sz : Word) (buf : Block)
    (kmalloc : Option Block) (fits : off.toNat + sz.toNat < 2^32) : Writes e off sz buf kmalloc := by
  rcases write_tracks e log tracks off sz buf kmalloc fits with ⟨why,failed⟩ | ⟨o,end_,room,done,success,_⟩
  · exact ⟨_,failed,fun _ => rfl,fun _ => why,fun _ => rfl⟩
  · refine ⟨o,done,fun failed => absurd failed success,fun failed => absurd failed success,fun why => ?_⟩
    rcases why with large | ⟨more,none⟩
    · omega
    · rcases room with enough | given
      · omega
      · exact absurd none given

/-- Files are byte arrays: over every run, the length is the largest end of a write, a read
sees the latest write over each position, and no call touches another file. -/
theorem files_arrays (calls : List Call) (s : System) (run : Steps PlainNext System.start calls s) :
    (∀ f, s.tree.IsFile f →
      (s.tree.entries f).length.toNat = extent (s.log f) ∧
      (s.tree.entries f).length ≤ (s.tree.entries f).capacity ∧
      (s.tree.entries f).capacity ≤ blackRamfsMaxFilesize ∧
      (∀ off sz, Reads (s.tree.entries f) (s.log f) off sz) ∧
      ∀ sz buf kmalloc,
        (∀ off : Word, off.toNat + sz.toNat < 2^32 → Writes (s.tree.entries f) off sz buf kmalloc) ∧
        blackVfsAppend (s.tree.entries f) sz buf kmalloc =
          blackRamfsWrite (s.tree.entries f) (s.tree.entries f).length sz buf kmalloc) ∧
    ∀ c s', PlainNext s c s' → ∀ g, s.tree.IsFile g → c.target ≠ some g →
      s'.tree.entries g = s.tree.entries g ∧ s'.log g = s.log g := by
  have inv := run.invariant System.Inv start_inv fun s c s' inv step => step_inv s inv c step.1 s' step.2.2
  refine ⟨fun f file => ?_,fun c s' next g file other => step_other s c s' next.2.2 g file other⟩
  have tracks := inv.files f
  have bounds := sound_bounds _ tracks.sound
  refine ⟨tracks.length,bounds.1,bounds.2,tracks_reads _ _ tracks,fun sz buf kmalloc => ⟨?_,?_⟩⟩
  · exact fun off fits => tracks_writes _ _ tracks off sz buf kmalloc fits
  · exact append_file _ file.2 sz buf kmalloc

/-- A file of one call that writes two bytes past the start. -/
def sample : List Call :=
  [.create 0 [0x61] 1 true,.write 1 3 2 (fun i => if i = 0 then 0x41 else 0x42) (some fun _ => 0x55)]

theorem sample_run : ∃ s, Steps PlainNext System.start sample s ∧ s.tree.IsFile 1 ∧
    s.log 1 = [⟨3,2,fun i => if i = 0 then 0x41 else 0x42⟩] := by
  refine ⟨_,.snoc [_] _ _ _ (.snoc [] _ _ _ .nil ⟨?_,nofun,rfl⟩) ⟨?_,nofun,rfl⟩,?_,rfl⟩
  · intro f r kmalloc writing
    cases writing
  · intro f r kmalloc writing
    cases writing
    decide
  · decide

theorem files_arrays_sample : ∃ s, Steps PlainNext System.start sample s ∧ s.tree.IsFile 1 ∧
    (s.tree.entries 1).length.toNat = 5 ∧ (blackRamfsRead (s.tree.entries 1) 3 9).1[1]? = some 0x42 := by
  obtain ⟨s,run,file,log⟩ := sample_run
  obtain ⟨files,_⟩ := files_arrays sample s run
  obtain ⟨length,_,_,reads,_⟩ := files 1 file
  rw [log] at length reads
  have value : (s.tree.entries 1).length.toNat = 5 := length.trans (by decide)
  refine ⟨s,run,file,value,?_⟩
  have two := (reads 3 9).1
  rw [value] at two
  exact (reads 3 9).2.2 1 (by rw [two]; decide) 0x42 (by decide)

end BlackOS.Ramfs
