import BlackOS.Syscall
import BlackOS.FileSystems
import BlackOS.Library.Cuts
import BlackOS.Library.Simulation

/-! Reads of one descriptor of a ramfs file, among reads of other descriptors. -/
namespace BlackOS.SyscallReads
open BlackOS.Library.Ram BlackOS.Library.Cuts BlackOS.Library.Simulation BlackOS.Library.Run
open BlackOS.LibcString BlackOS.Process BlackOS.Vfs BlackOS.Syscall BlackOS.FileSystems
open BlackOS.Ramfs (Entry System Sound blackRamfsRead)

def contents (e : Entry) : List Byte :=
  match e.data with
  | none => []
  | some d => (List.range e.length.toNat).map fun i => d (word i)

theorem contents_length (e : Entry) (sound : Sound e) : (contents e).length = e.length.toNat := by
  rw [contents]
  rcases sound with empty | filled
  · rw [empty.1,empty.2.2]
    rfl
  · obtain ⟨d,data,_⟩ := filled
    rw [data,List.length_map,List.length_range]

/-- A read is a piece of the file. -/
theorem read_piece (e : Entry) (sound : Sound e) (off sz : Word) :
    (blackRamfsRead e off sz).1 = ((contents e).drop off.toNat).take sz.toNat := by
  obtain ⟨length,_,bytes⟩ := Ramfs.read_bytes e sound off sz
  apply List.ext_getElem
  · rw [length,List.length_take,List.length_drop,contents_length e sound]
  · intro k left right
    obtain ⟨d,data,byte⟩ := bytes k left
    rw [List.getElem?_eq_getElem left,Option.some_inj] at byte
    have place : off + word k = word (off.toNat + k) := by rw [← word_add,toNat_word]
    rw [byte,List.getElem_take,List.getElem_drop,place]
    simp only [contents,data,List.getElem_map,List.getElem_range]

structure ReadCall where
  fd : Word
  buf : Word
  sz : Word

/-- What the caller sees: the result, and as many bytes of its buffer. -/
structure Reply where
  result : Int
  bytes : List Byte

section Reads
variable (writes : Files → Node → Option (Memory → Word → Word → Word → Outcome Files)) (fd : Word)

/-- A read, with what is seen of the reads of one descriptor. -/
def step (k : Kernel Files Node) (c : ReadCall) : Option (Kernel Files Node × Option Reply) := do
  let (k,result) ← (blackSysRead (files writes) k c.fd c.buf c.sz).result
  let seen := ⟨result,(List.range result.toNat).map fun i => k.mem (c.buf + word i)⟩
  return (k,if c.fd = fd then some seen else none)

/-- The descriptor takes what is left from the front. -/
def takeStep (left : List Byte) (c : ReadCall) : List Byte × Option Reply :=
  if c.fd = fd then
    (left.drop c.sz.toNat,some ⟨(left.take c.sz.toNat).length,left.take c.sz.toNat⟩)
  else (left,none)

/-- The descriptor is open on the file, and this is left of it. -/
def Left (n : Nat) (e : Entry) (k : Kernel Files Node) (left : List Byte) : Prop :=
  ∃ inside : fd.toNat < 32, ∃ off flags, (k.table.procs 0).fdTable ⟨fd.toNat,inside⟩ = ⟨some (.ram n),off,flags,true⟩ ∧
    k.fs.tree.entries n = e ∧ left = (contents e).drop off.toNat ∧ off.toNat ≤ e.length.toNat

theorem setEntry_fdTable (k : Kernel Files Node) (p : Slot) (i : Fd) (e : FdEntry Node) :
    ((k.setEntry p i e).table.procs p).fdTable = Function.update (k.table.procs p).fdTable i e := by
  rw [Kernel.setEntry]
  dsimp only
  rw [Function.update_self]

/-- What `black_sys_read` does on the open file. -/
theorem read_here (n : Nat) (e : Entry) (sound : Sound e) (file : e.isFile = true) (k : Kernel Files Node)
    (inside : fd.toNat < 32) (off flags : Word)
    (here : (k.table.procs 0).fdTable ⟨fd.toNat,inside⟩ = ⟨some (.ram n),off,flags,true⟩)
    (entry : k.fs.tree.entries n = e) (buf sz : Word) :
    let piece := ((contents e).drop off.toNat).take sz.toNat
    ∃ k', (blackSysRead (files writes) k fd buf sz).result = some (k',(piece.length : Int)) ∧
      k'.fs = k.fs ∧ k'.mem = copyBytes k.mem buf piece ∧
      (k'.table.procs 0).fdTable ⟨fd.toNat,inside⟩ = ⟨some (.ram n),off + word piece.length,flags,true⟩ := by
  intro piece
  obtain ⟨_,result,_⟩ := Ramfs.read_bytes e sound off sz
  have bounds := Ramfs.sound_bounds e sound
  have limit : Ramfs.blackRamfsMaxFilesize.toNat = 2^20 := by decide
  rw [BitVec.le_def,BitVec.le_def,limit] at bounds
  have short : piece.length ≤ e.length.toNat := by
    rw [List.length_take,List.length_drop,contents_length e sound]
    omega
  have made : blackVfsRead (files writes) k.fs k.mem (some (.ram n)) off sz buf =
      ⟨k.fs,copyBytes k.mem buf piece,word piece.length⟩ := by
    rw [ram_read writes k.fs n (by rw [entry]; exact file),entry,result,read_piece e sound off sz,
      BitVec.ofInt_natCast]
    rfl
  have count : (word piece.length).toInt = piece.length := by
    have exactly : (word piece.length).toNat = piece.length := word_toNat _ (by omega)
    rw [BitVec.toInt_eq_toNat_of_lt (by omega),exactly]
  rw [blackSysRead,transfer_inside k (blackVfsRead (files writes) k.fs k.mem) fd buf sz inside _ here _ made,
    if_neg nofun,count]
  by_cases some : 0 < (piece.length : Int)
  · rw [if_pos some]
    refine ⟨_,rfl,rfl,rfl,?_⟩
    rw [setEntry_fdTable,Function.update_self]
  · rw [if_neg some]
    have none : piece.length = 0 := by omega
    have stay : off + word piece.length = off := by
      rw [none]
      exact BitVec.add_zero off
    rw [stay]
    exact ⟨_,rfl,rfl,rfl,here⟩

theorem read_tree (fs : Files) (mem : Memory) (n : Option Node) (off sz buf : Word) :
    (blackVfsRead (files writes) fs mem n off sz buf).fs.tree = fs.tree := by
  rw [blackVfsRead]
  split
  · rename_i read found
    obtain ⟨node,_,found⟩ := Option.bind_eq_some_iff.mp found
    rw [files] at found
    dsimp only at found
    cases node with
    | ram n =>
      obtain ⟨_,same⟩ := Option.ite_none_right_eq_some.mp found
      rw [← Option.some.inj same]
    | dev n =>
      obtain ⟨_,_,same⟩ := Option.map_eq_some_iff.mp found
      rw [← same]
    | proc n =>
      obtain ⟨_,_,same⟩ := Option.map_eq_some_iff.mp found
      rw [← same]
  · rfl

/-- What `black_sys_read` leaves of another descriptor and of the files. -/
theorem read_elsewhere (k : Kernel Files Node) (other buf sz : Word) (apart : other ≠ fd) (inside : fd.toNat < 32) :
    ∃ k' result, (blackSysRead (files writes) k other buf sz).result = some (k',result) ∧
      k'.fs.tree = k.fs.tree ∧
      (k'.table.procs 0).fdTable ⟨fd.toNat,inside⟩ = (k.table.procs 0).fdTable ⟨fd.toNat,inside⟩ := by
  rw [blackSysRead]
  by_cases valid : other.toNat < 32
  · rw [transfer_inside k (blackVfsRead (files writes) k.fs k.mem) other buf sz valid _ rfl _ rfl]
    have tree := read_tree writes k.fs k.mem ((k.table.procs 0).fdTable ⟨other.toNat,valid⟩).node
      ((k.table.procs 0).fdTable ⟨other.toNat,valid⟩).offset sz buf
    split
    · exact ⟨k,-1,rfl,rfl,rfl⟩
    · split
      · refine ⟨_,_,rfl,tree,?_⟩
        rw [setEntry_fdTable,Function.update_of_ne]
        · rfl
        · intro same
          exact apart (BitVec.eq_of_toNat_eq (congrArg Fin.val same).symm)
      · exact ⟨_,_,rfl,tree,rfl⟩
  · rw [transfer_outside k _ other buf sz valid]
    exact ⟨k,-1,rfl,rfl,rfl⟩

theorem left_simulates (n : Nat) (e : Entry) (sound : Sound e) (file : e.isFile = true) :
    Simulates (fun _ _ => True) (Left fd n e) (step writes fd) (takeStep fd) := by
  intro k left c open_ _
  obtain ⟨inside,off,flags,here,entry,rest,below⟩ := open_
  by_cases mine : c.fd = fd
  · obtain ⟨k',read,files,mem,there⟩ := read_here writes fd n e sound file k inside off flags here entry c.buf c.sz
    have bounds := Ramfs.sound_bounds e sound
    have limit : Ramfs.blackRamfsMaxFilesize.toNat = 2^20 := by decide
    rw [BitVec.le_def,BitVec.le_def,limit] at bounds
    have size := contents_length e sound
    rw [← rest] at read mem there
    have length : (left.take c.sz.toNat).length = min c.sz.toNat (e.length.toNat - off.toNat) := by
      rw [List.length_take,rest,List.length_drop,size]
    have next : (off + word (left.take c.sz.toNat).length).toNat = off.toNat + (left.take c.sz.toNat).length := by
      rw [BitVec.toNat_add,word_toNat _ (by omega)]
      exact Nat.mod_eq_of_lt (by omega)
    refine ⟨k',?_,inside,_,flags,there,by rw [files]; exact entry,?_,by omega⟩
    · rw [step,mine,read,takeStep,if_pos mine]
      change some (k',if fd = fd then some (⟨_,(List.range (left.take c.sz.toNat).length).map _⟩ : Reply) else none) = _
      rw [if_pos rfl,mem,copyBytes_back _ k.mem c.buf (by omega)]
    · rw [takeStep,if_pos mine,next,← List.drop_drop,← rest,List.length_take]
      rcases Nat.le_total c.sz.toNat left.length with enough | short
      · rw [Nat.min_eq_left enough]
      · rw [Nat.min_eq_right short,List.drop_length]
        exact List.drop_eq_nil_of_le short
  · obtain ⟨k',result,read,tree,there⟩ := read_elsewhere writes fd k c.fd c.buf c.sz mine inside
    refine ⟨k',?_,inside,off,flags,there.trans here,by rw [tree]; exact entry,?_,below⟩
    · rw [step,read,takeStep,if_neg mine]
      change some (k',if c.fd = fd then _ else none) = _
      rw [if_neg mine]
    · rw [takeStep,if_neg mine]
      exact rest

def sizes (calls : List ReadCall) : List Nat := (calls.filter fun c => c.fd = fd).map fun c => c.sz.toNat

theorem take_replies (left : List Byte) (calls : List ReadCall) :
    (replies (takeStep fd) left calls).2.filterMap id =
      (cuts left (sizes fd calls)).map fun piece => ⟨piece.length,piece⟩ := by
  induction calls generalizing left with
  | nil => rfl
  | cons c calls ih =>
    rw [replies]
    by_cases mine : c.fd = fd
    · have more : sizes fd (c::calls) = c.sz.toNat::sizes fd calls := by
        rw [sizes,List.filter_cons,if_pos (decide_eq_true mine)]
        rfl
      rw [more,cuts,List.map_cons,takeStep,if_pos mine,← ih (left.drop c.sz.toNat)]
      rfl
    · have same : sizes fd (c::calls) = sizes fd calls := by
        rw [sizes,List.filter_cons,if_neg fun yes => mine (of_decide_eq_true yes)]
        rfl
      rw [same,takeStep,if_neg mine]
      exact ih left

/-- A descriptor that `black_sys_open` returns has the whole file left. -/
theorem open_left (k k₁ : Kernel Files Node) (path flags : Word) (n : Nat)
    (found : lookup (files writes) k path = some (.ram n))
    (opened : (blackSysOpen (files writes) k path flags).result = some (k₁,(fd.toNat : Int))) :
    Left fd n (k.fs.tree.entries n) k₁ (contents (k.fs.tree.entries n)) := by
  rw [open_found (files writes) k path flags (.ram n) found] at opened
  split at opened
  · cases opened
  · rename_i i free
    obtain ⟨same,number⟩ := Prod.mk.inj (Option.some.inj opened)
    have place : fd.toNat = i.val := (Int.ofNat_inj.mp number).symm
    have inside : fd.toNat < 32 := by
      rw [place]
      exact i.isLt
    refine ⟨inside,0,flags,?_,?_,rfl,Nat.zero_le _⟩
    · rw [← same,show (⟨fd.toNat,inside⟩ : Fd) = i from Fin.ext place]
      change ((k.setEntry 0 i ⟨some (.ram n),0,flags,true⟩).table.procs 0).fdTable i = _
      rw [setEntry_fdTable,Function.update_self]
    · rw [← same]
      rfl

/-- Reads of a descriptor return the bytes of the file in their order, however they are cut and
whatever is read from other descriptors between them. -/
theorem reads_reassemble (made : List Ramfs.Call) (sys : System)
    (run : Steps (fun s c s' => s.step c = some s') System.start made sys)
    (k k₁ : Kernel Files Node) (tree : k.fs.tree = sys.tree) (path flags : Word) (n : Nat)
    (found : lookup (files writes) k path = some (.ram n)) (file : (k.fs.tree.entries n).isFile = true)
    (opened : (blackSysOpen (files writes) k path flags).result = some (k₁,(fd.toNat : Int))) (calls : List ReadCall) :
    let content := contents (k.fs.tree.entries n)
    let asked := sizes fd calls
    content.length = (k.fs.tree.entries n).length.toNat ∧
    ∃ k₂ seen, answers (step writes fd) k₁ calls = some (k₂,seen) ∧
      (seen.filterMap id).length = asked.length ∧
      ((seen.filterMap id).map Reply.bytes).flatten = content.take (min content.length asked.sum) ∧
      ∀ i size, asked[i]? = some size → ∃ reply, (seen.filterMap id)[i]? = some reply ∧
        reply.result = reply.bytes.length ∧ reply.bytes.length = min size (content.length - (asked.take i).sum) := by
  intro content asked
  have sound : Sound (k.fs.tree.entries n) := by
    rw [tree]
    exact run.invariant (fun s => ∀ f, Sound (s.tree.entries f)) (fun f => (Ramfs.start_inv.files f).sound)
      (fun s c s' sound step => Ramfs.step_sound s sound c s' step) n
  refine ⟨contents_length _ sound,?_⟩
  obtain ⟨k₂,answered,_⟩ := (left_simulates writes fd n _ sound file).answers calls k₁ content
    (open_left writes fd k k₁ path flags n found opened) (along_always _ k₁ calls)
  refine ⟨k₂,_,answered,?_,?_,fun i size here => ?_⟩
  · rw [take_replies,List.length_map,cuts_size]
  · rw [take_replies,List.map_map]
    change ((cuts content asked).map id).flatten = _
    rw [List.map_id,cuts_flatten,List.take_eq_take_iff]
    omega
  · obtain ⟨inside,same⟩ := List.getElem?_eq_some_iff.mp here
    have piece : i < (cuts content asked).length := by
      rw [cuts_size]
      exact inside
    have length := cuts_length content asked i piece inside
    rw [same] at length
    refine ⟨⟨(cuts content asked)[i].length,(cuts content asked)[i]⟩,?_,rfl,length⟩
    rw [take_replies,List.getElem?_map,List.getElem?_eq_getElem piece]
    rfl

end Reads

/-- A file `/a` with the bytes "abc". -/
def note : System :=
  ((System.start.step (.create 0 [0x61] 1 true)).bind fun s =>
    s.step (.write 1 0 3 (fun i => 0x61 + i.setWidth 8) (some fun _ => 0x55))).getD System.start

theorem note_run : Steps (fun s c s' => s.step c = some s') System.start
    [.create 0 [0x61] 1 true,.write 1 0 3 (fun i => 0x61 + i.setWidth 8) (some fun _ => 0x55)] note :=
  .snoc [_] _ _ _ (.snoc [] _ _ _ .nil rfl) rfl

/-- The text "/a" is at address 0x1000. -/
def noteKernel : Kernel Files Node where
  table := blackProcessInit image 0
  vfs := blackVfsSetRoot blackVfsInit (some (.ram 0))
  fs := ⟨note.tree,0,⟨0,0,0,0⟩⟩
  mem a := ([0x2F,0x61] : List Byte).getD (a - 0x1000).toNat 0

theorem reads_reassemble_twice :
    ∃ k₁, (blackSysOpen (files fun _ _ => none) noteKernel 0x1000 0).result = some (k₁,0) ∧
      ∃ k₂ seen, answers (step (fun _ _ => none) 0) k₁ [⟨0,0x2000,2⟩,⟨7,0x2000,1⟩,⟨0,0x2000,2⟩] = some (k₂,seen) ∧
        ((seen.filterMap id).map Reply.bytes).flatten = [0x61,0x62,0x63] := by
  obtain ⟨_,k₂,seen,answered,_,bytes,_⟩ := reads_reassemble (fun _ _ => none) 0 _ note note_run noteKernel _ rfl 0x1000 0 1
    rfl rfl rfl [⟨0,0x2000,2⟩,⟨7,0x2000,1⟩,⟨0,0x2000,2⟩]
  exact ⟨_,rfl,k₂,seen,answered,bytes⟩

end BlackOS.SyscallReads
