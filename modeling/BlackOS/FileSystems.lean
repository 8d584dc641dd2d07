import BlackOS.VfsNodes
import BlackOS.RamfsBuffer
import Mathlib.Data.Nat.Digits.Lemmas

/-! The files of `kernel/fs/procfs.c`, and the nodes of the three file systems behind the functions of
`kernel/fs/vfs.c`. The function that writes to a node is left open here. -/
namespace BlackOS.FileSystems
open BlackOS.Library.Ram BlackOS.Library.Run BlackOS.LibcText BlackOS.LibcString BlackOS.Vfs
open BlackOS.Ramfs (Tree System Sound blackRamfsRead)

section Procfs

/-- What the files of `/proc` show: `black_pit_get_uptime_ms` and the sizes that the frame allocator
counts. -/
structure Counters where
  uptimeMs : BitVec 64
  totalMemory : Word
  freeMemory : Word
  usedMemory : Word

inductive ProcFile
  | root
  | uptime
  | meminfo
  | version
  deriving DecidableEq

/-- The loops that put a number into `black_num` and take it out again, the last digit first. -/
def decimal (v : Word) : List Byte :=
  if v = 0 then [0x30] else ((Nat.digits 10 v.toNat).map fun digit => 0x30 + BitVec.ofNat 8 digit).reverse

def uptimeText (c : Counters) : List Byte := decimal ((c.uptimeMs / 1000).setWidth 32) ++ [0x0A]

def meminfoText (c : Counters) : List Byte :=
  [0x4D,0x65,0x6D,0x54,0x6F,0x74,0x61,0x6C,0x3A,0x20] ++ decimal (c.totalMemory / 1024) ++
  [0x20,0x6B,0x42,0x0A,0x4D,0x65,0x6D,0x46,0x72,0x65,0x65,0x3A,0x20] ++ decimal (c.freeMemory / 1024) ++
  [0x20,0x6B,0x42,0x0A,0x4D,0x65,0x6D,0x55,0x73,0x65,0x64,0x3A,0x20] ++ decimal (c.usedMemory / 1024) ++
  [0x20,0x6B,0x42,0x0A]

/-- "BlackOS PHANTOM v1.0.0\n". -/
def versionText : List Byte := [
  0x42,0x6C,0x61,0x63,0x6B,0x4F,0x53,0x20,0x50,0x48,0x41,0x4E,0x54,0x4F,0x4D,0x20,
  0x76,0x31,0x2E,0x30,0x2E,0x30,0x0A]

/-- The part that the three functions share, once they have their text. -/
def readText (text : List Byte) (c : Counters) (mem : Memory) (off sz buf : Word) : Outcome Counters :=
  let len := word text.length
  if len ≤ off then ⟨c,mem,0⟩
  else
    let avail := len - off
    let sz := if avail < sz then avail else sz
    ⟨c,copyBytes mem buf ((text.drop off.toNat).take sz.toNat),sz⟩

def blackProcfsUptimeRead (c : Counters) : Memory → Word → Word → Word → Outcome Counters := readText (uptimeText c) c

def blackProcfsMeminfoRead (c : Counters) : Memory → Word → Word → Word → Outcome Counters :=
  readText (meminfoText c) c

def blackProcfsVersionRead (c : Counters) : Memory → Word → Word → Word → Outcome Counters := readText versionText c

/-- The calls of `black_procfs_add`, in order. -/
def blackProcfsEntries : List (List Byte × ProcFile) := [
  ([0x75,0x70,0x74,0x69,0x6D,0x65],.uptime),
  ([0x6D,0x65,0x6D,0x69,0x6E,0x66,0x6F],.meminfo),
  ([0x76,0x65,0x72,0x73,0x69,0x6F,0x6E],.version)]

def blackProcfsFinddirFn (name : List Byte) : Option ProcFile :=
  (blackProcfsEntries.find? fun e => strcmp e.1 name == 0).map Prod.snd

/-- The nodes of `black_procfs_init`. -/
def procfs : Drivers Counters ProcFile where
  readFn c
    | .root => none
    | .uptime => some (blackProcfsUptimeRead c)
    | .meminfo => some (blackProcfsMeminfoRead c)
    | .version => some (blackProcfsVersionRead c)
  writeFn _ _ := none
  openFn _ _ := none
  closeFn _ _ := none
  finddirFn _ n name := if n = .root then blackProcfsFinddirFn name else none

end Procfs

section Nodes

inductive Node
  | ram (n : Nat)
  | dev (n : Device)
  | proc (n : ProcFile)
  deriving DecidableEq

structure Files where
  tree : Tree
  clock : Clock
  counters : Counters

def blackRamfsFinddir (s : Tree) (n : Nat) (name : List Byte) : Option Nat :=
  (s.entries n).children.find? fun c => strcmp (s.entries c).name name == 0

variable (writes : Files → Node → Option (Memory → Word → Word → Word → Outcome Files))

/-- The nodes that `black_ramfs_create`, `black_devfs_add` and `black_procfs_add` make: none of them has
a function for opening or closing it. -/
def files : Drivers Files Node where
  readFn fs
    | .ram n =>
      if (fs.tree.entries n).isFile then
        some fun mem off sz buf =>
          let (bytes,result) := blackRamfsRead (fs.tree.entries n) off sz
          ⟨fs,copyBytes mem buf bytes,BitVec.ofInt 32 result⟩
      else none
    | .dev n => (devfs.readFn fs.clock n).map fun read mem off sz buf =>
      let done := read mem off sz buf
      ⟨{fs with clock := done.fs},done.mem,done.value⟩
    | .proc n => (procfs.readFn fs.counters n).map fun read mem off sz buf =>
      let done := read mem off sz buf
      ⟨{fs with counters := done.fs},done.mem,done.value⟩
  writeFn := writes
  openFn _ _ := none
  closeFn _ _ := none
  finddirFn fs
    | .ram n,name => if (fs.tree.entries n).isFile then none else (blackRamfsFinddir fs.tree n name).map .ram
    | .dev n,name => (devfs.finddirFn fs.clock n name).map .dev
    | .proc n,name => (procfs.finddirFn fs.counters n name).map .proc

end Nodes

section Contract

/-- The result is a number of bytes up to the size of the buffer, and only so many bytes change. -/
def Contract {FS : Type} (mem : Memory) (sz buf : Word) (done : Outcome FS) : Prop :=
  0 ≤ done.value.toInt ∧ done.value.toInt ≤ sz.toNat ∧
    SameOutside buf.toNat (buf.toNat + done.value.toInt.toNat) mem done.mem

/-- A null device reads into a buffer of zeros, and the other devices into one of less than `2^31`
bytes. -/
def Met (mem : Memory) (sz buf : Word) : Node → Prop
  | .dev .null => ∀ x : Word, buf.toNat ≤ x.toNat → x.toNat < buf.toNat + sz.toNat → mem x = 0
  | .dev .zero => sz.toNat < 2^31
  | .dev .random => sz.toNat < 2^31
  | .dev .urandom => sz.toNat < 2^31
  | _ => True

/-- A function that fills the whole buffer and returns its size. -/
theorem filled_contract {FS : Type} (fs : FS) (mem mem' : Memory) (sz buf : Word)
    (within : SameOutside buf.toNat (buf.toNat + sz.toNat) mem mem') :
    Contract mem sz buf (⟨fs,mem',sz⟩ : Outcome FS) ↔ sz.toNat < 2^31 := by
  constructor
  · intro contract
    have positive : 0 ≤ sz.toInt := contract.1
    rw [BitVec.toInt_eq_toNat_cond] at positive
    split at positive
    · omega
    · have below := sz.isLt
      omega
  · intro small
    have signed : sz.toInt = sz.toNat := BitVec.toInt_eq_toNat_of_lt (by omega)
    refine ⟨?_,Int.le_of_eq signed,?_⟩
    · rw [signed]
      exact Int.natCast_nonneg _
    · dsimp only
      rw [signed,Int.toNat_natCast]
      exact within

section Reads
variable {FS : Type} (fs : FS) (mem : Memory) (sz buf : Word) (room : buf.toNat + sz.toNat ≤ 2^32)
include room

theorem copied_contract (bytes : List Byte) (value : Word) (fits : bytes.length ≤ sz.toNat)
    (count : value.toNat = bytes.length) (small : bytes.length < 2^31) :
    Contract mem sz buf (⟨fs,copyBytes mem buf bytes,value⟩ : Outcome FS) := by
  have signed : value.toInt = bytes.length := by
    rw [BitVec.toInt_eq_toNat_of_lt (by omega),count]
  refine ⟨?_,?_,?_⟩
  · rw [signed]
    exact Int.natCast_nonneg _
  · rw [signed]
    exact Int.ofNat_le.mpr fits
  · dsimp only
    rw [signed,Int.toNat_natCast]
    exact copyBytes_sameOutside bytes mem buf (by omega)

theorem null_contract : Contract mem sz buf (⟨fs,memset mem buf 0 sz,0⟩ : Outcome FS) ↔
    ∀ x : Word, buf.toNat ≤ x.toNat → x.toNat < buf.toNat + sz.toNat → mem x = 0 := by
  constructor
  · intro contract x low high
    have same : memset mem buf 0 sz x = mem x := contract.2.2 x (Or.inr low)
    rw [← same,memset_inside mem buf 0 sz x room low high]
    rfl
  · intro zeros
    refine ⟨Int.le_refl 0,Int.natCast_nonneg _,fun x _ => ?_⟩
    dsimp only
    by_cases inside : buf.toNat ≤ x.toNat ∧ x.toNat < buf.toNat + sz.toNat
    · rw [memset_inside mem buf 0 sz x room inside.1 inside.2,zeros x inside.1 inside.2]
      rfl
    · exact memset_sameOutside mem buf 0 sz room x (by omega)

theorem text_contract (text : List Byte) (small : text.length < 2^31) (c : Counters) (off : Word) :
    Contract mem sz buf (readText text c mem off sz buf) := by
  have len : (word text.length).toNat = text.length := word_toNat _ (by omega)
  rw [readText]
  by_cases past : word text.length ≤ off
  · rw [if_pos past]
    exact ⟨Int.le_refl 0,Int.natCast_nonneg _,SameOutside.refl _ _ mem⟩
  · rw [if_neg past]
    have before : off.toNat < text.length := by
      rw [← len]
      exact BitVec.not_le.mp past
    have avail : (word text.length - off).toNat = text.length - off.toNat := by
      rw [BitVec.toNat_sub_of_le (BitVec.le_of_lt (BitVec.not_le.mp past)),len]
    dsimp only
    generalize chosen : (if word text.length - off < sz then word text.length - off else sz) = count
    have most : count.toNat ≤ sz.toNat ∧ count.toNat ≤ text.length - off.toNat := by
      rw [← chosen,← avail]
      split
      · rename_i less
        exact ⟨Nat.le_of_lt less,Nat.le_refl _⟩
      · rename_i more
        exact ⟨Nat.le_refl _,Nat.le_of_not_lt more⟩
    have length : ((text.drop off.toNat).take count.toNat).length = count.toNat := by
      rw [List.length_take,List.length_drop]
      exact Nat.min_eq_left most.2
    exact copied_contract c mem sz buf room _ count (by omega) length.symm (by omega)

end Reads

theorem randomLoop_sameOutside (n : Nat) (seed : Word) (mem : Memory) (buf : Word) (room : buf.toNat + n ≤ 2^32) :
    SameOutside buf.toNat (buf.toNat + n) mem (randomLoop n seed mem buf) := by
  induction n generalizing seed mem buf with
  | zero => exact SameOutside.refl _ _ mem
  | succ n ih =>
    refine loop_sameOutside n mem _ buf _ room (fun zero => ?_) (ih (seed * 1103515245 + 12345) _ (buf + 1))
    rw [zero]
    rfl

theorem decimal_length (v : Word) : (decimal v).length ≤ 10 := by
  rw [decimal]
  split
  · decide
  · rw [List.length_reverse,List.length_map,Nat.digits_length_le_iff (by decide)]
    exact v.isLt.trans (by decide)

theorem uptime_length (c : Counters) : (uptimeText c).length ≤ 11 := by
  rw [uptimeText,List.length_append]
  exact Nat.add_le_add_right (decimal_length _) 1

theorem meminfo_length (c : Counters) : (meminfoText c).length ≤ 70 := by
  have total := decimal_length (c.totalMemory / 1024)
  have free := decimal_length (c.freeMemory / 1024)
  have used := decimal_length (c.usedMemory / 1024)
  simp only [meminfoText,List.length_append,List.length_cons,List.length_nil]
  omega

theorem ram_contract (fs : Files) (n : Nat) (sound : Sound (fs.tree.entries n)) (mem : Memory) (off sz buf : Word)
    (room : buf.toNat + sz.toNat ≤ 2^32) :
    let read := blackRamfsRead (fs.tree.entries n) off sz
    Contract mem sz buf (⟨fs,copyBytes mem buf read.1,BitVec.ofInt 32 read.2⟩ : Outcome Files) := by
  obtain ⟨length,result,_⟩ := Ramfs.read_bytes _ sound off sz
  have bounds := Ramfs.sound_bounds _ sound
  have limit : Ramfs.blackRamfsMaxFilesize.toNat = 2^20 := by decide
  rw [BitVec.le_def,BitVec.le_def,limit] at bounds
  refine copied_contract fs mem sz buf room (blackRamfsRead (fs.tree.entries n) off sz).1 _ (by omega) ?_ (by omega)
  rw [result,BitVec.ofInt_natCast,BitVec.toNat_ofNat]
  exact Nat.mod_eq_of_lt (by omega)

variable (writes : Files → Node → Option (Memory → Word → Word → Word → Outcome Files))

theorem ram_read (fs : Files) (n : Nat) (file : (fs.tree.entries n).isFile = true) (mem : Memory) (off sz buf : Word) :
    blackVfsRead (files writes) fs mem (some (.ram n)) off sz buf =
      ⟨fs,copyBytes mem buf (blackRamfsRead (fs.tree.entries n) off sz).1,
        BitVec.ofInt 32 (blackRamfsRead (fs.tree.entries n) off sz).2⟩ := by
  rw [blackVfsRead,Option.bind_some,files]
  dsimp only
  rw [if_pos file]

theorem proc_contract (fs : Files) (n : ProcFile) (text : List Byte) (small : text.length < 2^31)
    (served : procfs.readFn fs.counters n = some (readText text fs.counters)) (mem : Memory) (off sz buf : Word)
    (room : buf.toNat + sz.toNat ≤ 2^32) :
    Contract mem sz buf (blackVfsRead (files writes) fs mem (some (.proc n)) off sz buf) := by
  rw [blackVfsRead,Option.bind_some,files]
  dsimp only
  rw [served]
  exact text_contract mem sz buf room text small fs.counters off

/-- Reads of the three file systems keep the contract, but for those of the null device, which returns 0
and fills the buffer, and those of the other devices whose size is negative as an `int`. -/
theorem reads_contract_iff (calls : List Ramfs.Call) (sys : System)
    (run : Steps (fun s c s' => s.step c = some s') System.start calls sys) (fs : Files) (tree : fs.tree = sys.tree)
    (n : Node) (readable : (files writes).readFn fs n ≠ none) (mem : Memory) (off sz buf : Word)
    (room : buf.toNat + sz.toNat ≤ 2^32) :
    Contract mem sz buf (blackVfsRead (files writes) fs mem (some n) off sz buf) ↔ Met mem sz buf n := by
  cases n with
  | ram n =>
    have sound : Sound (fs.tree.entries n) := by
      rw [tree]
      exact run.invariant (fun s => ∀ f, Sound (s.tree.entries f)) (fun f => (Ramfs.start_inv.files f).sound)
        (fun s c s' sound step => Ramfs.step_sound s sound c s' step) n
    have file : (fs.tree.entries n).isFile = true := by
      by_contra directory
      exact readable (if_neg directory)
    rw [ram_read writes fs n file]
    exact iff_of_true (ram_contract fs n sound mem off sz buf room) True.intro
  | dev n =>
    cases n with
    | root => exact absurd rfl readable
    | null => exact null_contract fs mem sz buf room
    | zero => exact filled_contract fs mem _ sz buf (memset_sameOutside mem buf 0 sz room)
    | random => exact filled_contract fs mem _ sz buf (randomLoop_sameOutside sz.toNat fs.clock mem buf room)
    | urandom => exact filled_contract fs mem _ sz buf (randomLoop_sameOutside sz.toNat fs.clock mem buf room)
  | proc n =>
    have contract (n : ProcFile) (text : List Byte) (small : text.length ≤ 70)
        (served : procfs.readFn fs.counters n = some (readText text fs.counters)) :=
      proc_contract writes fs n text (by omega) served mem off sz buf room
    cases n with
    | root => exact absurd rfl readable
    | uptime =>
      have short := uptime_length fs.counters
      exact iff_of_true (contract .uptime (uptimeText fs.counters) (by omega) rfl) True.intro
    | meminfo =>
      exact iff_of_true (contract .meminfo (meminfoText fs.counters) (meminfo_length fs.counters) rfl) True.intro
    | version => exact iff_of_true (contract .version versionText (by decide) rfl) True.intro

/-- The version number, from the text of the version. -/
theorem reads_contract_iff_version :
    let done := blackVfsRead (files fun _ _ => none) ⟨Ramfs.blackRamfsInit,0,⟨0,0,0,0⟩⟩ (fun _ => 0x41)
      (some (.proc .version)) 17 9 0x1000
    done.value = 6 ∧ done.mem 0x1000 = 0x31 ∧ Contract (fun _ => 0x41) 9 0x1000 done := by
  intro done
  refine ⟨rfl,rfl,?_⟩
  exact (reads_contract_iff (fun _ _ => none) [] System.start Steps.nil ⟨Ramfs.blackRamfsInit,0,⟨0,0,0,0⟩⟩ rfl
    (.proc .version) nofun (fun _ => 0x41) 17 9 0x1000 (by decide)).mpr True.intro

/-- A read of one byte of the null device returns 0 and changes the byte. -/
theorem null_read_fills :
    let done := blackVfsRead (files fun _ _ => none) ⟨Ramfs.blackRamfsInit,0,⟨0,0,0,0⟩⟩ (fun _ => 0x41)
      (some (.dev .null)) 0 1 0x1000
    done.value = 0 ∧ done.mem 0x1000 = 0 ∧ ¬Contract (fun _ => 0x41) 1 0x1000 done := by
  intro done
  refine ⟨rfl,rfl,fun contract => ?_⟩
  have kept : (0 : Byte) = 0x41 := contract.2.2 0x1000 (Or.inr (by decide))
  exact absurd kept (by decide)

end Contract

end BlackOS.FileSystems
