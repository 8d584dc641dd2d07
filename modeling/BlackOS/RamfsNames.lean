import BlackOS.FileSystems

/-! The names in the directories of a ramfs, over the calls that create entries: `black_vfs_create`,
`black_vfs_mkdir`, `black_ramfs_create_dir` and `black_ramfs_create_file`. -/
namespace BlackOS.RamfsNames
open BlackOS.Library.Ram BlackOS.Library.Run BlackOS.LibcText BlackOS.Vfs BlackOS.FileSystems
open BlackOS.Ramfs (Entry Tree blackRamfsCreate blackRamfsInit vfsMaxName vfsDirectory blackRamfsMaxChildren)

def vfsFile : Word := 0x01

variable (fs : Files)

/-- The function of the node: only the directories of a ramfs have one. -/
def blackVfsCreate (dir : Option Node) (name : List Byte) (type : Word) (kcalloc : Bool) : Files × Int :=
  match dir with
  | some (.ram n) =>
    if (fs.tree.entries n).isFile then (fs,-1)
    else
      let (tree,result) := blackRamfsCreate fs.tree n name type kcalloc
      ({fs with tree := tree},result)
  | _ => (fs,-1)

/-- The part that `black_ramfs_create_dir` and `black_ramfs_create_file` share. -/
def blackRamfsCreateAs (type : Word) (p : Nat) (name : List Byte) (kcalloc : Bool) : Files × Option Node :=
  let (tree,result) := blackRamfsCreate fs.tree p name type kcalloc
  let fs := {fs with tree := tree}
  if result < 0 then (fs,none) else (fs,(files fun _ _ => none).finddirFn fs (.ram p) name)

def blackRamfsCreateDir : Nat → List Byte → Bool → Files × Option Node := blackRamfsCreateAs fs vfsDirectory

def blackRamfsCreateFile : Nat → List Byte → Bool → Files × Option Node := blackRamfsCreateAs fs vfsFile

/-- The text in `black_dir`. A path that fills the buffer is not terminated there, and goes on with
what stands after it. -/
def dirText (path after : Text) : List Byte :=
  if path.bytes.length < vfsMaxPath - 1 then path.bytes else path.bytes.take (vfsMaxPath - 1) ++ after.bytes

/-- The parent and the name that `black_vfs_mkdir` creates. -/
def mkdirTarget (vfs : Vfs.State Node) (path after : Text) : Option (Node × List Byte) := do
  let (dir,rest) ← strrchr (dirText path after) slash
  let name := rest.take (vfsMaxName - 1)
  let parent ← blackVfsLookup ((files fun _ _ => none).finddirFn fs) vfs (if dir = [] then [slash] else dir)
  return (parent,name)

def blackVfsMkdir (vfs : Vfs.State Node) (path after : Text) (kcalloc : Bool) : Files × Int :=
  match mkdirTarget fs vfs path after with
  | none => (fs,-1)
  | some (parent,name) => blackVfsCreate fs (some parent) name vfsDirectory kcalloc

inductive Call
  | create (dir : Option Node) (name : Text) (type : Word) (kcalloc : Bool)
  | mkdir (vfs : Vfs.State Node) (path after : Text) (kcalloc : Bool)
  | createDir (p : Nat) (name : Text) (kcalloc : Bool)
  | createFile (p : Nat) (name : Text) (kcalloc : Bool)

/-- A call of the last two is made with a node of the tree. -/
def step : Call → Files
  | .create dir name type kcalloc => (blackVfsCreate fs dir name.bytes type kcalloc).1
  | .mkdir vfs path after kcalloc => (blackVfsMkdir fs vfs path after kcalloc).1
  | .createDir p name kcalloc => if p < fs.tree.next then (blackRamfsCreateDir fs p name.bytes kcalloc).1 else fs
  | .createFile p name kcalloc => if p < fs.tree.next then (blackRamfsCreateFile fs p name.bytes kcalloc).1 else fs

def boot (clock : Clock) (counters : Counters) : Files := ⟨blackRamfsInit,clock,counters⟩

/-- The names in an entry, in the order of `black_children`. -/
def names (t : Tree) (n : Nat) : List (List Byte) := (t.entries n).children.map fun c => (t.entries c).name

def Distinct : Prop := ∀ n, (fs.tree.entries n).isFile = false → (names fs.tree n).Nodup

/-- The arguments with which `black_ramfs_create` is called. -/
structure Creation where
  parent : Nat
  name : List Byte
  type : Word
  kcalloc : Bool

/-- The creation in a directory that `black_vfs_create` goes on to. -/
def inDirectory (dir : Option Node) (name : List Byte) (type : Word) (kcalloc : Bool) : Option Creation :=
  match dir with
  | some (.ram n) => if (fs.tree.entries n).isFile then none else some ⟨n,name,type,kcalloc⟩
  | _ => none

def creation : Call → Option Creation
  | .create dir name type kcalloc => inDirectory fs dir name.bytes type kcalloc
  | .mkdir vfs path after kcalloc =>
    (mkdirTarget fs vfs path after).bind fun (parent,name) => inDirectory fs (some parent) name vfsDirectory kcalloc
  | .createDir p name kcalloc => if p < fs.tree.next then some ⟨p,name.bytes,vfsDirectory,kcalloc⟩ else none
  | .createFile p name kcalloc => if p < fs.tree.next then some ⟨p,name.bytes,vfsFile,kcalloc⟩ else none

/-- A creation in a directory that has room for it is of a name, as far as it is stored, that no child
has. -/
def Fresh (call : Call) : Prop := ∀ c, creation fs call = some c → (fs.tree.entries c.parent).isFile = false →
  (fs.tree.entries c.parent).children.length < blackRamfsMaxChildren → c.kcalloc = true →
    c.name.take (vfsMaxName - 1) ∉ names fs.tree c.parent

structure Inv (t : Tree) : Prop where
  children : ∀ n, ∀ c ∈ (t.entries n).children, c < t.next
  unused : ∀ n, t.next ≤ n → t.entries n = Entry.zero
  few : ∀ n, (t.entries n).children.length ≤ blackRamfsMaxChildren

theorem init_children (n : Nat) : (blackRamfsInit.entries n).children = [] := by
  rw [blackRamfsInit]
  dsimp only
  by_cases root : n = 0
  · rw [root,Function.update_self]
    rfl
  · rw [Function.update_of_ne root]
    rfl

theorem init_inv : Inv blackRamfsInit := by
  refine ⟨fun n c member => ?_,fun n above => ?_,fun n => ?_⟩
  · rw [init_children] at member
    exact absurd member List.not_mem_nil
  · have other : n ≠ 0 := Nat.ne_of_gt above
    rw [blackRamfsInit]
    dsimp only
    rw [Function.update_of_ne other]
  · rw [init_children]
    exact Nat.zero_le _

/-- The four calls come down to one creation, or to nothing. -/
theorem step_tree (call : Call) :
    (step fs call).tree =
      match creation fs call with
      | none => fs.tree
      | some c => (blackRamfsCreate fs.tree c.parent c.name c.type c.kcalloc).1 := by
  have directory (dir : Option Node) (name : List Byte) (type : Word) (kcalloc : Bool) :
      (blackVfsCreate fs dir name type kcalloc).1.tree =
        match inDirectory fs dir name type kcalloc with
        | none => fs.tree
        | some c => (blackRamfsCreate fs.tree c.parent c.name c.type c.kcalloc).1 := by
    rw [blackVfsCreate.eq_def,inDirectory.eq_def]
    split
    · split
      · rfl
      · rfl
    · rfl
  have named (type : Word) (p : Nat) (name : List Byte) (kcalloc : Bool) :
      (blackRamfsCreateAs fs type p name kcalloc).1.tree = (blackRamfsCreate fs.tree p name type kcalloc).1 := by
    rw [blackRamfsCreateAs]
    dsimp only
    split
    · rfl
    · rfl
  cases call with
  | create dir name type kcalloc => exact directory dir name.bytes type kcalloc
  | mkdir vfs path after kcalloc =>
    rw [step,creation,blackVfsMkdir]
    cases mkdirTarget fs vfs path after with
    | none => rfl
    | some target => exact directory (some target.1) target.2 vfsDirectory kcalloc
  | createDir p name kcalloc =>
    rw [step,creation]
    by_cases node : p < fs.tree.next
    · rw [if_pos node,if_pos node]
      exact named vfsDirectory p name.bytes kcalloc
    · rw [if_neg node,if_neg node]
  | createFile p name kcalloc =>
    rw [step,creation]
    by_cases node : p < fs.tree.next
    · rw [if_pos node,if_pos node]
      exact named vfsFile p name.bytes kcalloc
    · rw [if_neg node,if_neg node]

theorem create_refused (t : Tree) (n : Nat) (name : List Byte) (type : Word) (kcalloc : Bool)
    (refused : ¬((t.entries n).children.length < blackRamfsMaxChildren ∧ kcalloc = true)) :
    (blackRamfsCreate t n name type kcalloc).1 = t := by
  rw [blackRamfsCreate]
  by_cases full : (t.entries n).children.length ≥ blackRamfsMaxChildren
  · rw [if_pos full]
  · rw [if_neg full,if_pos]
    rw [← Bool.not_eq_true]
    exact fun memory => refused ⟨Nat.lt_of_not_le full,memory⟩

theorem create_isFile (t : Tree) (n : Nat) (name : List Byte) (type : Word)
    (room : (t.entries n).children.length < blackRamfsMaxChildren) (m : Nat) (below : m < t.next) :
    ((blackRamfsCreate t n name type true).1.entries m).isFile = (t.entries m).isFile := by
  rw [Ramfs.create_entries t n name type room]
  split
  · rename_i same
    rw [same]
    rfl
  · rw [if_neg (Nat.ne_of_lt below)]

section Create
variable (t : Tree) (inv : Inv t) (n : Nat) (node : n < t.next) (name : List Byte) (type : Word)
  (room : (t.entries n).children.length < blackRamfsMaxChildren)
include inv node room

theorem create_inv : Inv (blackRamfsCreate t n name type true).1 := by
  have entries := Ramfs.create_entries t n name type room
  have next := Ramfs.create_next t n name type room
  refine ⟨fun m c member => ?_,fun m above => ?_,fun m => ?_⟩
  · rw [next]
    rw [entries] at member
    split at member
    · rcases List.mem_append.mp member with old | new
      · exact Nat.lt_succ_of_lt (inv.children n c old)
      · rw [List.mem_singleton.mp new]
        exact Nat.lt_succ_self _
    · split at member
      · exact absurd member List.not_mem_nil
      · exact Nat.lt_succ_of_lt (inv.children m c member)
  · rw [next] at above
    rw [entries,if_neg (by omega),if_neg (by omega)]
    exact inv.unused m (by omega)
  · rw [entries]
    split
    · rw [List.length_append]
      exact room
    · split
      · exact Nat.zero_le _
      · exact inv.few m

theorem create_names (m : Nat) : names (blackRamfsCreate t n name type true).1 m =
    if m = n then names t n ++ [name.take (vfsMaxName - 1)] else names t m := by
  have entries := Ramfs.create_entries t n name type room
  -- the children that were there keep their names
  have kept (c : Nat) (below : c < t.next) :
      ((blackRamfsCreate t n name type true).1.entries c).name = (t.entries c).name := by
    rw [entries]
    split
    · rename_i same
      rw [same]
    · rw [if_neg (Nat.ne_of_lt below)]
  have olds (k : Nat) : (t.entries k).children.map (fun c => ((blackRamfsCreate t n name type true).1.entries c).name) =
      names t k := List.map_congr_left fun c member => kept c (inv.children k c member)
  rw [names,entries m]
  by_cases parent : m = n
  · rw [if_pos parent,if_pos parent,List.map_append,olds]
    have new := entries t.next
    rw [if_neg (Nat.ne_of_gt node),if_pos rfl] at new
    rw [List.map_singleton,new]
  · rw [if_neg parent,if_neg parent]
    by_cases child : m = t.next
    · rw [if_pos child,child,names,inv.unused t.next (Nat.le_refl _)]
      rfl
    · rw [if_neg child]
      exact olds m

end Create

theorem Inv.directory {t : Tree} (inv : Inv t) (n : Nat) (directory : (t.entries n).isFile = false) : n < t.next := by
  by_contra above
  rw [inv.unused n (Nat.le_of_not_lt above)] at directory
  exact absurd directory (by decide)

section Steps
variable (inv : Inv fs.tree)
include inv

theorem creation_node (call : Call) (c : Creation) (made : creation fs call = some c) : c.parent < fs.tree.next := by
  have directory (dir : Option Node) (name : List Byte) (type : Word) (kcalloc : Bool)
      (made : inDirectory fs dir name type kcalloc = some c) : c.parent < fs.tree.next := by
    rw [inDirectory.eq_def] at made
    split at made
    · obtain ⟨file,same⟩ := Option.ite_none_left_eq_some.mp made
      rw [← Option.some.inj same]
      exact inv.directory _ (Bool.eq_false_iff.mpr file)
    · cases made
  cases call with
  | create dir name type kcalloc => exact directory dir name.bytes type kcalloc made
  | mkdir vfs path after kcalloc =>
    obtain ⟨target,_,made⟩ := Option.bind_eq_some_iff.mp made
    exact directory (some target.1) target.2 vfsDirectory kcalloc made
  | createDir p name kcalloc =>
    obtain ⟨node,same⟩ := Option.ite_none_right_eq_some.mp made
    rw [← Option.some.inj same]
    exact node
  | createFile p name kcalloc =>
    obtain ⟨node,same⟩ := Option.ite_none_right_eq_some.mp made
    rw [← Option.some.inj same]
    exact node

/-- Nothing is created, or a creation succeeds. -/
theorem step_cases (call : Call) :
    ((step fs call).tree = fs.tree ∧ ∀ c, creation fs call = some c →
      ¬((fs.tree.entries c.parent).children.length < blackRamfsMaxChildren ∧ c.kcalloc = true)) ∨
    ∃ c, creation fs call = some c ∧ c.parent < fs.tree.next ∧
      (fs.tree.entries c.parent).children.length < blackRamfsMaxChildren ∧ c.kcalloc = true ∧
      (step fs call).tree = (blackRamfsCreate fs.tree c.parent c.name c.type true).1 := by
  have tree := step_tree fs call
  cases made : creation fs call with
  | none =>
    rw [made] at tree
    exact Or.inl ⟨tree,nofun⟩
  | some c =>
    rw [made] at tree
    dsimp only at tree
    by_cases room : (fs.tree.entries c.parent).children.length < blackRamfsMaxChildren ∧ c.kcalloc = true
    · refine Or.inr ⟨c,rfl,creation_node fs inv call c made,room.1,room.2,?_⟩
      rw [tree,room.2]
    · refine Or.inl ⟨tree.trans (create_refused fs.tree c.parent c.name c.type c.kcalloc room),fun d same => ?_⟩
      rw [← Option.some.inj same]
      exact room

theorem step_inv (call : Call) : Inv (step fs call).tree := by
  rcases step_cases fs inv call with idle | made
  · rw [idle.1]
    exact inv
  · obtain ⟨c,_,node,room,_,tree⟩ := made
    rw [tree]
    exact create_inv fs.tree inv c.parent node c.name c.type room

theorem step_distinct (call : Call) : Distinct (step fs call) ↔ Distinct fs ∧ Fresh fs call := by
  rcases step_cases fs inv call with idle | made
  · rw [Distinct,idle.1]
    refine (and_iff_left fun c made directory room memory => ?_).symm
    exact absurd ⟨room,memory⟩ (idle.2 c made)
  · obtain ⟨c,made,node,room,memory,tree⟩ := made
    have after := create_names fs.tree inv c.parent node c.name c.type room
    have kind := create_isFile fs.tree c.parent c.name c.type room
    rw [Distinct,tree]
    constructor
    · intro distinct
      refine ⟨fun m directory => ?_,fun d same directory _ _ => ?_⟩
      · have once := distinct m ((kind m (inv.directory m directory)).trans directory)
        rw [after] at once
        split at once
        · rename_i parent
          rw [parent]
          exact (List.nodup_append.mp once).1
        · exact once
      · rw [← Option.some.inj (made.symm.trans same)] at directory ⊢
        have once := distinct c.parent ((kind c.parent node).trans directory)
        rw [after,if_pos rfl] at once
        intro member
        exact (List.nodup_append.mp once).2.2 _ member _ List.mem_cons_self rfl
    · intro both m directory
      rw [after]
      by_cases parent : m = c.parent
      · rw [parent,kind c.parent node] at directory
        rw [if_pos parent]
        refine List.nodup_append.mpr ⟨both.1 c.parent directory,List.nodup_singleton _,fun name member last single => ?_⟩
        rw [List.mem_singleton.mp single]
        intro same
        exact both.2 c made directory room memory (same ▸ member)
      · rw [if_neg parent]
        by_cases old : m < fs.tree.next
        · exact both.1 m ((kind m old).symm.trans directory)
        · rw [names,inv.unused m (Nat.le_of_not_lt old)]
          exact List.nodup_nil

end Steps

/-- The names of every directory are distinct after the runs in which every creation is of a fresh
name; a directory has at most 64 children in any case. -/
theorem names_distinct_iff (clock : Clock) (counters : Counters) (calls : List Call) :
    (Distinct (calls.foldl step (boot clock counters)) ↔ Throughout step Fresh (boot clock counters) calls) ∧
      ∀ n, ((calls.foldl step (boot clock counters)).tree.entries n).children.length ≤ 64 := by
  have first : Distinct (boot clock counters) := by
    intro n directory
    rw [boot,names,init_children]
    exact List.nodup_nil
  have inv : Inv (calls.foldl step (boot clock counters)).tree :=
    List.foldlRecOn calls step init_inv fun fs inv call _ => step_inv fs inv call
  refine ⟨?_,inv.few⟩
  rw [throughout_final step Distinct Fresh (fun fs => Inv fs.tree) (fun fs call inv => step_inv fs inv call)
    (fun fs call inv => step_distinct fs inv call) (boot clock counters) init_inv calls]
  exact and_iff_right first

/-- Two files of one name in the root. -/
theorem name_twice :
    let calls := [.createFile 0 ⟨[0x61],by decide⟩ true,.createFile 0 ⟨[0x61],by decide⟩ true]
    let fs := calls.foldl step (boot 0 ⟨0,0,0,0⟩)
    names fs.tree 0 = [[0x61],[0x61]] ∧ ¬Distinct fs := by
  intro calls fs
  have twice : names fs.tree 0 = [[0x61],[0x61]] := rfl
  refine ⟨twice,fun distinct => ?_⟩
  have once := distinct 0 (by decide)
  rw [twice] at once
  exact absurd once (by decide)

end BlackOS.RamfsNames
