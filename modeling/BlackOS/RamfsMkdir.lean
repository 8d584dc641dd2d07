import BlackOS.RamfsPaths
import Mathlib.Data.List.Find

/-! What `black_vfs_mkdir` creates, as `black_vfs_lookup` finds it. -/
namespace BlackOS.RamfsMkdir
open BlackOS.Library.Ram BlackOS.Library.Separated BlackOS.LibcText BlackOS.FileSystems BlackOS.RamfsNames
open BlackOS.Vfs (State Mount slash vfsMaxPath mountOf walk Absolute blackVfsLookup)
open BlackOS.Ramfs (Entry Tree blackRamfsCreate vfsMaxName vfsDirectory blackRamfsMaxChildren)
open BlackOS.RamfsPaths (finddir run_tidy rooted)
open BlackOS.VfsBuffers (extended)

section Holder
variable {Node : Type} (f : Node → List Byte → Option Node) (s : State Node)

/-- The node that the components of a path lead to, from the mount that serves it. -/
def holder (p : List Byte) : Option Node :=
  match s.mounts.find? (Mount.serves p) with
  | some m => walk f m.root ((p.splitOn slash).drop (m.path.bytes.splitOn slash).length)
  | none => walk f s.root (p.splitOn slash)

theorem lookup_holder (p : List Byte) (absolute : Absolute p) : blackVfsLookup f s p = holder f s p := by
  obtain ⟨served,bare⟩ := Vfs.lookup_walk f s p absolute
  have find := Vfs.mountOf_find s.mounts p
  rw [holder]
  cases first : s.mounts.find? (Mount.serves p) with
  | none =>
    rw [first] at find
    exact bare find
  | some m =>
    rw [first] at find
    obtain ⟨remaining,shape,same⟩ := served m _ find
    rw [same,shape]
    dsimp only
    rw [List.drop_left]

theorem splitOn_last (dir c : List Byte) (plain : slash ∉ c) :
    (dir ++ slash :: c).splitOn slash = dir.splitOn slash ++ [c] := by
  rw [List.splitOn_append_cons_self,List.splitOn_eq_singleton plain]

/-- A mount serves a path when it serves what stands before its last component, or stands at the path itself. -/
theorem serves_last (dir c : List Byte) (plain : slash ∉ c) (m : Mount Node) (other : m.path.bytes ≠ dir ++ slash :: c) :
    m.serves (dir ++ slash :: c) = m.serves dir := by
  rw [Bool.eq_iff_iff,Vfs.serves_iff,Vfs.serves_iff]
  refine and_congr_right fun _ => ⟨fun under => ?_,fun under => under_trans slash _ _ _ under (under_append slash dir c)⟩
  rw [Under,splitOn_last dir c plain,List.prefix_concat_iff] at under
  refine under.resolve_left fun same => other (splitOn_injective slash _ _ ?_)
  rw [same,splitOn_last dir c plain]

theorem find_last (dir c : List Byte) (plain : slash ∉ c) (inexact : ∀ m, mountOf s.mounts (dir ++ slash :: c) ≠ some (m,[])) :
    s.mounts.find? (Mount.serves (dir ++ slash :: c)) = s.mounts.find? (Mount.serves dir) := by
  have find := Vfs.mountOf_find s.mounts (dir ++ slash :: c)
  have fewer (m : Mount Node) (serves : m.serves dir = true) : m.serves (dir ++ slash :: c) = true := by
    rw [Vfs.serves_iff] at serves ⊢
    exact ⟨serves.1,under_trans slash _ _ _ serves.2 (under_append slash dir c)⟩
  cases first : s.mounts.find? (Mount.serves (dir ++ slash :: c)) with
  | none =>
    rw [List.find?_eq_none] at first
    exact (List.find?_eq_none.mpr fun m listed serves => first m listed (fewer m serves)).symm
  | some m =>
    rw [first] at find
    have other : m.path.bytes ≠ dir ++ slash :: c := by
      intro same
      refine inexact m ?_
      rw [find,Option.map_some,same,List.drop_length]
    rw [List.find?_eq_some_iff_append] at first
    obtain ⟨serves,before,after,shape,none_⟩ := first
    rw [serves_last dir c plain m other] at serves
    refine (List.find?_eq_some_iff_append.mpr ⟨serves,before,after,shape,fun a listed => ?_⟩).symm
    have idle := none_ a listed
    rw [Bool.not_eq_true'] at idle ⊢
    rw [← Bool.not_eq_true] at idle ⊢
    exact fun serves => idle (fewer a serves)

theorem walk_append (start : Option Node) (parts more : List (List Byte)) :
    walk f start (parts ++ more) = walk f (walk f start parts) more := List.foldl_append

theorem walk_single (start : Option Node) (c : List Byte) (filled : c ≠ []) :
    walk f start [c] = start.bind fun n => f n c := if_neg filled

/-- The last component of a path is looked up in the node that the ones before it lead to, unless a mount at the
path itself is found first. -/
theorem holder_last (dir c : List Byte) (plain : slash ∉ c)
    (inexact : ∀ m, mountOf s.mounts (dir ++ slash :: c) ≠ some (m,[])) :
    holder f s (dir ++ slash :: c) = walk f (holder f s dir) [c] := by
  rw [holder,find_last s dir c plain inexact,holder,splitOn_last dir c plain]
  cases first : s.mounts.find? (Mount.serves dir) with
  | none => exact walk_append f s.root _ _
  | some m =>
    obtain ⟨remaining,shape⟩ := ((Vfs.serves_iff dir m).mp (List.find?_some first)).2
    dsimp only
    rw [← shape,List.append_assoc,List.drop_left,List.drop_left]
    exact walk_append f m.root _ _

/-- The node in which the component of a path of one level is looked up: the root of a mount at the empty path, or
`black_vfs_root`. -/
def topNode : Option Node :=
  match s.mounts.find? (Mount.serves []) with
  | some m => m.root
  | none => s.root

theorem holder_top : holder f s [] = topNode s := by
  rw [holder,topNode]
  cases s.mounts.find? (Mount.serves []) with
  | none => rfl
  | some m =>
    dsimp only
    rw [List.splitOn_nil]
    cases (m.path.bytes.splitOn slash).length with
    | zero => rfl
    | succ k => rw [List.drop_succ_cons,List.drop_nil]; rfl

end Holder

/-! Lookups with functions that find more. -/
section Extends
variable {Node : Type} (f f' : Node → List Byte → Option Node) (more : ∀ n name x, f n name = some x → f' n name = some x)
include more

theorem walk_extends (start : Option Node) (parts : List (List Byte)) (x : Node) (found : walk f start parts = some x) :
    walk f' start parts = some x := by
  induction parts generalizing start with
  | nil => exact found
  | cons part parts ih =>
    rw [walk,List.foldl_cons] at found ⊢
    by_cases empty : part = []
    · rw [if_pos empty] at found ⊢
      exact ih start found
    · rw [if_neg empty] at found ⊢
      cases next : start.bind fun n => f n part with
      | none =>
        rw [next] at found
        have null := Vfs.walk_none f parts
        rw [walk,found] at null
        cases null
      | some y =>
        obtain ⟨n,here,step⟩ := Option.bind_eq_some_iff.mp next
        rw [next] at found
        rw [here,Option.bind_some,more n part y step]
        exact ih (some y) found

theorem holder_extends (s : State Node) (p : List Byte) (x : Node) (found : holder f s p = some x) :
    holder f' s p = some x := by
  rw [holder] at found ⊢
  cases served : s.mounts.find? (Mount.serves p) with
  | none =>
    rw [served] at found
    exact walk_extends f f' more _ _ x found
  | some m =>
    rw [served] at found
    exact walk_extends f f' more _ _ x found

theorem traverse_extends (root : Option Node) (p : List Byte) (clean : 0 ∉ p) (x : Node)
    (found : Vfs.blackVfsTraverse f root p = some x) : Vfs.blackVfsTraverse f' root p = some x := by
  by_cases start : p.head? = some slash
  · obtain ⟨tail,rfl⟩ := List.head?_eq_some_iff.mp start
    have notZero : 0 ∉ tail := fun zero => clean (List.mem_cons_of_mem _ zero)
    rw [Vfs.traverse_cut f root tail notZero] at found
    rw [Vfs.traverse_cut f' root tail notZero]
    exact walk_extends f f' more root _ x found
  · rw [Vfs.blackVfsTraverse,if_pos start] at found
    cases found

theorem lookup_extends (s : State Node) (p : Text) (x : Node) (found : blackVfsLookup f s p.bytes = some x) :
    blackVfsLookup f' s p.bytes = some x := by
  rw [blackVfsLookup] at found ⊢
  cases served : mountOf s.mounts p.bytes with
  | none =>
    rw [served] at found
    exact traverse_extends f f' more s.root p.bytes p.terminated x found
  | some mount =>
    obtain ⟨m,rest⟩ := mount
    obtain ⟨shape,boundary⟩ := VfsBuffers.mountOf_shape s.mounts p.bytes m rest served
    have clean := p.terminated
    rw [shape] at clean
    rw [served] at found
    dsimp only at found ⊢
    rcases boundary with exact_ | ⟨tail,rfl⟩
    · rw [if_pos exact_] at found ⊢
      exact found
    · rw [if_neg (List.cons_ne_nil slash tail)] at found ⊢
      exact traverse_extends f f' more m.root _ (fun zero => clean (List.mem_append_right _ zero)) x found

end Extends

/-! A directory that has been created. -/
section Created
variable (fs : Files) (inv : Inv fs.tree) (n : Nat) (directory : (fs.tree.entries n).isFile = false) (name : List Byte)
  (room : (fs.tree.entries n).children.length < blackRamfsMaxChildren)

/-- The files after the creation. -/
def created : Files := {fs with tree := (blackRamfsCreate fs.tree n name vfsDirectory true).1}

include room

theorem created_entries (k : Nat) : (created fs n name).tree.entries k =
    if k = n then {fs.tree.entries n with children := (fs.tree.entries n).children ++ [fs.tree.next]}
    else if k = fs.tree.next then {Entry.zero with name := name.take (vfsMaxName - 1), flags := vfsDirectory}
    else fs.tree.entries k := Ramfs.create_entries fs.tree n name vfsDirectory room k

include directory

theorem created_parent : ((created fs n name).tree.entries n).isFile = false ∧
    ((created fs n name).tree.entries n).children = (fs.tree.entries n).children ++ [fs.tree.next] := by
  rw [created_entries fs n name room,if_pos rfl]
  exact ⟨directory,rfl⟩

include inv

theorem created_child : (created fs n name).tree.entries fs.tree.next =
    {Entry.zero with name := name.take (vfsMaxName - 1), flags := vfsDirectory} := by
  have node := inv.directory n directory
  rw [created_entries fs n name room,if_neg (Nat.ne_of_gt node),if_pos rfl]

omit directory in
/-- The children that a node had are found as before. -/
theorem created_old (k : Nat) (part : List Byte) :
    (fs.tree.entries k).children.find? (fun c => strcmp ((created fs n name).tree.entries c).name part == 0) =
      blackRamfsFinddir fs.tree k part := by
  refine List.find?_congr fun c listed => ?_
  have old := inv.children k c listed
  rw [created_entries fs n name room]
  split_ifs with parent child
  · rw [parent]
  · exact absurd child (Nat.ne_of_lt old)
  · rfl

/-- In the directory that it was created in, the new entry is found behind the others. -/
theorem created_here (part : List Byte) : finddir (created fs n name) (.ram n) part =
    (finddir fs (.ram n) part).or
      (if strcmp (name.take (vfsMaxName - 1)) part = 0 then some (.ram fs.tree.next) else none) := by
  obtain ⟨still,children⟩ := created_parent fs n directory name room
  have old := created_old fs inv n name room n part
  have child := created_child fs inv n directory name room
  rw [finddir,files,finddir,files]
  dsimp only
  rw [still,directory,if_neg Bool.false_ne_true,if_neg Bool.false_ne_true,blackRamfsFinddir,children,List.find?_append,
    old,List.find?_singleton,child]
  cases blackRamfsFinddir fs.tree n part with
  | some c => rfl
  | none =>
    by_cases same : strcmp (name.take (vfsMaxName - 1)) part = 0
    · rw [if_pos same,if_pos (beq_iff_eq.mpr same)]
      rfl
    · rw [if_neg same,if_neg fun equal => same (beq_iff_eq.mp equal)]
      rfl

omit directory in
theorem created_elsewhere (y : Node) (part : List Byte) (apart : y ≠ .ram n) :
    finddir (created fs n name) y part = finddir fs y part := by
  cases y with
  | dev d => rfl
  | proc q => rfl
  | ram k =>
    have entry := created_entries fs n name room k
    rw [if_neg fun same => apart (congrArg Node.ram same)] at entry
    have old := created_old fs inv n name room k part
    rw [finddir,files,finddir,files]
    dsimp only
    by_cases child : k = fs.tree.next
    · rw [if_pos child] at entry
      have file : (fs.tree.entries k).isFile = true := by
        rw [inv.unused k (Nat.le_of_eq child.symm)]
        decide
      have empty : ((created fs n name).tree.entries k).children = [] := by
        rw [entry]
        rfl
      rw [if_pos file,blackRamfsFinddir,empty]
      exact ite_self none
    · rw [if_neg child] at entry
      rw [blackRamfsFinddir,entry,old]

theorem created_more (y : Node) (part : List Byte) (x : Node) (found : finddir fs y part = some x) :
    finddir (created fs n name) y part = some x := by
  by_cases here : y = .ram n
  · rw [here] at found ⊢
    rw [created_here fs inv n directory name room,found]
    rfl
  · rw [created_elsewhere fs inv n name room y part here]
    exact found

/-- What the call makes findable is the entry that it created, under a name that the entry holds whole. -/
theorem created_found (c : List Byte) (clean : 0 ∉ c) (y x : Node) (missing : finddir fs y c = none)
    (found : finddir (created fs n (c.take (vfsMaxName - 1))) y c = some x) : y = .ram n ∧ c.length ≤ 127 := by
  have own : y = .ram n := by
    by_contra apart
    rw [created_elsewhere fs inv n _ room y c apart,missing] at found
    cases found
  rw [own] at missing
  rw [own,created_here fs inv n directory _ room c,missing,Option.none_or,List.take_take,Nat.min_self] at found
  obtain ⟨equal,_⟩ := Option.ite_none_right_eq_some.mp found
  have stored := (strcmp_zero _ c (fun zero => clean (List.mem_of_mem_take zero)) clean).mp equal
  have size := congrArg List.length stored
  rw [List.length_take] at size
  exact ⟨own,min_eq_right_iff.mp size⟩

end Created

/-- A creation that returns 0 was in a directory with room for a further entry. -/
theorem create_made (fs fs' : Files) (parent : Node) (name : List Byte) (kcalloc : Bool)
    (made : blackVfsCreate fs (some parent) name vfsDirectory kcalloc = (fs',0)) :
    ∃ n, parent = .ram n ∧ (fs.tree.entries n).isFile = false ∧
      (fs.tree.entries n).children.length < blackRamfsMaxChildren ∧ fs' = created fs n name := by
  cases parent with
  | dev d => cases (Prod.mk.inj made).2
  | proc q => cases (Prod.mk.inj made).2
  | ram n =>
    rw [blackVfsCreate] at made
    by_cases file : (fs.tree.entries n).isFile = true
    · rw [if_pos file] at made
      cases (Prod.mk.inj made).2
    · rw [if_neg file] at made
      refine ⟨n,rfl,Bool.eq_false_iff.mpr file,?_⟩
      by_cases full : (fs.tree.entries n).children.length ≥ blackRamfsMaxChildren
      · rw [blackRamfsCreate,if_pos full] at made
        cases (Prod.mk.inj made).2
      · cases kcalloc with
        | false =>
          rw [blackRamfsCreate,if_neg full,if_pos rfl] at made
          cases (Prod.mk.inj made).2
        | true => exact ⟨Nat.lt_of_not_le full,(Prod.mk.inj made).1.symm⟩

theorem mkdir_made (fs fs' : Files) (vfs : State Node) (path after : Text) (kcalloc : Bool)
    (short : path.bytes.length ≤ 254) (made : blackVfsMkdir fs vfs path after kcalloc = (fs',0)) :
    ∃ dir c n, path.bytes = dir ++ slash :: c ∧ slash ∉ c ∧
      blackVfsLookup (finddir fs) vfs (if dir = [] then [slash] else dir) = some (.ram n) ∧
      (fs.tree.entries n).isFile = false ∧ (fs.tree.entries n).children.length < blackRamfsMaxChildren ∧
      fs' = created fs n (c.take (vfsMaxName - 1)) := by
  have text : dirText path after = path.bytes := if_pos (Nat.lt_succ_of_le short)
  rw [blackVfsMkdir] at made
  cases target : mkdirTarget fs vfs path after with
  | none =>
    rw [target] at made
    cases (Prod.mk.inj made).2
  | some found =>
    rw [target] at made
    obtain ⟨⟨dir,c⟩,cut,rest⟩ := Option.bind_eq_some_iff.mp target
    obtain ⟨parent,there,same⟩ := Option.bind_eq_some_iff.mp rest
    cases same
    rw [text] at cut
    obtain ⟨shape,plain⟩ := strrchr_some path.bytes slash dir c cut
    obtain ⟨n,rfl,directory,room,done⟩ := create_made fs fs' parent _ kcalloc made
    exact ⟨dir,c,n,shape,plain,there,directory,room,done⟩

/-- `black_vfs_is_directory`. -/
def blackVfsIsDirectory (fs : Files) : Option Node → Bool
  | none => false
  | some (.ram n) => !(fs.tree.entries n).isFile
  | some (.dev d) => d = .root
  | some (.proc q) => q = .root

/-- The call has created what it names: the path leads to a directory, and other paths lead to where they did. -/
structure Made (fs fs' : Files) (vfs : State Node) (path : Text) : Prop where
  found : blackVfsIsDirectory fs' (blackVfsLookup (finddir fs') vfs path.bytes) = true
  kept : ∀ (q : Text) (x : Node), blackVfsLookup (finddir fs) vfs q.bytes = some x →
    blackVfsLookup (finddir fs') vfs q.bytes = some x

/-- The name fits its entry, no mount at the path itself is found first, and if the path is of one level, a mount
through which `/` is looked up is of the node in which the path is looked up. -/
structure Named (vfs : State Node) (dir c : List Byte) : Prop where
  short : c.length ≤ 127
  inexact : ∀ m, mountOf vfs.mounts (dir ++ slash :: c) ≠ some (m,[])
  top : dir = [] → ∀ m, mountOf vfs.mounts [slash] = some (m,[]) → m.root = topNode vfs

section Lookup
variable (f : FileSystems.Node → List Byte → Option FileSystems.Node) (vfs : State FileSystems.Node)

theorem lookup_exact (p : List Byte) (m : Mount FileSystems.Node) (found : mountOf vfs.mounts p = some (m,[])) :
    blackVfsLookup f vfs p = m.root := by
  rw [blackVfsLookup,found]
  exact if_pos rfl

theorem lookup_last (dir c : List Byte) (absolute : Absolute (dir ++ slash :: c)) (plain : slash ∉ c)
    (inexact : ∀ m, mountOf vfs.mounts (dir ++ slash :: c) ≠ some (m,[])) :
    blackVfsLookup f vfs (dir ++ slash :: c) = walk f (holder f vfs dir) [c] :=
  (lookup_holder f vfs _ absolute).trans (holder_last f vfs dir c plain inexact)

/-- `/` leads to the root of a mount at `/`, or to the node in which paths of one level are looked up. -/
theorem lookup_top (inexact : ∀ m, mountOf vfs.mounts [slash] ≠ some (m,[])) :
    blackVfsLookup f vfs [slash] = topNode vfs := by
  rw [← holder_top f vfs]
  exact lookup_last f vfs [] [] ⟨rfl,by decide,by decide⟩ List.not_mem_nil inexact

variable (dir : List Byte) (whole : dir ≠ [] → Absolute dir) (n : FileSystems.Node)
  (parent : blackVfsLookup f vfs (if dir = [] then [slash] else dir) = some n)
include whole parent

theorem parent_below (filled : dir ≠ []) : holder f vfs dir = some n := by
  rw [if_neg filled] at parent
  rw [← lookup_holder f vfs dir (whole filled)]
  exact parent

/-- The parent in which the name is created is the node in which it is looked up. -/
theorem parent_holder (top : dir = [] → ∀ m, mountOf vfs.mounts [slash] = some (m,[]) → m.root = topNode vfs) :
    holder f vfs dir = some n := by
  by_cases empty : dir = []
  · rw [if_pos empty] at parent
    rw [empty,holder_top]
    by_cases inexact : ∀ m, mountOf vfs.mounts [slash] ≠ some (m,[])
    · rw [← lookup_top f vfs inexact]
      exact parent
    · push Not at inexact
      obtain ⟨m,found⟩ := inexact
      rw [← top empty m found,← lookup_exact f vfs [slash] m found]
      exact parent
  · exact parent_below f vfs dir whole n parent empty

end Lookup

section Mkdir
variable (fs : Files) (inv : Inv fs.tree) (vfs : State FileSystems.Node) (path : Text) (dir c : List Byte)
  (shape : path.bytes = dir ++ slash :: c) (plain : slash ∉ c) (absolute : Absolute path.bytes)
  (missing : blackVfsLookup (finddir fs) vfs path.bytes = none) (n : Nat)
  (parent : blackVfsLookup (finddir fs) vfs (if dir = [] then [slash] else dir) = some (.ram n))
  (directory : (fs.tree.entries n).isFile = false)
  (room : (fs.tree.entries n).children.length < blackRamfsMaxChildren)

include shape absolute in
theorem dir_absolute (filled : dir ≠ []) : Absolute dir := by
  obtain ⟨start,clean,short⟩ := absolute
  rw [shape] at start clean short
  rw [List.length_append] at short
  refine ⟨?_,fun zero => clean (List.mem_append_left _ zero),by omega⟩
  rw [← List.head?_append_of_ne_nil dir filled]
  exact start

include inv shape plain absolute missing parent directory room

theorem made_of_named (named : Named vfs dir c) : Made fs (created fs n (c.take (vfsMaxName - 1))) vfs path := by
  have more := created_more fs inv n directory (c.take (vfsMaxName - 1)) room
  have last (g : FileSystems.Node → List Byte → Option FileSystems.Node) :=
    lookup_last g vfs dir c (by rw [← shape]; exact absolute) plain named.inexact
  have here := parent_holder (finddir fs) vfs dir (dir_absolute path dir c shape absolute) _ parent named.top
  have there := holder_extends _ _ more vfs dir _ here
  have filled : c ≠ [] := by
    intro empty
    rw [shape,last,here,empty] at missing
    cases missing
  have absent : finddir fs (.ram n) c = none := by
    rw [shape,last,here,walk_single _ _ c filled] at missing
    exact missing
  have notZero := path.behind dir c slash shape
  have stored : c.take (vfsMaxName - 1) = c := List.take_of_length_le named.short
  refine ⟨?_,fun q x found => lookup_extends _ _ more vfs q x found⟩
  rw [shape,last,there,walk_single _ _ c filled,Option.bind_some,created_here fs inv n directory _ room c,absent,stored,stored,
    if_pos ((strcmp_zero c c notZero notZero).mpr rfl),Option.none_or,blackVfsIsDirectory,created_child fs inv n directory c room]
  exact (by decide : (!decide (vfsDirectory &&& vfsDirectory = 0)) = true)

theorem named_of_made (made : Made fs (created fs n (c.take (vfsMaxName - 1))) vfs path) : Named vfs dir c := by
  have more := created_more fs inv n directory (c.take (vfsMaxName - 1)) room
  have inexact (m : Mount FileSystems.Node) : mountOf vfs.mounts (dir ++ slash :: c) ≠ some (m,[]) := by
    intro exact_
    rw [← shape] at exact_
    have found := made.found
    rw [lookup_exact _ vfs path.bytes m exact_] at found missing
    rw [missing] at found
    cases found
  have last (g : FileSystems.Node → List Byte → Option FileSystems.Node) :=
    lookup_last g vfs dir c (by rw [← shape]; exact absolute) plain inexact
  -- the node that the name is looked up in is the same after the call
  have same : holder (finddir (created fs n (c.take (vfsMaxName - 1)))) vfs dir = holder (finddir fs) vfs dir := by
    by_cases top : dir = []
    · rw [top,holder_top,holder_top]
    · have below := parent_below (finddir fs) vfs dir (dir_absolute path dir c shape absolute) _ parent top
      rw [below]
      exact holder_extends _ _ more vfs dir _ below
  obtain ⟨x,found⟩ : ∃ x, blackVfsLookup (finddir (created fs n (c.take (vfsMaxName - 1)))) vfs path.bytes = some x := by
    refine Option.ne_none_iff_exists'.mp fun null => ?_
    have flag := made.found
    rw [null] at flag
    cases flag
  have filled : c ≠ [] := by
    intro empty
    rw [shape,last,empty] at missing
    rw [shape,last,same,empty] at found
    exact absurd (missing.symm.trans found) nofun
  rw [shape,last,walk_single _ _ c filled] at missing
  rw [shape,last,same,walk_single _ _ c filled] at found
  obtain ⟨y,here,step⟩ := Option.bind_eq_some_iff.mp found
  rw [here,Option.bind_some] at missing
  obtain ⟨own,size⟩ := created_found fs inv n directory room c (path.behind dir c slash shape) y x missing step
  refine ⟨size,inexact,fun top m exact_ => ?_⟩
  rw [top,holder_top] at here
  rw [if_pos top,lookup_exact _ vfs [slash] m exact_] at parent
  rw [parent,here,own]

end Mkdir

/-- After a call of `black_vfs_mkdir` that returns 0 the path that led nowhere leads to a directory, and every other
path to where it did, exactly when the name fits, no mount at the path itself hides it, and `/` is no other node
than the one in which a path of one level is looked up. -/
theorem mkdir_made_iff (clock : Vfs.Clock) (counters : Counters) (calls : List Call) (fs fs' : Files)
    (run : calls.foldl step (boot clock counters) = fs) (vfs : State FileSystems.Node) (path after : Text) (kcalloc : Bool)
    (absolute : path.bytes.head? = some slash) (short : path.bytes.length ≤ 254)
    (missing : blackVfsLookup (finddir fs) vfs path.bytes = none)
    (made : blackVfsMkdir fs vfs path after kcalloc = (fs',0)) :
    ∃ dir c, path.bytes = dir ++ slash :: c ∧ slash ∉ c ∧ (Made fs fs' vfs path ↔ Named vfs dir c) := by
  have inv : Inv fs.tree := by
    rw [← run]
    exact (run_tidy clock counters calls).inv
  have whole : Absolute path.bytes := ⟨absolute,path.terminated,Nat.lt_of_le_of_lt short (by decide)⟩
  obtain ⟨dir,c,n,shape,plain,parent,directory,room,rfl⟩ := mkdir_made fs fs' vfs path after kcalloc short made
  refine ⟨dir,c,shape,plain,fun made => ?_,fun named => ?_⟩
  · exact named_of_made fs inv vfs path dir c shape plain whole missing n parent directory room made
  · exact made_of_named fs inv vfs path dir c shape plain whole missing n parent directory room named

def slashText : Text := ⟨[0x2F],slash_terminated⟩

/-- A directory "b" in a fresh ramfs. -/
theorem mkdir_made_iff_single :
    let fs := boot 0 ⟨0,0,0,0⟩
    let fs' := (blackVfsMkdir fs rooted (extended slashText 1) slashText true).1
    ∃ dir c, (extended slashText 1).bytes = dir ++ slash :: c ∧ slash ∉ c ∧
      (Made fs fs' rooted (extended slashText 1) ↔ Named rooted dir c) :=
  mkdir_made_iff 0 ⟨0,0,0,0⟩ [] _ _ rfl rooted (extended slashText 1) slashText true rfl (by decide) rfl rfl

/-- A name of 128 bytes is cut when it is created, and then not found. -/
theorem mkdir_cut :
    let fs := boot 0 ⟨0,0,0,0⟩
    let made := blackVfsMkdir fs rooted (extended slashText 128) slashText true
    blackVfsLookup (finddir fs) rooted (extended slashText 128).bytes = none ∧ made.2 = 0 ∧
      ¬Made fs made.1 rooted (extended slashText 128) := by
  intro fs made
  refine ⟨by decide +kernel,by decide +kernel,fun created => ?_⟩
  exact absurd created.found (by decide +kernel)

end BlackOS.RamfsMkdir
