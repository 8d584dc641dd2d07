import BlackOS.VfsBuffers
import BlackOS.VfsMounts

/-! The way to a node that a path in a ramfs leads to. A node has one parent, so that there is one way to it. -/
namespace BlackOS.RamfsPaths
open BlackOS.Library.Ram BlackOS.LibcText BlackOS.FileSystems BlackOS.RamfsNames
open BlackOS.Vfs (State slash vfsMaxPath mountOf walk)
open BlackOS.Ramfs (Entry Tree blackRamfsCreate blackRamfsInit vfsMaxName blackRamfsMaxChildren)
open BlackOS.VfsBuffers (components components_start)

/-- The functions of the nodes for looking up a name. -/
def finddir (fs : Files) : Node → List Byte → Option Node := (files fun _ _ => none).finddirFn fs

/-- The names on a way from the root. -/
inductive Way (t : Tree) : List (List Byte) → Nat → Prop
  | root : Way t [] 0
  | child (names : List (List Byte)) (n c : Nat) (way : Way t names n) (member : c ∈ (t.entries n).children) :
      Way t (names ++ [(t.entries c).name]) c

/-- Names end with a zero, and no entry but the root is without a parent, and none has two. -/
structure Tidy (t : Tree) : Prop where
  inv : Inv t
  named : ∀ n, 0 ∉ (t.entries n).name
  root : ∀ n, 0 ∉ (t.entries n).children
  parent : ∀ n m c, c ∈ (t.entries n).children → c ∈ (t.entries m).children → n = m

theorem way_unique (t : Tree) (tidy : Tidy t) (names names' : List (List Byte)) (m : Nat) (way : Way t names m)
    (way' : Way t names' m) : names = names' := by
  induction way generalizing names' with
  | root =>
    cases way' with
    | root => rfl
    | child _ n _ _ member => exact absurd member (tidy.root n)
  | child names n c _ member ih =>
    cases way' with
    | root => exact absurd member (tidy.root n)
    | child names' n' _ before member' =>
      obtain rfl := tidy.parent n n' c member member'
      rw [ih names' before]

theorem init_tidy : Tidy blackRamfsInit where
  inv := init_inv
  named := by
    intro n
    rw [blackRamfsInit]
    dsimp only
    by_cases root : n = 0
    · rw [root,Function.update_self]
      decide
    · rw [Function.update_of_ne root]
      exact List.not_mem_nil
  root := by
    intro n
    rw [init_children]
    exact List.not_mem_nil
  parent := by
    intro n m c member
    rw [init_children] at member
    exact absurd member List.not_mem_nil

section Create
variable (t : Tree) (n : Nat) (name : List Byte) (type : Word) (room : (t.entries n).children.length < blackRamfsMaxChildren)
include room

/-- The new entry is under the one that it was created in, and the others are where they were. -/
theorem create_child (m c : Nat) (member : c ∈ ((blackRamfsCreate t n name type true).1.entries m).children) :
    c ∈ (t.entries m).children ∨ c = t.next ∧ m = n := by
  rw [Ramfs.create_entries t n name type room] at member
  split_ifs at member with parent child
  · rw [parent]
    exact (List.mem_append.mp member).imp_right fun last => ⟨List.mem_singleton.mp last,rfl⟩
  · exact absurd member List.not_mem_nil
  · exact .inl member

theorem create_tidy (tidy : Tidy t) (node : n < t.next) (clean : 0 ∉ name) : Tidy (blackRamfsCreate t n name type true).1 where
  inv := create_inv t tidy.inv n node name type room
  named := by
    intro m
    rw [Ramfs.create_entries t n name type room]
    split_ifs
    · exact tidy.named n
    · exact fun zero => clean (List.mem_of_mem_take zero)
    · exact tidy.named m
  root := by
    intro m member
    rcases create_child t n name type room m 0 member with old | new
    · exact tidy.root m old
    · exact absurd new.1 (by omega)
  parent := by
    intro m k c first second
    have fresh (m : Nat) (old : t.next ∈ (t.entries m).children) : False :=
      absurd (tidy.inv.children m t.next old) (Nat.lt_irrefl _)
    rcases create_child t n name type room m c first with old | new
    · rcases create_child t n name type room k c second with old' | new'
      · exact tidy.parent m k c old old'
      · rw [new'.1] at old
        exact (fresh m old).elim
    · rcases create_child t n name type room k c second with old' | new'
      · rw [new.1] at old'
        exact (fresh k old').elim
      · rw [new.2,new'.2]

end Create

theorem dirText_clean (path after : Text) : 0 ∉ dirText path after := by
  rw [dirText]
  split
  · exact path.terminated
  · intro zero
    rcases List.mem_append.mp zero with first | later
    · exact path.terminated (List.mem_of_mem_take first)
    · exact after.terminated later

theorem creation_clean (fs : Files) (call : Call) (c : Creation) (made : creation fs call = some c) : 0 ∉ c.name := by
  have directory (dir : Option Node) (name : List Byte) (type : Word) (kcalloc : Bool) (clean : 0 ∉ name)
      (made : inDirectory fs dir name type kcalloc = some c) : 0 ∉ c.name := by
    rw [inDirectory.eq_def] at made
    split at made
    · obtain ⟨_,same⟩ := Option.ite_none_left_eq_some.mp made
      rw [← Option.some.inj same]
      exact clean
    · cases made
  cases call with
  | create dir name type kcalloc => exact directory dir name.bytes type kcalloc name.terminated made
  | mkdir vfs path after kcalloc =>
    obtain ⟨target,named,made⟩ := Option.bind_eq_some_iff.mp made
    refine directory (some target.1) target.2 _ kcalloc (fun zero => ?_) made
    obtain ⟨cut,found,rest⟩ := Option.bind_eq_some_iff.mp named
    obtain ⟨parent,_,same⟩ := Option.bind_eq_some_iff.mp rest
    obtain ⟨shape,_⟩ := strrchr_some _ slash cut.1 cut.2 found
    rw [← Option.some.inj same] at zero
    have text := dirText_clean path after
    rw [shape] at text
    exact text (List.mem_append_right _ (List.mem_cons_of_mem _ (List.mem_of_mem_take zero)))
  | createDir p name kcalloc =>
    obtain ⟨_,same⟩ := Option.ite_none_right_eq_some.mp made
    rw [← Option.some.inj same]
    exact name.terminated
  | createFile p name kcalloc =>
    obtain ⟨_,same⟩ := Option.ite_none_right_eq_some.mp made
    rw [← Option.some.inj same]
    exact name.terminated

theorem step_tidy (fs : Files) (tidy : Tidy fs.tree) (call : Call) : Tidy (step fs call).tree := by
  rcases step_cases fs tidy.inv call with idle | ⟨c,made,node,room,_,tree⟩
  · rw [idle.1]
    exact tidy
  · rw [tree]
    exact create_tidy fs.tree c.parent c.name c.type room tidy node (creation_clean fs call c made)

theorem run_tidy (clock : Vfs.Clock) (counters : Counters) (calls : List Call) :
    Tidy (calls.foldl step (boot clock counters)).tree :=
  List.foldlRecOn (motive := fun fs => Tidy fs.tree) calls step init_tidy fun fs tidy call _ => step_tidy fs tidy call

section Lookup
variable (fs : Files) (tidy : Tidy fs.tree)
include tidy

/-- A node of a ramfs finds its children by their whole names. -/
theorem finddir_child (n : Nat) (name : List Byte) (clean : 0 ∉ name) (x : Node)
    (found : finddir fs (.ram n) name = some x) :
    ∃ c ∈ (fs.tree.entries n).children, (fs.tree.entries c).name = name ∧ x = .ram c := by
  obtain ⟨_,same⟩ := Option.ite_none_left_eq_some.mp found
  obtain ⟨c,first,rfl⟩ := Option.map_eq_some_iff.mp same
  rw [blackRamfsFinddir] at first
  have equal := List.find?_some first
  refine ⟨c,List.mem_of_find?_eq_some first,?_,rfl⟩
  exact (strcmp_zero _ _ (tidy.named c) clean).mp (beq_iff_eq.mp equal)

theorem walk_way (names : List (List Byte)) (n : Nat) (way : Way fs.tree names n) (parts : List (List Byte))
    (clean : ∀ part ∈ parts, 0 ∉ part) (x : Node) (found : walk (finddir fs) (some (.ram n)) parts = some x) :
    ∃ m, x = .ram m ∧ Way fs.tree (names ++ parts.filter (· ≠ [])) m := by
  induction parts generalizing names n with
  | nil =>
    refine ⟨n,(Option.some.inj found).symm,?_⟩
    rw [List.filter_nil,List.append_nil]
    exact way
  | cons part parts ih =>
    have rest := fun p member => clean p (List.mem_cons_of_mem part member)
    rw [walk,List.foldl_cons] at found
    by_cases empty : part = []
    · rw [if_pos empty] at found
      rw [empty,List.filter_cons_of_neg (by decide)]
      exact ih names n way rest found
    · have kept : (part :: parts).filter (· ≠ []) = part :: parts.filter (· ≠ []) :=
        List.filter_cons_of_pos (decide_eq_true empty)
      rw [if_neg empty,Option.bind_some] at found
      rw [kept]
      cases next : finddir fs (.ram n) part with
      | none =>
        rw [next] at found
        have null := Vfs.walk_none (finddir fs) parts
        rw [walk,found] at null
        cases null
      | some y =>
        obtain ⟨c,member,named,rfl⟩ := finddir_child fs tidy n part (clean part List.mem_cons_self) y next
        rw [next] at found
        have further := ih (names ++ [part]) c (by rw [← named]; exact .child names n c way member) rest found
        rw [List.append_assoc] at further
        exact further

/-- A path leads along the components of its first 255 bytes. -/
theorem lookup_way (s : State Node) (root : s.root = some (.ram 0)) (unmounted : ∀ m ∈ s.mounts, m.active = false)
    (path : Text) (absolute : path.bytes.head? = some slash) (x : Node)
    (found : Vfs.blackVfsLookup (finddir fs) s path.bytes = some x) :
    ∃ m, x = .ram m ∧ Way fs.tree (components (path.bytes.take (vfsMaxPath - 1))) m := by
  have bare : mountOf s.mounts path.bytes = none := by
    rw [Vfs.mountOf_find,List.find?_eq_none.mpr fun m listed => ?_]
    · rfl
    · rw [Vfs.Mount.serves,unmounted m listed]
      exact Bool.false_ne_true
  obtain ⟨tail,shape⟩ := List.head?_eq_some_iff.mp absolute
  have notZero := path.behind [] tail slash shape
  rw [Vfs.blackVfsLookup,bare,shape] at found
  dsimp only at found
  rw [Vfs.traverse_cut (finddir fs) s.root tail notZero,root] at found
  have cut : components (path.bytes.take (vfsMaxPath - 1)) = components (tail.take (vfsMaxPath - 2)) := by
    rw [shape]
    exact components_start _
  rw [cut]
  refine walk_way fs tidy [] 0 .root _ (fun part listed zero => notZero ?_) x found
  exact List.mem_of_mem_take (Library.Separated.mem_of_mem_splitOn slash _ part listed 0 zero)

end Lookup

/-- The names on the way to the node that a path leads to are its components exactly when what the buffer cuts off
has no part in them. -/
theorem way_components_iff (clock : Vfs.Clock) (counters : Counters) (calls : List Call) (s : State Node)
    (root : s.root = some (.ram 0)) (unmounted : ∀ m ∈ s.mounts, m.active = false) (path : Text)
    (absolute : path.bytes.head? = some slash) (x : Node)
    (found : Vfs.blackVfsLookup (finddir (calls.foldl step (boot clock counters))) s path.bytes = some x) :
    (∃ m, x = .ram m ∧ ∀ names, Way (calls.foldl step (boot clock counters)).tree names m ↔ names = components path.bytes) ↔
      components (path.bytes.take 255) = components path.bytes := by
  have tidy := run_tidy clock counters calls
  obtain ⟨m,rfl,way⟩ := lookup_way _ tidy s root unmounted path absolute x found
  constructor
  · rintro ⟨_,same,only⟩
    cases same
    exact (only _).mp way
  · intro same
    refine ⟨m,rfl,fun names => ⟨fun other => ?_,fun equal => ?_⟩⟩
    · rw [← same]
      exact way_unique _ tidy names _ m other way
    · rw [equal,← same]
      exact way

/-- A directory "a" in the root. -/
theorem letter_terminated : (0 : Byte) ∉ ([0x61] : List Byte) := by decide

def oneName : List Call := [.createDir 0 ⟨[0x61],letter_terminated⟩ true]

def rooted : State Node := Vfs.blackVfsSetRoot Vfs.blackVfsInit (some (.ram 0))

theorem rooted_unmounted : ∀ m ∈ rooted.mounts, m.active = false := fun m listed => by
  rw [List.eq_of_mem_replicate listed]

theorem way_components_iff_name :
    let fs := oneName.foldl step (boot 0 ⟨0,0,0,0⟩)
    Vfs.blackVfsLookup (finddir fs) rooted [0x2F,0x61] = some (.ram 1) ∧
      ((∃ m, Node.ram 1 = .ram m ∧ ∀ names, Way fs.tree names m ↔ names = components [0x2F,0x61]) ↔
        components ([0x2F,0x61].take 255) = components [0x2F,0x61]) :=
  ⟨rfl,way_components_iff 0 ⟨0,0,0,0⟩ oneName rooted rfl rooted_unmounted ⟨[0x2F,0x61],by decide⟩ rfl (.ram 1) rfl⟩

/-- "/a", slashes up to the 255th byte, and "b" behind them. -/
def aliasPath : Text where
  bytes := [0x2F,0x61] ++ List.replicate 253 slash ++ [0x62]
  terminated := by decide +kernel

/-- The long path leads to the directory "a". -/
theorem path_aliased :
    let fs := oneName.foldl step (boot 0 ⟨0,0,0,0⟩)
    Vfs.blackVfsLookup (finddir fs) rooted aliasPath.bytes = some (.ram 1) ∧
      ¬∃ m, Node.ram 1 = .ram m ∧ ∀ names, Way fs.tree names m ↔ names = components aliasPath.bytes := by
  intro fs
  refine ⟨by decide +kernel,?_⟩
  rintro ⟨_,same,only⟩
  cases same
  have way : Way fs.tree [[0x61]] 1 := .child [] 0 1 .root (List.mem_singleton.mpr rfl)
  exact absurd ((only _).mp way) (by decide +kernel)

end BlackOS.RamfsPaths
