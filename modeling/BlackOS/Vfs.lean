import BlackOS.LibcText
import BlackOS.Library.Separated

/-! The mount table and path lookup of `kernel/fs/vfs.c`. Nodes are of any type, a null node
is `none`, and `finddir` stands for the functions that the nodes carry. -/
namespace BlackOS.Vfs
open BlackOS.Library.Ram BlackOS.Library.Separated BlackOS.LibcText

def vfsMaxPath : Nat := 256
def blackMaxMounts : Nat := 16
def slash : Byte := 0x2F

/-- `black_mount_point_t`. -/
structure Mount (Node : Type) where
  path : Text
  root : Option Node
  active : Bool

/-- `black_vfs_root` and `black_mounts`. -/
structure State (Node : Type) where
  root : Option Node
  mounts : List (Mount Node)

section Calls
variable {Node : Type}

def blackVfsInit : State Node := ⟨none,List.replicate blackMaxMounts ⟨⟨[],nil_terminated⟩,none,false⟩⟩

def blackVfsSetRoot (s : State Node) (r : Option Node) : State Node := {s with root := r}

variable (finddir : Node → List Byte → Option Node)

def blackVfsFinddir (n : Option Node) (name : List Byte) : Option Node := n.bind fun n => finddir n name

/-- The loop of `black_vfs_traverse`; each round takes a byte at least. -/
def traverseLoop : Nat → Option Node → List Byte → Option Node
  | 0,cur,_ => cur
  | n+1,cur,tok =>
    if tok = [] ∨ cur = none then cur
    else match strchr tok slash with
      | some (name,next) =>
        traverseLoop n (if name.length > 0 then blackVfsFinddir finddir cur name else cur) next
      | none => if tok.length > 0 then blackVfsFinddir finddir cur tok else cur

def blackVfsTraverse (root : Option Node) (path : List Byte) : Option Node :=
  if path.head? ≠ some slash then none
  else if strcmp path [slash] = 0 then root
  else
    let buf := path.take (vfsMaxPath - 1)
    traverseLoop finddir buf.length root (buf.drop 1)

/-- The loop of `black_vfs_lookup`: the first active mount whose path the given one starts
with at the end of a component, and the rest of the path. -/
def mountOf : List (Mount Node) → List Byte → Option (Mount Node × List Byte)
  | [],_ => none
  | m::mounts,path =>
    if m.active = false then mountOf mounts path
    else
      let mlen := m.path.bytes.length
      let rest := path.drop mlen
      if strncmp path m.path.bytes mlen = 0 ∧ (rest = [] ∨ rest.head? = some slash) then some (m,rest)
      else mountOf mounts path

def blackVfsLookup (s : State Node) (path : List Byte) : Option Node :=
  match mountOf s.mounts path with
  | some (m,rest) => if rest = [] then m.root else blackVfsTraverse finddir m.root (slash :: rest.drop 1)
  | none => blackVfsTraverse finddir s.root path

def mountLoop : List (Mount Node) → Text → Option Node → List (Mount Node) × Int
  | [],_,_ => ([],-1)
  | m::mounts,path,r =>
    if m.active = false then (⟨strncpy path (vfsMaxPath - 1),r,true⟩ :: mounts,0)
    else
      let (rest,result) := mountLoop mounts path r
      (m :: rest,result)

def blackVfsMount (s : State Node) (path : Text) (r : Option Node) : State Node × Int :=
  let (mounts,result) := mountLoop s.mounts path r
  ({s with mounts := mounts},result)

def unmountLoop : List (Mount Node) → Text → List (Mount Node) × Int
  | [],_ => ([],-1)
  | m::mounts,path =>
    if m.active = true ∧ strcmp m.path.bytes path.bytes = 0 then ({m with active := false} :: mounts,0)
    else
      let (rest,result) := unmountLoop mounts path
      (m :: rest,result)

def blackVfsUnmount (s : State Node) (path : Text) : State Node × Int :=
  let (mounts,result) := unmountLoop s.mounts path
  ({s with mounts := mounts},result)

end Calls

section Walking
variable {Node : Type} (finddir : Node → List Byte → Option Node)

/-- The nodes along a path: empty components are passed over, and a null node stays null. -/
def walk (start : Option Node) (components : List (List Byte)) : Option Node :=
  components.foldl (fun cur name => if name = [] then cur else cur.bind fun n => finddir n name) start

theorem walk_none (components : List (List Byte)) : walk finddir none components = none := by
  induction components with
  | nil => rfl
  | cons name rest ih =>
    rw [walk,List.foldl_cons]
    split
    · exact ih
    · exact ih

theorem traverseLoop_walk (n : Nat) (cur : Option Node) (tok : List Byte) (enough : tok.length < n ∨ tok = []) :
    traverseLoop finddir n cur tok = walk finddir cur (tok.splitOn slash) := by
  induction n generalizing cur tok with
  | zero =>
    have empty : tok = [] := enough.resolve_left (Nat.not_lt_zero _)
    rw [empty]
    rfl
  | succ n ih =>
    rw [traverseLoop]
    by_cases over_ : tok = [] ∨ cur = none
    · rw [if_pos over_]
      rcases over_ with empty | null
      · rw [empty]
        rfl
      · rw [null,walk_none]
    · rw [if_neg over_]
      have filled : tok ≠ [] := fun empty => over_ (.inl empty)
      cases found : strchr tok slash with
      | none =>
        have absent := (strchr_none tok slash).mp found
        have long := List.length_pos_of_ne_nil filled
        dsimp only
        rw [List.splitOn_eq_singleton absent,if_pos long,walk,List.foldl_cons,if_neg filled]
        rfl
      | some cut =>
        obtain ⟨name,next⟩ := cut
        obtain ⟨shape,absent⟩ := strchr_some tok slash name next found
        have shorter : next.length < n ∨ next = [] := by
          rcases enough with short | empty
          · left
            rw [shape,List.length_append,List.length_cons] at short
            omega
          · exact absurd empty filled
        dsimp only
        rw [ih _ next shorter,shape,List.splitOn_append_cons_self_of_not_mem absent,walk,walk,List.foldl_cons]
        by_cases empty : name = []
        · rw [if_pos empty,empty]
          rfl
        · rw [if_neg empty,if_pos (List.length_pos_of_ne_nil empty)]
          rfl

/-- Traversal follows the components of what the buffer holds of an absolute path. -/
theorem traverse_cut (root : Option Node) (tail : List Byte) (clean : 0 ∉ tail) :
    blackVfsTraverse finddir root (slash :: tail) = walk finddir root ((tail.take (vfsMaxPath - 2)).splitOn slash) := by
  have notZero : 0 ∉ slash :: tail := by
    intro zero
    rcases List.mem_cons.mp zero with first | later
    · exact absurd first (by decide)
    · exact clean later
  rw [blackVfsTraverse,List.head?_cons,if_neg (not_not_intro rfl)]
  by_cases bare : strcmp (slash :: tail) [slash] = 0
  · rw [if_pos bare]
    have empty := (strcmp_zero _ _ notZero (by decide)).mp bare
    rw [(List.cons.inj empty).2]
    rfl
  · rw [if_neg bare]
    exact traverseLoop_walk finddir _ root (tail.take (vfsMaxPath - 2)) (.inl (Nat.lt_succ_self _))

/-- Traversal follows the components of an absolute path that fits the buffer. -/
theorem traverse_walk (root : Option Node) (tail : List Byte) (clean : 0 ∉ tail)
    (short : tail.length < vfsMaxPath - 1) :
    blackVfsTraverse finddir root (slash :: tail) = walk finddir root (tail.splitOn slash) := by
  have whole : tail.take (vfsMaxPath - 2) = tail := List.take_of_length_le (Nat.le_of_lt_succ short)
  rw [traverse_cut finddir root tail clean,whole]

end Walking

end BlackOS.Vfs
