import BlackOS.LibcBuffer
import BlackOS.RamfsNames
import BlackOS.VfsMounts

/-! The paths of `kernel/fs/vfs.c` in their buffers: `black_vfs_traverse`, `black_vfs_lookup` and `black_vfs_mkdir`
with the accesses to their local arrays. A call gives no result when it goes beyond one of them, or reads a byte
that it has not written. -/
namespace BlackOS.VfsBuffers
open BlackOS.Library.Ram BlackOS.Library.Separated BlackOS.LibcText BlackOS.LibcBuffer
open BlackOS.Vfs (State Mount slash vfsMaxPath mountOf walk)
open BlackOS.Ramfs (vfsMaxName vfsDirectory)

variable {σ Node : Type}

section Lookup
variable (finddir : Node → Option (σ → List Byte → σ × Option Node))

/-- A function of a node may change the files. -/
def blackVfsFinddir (fs : σ) (n : Option Node) (name : List Byte) : σ × Option Node :=
  match n.bind finddir with
  | some find => find fs name
  | none => (fs,none)

/-- An empty component is passed over. -/
def findToken (fs : σ) (cur : Option Node) (buf : Buffer) (tok len : Nat) : Option (σ × Option Node) :=
  if len > 0 then (text buf tok).map (blackVfsFinddir finddir fs cur) else some (fs,cur)

/-- The loop of `black_vfs_traverse`; every round goes on behind a byte of the buffer. -/
def traverseLoop : Nat → σ → Option Node → Buffer → Nat → Option (σ × Option Node)
  | 0,_,_,_,_ => none
  | fuel+1,fs,cur,buf,tok => do
    let x ← buf.read tok
    if x = 0 ∨ cur = none then return (fs,cur)
    else
      let next ← strchr buf tok slash
      let buf ← match next with
        | some next => buf.write next 0
        | none => some buf
      let len ← strlen buf tok
      let (fs,cur) ← findToken finddir fs cur buf tok len
      match next with
      | some next => traverseLoop fuel fs cur buf (next + 1)
      | none => return (fs,cur)

def blackVfsTraverse (s : State Node) (fs : σ) (path : Option Buffer) : Option (State Node × σ × Option Node) :=
  match path with
  | none => some (s,fs,none)
  | some path => do
    let x ← path.read 0
    if x ≠ slash then return (s,fs,none)
    else
      let same ← strcmp path (Buffer.initial 2 [slash])
      if same = 0 then return (s,fs,s.root)
      else
        let buf ← strncpy (Buffer.fresh vfsMaxPath) 0 path 0 (vfsMaxPath - 1)
        let buf ← buf.write (vfsMaxPath - 1) 0
        let (fs,cur) ← traverseLoop finddir (buf.size + 1) fs s.root buf 1
        return (s,fs,cur)

/-- The comparisons of the loop over the mounts read no further than the end of the path. -/
def blackVfsLookup (s : State Node) (fs : σ) (path : Buffer) : Option (State Node × σ × Option Node) := do
  let bytes ← text path 0
  match mountOf s.mounts bytes with
  | some (m,rest) =>
    if rest = [] then return (s,fs,m.root)
    else
      let sub ← strcat (Buffer.initial vfsMaxPath [slash]) path (m.path.bytes.length + 1)
      let old := s.root
      let (s,fs,r) ← blackVfsTraverse finddir {s with root := m.root} fs (some sub)
      return ({s with root := old},fs,r)
  | none => blackVfsTraverse finddir s fs (some path)

/-- The function of the parent is given the buffer of the name. -/
def blackVfsMkdir (create : σ → Node → Buffer → Option (σ × Int)) (s : State Node) (fs : σ) (path : Text) :
    Option (State Node × σ × Int) := do
  let dir ← strncpy (Buffer.fresh vfsMaxPath) 0 (Buffer.ofText path) 0 (vfsMaxPath - 1)
  match ← strrchr dir 0 slash with
  | none => return (s,fs,-1)
  | some last =>
    let name ← strncpy (Buffer.fresh vfsMaxName) 0 dir (last + 1) (vfsMaxName - 1)
    let dir ← dir.write (if last = 0 then 1 else last) 0
    let (s,fs,parent) ← blackVfsLookup finddir s fs dir
    match parent with
    | none => return (s,fs,-1)
    | some parent =>
      let (fs,result) ← create fs parent name
      return (s,fs,result)

end Lookup

/-- The components that are not empty. -/
def components (path : List Byte) : List (List Byte) := (path.splitOn slash).filter (· ≠ [])

section Traverse
variable (finddir : Node → Option (σ → List Byte → σ × Option Node))

/-- One node after the other is looked up in the one before, until there is none. -/
def follow (fs : σ) (cur : Option Node) : List (List Byte) → σ × Option Node
  | [] => (fs,cur)
  | name::names =>
    if cur = none then (fs,none)
    else
      let (fs,cur) := blackVfsFinddir finddir fs cur name
      follow fs cur names

theorem follow_none (fs : σ) (names : List (List Byte)) : follow finddir fs none names = (fs,none) := by
  cases names with
  | nil => rfl
  | cons name names => rw [follow,if_pos rfl]

theorem follow_append (fs : σ) (cur : Option Node) (names more : List (List Byte)) :
    follow finddir fs cur (names ++ more) =
      follow finddir (follow finddir fs cur names).1 (follow finddir fs cur names).2 more := by
  induction names generalizing fs cur with
  | nil => rfl
  | cons name names ih =>
    rw [List.cons_append,follow,follow]
    by_cases null : cur = none
    · rw [if_pos null,if_pos null,follow_none]
    · rw [if_neg null,if_neg null]
      exact ih _ _

theorem components_plain (name : List Byte) (plain : slash ∉ name) :
    components name = if name = [] then [] else [name] := by
  rw [components,List.splitOn_eq_singleton plain,List.filter_cons,List.filter_nil]
  by_cases empty : name = []
  · rw [empty]
    rfl
  · rw [if_neg empty,if_pos (decide_eq_true empty)]

theorem components_cut (name rest : List Byte) (plain : slash ∉ name) :
    components (name ++ slash :: rest) = components name ++ components rest := by
  have single := List.splitOn_eq_singleton plain
  rw [components,components,components,List.splitOn_append_cons_self_of_not_mem plain,single,← List.filter_append]
  rfl

/-- The token has been cut to a component. -/
theorem findToken_follow (fs : σ) (cur : Option Node) (there : cur ≠ none) (buf : Buffer) (tok : Nat) (name : List Byte)
    (plain : slash ∉ name) (holds : Holds buf tok name) :
    findToken finddir fs cur buf tok name.length = some (follow finddir fs cur (components name)) := by
  rw [findToken,components_plain name plain]
  by_cases empty : name = []
  · rw [empty]
    rfl
  · rw [if_neg empty,if_pos (List.length_pos_of_ne_nil empty),text_eq buf tok name holds,follow,if_neg there]
    rfl

/-- The slash behind a component is overwritten, and the token goes on behind it. -/
theorem token_cut (buf : Buffer) (tok : Nat) (name rest : List Byte) (holds : Holds buf tok (name ++ slash :: rest)) :
    ∃ cut, buf.write (tok + name.length) 0 = some cut ∧ Holds cut tok name ∧ Holds cut (tok + name.length + 1) rest := by
  have size := holds_size buf tok _ holds
  rw [List.length_append,List.length_cons] at size
  have written := write_some buf (tok + name.length) 0 (by omega)
  have behind := reads_drop buf (some 0) tok name (slash :: rest) holds
  exact ⟨_,written,write_cuts buf (some 0) _ tok name (slash :: rest) holds written,
    write_keeps buf (some 0) _ _ _ 0 rest (Nat.lt_succ_self _) behind.2.2 written⟩

theorem traverseLoop_follow (fuel : Nat) (fs : σ) (cur : Option Node) (buf : Buffer) (tok : Nat) (t : List Byte)
    (holds : Holds buf tok t) (enough : t.length < fuel) :
    traverseLoop finddir fuel fs cur buf tok = some (follow finddir fs cur (components t)) := by
  induction fuel generalizing fs cur buf tok t with
  | zero => exact absurd enough (Nat.not_lt_zero _)
  | succ fuel ih =>
    rw [traverseLoop]
    cases t with
    | nil =>
      have end_ : buf.read tok = some 0 := holds
      rw [end_,Option.bind_eq_bind,Option.bind_some,if_pos (.inl rfl)]
      rfl
    | cons x t =>
      rw [holds.1,Option.bind_eq_bind,Option.bind_some]
      by_cases null : cur = none
      · rw [if_pos (.inr null),null,follow_none]
        rfl
      · rw [if_neg fun either => either.elim holds.2.1 null,strchr_eq buf tok (x :: t) holds slash (by decide)]
        cases found : LibcText.strchr (x :: t) slash with
        | none =>
          have plain := (strchr_none (x :: t) slash).mp found
          simp only [Option.map_none,Option.bind_eq_bind,Option.bind_some,strlen_eq buf tok (x :: t) holds]
          rw [findToken_follow finddir fs cur null buf tok (x :: t) plain holds]
          rfl
        | some cut =>
          obtain ⟨name,rest⟩ := cut
          obtain ⟨shape,plain⟩ := strchr_some (x :: t) slash name rest found
          rw [shape,List.length_append,List.length_cons] at enough
          obtain ⟨cut,written,first,second⟩ := token_cut buf tok name rest (by rw [← shape]; exact holds)
          simp only [Option.map_some,Option.bind_eq_bind,Option.bind_some,written,strlen_eq cut tok name first]
          rw [findToken_follow finddir fs cur null cut tok name plain first,shape,components_cut name rest plain,
            follow_append]
          exact ih _ _ cut _ rest second (by omega)

/-- The buffer of `black_vfs_traverse` holds the first bytes of the path and ends with a zero. -/
theorem buffer_holds (path : Buffer) (t : List Byte) (holds : Holds path 0 t) :
    ∃ dst buf, strncpy (Buffer.fresh vfsMaxPath) 0 path 0 (vfsMaxPath - 1) = some dst ∧
      dst.write (vfsMaxPath - 1) 0 = some buf ∧ Holds buf 0 (t.take (vfsMaxPath - 1)) := by
  have clean := reads_clean path _ 0 t holds
  have room : 0 + (vfsMaxPath - 1) ≤ (Buffer.fresh vfsMaxPath).size := by decide
  have copied := strncpy_eq (Buffer.fresh vfsMaxPath) 0 t path (some 0) 0 (vfsMaxPath - 1) room holds (.inr rfl)
  have written := write_some ((Buffer.fresh vfsMaxPath).stored 0 (vfsMaxPath - 1) t) (vfsMaxPath - 1) 0
    (show vfsMaxPath - 1 < vfsMaxPath by decide)
  refine ⟨_,_,copied,written,?_⟩
  have after (j : Nat) := (read_write _ _ (vfsMaxPath - 1) j 0 written).2
  have reads := reads_copied _ 0 (vfsMaxPath - 1) t clean fun j inside => by
    rw [Nat.zero_add,after,if_neg (Nat.ne_of_lt inside),read_stored _ 0 _ t room,if_pos ⟨Nat.zero_le j,by omega⟩,
      Nat.sub_zero]
  rw [Nat.zero_add,after,if_pos rfl,ite_self] at reads
  exact reads

theorem components_start (t : List Byte) : components (slash :: t) = components t :=
  (components_cut [] t List.not_mem_nil).trans (by rfl)

/-- The call on a string: the components of what the buffer holds of it are looked up. -/
theorem traverse_eq (s : State Node) (fs : σ) (path : Buffer) (t : List Byte) (holds : Holds path 0 t) :
    blackVfsTraverse finddir s fs (some path) =
      some (s,if t.head? = some slash then follow finddir fs s.root (components (t.take (vfsMaxPath - 1)))
        else (fs,none)) := by
  have clean := reads_clean path _ 0 t holds
  have one := initial_holds 2 [slash] (by decide) (by decide)
  rw [blackVfsTraverse]
  cases t with
  | nil =>
    have end_ : path.read 0 = some 0 := holds
    rw [end_,Option.bind_eq_bind,Option.bind_some,if_pos (by decide)]
    rfl
  | cons x t =>
    rw [holds.1,Option.bind_eq_bind,Option.bind_some,List.head?_cons]
    by_cases absolute : x = slash
    · subst absolute
      rw [if_neg (not_not_intro rfl),if_pos rfl,strcmp_eq path _ (slash :: t) [slash] holds one,Option.bind_eq_bind,
        Option.bind_some]
      by_cases bare : LibcText.strcmp (slash :: t) [slash] = 0
      · have same := (strcmp_zero _ _ clean (by decide)).mp bare
        rw [if_pos bare,same]
        rfl
      · obtain ⟨dst,buf,copied,written,held⟩ := buffer_holds path (slash :: t) holds
        have tail : Holds buf 1 (t.take (vfsMaxPath - 2)) := held.2.2
        rw [if_neg bare,copied,Option.bind_eq_bind,Option.bind_some,written,Option.bind_some,
          traverseLoop_follow finddir (buf.size + 1) fs s.root buf 1 _ tail (holds_rounds buf 1 _ tail)]
        have start : components ((slash :: t).take (vfsMaxPath - 1)) = components (t.take (vfsMaxPath - 2)) :=
          components_start _
        rw [start]
        rfl
    · rw [if_pos absolute,if_neg fun same => absolute (Option.some.inj same)]
      rfl

/-- `black_vfs_traverse` follows the components of a path that fits the buffer, and leaves `black_vfs_root` as it
was. -/
theorem traverse_components (s : State Node) (fs : σ) (path : Text) (short : path.bytes.length ≤ 255) :
    blackVfsTraverse finddir s fs (some (Buffer.ofText path)) =
      some (s,if path.bytes.head? = some slash then follow finddir fs s.root (components path.bytes) else (fs,none)) := by
  have whole : path.bytes.take (vfsMaxPath - 1) = path.bytes := List.take_of_length_le short
  rw [traverse_eq finddir s fs _ path.bytes (ofText_holds path),whole]

end Traverse

/-- "/a//b/", looked up from node 0 by functions that count their calls and find the next node. -/
theorem traverse_components_two :
    blackVfsTraverse (fun n => some fun (calls : Nat) _ => (calls + 1,some (n + 1))) ⟨some 0,[]⟩ 0
      (some (Buffer.ofText ⟨[0x2F,0x61,0x2F,0x2F,0x62,0x2F],by decide⟩)) = some (⟨some 0,[]⟩,2,some 2) :=
  traverse_components (fun n => some fun (calls : Nat) _ => (calls + 1,some (n + 1))) ⟨some 0,[]⟩ 0
    ⟨[0x2F,0x61,0x2F,0x2F,0x62,0x2F],by decide⟩ (by decide)

section Calls
variable (finddir : Node → Option (σ → List Byte → σ × Option Node))

/-- The path of the mount and the rest behind it, which begins a component. -/
theorem mountOf_shape (mounts : List (Mount Node)) (p : List Byte) (m : Mount Node) (rest : List Byte)
    (found : mountOf mounts p = some (m,rest)) :
    p = m.path.bytes ++ rest ∧ (rest = [] ∨ ∃ tail, rest = slash :: tail) := by
  rw [Vfs.mountOf_find] at found
  obtain ⟨m',first,same⟩ := Option.map_eq_some_iff.mp found
  cases same
  rcases (under_iff slash _ p).mp ((Vfs.serves_iff p m).mp (List.find?_some first)).2 with equal | ⟨tail,shape⟩
  · rw [equal,List.drop_length,List.append_nil]
    exact ⟨rfl,.inl rfl⟩
  · rw [shape,List.drop_left]
    exact ⟨rfl,.inr ⟨tail,rfl⟩⟩

/-- The path in the buffer of `black_vfs_lookup`, if there is room. -/
theorem sub_holds (path : Buffer) (i : Nat) (tail : List Byte) (holds : Holds path i tail) :
    ∃ sub, strcat (Buffer.initial vfsMaxPath [slash]) path i =
        (if (slash :: tail).length < vfsMaxPath then some sub else none) ∧
      ((slash :: tail).length < vfsMaxPath → Holds sub 0 (slash :: tail)) := by
  have start := initial_holds vfsMaxPath [slash] (by decide) (by decide)
  have joined := strcat_eq (Buffer.initial vfsMaxPath [slash]) tail path i [slash] start holds
  rw [Nat.add_comm] at joined
  refine ⟨_,joined,fun room => ⟨rfl,by decide,?_⟩⟩
  refine stored_holds _ 1 _ tail ?_ (reads_clean path _ i tail holds) (Nat.lt_succ_self _)
  rw [Nat.add_comm 1]
  exact Nat.succ_le_of_lt room

/-- The call on a string: `strcat` has room for 254 bytes behind the slash. -/
theorem lookup_eq (s : State Node) (fs : σ) (path : Buffer) (t : List Byte) (holds : Holds path 0 t) :
    blackVfsLookup finddir s fs path =
      match mountOf s.mounts t with
      | some (m,rest) =>
        if rest = [] then some (s,fs,m.root)
        else if rest.length < vfsMaxPath then some (s,follow finddir fs m.root (components rest)) else none
      | none => some (s,if t.head? = some slash then follow finddir fs s.root (components (t.take (vfsMaxPath - 1)))
        else (fs,none)) := by
  rw [blackVfsLookup,text_eq path 0 t holds,Option.bind_eq_bind,Option.bind_some]
  cases found : mountOf s.mounts t with
  | none => exact traverse_eq finddir s fs path t holds
  | some served =>
    obtain ⟨m,rest⟩ := served
    obtain ⟨shape,boundary⟩ := mountOf_shape s.mounts t m rest found
    dsimp only
    rcases boundary with exact_ | ⟨tail,rfl⟩
    · rw [if_pos exact_,if_pos exact_]
      rfl
    · rw [shape] at holds
      have behind := reads_drop path (some 0) 0 m.path.bytes (slash :: tail) holds
      rw [Nat.zero_add] at behind
      obtain ⟨sub,joined,held⟩ := sub_holds path _ tail behind.2.2
      rw [if_neg (List.cons_ne_nil slash tail),if_neg (List.cons_ne_nil slash tail),joined]
      by_cases room : (slash :: tail).length < vfsMaxPath
      · have whole : (slash :: tail).take (vfsMaxPath - 1) = slash :: tail :=
          List.take_of_length_le (Nat.le_of_lt_succ room)
        rw [if_pos room,if_pos room,Option.bind_eq_bind,Option.bind_some,
          traverse_eq finddir _ fs _ (slash :: tail) (held room),List.head?_cons,if_pos rfl,whole]
        rfl
      · rw [if_neg room,if_neg room]
        rfl

end Calls

section Reading
variable (find : σ → Node → List Byte → Option Node)

/-- The functions of nodes that leave the files as they are. -/
def reading : Node → Option (σ → List Byte → σ × Option Node) := fun n => some fun fs name => (fs,find fs n name)

theorem follow_walk (fs : σ) (cur : Option Node) (path : List Byte) :
    follow (reading find) fs cur (components path) = (fs,walk (find fs) cur (path.splitOn slash)) := by
  rw [components]
  generalize path.splitOn slash = names
  induction names generalizing cur with
  | nil => rfl
  | cons name names ih =>
    rw [walk,List.foldl_cons]
    by_cases empty : name = []
    · rw [empty,List.filter_cons_of_neg (by decide),if_pos rfl]
      exact ih cur
    · have kept : (name :: names).filter (· ≠ []) = name :: names.filter (· ≠ []) :=
        List.filter_cons_of_pos (decide_eq_true empty)
      rw [kept,if_neg empty,follow]
      cases cur with
      | none =>
        rw [if_pos rfl]
        exact congrArg (Prod.mk fs) (Vfs.walk_none (find fs) names).symm
      | some n =>
        rw [if_neg (Option.some_ne_none n)]
        exact ih (find fs n name)

/-- The traversal of `black_vfs_root`, as the model of strings has it. -/
theorem follow_traverse (fs : σ) (root : Option Node) (t : List Byte) (clean : 0 ∉ t) (start : t.head? = some slash) :
    follow (reading find) fs root (components (t.take (vfsMaxPath - 1))) =
      (fs,Vfs.blackVfsTraverse (find fs) root t) := by
  obtain ⟨tail,rfl⟩ := List.head?_eq_some_iff.mp start
  have cut : components ((slash :: tail).take (vfsMaxPath - 1)) = components (tail.take (vfsMaxPath - 2)) :=
    components_start _
  rw [cut,follow_walk,Vfs.traverse_cut (find fs) root tail fun zero => clean (List.mem_cons_of_mem _ zero)]

/-- A path leaves room for the slash in the buffer of the part behind its mount. -/
def Short (mounts : List (Mount Node)) (p : List Byte) : Prop :=
  ∀ m rest, mountOf mounts p = some (m,rest) → rest.length < vfsMaxPath

theorem lookup_isSome (finddir : Node → Option (σ → List Byte → σ × Option Node)) (s : State Node) (fs : σ) (path : Buffer)
    (t : List Byte) (holds : Holds path 0 t) :
    (blackVfsLookup finddir s fs path).isSome ↔ Short s.mounts t := by
  rw [lookup_eq finddir s fs path t holds,Short]
  cases mountOf s.mounts t with
  | none => exact iff_of_true rfl nofun
  | some served =>
    obtain ⟨m,rest⟩ := served
    have same : (∀ m' rest', some (m,rest) = some (m',rest') → rest'.length < vfsMaxPath) ↔ rest.length < vfsMaxPath :=
      ⟨fun all => all m rest rfl,fun short m' rest' same => by cases same; exact short⟩
    rw [same]
    dsimp only
    split_ifs with exact_ room
    · rw [exact_]
      exact iff_of_true rfl (by decide)
    · exact iff_of_true rfl room
    · exact iff_of_false nofun room

/-- A lookup that keeps to its buffers finds what the model of strings does. -/
theorem lookup_refines (s : State Node) (fs : σ) (path : Buffer) (t : List Byte) (holds : Holds path 0 t)
    (short : Short s.mounts t) :
    blackVfsLookup (reading find) s fs path = some (s,fs,Vfs.blackVfsLookup (find fs) s t) := by
  have clean := reads_clean path _ 0 t holds
  rw [lookup_eq (reading find) s fs path t holds,Vfs.blackVfsLookup]
  cases found : mountOf s.mounts t with
  | none =>
    dsimp only
    by_cases start : t.head? = some slash
    · rw [if_pos start,follow_traverse find fs s.root t clean start]
    · rw [if_neg start,Vfs.blackVfsTraverse,if_pos start]
  | some served =>
    obtain ⟨m,rest⟩ := served
    obtain ⟨shape,boundary⟩ := mountOf_shape s.mounts t m rest found
    have room := short m rest found
    dsimp only
    rcases boundary with exact_ | ⟨tail,rfl⟩
    · rw [if_pos exact_,if_pos exact_]
    · rw [shape] at clean
      have notZero : 0 ∉ slash :: tail := fun zero => clean (List.mem_append_right _ zero)
      have whole : (slash :: tail).take (vfsMaxPath - 1) = slash :: tail :=
        List.take_of_length_le (Nat.le_of_lt_succ room)
      have followed := follow_traverse find fs m.root (slash :: tail) notZero rfl
      rw [whole] at followed
      rw [if_neg (List.cons_ne_nil slash tail),if_neg (List.cons_ne_nil slash tail),if_pos room,followed]
      rfl

end Reading

/-! `black_vfs_mkdir` on the files of the kernel, where only the directories of a ramfs have a function for creating
entries. -/
section Mkdir
open BlackOS.FileSystems (Files files)

variable (kcalloc : Bool) (s : State FileSystems.Node) (fs : Files) (path : Text)

def finddirIn : FileSystems.Node → Option (Files → List Byte → Files × Option FileSystems.Node) :=
  reading (files fun _ _ => none).finddirFn

/-- `black_vfs_create`: the name is as `black_ramfs_create` copies it into the entry, which is all zeros before. -/
def blackVfsCreate (fs : Files) (parent : FileSystems.Node) (name : Buffer) : Option (Files × Int) := do
  let stored ← strncpy (Buffer.initial vfsMaxName []) 0 name 0 (vfsMaxName - 1)
  let name ← text stored 0
  return RamfsNames.blackVfsCreate fs (some parent) name vfsDirectory kcalloc

/-- The buffer of the name holds 127 bytes, which may be without a zero. -/
theorem create_name (parent : FileSystems.Node) (name : List Byte) (clean : 0 ∉ name) :
    blackVfsCreate kcalloc fs parent ((Buffer.fresh vfsMaxName).stored 0 (vfsMaxName - 1) name) =
      some (RamfsNames.blackVfsCreate fs (some parent) (name.take (vfsMaxName - 1)) vfsDirectory kcalloc) := by
  have notZero : 0 ∉ name.take (vfsMaxName - 1) := fun zero => clean (List.mem_of_mem_take zero)
  have given := stored_reads (Buffer.fresh vfsMaxName) 0 (vfsMaxName - 1) name (by decide) clean
  have enough : vfsMaxName - 1 ≤ (name.take (vfsMaxName - 1)).length ∨
      (if name.length < vfsMaxName - 1 then some 0 else (Buffer.fresh vfsMaxName).read (0 + (vfsMaxName - 1))) =
        some (0 : Byte) := by
    rw [List.length_take]
    by_cases short : name.length < vfsMaxName - 1
    · exact .inr (if_pos short)
    · exact .inl (by omega)
  have copied := strncpy_eq (Buffer.initial vfsMaxName []) 0 _ _ _ 0 (vfsMaxName - 1) (by decide) given enough
  have kept := stored_reads (Buffer.initial vfsMaxName []) 0 (vfsMaxName - 1) (name.take (vfsMaxName - 1)) (by decide)
    notZero
  have end_ : (Buffer.initial vfsMaxName []).read (0 + (vfsMaxName - 1)) = some 0 := rfl
  rw [end_,ite_self,List.take_take,Nat.min_self] at kept
  rw [blackVfsCreate,copied,Option.bind_eq_bind,Option.bind_some,text_eq _ 0 _ kept]
  rfl

theorem dir_long (long : 255 ≤ path.bytes.length) :
    blackVfsMkdir finddirIn (blackVfsCreate kcalloc) s fs path = none := by
  have copied := strncpy_eq (Buffer.fresh vfsMaxPath) 0 path.bytes (Buffer.ofText path) (some 0) 0 (vfsMaxPath - 1) (by decide)
    (ofText_holds path) (.inr rfl)
  have reads := stored_reads (Buffer.fresh vfsMaxPath) 0 (vfsMaxPath - 1) path.bytes (by decide) path.terminated
  have open_ : (Buffer.fresh vfsMaxPath).read (0 + (vfsMaxPath - 1)) = none := rfl
  rw [open_,if_neg (show ¬path.bytes.length < vfsMaxPath - 1 from Nat.not_lt_of_le long)] at reads
  rw [blackVfsMkdir,copied,Option.bind_eq_bind,Option.bind_some,
    strrchr_eq _ none 0 _ slash (by decide) (Nat.zero_le _) (.inr rfl) reads]
  rfl

/-- The path that is cut at its last slash. -/
theorem dir_cut (dir : Buffer) (before after : List Byte) (holds : Holds dir 0 (before ++ slash :: after)) :
    ∃ cut, dir.write (if before.length = 0 then 1 else before.length) 0 = some cut ∧
      Holds cut 0 (if before = [] then [slash] else before) := by
  have size := holds_size dir 0 _ holds
  rw [List.length_append,List.length_cons] at size
  by_cases top : before = []
  · subst top
    have written := write_some dir 1 0 (by omega)
    exact ⟨_,written,write_cuts dir _ _ 0 [slash] after holds written⟩
  · have filled : before.length ≠ 0 := fun zero => top (List.length_eq_zero_iff.mp zero)
    have written := write_some dir before.length 0 (by omega)
    rw [if_neg top,if_neg filled]
    refine ⟨_,written,write_cuts dir (some 0) _ 0 before (slash :: after) holds ?_⟩
    rw [Nat.zero_add]
    exact written

/-- A mount leaves no more of a path than there is. -/
theorem short_dir (mounts : List (Mount Node)) (p : List Byte) (short : p.length < vfsMaxPath) : Short mounts p := by
  intro m rest found
  rw [(mountOf_shape mounts p m rest found).1,List.length_append] at short
  omega

/-- A path of at most 254 bytes is handled within the buffers. -/
theorem mkdir_refines (after : Text) (short : path.bytes.length ≤ 254) :
    blackVfsMkdir finddirIn (blackVfsCreate kcalloc) s fs path = some (s,RamfsNames.blackVfsMkdir fs s path after kcalloc) := by
  have copied := strncpy_eq (Buffer.fresh vfsMaxPath) 0 path.bytes (Buffer.ofText path) (some 0) 0 (vfsMaxPath - 1) (by decide)
    (ofText_holds path) (.inr rfl)
  have holds := stored_holds (Buffer.fresh vfsMaxPath) 0 (vfsMaxPath - 1) path.bytes (by decide) path.terminated
    (Nat.lt_succ_of_le short)
  have target : RamfsNames.dirText path after = path.bytes := if_pos (Nat.lt_succ_of_le short)
  rw [blackVfsMkdir,copied,Option.bind_eq_bind,Option.bind_some,
    strrchr_eq _ (some 0) 0 _ slash (by decide) (Nat.zero_le _) (.inl rfl) holds,RamfsNames.blackVfsMkdir,
    RamfsNames.mkdirTarget,target]
  cases found : LibcText.strrchr path.bytes slash with
  | none => rfl
  | some cut =>
    obtain ⟨before,rest⟩ := cut
    obtain ⟨shape,_⟩ := strrchr_some path.bytes slash before rest found
    have size := short
    rw [shape] at holds size
    rw [List.length_append,List.length_cons] at size
    have notZero := path.behind before rest slash shape
    have behind := reads_drop _ (some 0) 0 before (slash :: rest) holds
    have named := strncpy_eq (Buffer.fresh vfsMaxName) 0 rest _ (some 0) (0 + before.length + 1) (vfsMaxName - 1) (by decide)
      behind.2.2 (.inr rfl)
    obtain ⟨cut,written,held⟩ := dir_cut _ before rest holds
    have parent := lookup_refines (files fun _ _ => none).finddirFn s fs cut _ held (short_dir s.mounts _ (by
      split
      · decide
      · exact Nat.lt_of_le_of_lt (Nat.le_add_right _ _) (Nat.lt_of_le_of_lt size (by decide))))
    rw [Nat.zero_add] at named
    rw [shape]
    simp only [Option.map_some,Option.bind_eq_bind,Option.bind_some,Nat.zero_add,named,written,finddirIn,parent]
    cases Vfs.blackVfsLookup ((files fun _ _ => none).finddirFn fs) s (if before = [] then [slash] else before) with
    | none => rfl
    | some found =>
      simp only [create_name kcalloc fs found rest notZero]
      rfl

end Mkdir

/-- `black_vfs_lookup` keeps to its buffers when the part of the path behind the mount fits beside a slash, and
`black_vfs_mkdir` when the path is of at most 254 bytes. -/
theorem buffers_kept_iff (finddir : Node → Option (σ → List Byte → σ × Option Node)) (s : State Node) (fs : σ)
    (path : Text) : ((blackVfsLookup finddir s fs (Buffer.ofText path)).isSome ↔ Short s.mounts path.bytes) ∧
      ∀ kcalloc vfs files, (blackVfsMkdir finddirIn (blackVfsCreate kcalloc) vfs files path).isSome ↔
        path.bytes.length ≤ 254 := by
  refine ⟨lookup_isSome finddir s fs _ path.bytes (ofText_holds path),fun kcalloc vfs files => ?_⟩
  by_cases short : path.bytes.length ≤ 254
  · rw [mkdir_refines kcalloc vfs files path path short]
    exact iff_of_true rfl short
  · rw [dir_long kcalloc vfs files path (Nat.lt_of_not_le short)]
    exact iff_of_false nofun short

/-- A path of so many bytes behind its start. -/
def extended (start : Text) (n : Nat) : Text where
  bytes := start.bytes ++ List.replicate n 0x62
  terminated := by
    intro zero
    rcases List.mem_append.mp zero with first | later
    · exact start.terminated first
    · exact absurd (List.eq_of_mem_replicate later) (by decide)

/-- Paths of 258 and of 255 bytes, the first one under a mount at "/a". -/
theorem buffers_overrun :
    let mounted := (Vfs.blackVfsMount (Vfs.blackVfsInit : State Unit) ⟨[0x2F,0x61],by decide⟩ (some ())).1
    blackVfsLookup (fun _ => none) mounted () (Buffer.ofText (extended ⟨[0x2F,0x61,0x2F],by decide⟩ 255)) = none ∧
      ∀ kcalloc vfs files,
        blackVfsMkdir finddirIn (blackVfsCreate kcalloc) vfs files (extended ⟨[0x2F],by decide⟩ 254) = none := by
  intro mounted
  have served : mountOf mounted.mounts (extended ⟨[0x2F,0x61,0x2F],by decide⟩ 255).bytes =
      some (⟨⟨[0x2F,0x61],by decide⟩,some (),true⟩,slash :: List.replicate 255 0x62) := rfl
  have full := (lookup_isSome (fun _ => none) mounted () _ _ (ofText_holds _)).not.mpr fun short =>
    absurd (short _ _ served) (by rw [List.length_cons,List.length_replicate]; decide)
  refine ⟨Option.not_isSome_iff_eq_none.mp full,fun kcalloc vfs files => dir_long kcalloc vfs files _ ?_⟩
  rw [extended,List.length_append,List.length_replicate]
  decide

end BlackOS.VfsBuffers
