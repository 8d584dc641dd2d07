import BlackOS.VfsMounts

/-! A mount followed by an unmount of the same path. The mount fills the first free slot and
the unmount clears the first active slot that has the path, so that where the path was
mounted before another slot is cleared than the one that was filled. -/
namespace BlackOS.Vfs
open BlackOS.Library.Ram BlackOS.Library.Separated BlackOS.Library.Run BlackOS.LibcText

variable {Node : Type}

/-- What a lookup takes from the table: the root of the mount, and the rest of the path. -/
def through (mounts : List (Mount Node)) (p : List Byte) : Option (Option Node × List Byte) :=
  (mountOf mounts p).map fun found => (found.1.root,found.2)

theorem through_find (mounts : List (Mount Node)) (p : List Byte) :
    through mounts p =
      (mounts.find? (Mount.serves p)).map fun m => (m.root,p.drop m.path.bytes.length) := by
  rw [through,mountOf_find,Option.map_map]
  rfl

theorem through_append (first second : List (Mount Node)) (p : List Byte) :
    through (first ++ second) p = (through first p).or (through second p) := by
  rw [through_find,through_find,through_find,List.find?_append,Option.map_or]

theorem through_idle (m : Mount Node) (mounts : List (Mount Node)) (p : List Byte)
    (idle : m.active = false) : through (m :: mounts) p = through mounts p := by
  have skipped : m.serves p = false := by rw [Mount.serves,idle,Bool.false_and]
  rw [through_find,through_find,List.find?_cons,skipped]

theorem through_active (m : Mount Node) (mounts : List (Mount Node)) (p : List Byte)
    (active : m.active = true) : through (m :: mounts) p =
      if Under slash m.path.bytes p then some (m.root,p.drop m.path.bytes.length) else through mounts p := by
  rw [through_find,through_find,List.find?_cons]
  by_cases under : Under slash m.path.bytes p
  · rw [(serves_iff p m).mpr ⟨active,under⟩,if_pos under]
    rfl
  · have skipped : m.serves p = false := by
      rw [← Bool.not_eq_true,serves_iff]
      exact fun both => under both.2
    rw [skipped,if_neg under]

theorem through_none (mounts : List (Mount Node)) (all_ : ∀ m ∈ mounts, m.active = true) (p : List Byte) :
    through mounts p = none ↔ ∀ m ∈ mounts, ¬ Under slash m.path.bytes p := by
  rw [through_find,Option.map_eq_none_iff,List.find?_eq_none]
  refine forall_congr' fun m => forall_congr' fun listed => ?_
  rw [serves_iff]
  exact ⟨fun neither under => neither ⟨all_ m listed,under⟩,fun apart both => apart both.2⟩

/-- A lookup depends on the table through that alone. -/
theorem lookup_through (finddir : Node → List Byte → Option Node) (s s' : State Node) (root : s'.root = s.root)
    (p : List Byte) (same : through s'.mounts p = through s.mounts p) :
    blackVfsLookup finddir s' p = blackVfsLookup finddir s p := by
  unfold through at same
  unfold blackVfsLookup
  cases before : mountOf s.mounts p with
  | none =>
    rw [before,Option.map_none,Option.map_eq_none_iff] at same
    rw [same,root]
  | some found =>
    rw [before,Option.map_some] at same
    obtain ⟨found',after,equal⟩ := Option.map_eq_some_iff.mp same
    obtain ⟨roots,rests⟩ := Prod.mk.inj equal
    rw [after]
    dsimp only
    rw [roots,rests]

/-- The slots up to the first free one, and the ones after it. -/
theorem mountLoop_shape (mounts : List (Mount Node)) (free : ∃ m ∈ mounts, m.active = false) (path : Text)
    (r : Option Node) : ∃ full idle rest, mounts = full ++ idle :: rest ∧ (∀ m ∈ full, m.active = true) ∧
      idle.active = false ∧
      mountLoop mounts path r = (full ++ ⟨strncpy path (vfsMaxPath - 1),r,true⟩ :: rest,0) := by
  induction mounts with
  | nil =>
    obtain ⟨m,listed,_⟩ := free
    cases listed
  | cons k mounts ih =>
    rw [mountLoop]
    by_cases idle : k.active = false
    · rw [if_pos idle]
      exact ⟨[],k,mounts,rfl,List.forall_mem_nil _,idle,rfl⟩
    · have later : ∃ m ∈ mounts, m.active = false := by
        obtain ⟨m,listed,off⟩ := free
        rcases List.mem_cons.mp listed with same | there
        · rw [same] at off
          exact absurd off idle
        · exact ⟨m,there,off⟩
      obtain ⟨full,free_,rest,shape,active,off,done⟩ := ih later
      rw [if_neg idle,done]
      refine ⟨k :: full,free_,rest,by rw [shape]; rfl,fun m listed => ?_,off,rfl⟩
      rcases List.mem_cons.mp listed with same | there
      · rw [same]
        exact Bool.not_eq_false _ ▸ idle
      · exact active m there

theorem unmountLoop_first (before : List (Mount Node)) (m : Mount Node) (after : List (Mount Node)) (path : Text)
    (others : ∀ b ∈ before, b.path ≠ path) (active : m.active = true) (same : m.path = path) :
    unmountLoop (before ++ m :: after) path = (before ++ {m with active := false} :: after,0) := by
  induction before with
  | nil =>
    have equal := (strcmp_zero m.path.bytes path.bytes m.path.terminated path.terminated).mpr (by rw [same])
    rw [List.nil_append,List.nil_append,unmountLoop,if_pos ⟨active,equal⟩]
  | cons b before ih =>
    have rest := ih fun k listed => others k (List.mem_cons_of_mem _ listed)
    have differs : ¬ (b.active = true ∧ strcmp b.path.bytes path.bytes = 0) := by
      intro both
      have bytes := (strcmp_zero _ _ b.path.terminated path.terminated).mp both.2
      exact others b List.mem_cons_self (Text.ext bytes)
    rw [List.cons_append,unmountLoop,if_neg differs,rest]
    rfl

/-- A later slot takes over every path under `p` that no slot before serves: it has the
path and the root, and each slot on the way is apart from `p` or below it and hidden. -/
def Heir (before later : List (Mount Node)) (p : Text) (root : Option Node) : Prop :=
  ∃ pre j post, later = pre ++ j :: post ∧ j.path = p ∧ j.root = root ∧
    ∀ x ∈ pre, ¬ Under slash x.path.bytes p.bytes ∧
      (Under slash p.bytes x.path.bytes → ∃ b ∈ before, Under slash b.path.bytes x.path.bytes)

/-- Unmounting clears the slot that mounting filled, or one that was hidden, or one that has
an heir. -/
def Undone (mounts : List (Mount Node)) (p : Text) (r : Option Node) : Prop :=
  ∀ full idle rest, mounts = full ++ idle :: rest → (∀ m ∈ full, m.active = true) → idle.active = false →
    ∀ before k mid, full = before ++ k :: mid → k.path = p → (∀ b ∈ before, b.path ≠ p) →
      (∃ b ∈ before, Under slash b.path.bytes p.bytes) ∨ Heir before (mid ++ [⟨p,r,true⟩]) p k.root

section Heir
variable (before later : List (Mount Node)) (p : Text) (root : Option Node)
  (active : ∀ b ∈ before, b.active = true) (active' : ∀ m ∈ later, m.active = true)
include active active'

theorem heir_serves (heir : Heir before later p root) (q : List Byte) (unserved : through before q = none)
    (under : Under slash p.bytes q) : through later q = some (root,q.drop p.bytes.length) := by
  have apart := (through_none before active q).mp unserved
  obtain ⟨pre,j,post,shape,path,same,between⟩ := heir
  have skipped : through pre q = none := by
    rw [through_none pre (fun m listed => active' m (by rw [shape]; exact List.mem_append_left _ listed))]
    intro x listed here
    obtain ⟨notAbove,hidden⟩ := between x listed
    rcases under_linear slash _ _ q here under with above | below
    · exact notAbove above
    · obtain ⟨b,there,over_⟩ := hidden below
      exact apart b there (under_trans slash _ _ _ over_ here)
  have on : j.active = true := active' j (by rw [shape]; exact List.mem_append_right _ List.mem_cons_self)
  rw [shape,through_append,skipped,Option.none_or,through_active j post q on,path,if_pos under,same]

/-- If the later slots serve every path under `p` as it was served, one of them is the heir. -/
theorem serves_heir (shown : ∀ b ∈ before, ¬ Under slash b.path.bytes p.bytes)
    (served : ∀ q : Text, through before q.bytes = none → Under slash p.bytes q.bytes →
      through later q.bytes = some (root,q.bytes.drop p.bytes.length)) : Heir before later p root := by
  have own := served p ((through_none before active _).mpr shown) (under_refl slash _)
  rw [through_find] at own
  obtain ⟨j,found,same⟩ := Option.map_eq_some_iff.mp own
  obtain ⟨roots,rests⟩ := Prod.mk.inj same
  obtain ⟨serves,pre,post,shape,first⟩ := List.find?_eq_some_iff_append.mp found
  obtain ⟨_,under⟩ := (serves_iff _ j).mp serves
  have notAbove : ∀ x ∈ pre, ¬ Under slash x.path.bytes p.bytes := by
    intro x listed above
    have on := active' x (by rw [shape]; exact List.mem_append_left _ listed)
    have skipped := first x listed
    rw [(serves_iff _ x).mpr ⟨on,above⟩] at skipped
    cases skipped
  refine ⟨pre,j,post,shape,?_,roots,fun x listed => ⟨notAbove x listed,fun below => ?_⟩⟩
  · rw [List.drop_length] at rests
    obtain ⟨rest,parts⟩ := ((under_drop _ _).mp under).1
    rw [← parts,List.drop_left] at rests
    rw [rests,List.append_nil] at parts
    exact Text.ext parts
  · by_contra exposed
    have unserved : through before x.path.bytes = none :=
      (through_none before active _).mpr fun b there over_ => exposed ⟨b,there,over_⟩
    have kept := served x.path unserved below
    -- the slot that serves the path of `x` comes no later than `x`, so it is not above `p`
    have on := active' x (by rw [shape]; exact List.mem_append_left _ listed)
    have serving := (serves_iff x.path.bytes x).mpr ⟨on,under_refl slash _⟩
    cases early : pre.find? (Mount.serves x.path.bytes) with
    | none => exact List.find?_eq_none.mp early x listed serving
    | some y =>
      rw [shape,through_append,through_find pre,early,Option.map_some,Option.some_or] at kept
      have rests := (Prod.mk.inj (Option.some.inj kept)).2
      have above := ((serves_iff _ y).mp (List.find?_some early)).2
      obtain ⟨restY,partsY⟩ := ((under_drop _ _).mp above).1
      obtain ⟨restP,partsP⟩ := ((under_drop _ _).mp below).1
      have equal : y.path.bytes = p.bytes := by
        have dropY : x.path.bytes.drop y.path.bytes.length = restY := by rw [← partsY,List.drop_left]
        have dropP : x.path.bytes.drop p.bytes.length = restP := by rw [← partsP,List.drop_left]
        rw [dropY,dropP] at rests
        exact List.append_cancel_right (partsY.trans (rests ▸ partsP.symm))
      refine notAbove y (List.mem_of_find?_eq_some early) ?_
      rw [equal]
      exact under_refl slash _

end Heir

/-- Where slot `k` is cleared in place of the one that was filled, a path is served as before
unless it is under the mount path and no slot before serves it. -/
theorem cleared_same (before mid rest : List (Mount Node)) (k idle : Mount Node) (p : Text) (r : Option Node)
    (on : k.active = true) (path : k.path = p) (off : idle.active = false) (q : List Byte) :
    through (before ++ {k with active := false} :: (mid ++ ⟨p,r,true⟩ :: rest)) q =
        through (before ++ k :: (mid ++ idle :: rest)) q ↔
      (through before q = none → Under slash p.bytes q →
        through (mid ++ [⟨p,r,true⟩]) q = some (k.root,q.drop p.bytes.length)) := by
  rw [through_append,through_append before,through_idle _ _ _ rfl,through_active k _ q on,path]
  cases early : through before q with
  | some found =>
    rw [Option.some_or,Option.some_or]
    exact ⟨fun _ => nofun,fun _ => rfl⟩
  | none =>
    rw [Option.none_or,Option.none_or,through_append mid,through_append mid,through_append mid,
      through_idle idle _ _ off,through_active ⟨p,r,true⟩ rest q rfl,through_active ⟨p,r,true⟩ [] q rfl]
    by_cases under : Under slash p.bytes q
    · rw [if_pos under,if_pos under,if_pos under]
      exact ⟨fun same _ _ => same,fun serves => serves rfl under⟩
    · rw [if_neg under,if_neg under]
      exact ⟨fun _ _ under' => absurd under' under,fun _ => rfl⟩

/-- The first element with a property, and what stands on either side of it, is determined. -/
theorem first_unique (holds : Mount Node → Prop) (before before' after after' : List (Mount Node))
    (m m' : Mount Node) (same : before ++ m :: after = before' ++ m' :: after') (here : holds m) (here' : holds m')
    (first : ∀ b ∈ before, ¬ holds b) (first' : ∀ b ∈ before', ¬ holds b) :
    before = before' ∧ m = m' ∧ after = after' := by
  induction before generalizing before' with
  | nil =>
    cases before' with
    | nil => exact ⟨rfl,List.cons.inj same⟩
    | cons b before' =>
      have head := (List.cons.inj same).1
      rw [head] at here
      exact absurd here (first' b List.mem_cons_self)
  | cons b before ih =>
    cases before' with
    | nil =>
      have head := (List.cons.inj same).1
      rw [← head] at here'
      exact absurd here' (first b List.mem_cons_self)
    | cons b' before' =>
      obtain ⟨head,tail⟩ := List.cons.inj same
      obtain ⟨fronts,others⟩ := ih before' tail (fun k listed => first k (List.mem_cons_of_mem _ listed))
        fun k listed => first' k (List.mem_cons_of_mem _ listed)
      exact ⟨by rw [head,fronts],others⟩

theorem idle_unique (full full' rest rest' : List (Mount Node)) (idle idle' : Mount Node)
    (same : full ++ idle :: rest = full' ++ idle' :: rest') (active : ∀ m ∈ full, m.active = true)
    (active' : ∀ m ∈ full', m.active = true) (off : idle.active = false) (off' : idle'.active = false) :
    full = full' := by
  have busy : ∀ m : Mount Node, m.active = true → ¬ m.active = false := fun m on off => by
    rw [on] at off
    cases off
  exact (first_unique (fun m => m.active = false) full full' rest rest' idle idle' same off off'
    (fun m listed => busy m (active m listed)) fun m listed => busy m (active' m listed)).1

theorem first_mounted (full : List (Mount Node)) (p : Text) (some_ : ¬ ∀ m ∈ full, m.path ≠ p) :
    ∃ before k mid, full = before ++ k :: mid ∧ k.path = p ∧ ∀ b ∈ before, b.path ≠ p := by
  cases found : full.find? (fun m => decide (m.path = p)) with
  | none =>
    refine absurd (fun m listed same => ?_) some_
    exact List.find?_eq_none.mp found m listed (decide_eq_true same)
  | some k =>
    obtain ⟨here,before,mid,shape,first⟩ := List.find?_eq_some_iff_append.mp found
    refine ⟨before,k,mid,shape,of_decide_eq_true here,fun b listed same => ?_⟩
    have skipped := first b listed
    rw [decide_eq_true same] at skipped
    cases skipped

/-- The table after a mount at `p` and an unmount of `p`. -/
def remounted (s : State Node) (p : Text) (r : Option Node) : State Node :=
  (blackVfsUnmount (blackVfsMount s p r).1 p).1

/-- The path was not mounted in the slots before the first free one: the two calls leave
an idle slot as they found it. -/
theorem remounted_fresh (s : State Node) (p : Text) (r : Option Node) (full rest : List (Mount Node))
    (idle : Mount Node) (shape : s.mounts = full ++ idle :: rest) (off : idle.active = false)
    (mounted : mountLoop s.mounts p r = (full ++ ⟨p,r,true⟩ :: rest,0)) (fresh : ∀ m ∈ full, m.path ≠ p)
    (q : List Byte) : through (remounted s p r).mounts q = through s.mounts q := by
  have cleared := unmountLoop_first full ⟨p,r,true⟩ rest p fresh rfl rfl
  have after : (remounted s p r).mounts = full ++ ⟨p,r,false⟩ :: rest := by
    rw [remounted,blackVfsMount,mounted,blackVfsUnmount,cleared]
  rw [after,shape,through_append,through_append,through_idle _ _ _ rfl,through_idle _ _ _ off]

theorem remounted_again (s : State Node) (p : Text) (r : Option Node) (before mid rest : List (Mount Node))
    (k idle : Mount Node) (shape : s.mounts = (before ++ k :: mid) ++ idle :: rest)
    (active : ∀ m ∈ before ++ k :: mid, m.active = true) (off : idle.active = false)
    (mounted : mountLoop s.mounts p r = ((before ++ k :: mid) ++ ⟨p,r,true⟩ :: rest,0)) (path : k.path = p)
    (first : ∀ b ∈ before, b.path ≠ p) :
    (∀ q : Text, through (remounted s p r).mounts q.bytes = through s.mounts q.bytes) ↔
      (∃ b ∈ before, Under slash b.path.bytes p.bytes) ∨ Heir before (mid ++ [⟨p,r,true⟩]) p k.root := by
  have on := active k (List.mem_append_right _ List.mem_cons_self)
  have activeBefore : ∀ b ∈ before, b.active = true := fun b listed => active b (List.mem_append_left _ listed)
  have activeLater : ∀ m ∈ mid ++ [⟨p,r,true⟩], m.active = true := by
    intro m listed
    rcases List.mem_append.mp listed with between | new
    · exact active m (List.mem_append_right _ (List.mem_cons_of_mem _ between))
    · rw [List.mem_singleton.mp new]
  have cleared := unmountLoop_first before k (mid ++ ⟨p,r,true⟩ :: rest) p first on path
  have after : (remounted s p r).mounts = before ++ {k with active := false} :: (mid ++ ⟨p,r,true⟩ :: rest) := by
    rw [List.append_assoc,List.cons_append] at mounted
    rw [remounted,blackVfsMount,mounted,blackVfsUnmount,cleared]
  rw [List.append_assoc,List.cons_append] at shape
  have exactly := fun q : Text => cleared_same before mid rest k idle p r on path off q.bytes
  rw [after,shape]
  refine ⟨fun same => ?_,fun either q => (exactly q).mpr fun unserved under => ?_⟩
  · by_cases shadowed : ∃ b ∈ before, Under slash b.path.bytes p.bytes
    · exact .inl shadowed
    · right
      exact serves_heir before _ p k.root activeBefore activeLater
        (fun b there above => shadowed ⟨b,there,above⟩) fun q => (exactly q).mp (same q)
  · rcases either with ⟨b,there,above⟩ | heir
    · exact absurd (under_trans slash _ _ _ above under) ((through_none before activeBefore _).mp unserved b there)
    · exact heir_serves before _ p k.root activeBefore activeLater heir q.bytes unserved under

/-- Unmounting undoes mounting: every path is looked up as before, through the same root and
with the same rest, exactly when the slot that is cleared is the one that was filled, or one
that was hidden, or one that has an heir; then every lookup returns the node it did. -/
theorem unmount_undoes (s : State Node) (p : Text) (r : Option Node)
    (free : ∃ m ∈ s.mounts, m.active = false) (short : p.bytes.length < vfsMaxPath) :
    ((∀ q : Text, through (remounted s p r).mounts q.bytes = through s.mounts q.bytes) ↔
      Undone s.mounts p r) ∧
    (Undone s.mounts p r → ∀ finddir (q : Text),
      blackVfsLookup finddir (remounted s p r) q.bytes = blackVfsLookup finddir s q.bytes) := by
  obtain ⟨full,idle,rest,shape,active,off,mounted⟩ := mountLoop_shape s.mounts free p r
  have whole : strncpy p (vfsMaxPath - 1) = p := Text.ext (List.take_of_length_le (by omega))
  rw [whole] at mounted
  have exactly : (∀ q : Text, through (remounted s p r).mounts q.bytes = through s.mounts q.bytes) ↔
      Undone s.mounts p r := by
    by_cases fresh : ∀ m ∈ full, m.path ≠ p
    · refine ⟨fun _ => ?_,fun _ q => remounted_fresh s p r full rest idle shape off mounted fresh q.bytes⟩
      intro full' idle' rest' shape' active' off' before k mid parts path
      have fulls := idle_unique full full' rest rest' idle idle' (shape.symm.trans shape') active active' off off'
      refine absurd path (fresh k ?_)
      rw [fulls,parts]
      exact List.mem_append_right _ List.mem_cons_self
    · obtain ⟨before,k,mid,parts,path,first⟩ := first_mounted full p fresh
      rw [parts] at shape active mounted
      rw [remounted_again s p r before mid rest k idle shape active off mounted path first]
      refine ⟨fun either => ?_,fun undone => ?_⟩
      · intro full' idle' rest' shape' active' off' before' k' mid' parts' path' first'
        have fulls := idle_unique _ full' rest rest' idle idle' (shape.symm.trans shape') active active' off off'
        obtain ⟨rfl,rfl,rfl⟩ := first_unique (fun m => m.path = p) before before' mid mid' k k'
          (fulls.trans parts') path path' first first'
        exact either
      · exact undone _ idle rest shape active off before k mid rfl path first
  refine ⟨exactly,fun undone finddir q => ?_⟩
  exact lookup_through finddir s (remounted s p r) rfl q.bytes (exactly.mpr undone q)

/-- A table without mounts. -/
def noMounts : State Nat := blackVfsSetRoot blackVfsInit (some 0)

theorem noMounts_undone : Undone noMounts.mounts pathA (some 1) := by
  intro full idle rest shape active off before k mid parts
  have empty := idle_unique [] full _ rest _ idle shape nofun active rfl off
  rw [← empty] at parts
  exact absurd (congrArg List.length parts) (by simp)

theorem unmount_undoes_fresh : (∃ m ∈ noMounts.mounts, m.active = false) ∧
    pathA.bytes.length < vfsMaxPath ∧ Undone noMounts.mounts pathA (some 1) ∧
    ∀ q : Text, blackVfsLookup (fun _ _ => none) (remounted noMounts pathA (some 1)) q.bytes =
      blackVfsLookup (fun _ _ => none) noMounts q.bytes := by
  have free : ∃ m ∈ noMounts.mounts, m.active = false := ⟨_,List.mem_cons_self,rfl⟩
  have short : pathA.bytes.length < vfsMaxPath := by decide
  have undoes := unmount_undoes noMounts pathA (some 1) free short
  exact ⟨free,short,noMounts_undone,fun q => undoes.2 noMounts_undone _ q⟩

/-- With node 1 mounted at `/a`, mounting node 2 there and unmounting leaves node 2. -/
theorem unmount_other : Steps Next (blackVfsSetRoot blackVfsInit (some 0)) [.mount pathA (some 1)]
      (noMounts.step (.mount pathA (some 1))) ∧
    (∃ m ∈ (noMounts.step (.mount pathA (some 1))).mounts, m.active = false) ∧
    blackVfsLookup (fun _ _ => none) (noMounts.step (.mount pathA (some 1))) pathA.bytes = some 1 ∧
    blackVfsLookup (fun _ _ => none) (remounted (noMounts.step (.mount pathA (some 1))) pathA (some 2))
      pathA.bytes = some 2 := by
  refine ⟨.snoc [] _ _ _ .nil rfl,?_,rfl,rfl⟩
  exact ⟨_,List.mem_cons_of_mem _ List.mem_cons_self,rfl⟩

end BlackOS.Vfs
