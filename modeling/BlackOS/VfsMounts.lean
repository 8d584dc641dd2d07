import BlackOS.Vfs
import BlackOS.Library.Run
import Mathlib.Data.Finset.Card

/-! Which mount a path is looked up through. The table is searched in slot order, so that
the deepest mount is found only where no mount stands in a later slot than one above it. -/
namespace BlackOS.Vfs
open BlackOS.Library.Ram BlackOS.Library.Separated BlackOS.Library.Run BlackOS.LibcText

variable {Node : Type}

/-- An active mount whose path the given one is under. -/
def Mount.serves (p : List Byte) (m : Mount Node) : Bool := m.active && decide (Under slash m.path.bytes p)

theorem serves_iff (p : List Byte) (m : Mount Node) :
    m.serves p = true ↔ m.active = true ∧ Under slash m.path.bytes p := by
  rw [Mount.serves,Bool.and_eq_true,decide_eq_true_iff]

theorem under_drop (a p : List Byte) :
    Under slash a p ↔ a <+: p ∧ (p.drop a.length = [] ∨ (p.drop a.length).head? = some slash) := by
  rw [under_iff]
  refine ⟨fun shape => ?_,fun start => ?_⟩
  · rcases shape with same | ⟨t,rfl⟩
    · rw [same,List.drop_length]
      exact ⟨List.prefix_refl a,.inl rfl⟩
    · rw [List.drop_left]
      exact ⟨List.prefix_append _ _,.inr rfl⟩
  · obtain ⟨⟨rest,rfl⟩,boundary⟩ := start
    rw [List.drop_left] at boundary
    rcases boundary with empty | next
    · left
      rw [empty,List.append_nil]
    · obtain ⟨t,shape⟩ := List.head?_eq_some_iff.mp next
      exact .inr ⟨t,by rw [shape]⟩

/-- The loop of `black_vfs_lookup` finds the first mount that serves. -/
theorem mountOf_find (mounts : List (Mount Node)) (p : List Byte) :
    mountOf mounts p = (mounts.find? (Mount.serves p)).map fun m => (m,p.drop m.path.bytes.length) := by
  induction mounts with
  | nil => rfl
  | cons m mounts ih =>
    have test : strncmp p m.path.bytes m.path.bytes.length = 0 ∧ (p.drop m.path.bytes.length = [] ∨
        (p.drop m.path.bytes.length).head? = some slash) ↔ Under slash m.path.bytes p := by
      rw [strncmp_zero _ _ m.path.terminated,← under_drop]
    rw [mountOf,List.find?_cons]
    dsimp only
    by_cases active : m.active = false
    · have skipped : m.serves p = false := by rw [Mount.serves,active,Bool.false_and]
      rw [if_pos active,skipped,ih]
    · rw [if_neg active]
      by_cases under : Under slash m.path.bytes p
      · have taken := (serves_iff p m).mpr ⟨Bool.not_eq_false _ ▸ active,under⟩
        rw [if_pos (test.mpr under),taken]
        rfl
      · have skipped : m.serves p = false := by
          rw [← Bool.not_eq_true,serves_iff]
          exact fun both => under both.2
        rw [if_neg fun both => under (test.mp both),skipped,ih]

/-- An absolute path that fits the buffers. -/
structure Absolute (p : List Byte) : Prop where
  start : p.head? = some slash
  terminated : 0 ∉ p
  short : p.length < vfsMaxPath

/-- What a lookup does once its mount is chosen: the components that remain are looked up
from the mount's root, and without a mount all of them from `black_vfs_root`. -/
theorem lookup_walk (finddir : Node → List Byte → Option Node) (s : State Node) (p : List Byte)
    (absolute : Absolute p) :
    (∀ m rest, mountOf s.mounts p = some (m,rest) → ∃ remaining,
      p.splitOn slash = m.path.bytes.splitOn slash ++ remaining ∧
      blackVfsLookup finddir s p = walk finddir m.root remaining) ∧
    (mountOf s.mounts p = none → blackVfsLookup finddir s p = walk finddir s.root (p.splitOn slash)) := by
  refine ⟨fun m rest found => ?_,fun none => ?_⟩
  · have chosen := found
    rw [mountOf_find] at chosen
    obtain ⟨m',first,same⟩ := Option.map_eq_some_iff.mp chosen
    obtain ⟨rfl,rest_⟩ := Prod.mk.inj same
    have under := ((serves_iff p m').mp (List.find?_some first)).2
    rw [blackVfsLookup,found]
    dsimp only
    rcases (under_iff slash _ p).mp under with equal | ⟨t,shape⟩
    · refine ⟨[],by rw [equal,List.append_nil],?_⟩
      rw [← rest_,equal,List.drop_length,if_pos rfl]
      rfl
    · refine ⟨t.splitOn slash,by rw [shape,List.splitOn_append_cons_self],?_⟩
      have clean := absolute.terminated
      have short := absolute.short
      rw [shape] at clean short
      rw [List.length_append,List.length_cons] at short
      rw [← rest_,shape,List.drop_left,if_neg (List.cons_ne_nil _ _)]
      refine traverse_walk finddir m'.root t (fun zero => clean ?_) (by omega)
      exact List.mem_append_right _ (List.mem_cons_of_mem _ zero)
  · obtain ⟨tail,shape⟩ := List.head?_eq_some_iff.mp absolute.start
    have clean := absolute.terminated
    have short := absolute.short
    rw [blackVfsLookup,none]
    rw [shape] at clean short ⊢
    rw [List.length_cons] at short
    dsimp only
    rw [traverse_walk finddir s.root tail (fun zero => clean (List.mem_cons_of_mem _ zero)) (by omega)]
    have cut : (slash :: tail).splitOn slash = [] :: tail.splitOn slash :=
      List.splitOn_append_cons_self_of_not_mem List.not_mem_nil tail
    rw [cut,walk,walk,List.foldl_cons,if_pos rfl]

/-- Where a mount stands: a mount at `/` is above every absolute path. -/
def site (path : List Byte) : List Byte := if path = [slash] then [] else path

def depth (path : List Byte) : Nat := ((site path).splitOn slash).length

/-- The lookup goes through an active mount above the path that is as deep as any, or
through none when none is above. -/
def Deepest (mounts : List (Mount Node)) (p : List Byte) : Prop :=
  match mountOf mounts p with
  | some (m,_) => Under slash (site m.path.bytes) p ∧
      ∀ m' ∈ mounts, m'.active = true → Under slash (site m'.path.bytes) p →
        depth m'.path.bytes ≤ depth m.path.bytes
  | none => ∀ m' ∈ mounts, m'.active = true → ¬ Under slash (site m'.path.bytes) p

/-- No mount stands in a later slot than one above it, unless a still earlier slot has its
path too, and there is a mount at `/` only beside one at the empty path. -/
structure Nested (mounts : List (Mount Node)) : Prop where
  top : ∀ m ∈ mounts, m.active = true → m.path.bytes = [slash] →
    ∃ m' ∈ mounts, m'.active = true ∧ m'.path.bytes = []
  order : ∀ before m after, mounts = before ++ m :: after → m.active = true →
    ∀ m' ∈ after, m'.active = true → m'.path.bytes.head? = some slash →
      Under slash m.path.bytes m'.path.bytes → depth m.path.bytes < depth m'.path.bytes →
        ∃ k ∈ before, k.active = true ∧ k.path = m'.path

theorem depth_positive (a : List Byte) : 0 < depth a := List.length_pos_of_ne_nil (List.splitOn_ne_nil _ _)

theorem depth_top : depth [slash] = 1 := by decide

theorem depth_plain (a : List Byte) (plain : a ≠ [slash]) : depth a = (a.splitOn slash).length := by
  rw [depth,site,if_neg plain]

theorem depth_le (a : List Byte) : depth a ≤ (a.splitOn slash).length := by
  by_cases top : a = [slash]
  · rw [top,depth_top]
    decide
  · rw [depth_plain a top]

/-- A path deeper than another is not `/`. -/
theorem deeper_plain (a b : List Byte) (deeper : depth a < depth b) : b ≠ [slash] := by
  intro top
  have positive := depth_positive a
  rw [top,depth_top] at deeper
  omega

theorem under_empty (p : List Byte) (start : p.head? = some slash) : Under slash [] p := by
  obtain ⟨tail,shape⟩ := List.head?_eq_some_iff.mp start
  rw [shape]
  exact under_append slash [] tail

theorem under_site (a p : List Byte) (start : p.head? = some slash) (under : Under slash a p) :
    Under slash (site a) p := by
  unfold site
  split
  · exact under_empty p start
  · exact under

theorem site_under (a p : List Byte) (plain : a ≠ [slash]) (under : Under slash (site a) p) :
    Under slash a p := by
  rw [site,if_neg plain] at under
  exact under

/-- Of two paths above a third the one that is not deeper is above the other. -/
theorem shallower_under (a b p : List Byte) (left : Under slash a p) (right : Under slash b p)
    (deeper : depth a < depth b) : Under slash a b := by
  rcases under_linear slash a b p left right with under | over_
  · exact under
  · have plain := depth_plain b (deeper_plain a b deeper)
    have less := under_depth slash b a over_
    by_cases top : a = [slash]
    · have equal := under_eq slash b a over_ (by
        rw [top] at deeper less ⊢
        rw [depth_top] at deeper
        have two : ([slash].splitOn slash).length = 2 := by decide
        omega)
      rw [equal]
      exact under_refl slash a
    · rw [depth_plain a top] at deeper
      omega

theorem deeper_start (a b p : List Byte) (start : p.head? = some slash) (under : Under slash b p)
    (deeper : depth a < depth b) : b.head? = some slash := by
  have positive := depth_positive a
  cases b with
  | nil =>
    have one : depth [] = 1 := by decide
    omega
  | cons c b =>
    obtain ⟨rest,shape⟩ := ((under_drop (c :: b) p).mp under).1
    rw [← shape] at start
    exact start

/-- With the mounts nested, every lookup goes through a deepest one. -/
theorem nested_deepest (mounts : List (Mount Node)) (nested : Nested mounts) (p : List Byte)
    (start : p.head? = some slash) : Deepest mounts p := by
  unfold Deepest
  rw [mountOf_find]
  cases found : mounts.find? (Mount.serves p) with
  | none =>
    have unserved : ∀ m ∈ mounts, m.active = true → ¬ Under slash m.path.bytes p := by
      intro m listed active under
      exact List.find?_eq_none.mp found m listed ((serves_iff p m).mpr ⟨active,under⟩)
    intro m' listed active above
    by_cases top : m'.path.bytes = [slash]
    · obtain ⟨k,there,on,empty⟩ := nested.top m' listed active top
      exact unserved k there on (by rw [empty]; exact under_empty p start)
    · exact unserved m' listed active (site_under _ p top above)
  | some m =>
    obtain ⟨served,before,after,shape,first⟩ := List.find?_eq_some_iff_append.mp found
    obtain ⟨active,under⟩ := (serves_iff p m).mp served
    have unserved : ∀ k ∈ before, k.active = true → ¬ Under slash k.path.bytes p := by
      intro k listed on below
      have skipped := first k listed
      rw [(serves_iff p k).mpr ⟨on,below⟩] at skipped
      cases skipped
    refine ⟨under_site _ p start under,fun m' listed active' above => ?_⟩
    by_contra shallow
    have deeper : depth m.path.bytes < depth m'.path.bytes := by omega
    have under' := site_under _ p (deeper_plain _ _ deeper) above
    rw [shape] at listed
    rcases List.mem_append.mp listed with early | late
    · exact unserved m' early active' under'
    · rcases List.mem_cons.mp late with same | later
      · rw [same] at deeper
        exact Nat.lt_irrefl _ deeper
      · obtain ⟨k,there,on,equal⟩ := nested.order before m after shape active m' later active'
          (deeper_start _ _ p start under' deeper) (shallower_under _ _ p under under' deeper) deeper
        exact unserved k there on (by rw [equal]; exact under')

/-- A path of one component. -/
def single (n : Nat) : List Byte := slash :: List.replicate (n + 1) 0x61

theorem single_absolute (n : Nat) (small : n < 200) : Absolute (single n) := by
  refine ⟨rfl,fun zero => ?_,?_⟩
  · rcases List.mem_cons.mp zero with first | later
    · exact absurd first (by decide)
    · exact absurd (List.eq_of_mem_replicate later) (by decide)
  · have most : vfsMaxPath = 256 := rfl
    rw [single,List.length_cons,List.length_replicate]
    omega

/-- Only the path itself and the empty path are above a path of one component. -/
theorem under_single (a : List Byte) (n : Nat) (under : Under slash a (single n)) : a = single n ∨ a = [] := by
  rcases (under_iff slash a _).mp under with same | ⟨t,shape⟩
  · exact .inl same.symm
  · cases a with
    | nil => exact .inr rfl
    | cons c a =>
      have inside : slash ∈ List.replicate (n + 1) (0x61 : Byte) := by
        rw [(List.cons.inj shape).2]
        exact List.mem_append_right _ List.mem_cons_self
      exact absurd (List.eq_of_mem_replicate inside) (by decide)

theorem single_unused (paths : List (List Byte)) (few : paths.length ≤ 16) : ∃ n < 17, single n ∉ paths := by
  by_contra all_
  have used : (Finset.range 17).image single ⊆ paths.toFinset := by
    intro path listed
    obtain ⟨n,small,rfl⟩ := Finset.mem_image.mp listed
    by_contra unused
    exact all_ ⟨n,Finset.mem_range.mp small,fun there => unused (List.mem_toFinset.mpr there)⟩
  have distinct : Function.Injective single := by
    intro i j same
    have lengths := congrArg List.length same
    rw [single,single,List.length_cons,List.length_cons,List.length_replicate,List.length_replicate] at lengths
    omega
  have sizes := Finset.card_le_card used
  rw [Finset.card_image_of_injective _ distinct,Finset.card_range] at sizes
  have most := paths.toFinset_card_le
  omega

section Lookups
variable (mounts : List (Mount Node)) (deepest : ∀ p, Absolute p → Deepest mounts p)
include deepest

/-- Some path of one component is the path of no mount, and a mount at `/` is above it. -/
theorem deepest_top (few : mounts.length ≤ 16) (m : Mount Node) (listed : m ∈ mounts)
    (active : m.active = true) (top : m.path.bytes = [slash]) :
    ∃ k ∈ mounts, k.active = true ∧ k.path.bytes = [] := by
  by_contra bare
  obtain ⟨n,small,unused⟩ := single_unused (mounts.map (·.path.bytes)) (by rw [List.length_map]; exact few)
  have here := deepest (single n) (single_absolute n (by omega))
  have nobody : mounts.find? (Mount.serves (single n)) = none := by
    rw [List.find?_eq_none]
    intro k there served
    obtain ⟨on,above⟩ := (serves_iff _ k).mp served
    rcases under_single k.path.bytes n above with same | empty
    · exact unused (List.mem_map.mpr ⟨k,there,same⟩)
    · exact bare ⟨k,there,on,empty⟩
  unfold Deepest at here
  rw [mountOf_find,nobody] at here
  refine here m listed active ?_
  rw [site,if_pos top]
  exact under_empty _ rfl

/-- The lookup of a mount's own path ends at that path, so a mount above it in an earlier
slot comes after another with the path. -/
theorem deepest_order (short : ∀ m ∈ mounts, m.path.bytes.length < vfsMaxPath) (before : List (Mount Node))
    (m : Mount Node) (after : List (Mount Node)) (shape : mounts = before ++ m :: after)
    (active : m.active = true) (m' : Mount Node) (later : m' ∈ after) (active' : m'.active = true)
    (start : m'.path.bytes.head? = some slash) (under : Under slash m.path.bytes m'.path.bytes)
    (deeper : depth m.path.bytes < depth m'.path.bytes) :
    ∃ k ∈ before, k.active = true ∧ k.path = m'.path := by
  have listed : m' ∈ mounts := by
    rw [shape]
    exact List.mem_append_right _ (List.mem_cons_of_mem _ later)
  have here := deepest m'.path.bytes ⟨start,m'.path.terminated,short m' listed⟩
  have plain := deeper_plain _ _ deeper
  have own : Under slash (site m'.path.bytes) m'.path.bytes := by
    rw [site,if_neg plain]
    exact under_refl slash _
  have served := (serves_iff m'.path.bytes m).mpr ⟨active,under⟩
  unfold Deepest at here
  rw [mountOf_find] at here
  cases early : before.find? (Mount.serves m'.path.bytes) with
  | none =>
    have found : mounts.find? (Mount.serves m'.path.bytes) = some m := by
      rw [shape,List.find?_append,early,Option.none_or,List.find?_cons,served]
    rw [found] at here
    have most := here.2 m' listed active' own
    omega
  | some f =>
    have found : mounts.find? (Mount.serves m'.path.bytes) = some f := by
      rw [shape,List.find?_append,early,Option.some_or]
    rw [found] at here
    have most := here.2 m' listed active' own
    obtain ⟨on,above⟩ := (serves_iff _ f).mp (List.find?_some early)
    have least := depth_le f.path.bytes
    rw [depth_plain _ plain] at most
    have equal := under_eq slash f.path.bytes m'.path.bytes above (by omega)
    exact ⟨f,List.mem_of_find?_eq_some early,on,Text.ext equal⟩

/-- Where every lookup goes through a deepest mount, the mounts are nested. -/
theorem deepest_nested (few : mounts.length ≤ 16)
    (short : ∀ m ∈ mounts, m.path.bytes.length < vfsMaxPath) : Nested mounts :=
  ⟨deepest_top mounts deepest few,deepest_order mounts deepest short⟩

end Lookups

inductive Call (Node : Type)
  | mount (path : Text) (r : Option Node)
  | unmount (path : Text)

def State.step (s : State Node) : Call Node → State Node
  | .mount path r => (blackVfsMount s path r).1
  | .unmount path => (blackVfsUnmount s path).1

def Next (s : State Node) (c : Call Node) (s' : State Node) : Prop := s.step c = s'

/-- A full-size table whose paths end inside their arrays. -/
structure State.Inv (s : State Node) : Prop where
  size : s.mounts.length = blackMaxMounts
  short : ∀ m ∈ s.mounts, m.path.bytes.length < vfsMaxPath

theorem init_inv (r : Option Node) : (blackVfsSetRoot (blackVfsInit : State Node) r).Inv := by
  refine ⟨List.length_replicate,fun m listed => ?_⟩
  have room : 0 < vfsMaxPath := by decide
  rw [List.eq_of_mem_replicate listed]
  exact room

theorem mountLoop_slots (mounts : List (Mount Node)) (path : Text) (r : Option Node) :
    (mountLoop mounts path r).1.length = mounts.length ∧
    ∀ m ∈ (mountLoop mounts path r).1, m ∈ mounts ∨ m = ⟨strncpy path (vfsMaxPath - 1),r,true⟩ := by
  induction mounts with
  | nil => exact ⟨rfl,nofun⟩
  | cons k mounts ih =>
    rw [mountLoop]
    split
    · refine ⟨rfl,fun m listed => ?_⟩
      rcases List.mem_cons.mp listed with new | old
      · exact .inr new
      · exact .inl (List.mem_cons_of_mem _ old)
    · dsimp only
      refine ⟨by rw [List.length_cons,List.length_cons,ih.1],fun m listed => ?_⟩
      rcases List.mem_cons.mp listed with same | rest
      · exact .inl (by rw [same]; exact List.mem_cons_self)
      · rcases ih.2 m rest with old | new
        · exact .inl (List.mem_cons_of_mem _ old)
        · exact .inr new

theorem unmountLoop_slots (mounts : List (Mount Node)) (path : Text) :
    (unmountLoop mounts path).1.length = mounts.length ∧
    ∀ m ∈ (unmountLoop mounts path).1, ∃ k ∈ mounts, m.path = k.path := by
  induction mounts with
  | nil => exact ⟨rfl,nofun⟩
  | cons k mounts ih =>
    rw [unmountLoop]
    split
    · refine ⟨rfl,fun m listed => ?_⟩
      rcases List.mem_cons.mp listed with same | rest
      · exact ⟨k,List.mem_cons_self,by rw [same]⟩
      · exact ⟨m,List.mem_cons_of_mem _ rest,rfl⟩
    · dsimp only
      refine ⟨by rw [List.length_cons,List.length_cons,ih.1],fun m listed => ?_⟩
      rcases List.mem_cons.mp listed with same | rest
      · exact ⟨k,List.mem_cons_self,by rw [same]⟩
      · obtain ⟨k',there,path_⟩ := ih.2 m rest
        exact ⟨k',List.mem_cons_of_mem _ there,path_⟩

theorem step_inv (s : State Node) (inv : s.Inv) (c : Call Node) : (s.step c).Inv := by
  cases c with
  | mount path r =>
    obtain ⟨length,slots⟩ := mountLoop_slots s.mounts path r
    refine ⟨length.trans inv.size,fun m listed => ?_⟩
    rcases slots m listed with old | new
    · exact inv.short m old
    · rw [new]
      exact Nat.lt_of_le_of_lt (List.length_take_le _ _) (by decide)
  | unmount path =>
    obtain ⟨length,slots⟩ := unmountLoop_slots s.mounts path
    refine ⟨length.trans inv.size,fun m listed => ?_⟩
    obtain ⟨k,there,same⟩ := slots m listed
    rw [same]
    exact inv.short k there

/-- In every reachable table a lookup follows the remaining components from the root of
its mount, and every lookup goes through a deepest mount exactly when the mounts are nested. -/
theorem lookups_deepest (r : Option Node) (calls : List (Call Node)) (s : State Node)
    (run : Steps Next (blackVfsSetRoot blackVfsInit r) calls s) :
    (∀ finddir p, Absolute p →
      (∀ m rest, mountOf s.mounts p = some (m,rest) → ∃ remaining,
        p.splitOn slash = m.path.bytes.splitOn slash ++ remaining ∧
        blackVfsLookup finddir s p = walk finddir m.root remaining) ∧
      (mountOf s.mounts p = none → blackVfsLookup finddir s p = walk finddir s.root (p.splitOn slash))) ∧
    ((∀ p, Absolute p → Deepest s.mounts p) ↔ Nested s.mounts) := by
  have inv := run.invariant State.Inv (init_inv r) fun s c s' inv step => by
    obtain rfl : s.step c = s' := step
    exact step_inv s inv c
  refine ⟨fun finddir p absolute => lookup_walk finddir s p absolute,fun deepest => ?_,fun nested p absolute => ?_⟩
  · exact deepest_nested s.mounts deepest (Nat.le_of_eq inv.size) inv.short
  · exact nested_deepest s.mounts nested p absolute.start

/-- `/a` and `/a/b`. -/
def pathA : Text := ⟨[0x2F,0x61],by decide⟩
def pathAB : Text := ⟨[0x2F,0x61,0x2F,0x62],by decide⟩

/-- The table after a mount at `/a` and one at `/a/b`. -/
def twoMounts : State Nat :=
  State.step (State.step (blackVfsSetRoot blackVfsInit (some 0)) (.mount pathA (some 1)))
    (.mount pathAB (some 2))

theorem twoMounts_run : Steps Next (blackVfsSetRoot blackVfsInit (some 0))
    [.mount pathA (some 1),.mount pathAB (some 2)] twoMounts :=
  .snoc [_] _ _ _ (.snoc [] _ _ _ .nil rfl) rfl

theorem pathAB_absolute : Absolute pathAB.bytes := ⟨rfl,pathAB.terminated,by decide⟩

theorem lookups_deepest_two : Steps Next (blackVfsSetRoot blackVfsInit (some 0))
      [.mount pathA (some 1),.mount pathAB (some 2)] twoMounts ∧
    Absolute pathAB.bytes ∧ (∀ finddir, ∃ remaining, blackVfsLookup finddir twoMounts pathAB.bytes =
      walk finddir (some 1) remaining) ∧
    ((∀ p, Absolute p → Deepest twoMounts.mounts p) ↔ Nested twoMounts.mounts) := by
  obtain ⟨walks,exactly⟩ := lookups_deepest (some 0) _ twoMounts twoMounts_run
  refine ⟨twoMounts_run,pathAB_absolute,fun finddir => ?_,exactly⟩
  obtain ⟨remaining,_,same⟩ := (walks finddir _ pathAB_absolute).1 ⟨pathA,some 1,true⟩ [0x2F,0x62] rfl
  exact ⟨remaining,same⟩

/-- `/a/b` is looked up through the mount at `/a`, though a mount at `/a/b` is active. -/
theorem lookup_shallow : Steps Next (blackVfsSetRoot blackVfsInit (some 0))
      [.mount pathA (some 1),.mount pathAB (some 2)] twoMounts ∧
    Absolute pathAB.bytes ∧ ¬ Deepest twoMounts.mounts pathAB.bytes := by
  refine ⟨twoMounts_run,pathAB_absolute,fun deepest => ?_⟩
  have found : mountOf twoMounts.mounts pathAB.bytes = some (⟨pathA,some 1,true⟩,[0x2F,0x62]) := rfl
  unfold Deepest at deepest
  rw [found] at deepest
  have listed : (⟨pathAB,some 2,true⟩ : Mount Nat) ∈ twoMounts.mounts :=
    List.mem_cons_of_mem _ List.mem_cons_self
  have deeper := deepest.2 _ listed rfl (by decide)
  exact absurd deeper (by decide)

end BlackOS.Vfs
