import BlackOS.Library.Ram
import BlackOS.Library.Run
import Mathlib.Logic.Function.Basic

/-! The ARP cache of `kernel/net/net.c`. The time stamp of an entry is never written, and left out. -/
namespace BlackOS.Arp
open BlackOS.Library.Ram BlackOS.Library.Run

abbrev Ipv4Addr := Fin 4 → Byte
abbrev MacAddr := Fin 6 → Byte

def blackMaxArpCache : Nat := 32

/-- `black_arp_entry_t`. -/
structure Entry where
  ip : Ipv4Addr
  mac : MacAddr
  valid : Bool

/-- The cache as `black_net_init` leaves it. -/
def blackNetInit : List Entry := List.replicate blackMaxArpCache ⟨fun _ => 0,fun _ => 0,false⟩

def blackArpAdd : List Entry → Ipv4Addr → MacAddr → List Entry
  | [],_,_ => []
  | e::cache,ip,mac => if e.valid = false then ⟨ip,mac,true⟩::cache else e::blackArpAdd cache ip mac

def blackArpLookup : List Entry → Ipv4Addr → Option MacAddr
  | [],_ => none
  | e::cache,ip => if e.valid = true ∧ e.ip = ip then some e.mac else blackArpLookup cache ip

def Full (cache : List Entry) : Prop := ∀ e ∈ cache, e.valid = true

instance (cache : List Entry) : Decidable (Full cache) := inferInstanceAs (Decidable (∀ e ∈ cache, e.valid = true))

/-- Behind an entry that is not valid is none that is. -/
def Packed (cache : List Entry) : Prop := cache.Pairwise fun e k => e.valid = false → k.valid = false

/-- The cache, and the last binding that was added for each address. -/
structure World where
  cache : List Entry
  latest : Ipv4Addr → Option MacAddr

def start : World := ⟨blackNetInit,fun _ => none⟩

/-- `black_arp_add` of an address and its binding. -/
def step (w : World) (add : Ipv4Addr × MacAddr) : World :=
  ⟨blackArpAdd w.cache add.1 add.2,Function.update w.latest add.1 (some add.2)⟩

/-- After the addition every address that was added is found with its last binding. -/
def Current (w : World) (add : Ipv4Addr × MacAddr) : Prop :=
  ∀ ip mac, (step w add).latest ip = some mac → blackArpLookup (step w add).cache ip = some mac

/-- The cache has no entry for the address and room for one, or finds the address with this binding already. -/
def New (w : World) (add : Ipv4Addr × MacAddr) : Prop :=
  (blackArpLookup w.cache add.1 = none ∧ ¬Full w.cache) ∨ blackArpLookup w.cache add.1 = some add.2

structure Inv (w : World) : Prop where
  packed : Packed w.cache
  found : blackArpLookup w.cache = w.latest

section Lookups
variable (cache : List Entry) (ip : Ipv4Addr) (mac : MacAddr)

theorem lookup_invalid (unused : ∀ e ∈ cache, e.valid = false) : blackArpLookup cache ip = none := by
  induction cache with
  | nil => rfl
  | cons e cache ih =>
    have free := unused e List.mem_cons_self
    rw [blackArpLookup,if_neg (by rw [free]; exact fun both => Bool.false_ne_true both.1)]
    exact ih fun k member => unused k (List.mem_cons_of_mem e member)

theorem full_cons (e : Entry) : Full (e::cache) ↔ e.valid = true ∧ Full cache := List.forall_mem_cons

variable (packed : Packed cache)
include packed

theorem add_packed : Packed (blackArpAdd cache ip mac) := by
  induction cache with
  | nil => exact List.Pairwise.nil
  | cons e cache ih =>
    obtain ⟨behind,rest⟩ := List.pairwise_cons.mp packed
    rw [blackArpAdd]
    split
    · exact List.pairwise_cons.mpr ⟨fun _ _ free => absurd free.symm Bool.false_ne_true,rest⟩
    · rename_i valid
      exact List.pairwise_cons.mpr ⟨fun _ _ free => absurd free valid,ih rest⟩

/-- What is found is found still; an address that is not gets the new binding, if there is room. -/
theorem lookup_add (other : Ipv4Addr) : blackArpLookup (blackArpAdd cache ip mac) other =
    (blackArpLookup cache other).or (if other = ip ∧ ¬Full cache then some mac else none) := by
  induction cache with
  | nil =>
    rw [if_neg]
    · rfl
    · exact fun both => both.2 fun e member => absurd member List.not_mem_nil
  | cons e cache ih =>
    obtain ⟨behind,rest⟩ := List.pairwise_cons.mp packed
    rw [blackArpAdd]
    by_cases free : e.valid = false
    · have unused : ∀ k ∈ e::cache, k.valid = false := List.forall_mem_cons.mpr ⟨free,fun k member => behind k member free⟩
      have room : ¬Full (e::cache) := fun full => by rw [full_cons,free] at full; exact Bool.false_ne_true full.1
      rw [if_pos free,lookup_invalid (e::cache) other unused,Option.none_or,blackArpLookup,
        lookup_invalid cache other fun k member => behind k member free]
      by_cases same : other = ip
      · rw [if_pos ⟨rfl,same.symm⟩,if_pos ⟨same,room⟩]
      · rw [if_neg fun both => same both.2.symm,if_neg fun both => same both.1]
    · have room : Full (e::cache) ↔ Full cache :=
        (full_cons cache e).trans (and_iff_right (Bool.not_eq_false _ ▸ free))
      rw [if_neg free,blackArpLookup,blackArpLookup,if_congr (and_congr_right' (not_congr room)) rfl rfl]
      by_cases here : e.valid = true ∧ e.ip = other
      · rw [if_pos here,if_pos here,Option.some_or]
      · rw [if_neg here,if_neg here,ih rest]

end Lookups

theorem start_inv : Inv start where
  packed := List.pairwise_replicate.mpr (.inr fun _ => rfl)
  found := funext fun ip => lookup_invalid _ ip fun e member => by rw [List.eq_of_mem_replicate member]

section Steps
variable (w : World) (add : Ipv4Addr × MacAddr)

theorem latest_own : (step w add).latest add.1 = some add.2 := Function.update_self _ _ _

variable (inv : Inv w)
include inv

theorem step_other (other : Ipv4Addr) (apart : other ≠ add.1) :
    blackArpLookup (step w add).cache other = (step w add).latest other := by
  have cache := lookup_add w.cache add.1 add.2 inv.packed other
  rw [if_neg fun both => apart both.1,Option.or_none,inv.found] at cache
  exact cache.trans (Function.update_of_ne apart _ _).symm

theorem step_own : blackArpLookup (step w add).cache add.1 = some add.2 ↔ New w add := by
  have cache := lookup_add w.cache add.1 add.2 inv.packed add.1
  rw [step,cache,New]
  cases found : blackArpLookup w.cache add.1 with
  | none =>
    rw [Option.none_or,Option.ite_none_right_eq_some]
    constructor
    · exact fun both => .inl ⟨rfl,both.1.2⟩
    · rintro (room | known)
      · exact ⟨⟨rfl,room.2⟩,rfl⟩
      · cases known
  | some mac =>
    rw [Option.some_or]
    exact ⟨.inr,fun new => new.resolve_left fun both => nomatch both.1⟩

theorem current_iff : Current w add ↔ New w add := by
  rw [← step_own w add inv]
  constructor
  · exact fun current => current add.1 add.2 (latest_own w add)
  · intro own ip mac last
    by_cases same : ip = add.1
    · rw [same,latest_own] at last
      rw [same,own,last]
    · rw [step_other w add inv ip same,last]

theorem step_inv (new : New w add) : Inv (step w add) where
  packed := add_packed w.cache add.1 add.2 inv.packed
  found := by
    funext ip
    by_cases same : ip = add.1
    · rw [same,(step_own w add inv).mpr new,latest_own]
    · exact step_other w add inv ip same

end Steps

/-- All lookups of a run give the last bindings exactly when every addition is for an address that the cache
does not have, while there is room, or repeats the binding that it has. -/
theorem bindings_latest_iff (adds : List (Ipv4Addr × MacAddr)) :
    Throughout step Current start adds ↔ Throughout step New start adds :=
  throughout_iff step Current New Inv (fun w add inv => current_iff w add inv)
    (fun w add inv new => step_inv w add inv new) start start_inv adds

/-- The second binding of an address is not found. -/
theorem binding_outdated : ¬Throughout step Current start [(fun _ => 10,fun _ => 1),(fun _ => 10,fun _ => 2)] := by
  intro current
  have found := current.2.1 (fun _ => 10) (fun _ => 2) rfl
  have first : blackArpLookup (step (step start (fun _ => 10,fun _ => 1)) (fun _ => 10,fun _ => 2)).cache (fun _ => 10) =
      some fun _ => 1 := by decide
  rw [first] at found
  exact absurd (congrFun (Option.some.inj found) 0) (by decide)

end BlackOS.Arp
