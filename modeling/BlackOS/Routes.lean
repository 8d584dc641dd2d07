import BlackOS.Library.Ram

/-! The routes of `kernel/net/route.c`. -/
namespace BlackOS.Routes
open BlackOS.Library.Ram

/-- `black_route_entry_t`. -/
structure Route where
  dst : Word
  gateway : Word
  mask : Word
  iface : Int

/-- The entries of `black_routes` up to `black_route_count`. -/
abbrev Table := List Route

def blackRouteAdd (routes : Table) (dst mask gw : Word) (iface : Int) : Table × Int :=
  if routes.length ≥ 32 then (routes,-1) else (routes ++ [⟨dst,gw,mask,iface⟩],0)

/-- A contiguous netmask: its first bits, so many as its length, are set. -/
structure Netmask where
  length : Nat
  short : length ≤ 32
  deriving DecidableEq

def Netmask.value (m : Netmask) : Word := ~~~((0xFFFFFFFF : Word) >>> m.length)

/-- A call of `black_route_add` with a contiguous netmask. -/
structure Addition where
  dst : Word
  mask : Netmask
  gateway : Word
  iface : Int
  deriving DecidableEq

def add (routes : Table) (a : Addition) : Table := (blackRouteAdd routes a.dst a.mask.value a.gateway a.iface).1

def Matches (d : Word) (a : Addition) : Prop := d &&& a.mask.value = a.dst &&& a.mask.value

instance (d : Word) (a : Addition) : Decidable (Matches d a) := inferInstanceAs (Decidable (_ = _))

/-- The destination has no bits behind the mask. -/
def Whole (a : Addition) : Prop := a.dst &&& a.mask.value = a.dst

instance (a : Addition) : Decidable (Whole a) := inferInstanceAs (Decidable (_ = _))

structure Longest (adds : List Addition) (d : Word) (a : Addition) : Prop where
  member : a ∈ adds
  fits : Matches d a
  longest : ∀ b ∈ adds, Matches d b → b.mask.length ≤ a.mask.length

/-- The gateway is that of a route with the longest mask of those that match, and is 0 just when none matches. -/
structure Routed (adds : List Addition) (d gateway : Word) : Prop where
  found : ∀ a ∈ adds, Matches d a → ∃ b, Longest adds d b ∧ gateway = b.gateway
  absent : gateway = 0 ↔ ∀ a ∈ adds, ¬Matches d a

end BlackOS.Routes
