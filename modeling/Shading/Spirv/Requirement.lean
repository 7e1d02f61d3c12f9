import Shading.Spirv.Capability

/-! # What a module requires

A `CapabilitySet` is kept minimal: a capability that is implied by a member adds nothing, and one
that is added takes the place of the members it implies.  `Requirements` adds the extensions. -/

namespace Shading.Spirv

/-- Declared capabilities in the order of their numbers, none of which implies another. -/
structure CapabilitySet where
  members : List Capability := []
deriving DecidableEq, Repr, Inhabited

namespace CapabilitySet

/-- A member implies the capability. -/
def satisfies (s : CapabilitySet) (c : Capability) : Bool := s.members.any (·.implies c)

/-- Declares a capability in place of the members it implies, unless a member implies it. -/
def insert (s : CapabilitySet) (c : Capability) : CapabilitySet :=
  if s.satisfies c then s
  else
    let kept := s.members.filter fun d => !c.implies d
    ⟨Ordered.insert (fun a b => a.number < b.number) c kept⟩

/-- The alternative that has to be declared: the first, unless one of them is satisfied. -/
def missing? (s : CapabilitySet) (alternatives : List Capability) : Option Capability :=
  if alternatives.any s.satisfies then none else alternatives.head?

/-- Makes sure that one of the alternatives is satisfied; if there are none, that is so. -/
def requireAny (s : CapabilitySet) (alternatives : List Capability) : CapabilitySet :=
  match s.missing? alternatives with
  | some c => s.insert c
  | none => s

/-- The set that satisfies exactly what the given capabilities imply. -/
def ofList (capabilities : List Capability) : CapabilitySet := capabilities.foldl insert {}

end CapabilitySet

/-- Capabilities to declare, and extensions to enable in the order of their names. -/
structure Requirements where
  capabilities : CapabilitySet := {}
  extensions : List String := []
deriving DecidableEq, Repr, Inhabited

namespace Requirements

/-- Enables extensions. -/
def addExtensions (r : Requirements) (names : List String) : Requirements :=
  { r with extensions := Ordered.insertAll (fun a b => a < b) names r.extensions }

/-- Makes sure that one of the alternatives is satisfied, and enables the extensions of a capability
that is declared for it. -/
def requireAny (r : Requirements) (alternatives : List Capability) : Requirements :=
  match r.capabilities.missing? alternatives with
  | some c =>
    { r with capabilities := r.capabilities.insert c }.addExtensions c.allExtensions
  | none => r

/-- Adds all that another part requires. -/
def merge (r other : Requirements) : Requirements :=
  { r with capabilities := other.capabilities.members.foldl .insert r.capabilities }.addExtensions
    other.extensions

end Requirements

end Shading.Spirv
