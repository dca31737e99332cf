import SwaggerTypes.Resolution.Chain
import SwaggerTypes.Resolution.Target
import SwaggerTypes.Synthesis.Naming
import SwaggerTypes.Types.Declaration
/-!
What a synthesis of declarations knows at a point: what never changes in it, where it stands, and
what it has found so far.
-/
namespace SwaggerTypes

/-- What a synthesis is about: the definitions with the names of their declarations, and whether
properties are ordered by name. -/
structure Setting where
  definitions : DefinitionTable
  names : List String
  sorted : Bool

def Setting.nameOf (s : Setting) (index : Nat) : String := s.names[index]?.getD ""

/-- Where a synthesis stands: the pointer of the schema at hand, the number of properties, items
and other parts of values above it, and the references that are open. -/
structure Place where
  location : String := "#"
  depth : Nat := 0
  chain : Chain := []

/-- A place some segments further down; `part` tells whether a part of a value begins there. -/
def Place.below (p : Place) (segments : List String) (part : Bool) : Place :=
  { p with
    location := p.location ++ String.join (segments.map fun s => "/" ++ Pointer.escape s)
    depth := if part then p.depth + 1 else p.depth }

/-- How far the declaration of a definition is. -/
inductive Slot where
  | pending
  | inProgress
  | done (declaration : Declaration)

/-- What a synthesis has found: a slot for each definition, warnings in order, and the names in
use. -/
structure Progress where
  slots : List Slot
  warnings : List Warning := []
  taken : List String := []

abbrev Synthesis := StateT Progress Outcome

namespace Synthesis

def warn (p : Place) (kind : WarningKind) (message : String) : Synthesis Unit :=
  modify fun s => { s with warnings := s.warnings ++ [⟨kind, p.location, message⟩] }

def slot? (index : Nat) : Synthesis (Option Slot) := do return (← get).slots[index]?

def setSlot (index : Nat) (slot : Slot) : Synthesis Unit :=
  modify fun s => { s with slots := s.slots.set index slot }

def takeName (base pointer : String) : Synthesis String := do
  let s ← get
  let (name, warning) := nextName s.taken base pointer
  set { s with taken := name :: s.taken, warnings := s.warnings ++ warning.toList }
  return name

end Synthesis

end SwaggerTypes
