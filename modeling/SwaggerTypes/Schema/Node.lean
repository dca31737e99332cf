import SwaggerTypes.Document.Entries
import SwaggerTypes.Document.Pointer
/-!
Schemas in closed form: a node is one of eight kinds, with a description and perhaps `null` as one
more value. Children are addressed by the segments of a pointer.
-/
namespace SwaggerTypes

open Decimal (Double)

inductive PrimitiveType where
  | string
  | number
  | integer
  | boolean
  | null
deriving DecidableEq

inductive Composition where
  | allOf
  | oneOf
  | anyOf
deriving DecidableEq

namespace Composition

def keyword : Composition → String
  | allOf => "allOf"
  | oneOf => "oneOf"
  | anyOf => "anyOf"

/-- Whether a value needs to match one member only. -/
def isUnion : Composition → Bool
  | allOf => false
  | oneOf | anyOf => true

def ofKeyword? : String → Option Composition
  | "allOf" => some allOf
  | "oneOf" => some oneOf
  | "anyOf" => some anyOf
  | _ => none

end Composition

inductive Literal where
  | string (s : String)
  | integer (n : Int)
  | float (d : Double)
  | bool (b : Bool)
  | null

/-- Whether two listed values are the same one. An integer and a floating point number never are,
and floating point numbers are compared as numbers. -/
def Literal.same : Literal → Literal → Bool
  | string a, string b => a = b
  | integer a, integer b => a = b
  | float a, float b => a.same b
  | bool a, bool b => a = b
  | null, null => true
  | _, _ => false

/-- What an object may hold besides its declared properties. -/
inductive Additional (α : Type) where
  | closed
  | unrestricted
  | typed (schema : α)

inductive Kind (α : Type) where
  /-- No constraint at all. -/
  | any
  | primitive (type : PrimitiveType) (format : Option String)
  | array (items : α)
  | object (properties : List (String × α)) (required : List String) (additional : Additional α)
  | enum (values : List Literal)
  | reference (pointer : String)
  | composite (keyword : Composition) (members : List α)
  /-- A construct that declarations cannot express. -/
  | unsupported (construct : String)

structure Node where
  kind : Kind Node
  description : Option String := none
  nullable : Bool := false

namespace Node

/-- A schema without documentation that does not add `null`. -/
def bare (kind : Kind Node) : Node := { kind }

/-- The member of a composition that the keyword and index address. A composition written next to
other keywords stands as a member of the enclosing one, the last of its keyword counting. -/
def member? (wanted : Composition) (index : Nat) (keyword : Composition) (members : List Node) :
    Option Node :=
  if keyword = wanted then members[index]?
  else members.reverse.findSome? fun member =>
    match member.kind with
    | .composite inner innerMembers => if inner = wanted then innerMembers[index]? else none
    | _ => none

/-- The child that a segment addresses, perhaps together with the segment after it, and how many
segments that takes. -/
def child (node : Node) (segment : String) (next : Option String) : Option (Node × Nat) :=
  match node.kind with
  | .object properties _ additional =>
    if segment = "properties" then do
      let name ← next
      let child ← Entries.get? name properties
      some (child, 2)
    else if segment = "additionalProperties" then
      match additional with
      | .typed child => some (child, 1)
      | _ => none
    else none
  | .array items => if segment = "items" then some (items, 1) else none
  | .composite keyword members => do
    let wanted ← Composition.ofKeyword? segment
    let index ← next.bind Pointer.index?
    let child ← member? wanted index keyword members
    some (child, 2)
  | _ => none

end Node

end SwaggerTypes
