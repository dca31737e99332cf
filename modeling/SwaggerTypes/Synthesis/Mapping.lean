import SwaggerTypes.Synthesis.Merging
import SwaggerTypes.Synthesis.State
/-!
The type expression of a schema. The recursion follows the schema; what a reference stands for is
asked of `follow`.
-/
namespace SwaggerTypes

def PrimitiveType.base : PrimitiveType → BaseType
  | string => .string
  | number | integer => .number
  | boolean => .boolean
  | null => .null

def Node.format (node : Node) : Option String :=
  match node.kind with
  | .primitive _ format => format
  | _ => none

/-- The members of a composition with the way to each. Members that are compositions of the same
kind are replaced by their own members, one level deep. -/
def Node.flatten (keyword : Composition) (members : List Node) : List (List String × Node) :=
  (members.zipIdx.map fun (member, i) =>
    let way := [keyword.keyword, toString i]
    match member.kind, member.nullable with
    | .composite inner innerMembers, false =>
      if inner.isUnion = keyword.isUnion then
        innerMembers.zipIdx.map fun (m, j) => (way ++ [inner.keyword, toString j], m)
      else [(way, member)]
    | _, _ => [(way, member)]).flatten

structure Joining where
  union : Bool
  /-- The names that some object of an intersection requires. -/
  required : List String
  /-- Whether members without any constraint are left out of the intersection. -/
  skipsAny : Bool

/-- How the members of a composition are taken, as seen from all of them. -/
def Joining.of (keyword : Composition) (members : List Node) : Joining :=
  let flat := Node.flatten keyword members
  { union := keyword.isUnion
    required := (flat.map fun m => match m.2.kind with
      | .object _ required _ => required
      | _ => []).flatten
    skipsAny := !keyword.isUnion && 1 < flat.length }

section

variable (sorted : Bool) (follow : Place → String → Synthesis TypeExpr)

mutual

def Node.type (p : Place) : Node → Synthesis TypeExpr
  | ⟨kind, _, nullable⟩ => do
    let t ← Node.kindType p kind
    return if nullable then t.nullable else t
termination_by structural node => node

def Node.kindType (p : Place) : Kind Node → Synthesis TypeExpr
  | .any => return .any
  | .primitive type _ => return .base type.base
  | .enum values => return .ofLiterals values
  | .array items => do return .array (← Node.type (p.below ["items"] true) items)
  | .object properties required additional => do
    let properties ← Node.propertyTypes p required properties
    let index ← Node.indexType p additional
    return .object (ObjectType.arrange sorted ⟨properties, index⟩)
  | .reference pointer => follow p pointer
  | .composite keyword members => do
    let joining := Joining.of keyword members
    let operands ← Node.operands p joining false [keyword.keyword] 0 members
    return Operand.combine sorted joining.union operands
  | .unsupported construct => do
    Synthesis.warn p .unsupportedConstruct (construct ++ " cannot be expressed; using `any`")
    return .any
termination_by structural kind => kind

/-- The types of properties; those not required are optional. -/
def Node.propertyTypes (p : Place) (required : List String) :
    List (String × Node) → Synthesis (List (Property TypeExpr))
  | [] => return []
  | (name, node) :: rest => do
    let type ← Node.type (p.below ["properties", name] true) node
    let property : Property TypeExpr :=
      { name, type, optional := !required.contains name, doc := node.description,
        format := node.format }
    return property :: (← Node.propertyTypes p required rest)
termination_by structural properties => properties

def Node.indexType (p : Place) : Additional Node → Synthesis (Option TypeExpr)
  | .closed => return none
  | .unrestricted => return some .any
  | .typed node => do return some (← Node.type (p.below ["additionalProperties"] true) node)
termination_by structural additional => additional

/-- What the members of a composition contribute, `way` leading to their list and `i` counting
them; `lifted` tells that they are members of a member. -/
def Node.operands (p : Place) (joining : Joining) (lifted : Bool) (way : List String) (i : Nat) :
    List Node → Synthesis (List Operand)
  | [] => return []
  | member :: rest => do
    let first ← Node.operand p joining lifted (way ++ [toString i]) member
    return first ++ (← Node.operands p joining lifted way (i + 1) rest)
termination_by structural members => members

def Node.operand (p : Place) (joining : Joining) (lifted : Bool) (way : List String) :
    Node → Synthesis (List Operand)
  | ⟨.composite inner members, _, false⟩ =>
    if !lifted && inner.isUnion = joining.union then
      Node.operands p joining true (way ++ [inner.keyword]) 0 members
    else do
      let own := Joining.of inner members
      let operands ← Node.operands (p.below way false) own false [inner.keyword] 0 members
      return [.type (Operand.combine sorted own.union operands)]
  | ⟨.object properties required additional, _, false⟩ => do
    let below := p.below way false
    let names := if joining.union then required else joining.required
    let properties ← Node.propertyTypes below names properties
    let index ← Node.indexType below additional
    let object := ObjectType.arrange sorted ⟨properties, index⟩
    return [if joining.union then .type (.object object) else .object object]
  | ⟨.any, _, false⟩ => return if joining.skipsAny then [] else [.type .any]
  | ⟨kind, _, nullable⟩ => do
    let t ← Node.kindType (p.below way false) kind
    return [.type (if nullable then t.nullable else t)]
termination_by structural member => member

end

end

end SwaggerTypes
