import SwaggerTypes.Resolution.ParameterChain
import SwaggerTypes.Synthesis.Definitions
/-!
Interfaces of query parameters. The parameters of an operation are those listed on its path, each
replaced by the one of the same name and location on the operation itself, and then the others
of the operation.
-/
namespace SwaggerTypes

/-- A parameter with the pointer it is read from. -/
structure PlacedParameter where
  pointer : String
  parameter : Parameter

namespace PlacedParameter

def occurs (list : List PlacedParameter) (parameter : Parameter) : Bool :=
  list.any fun placed => placed.parameter.same parameter

/-- Puts a parameter in the place of the one with the same name and location, or at the end. -/
def override (placed : PlacedParameter) : List PlacedParameter → List PlacedParameter
  | [] => [placed]
  | q :: rest =>
    if q.parameter.same placed.parameter then placed :: rest else q :: placed.override rest

end PlacedParameter

namespace SchemaModel

/-- The pointer of the parameter at a position of a list whose owner has the given pointer. -/
def sourceOf (owner : String) (index : Nat) : ParameterSlot → String
  | .inline _ => owner ++ "/parameters/" ++ toString index
  | .reference pointer => pointer

/-- The parameters of a list with references followed. No two may be the same. -/
def parameterList (model : SchemaModel) (owner : String) (slots : List ParameterSlot) :
    Outcome (List PlacedParameter) :=
  slots.zipIdx.foldlM (fun list (slot, index) => do
    let parameter ← model.resolveParameter slot
    if PlacedParameter.occurs list parameter then
      throw (.malformed (.duplicateParameter parameter.name owner))
    return list ++ [⟨sourceOf owner index slot, parameter⟩]) []

def effectiveParameters (model : SchemaModel) (op : Operation) :
    Outcome (List PlacedParameter) := do
  let shared ← model.parameterList op.itemPointer op.pathParameters
  let own ← model.parameterList op.pointer op.parameters
  return own.foldl (fun list placed => placed.override list) shared

end SchemaModel

def Operation.queryName (op : Operation) : String :=
  Text.sanitize <| (match op.operationId with
    | some id => Text.pascalCase id
    | none => Text.pascalCase op.method ++ Text.pascalCase op.path) ++ "Query"

namespace Setting

def queryProperty (s : Setting) (placed : PlacedParameter) : Synthesis (Property TypeExpr) := do
  let parameter := placed.parameter
  let place : Place := { location := placed.pointer }
  let segments := if parameter.nested then ["schema"] else []
  let type ← s.typeOf (place.below segments true) parameter.schema
  return { name := parameter.name, type, optional := !parameter.required,
           doc := parameter.description, format := parameter.schema.format }

/-- The interface of an operation's query parameters, if it has any. -/
def queryDeclaration (s : Setting) (model : SchemaModel) (op : Operation) :
    Synthesis (Option Declaration) := do
  let parameters ← model.effectiveParameters op
  let query := parameters.filter fun placed => placed.parameter.location = .query
  if query.isEmpty then return none
  let properties ← query.mapM s.queryProperty
  let object := ObjectType.arrange s.sorted { properties }
  let name ← Synthesis.takeName op.queryName op.pointer
  return some { name, body := .interface object }

def queryDeclarations (s : Setting) (model : SchemaModel) : Synthesis (List Declaration) :=
  match model.operations with
  | none => throw (.malformed .noPaths)
  | some operations => do return (← operations.mapM (s.queryDeclaration model)).filterMap id

end Setting

end SwaggerTypes
