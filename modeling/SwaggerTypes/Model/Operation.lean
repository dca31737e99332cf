import SwaggerTypes.Model.Parameter
/-!
Operations of a document, in its order, with the parameters listed on the path and on the
operation itself.
-/
namespace SwaggerTypes

/-- The keys of a path item that hold an operation. -/
def methods : List String := ["get", "put", "post", "delete", "options", "head", "patch", "trace"]

structure Operation where
  path : String
  method : String
  operationId : Option String
  /-- The pointer of the path item. -/
  itemPointer : String
  pathParameters : List ParameterSlot
  parameters : List ParameterSlot

def Operation.pointer (op : Operation) : String := op.itemPointer ++ "/" ++ op.method

/-- A path with its shared parameters; all other keys are kept unread. -/
structure PathItem where
  parameters : List ParameterFields := []
  rest : List (String × Value) := []

namespace PathItem

def set (item : PathItem) (name : String) (v : Value) : Reading PathItem :=
  if name = "parameters" then do
    return { item with parameters := ← v.readList ParameterFields.ofValue }
  else return { item with rest := item.rest ++ [(name, v)] }

/-- Reads a path item, which has no list form. -/
def ofValue (v : Value) : Reading PathItem :=
  match v with
  | .object _ => Record.pathItem.read set {} v
  | v => throw { cause := .wrongType v (.record .pathItem) }

end PathItem

structure OperationFields where
  operationId : Option String := none
  parameters : List ParameterFields := []

namespace OperationFields

def set (op : OperationFields) (name : String) (v : Value) : Reading OperationFields :=
  match name with
  | "operationId" => do
    return { op with operationId := ← Reading.here (v.optional Value.asString) }
  | "parameters" => do return { op with parameters := ← v.readList ParameterFields.ofValue }
  | _ => return op

def ofValue (v : Value) : Reading OperationFields := Record.operation.read set {} v

end OperationFields

def readSection {α : Type} (place : String) (read : Reading α) : Outcome α :=
  read.mapError fun m => .malformed (.misplaced place m)

def PathItem.operations (path : String) (item : PathItem) : Outcome (List Operation) := do
  let itemPointer := Pointer.render ["paths", path]
  let pathParameters ← item.parameters.mapM (·.slot itemPointer)
  (item.rest.filter fun entry => methods.contains entry.1).mapM fun (method, v) => do
    let fields ← readSection ("paths." ++ path ++ "." ++ method) (OperationFields.ofValue v)
    let parameters ← fields.parameters.mapM (·.slot (itemPointer ++ "/" ++ method))
    return { path, method, operationId := fields.operationId, itemPointer, pathParameters,
             parameters }

def Operation.ofPaths (paths : Entries PathItem) : Outcome (List Operation) := do
  let lists ← paths.mapM fun entry => entry.2.operations entry.1
  return lists.flatten

end SwaggerTypes
