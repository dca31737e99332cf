import SwaggerTypes.Document.Record
import SwaggerTypes.Fault
import SwaggerTypes.Schema.Reading
/-!
Parameters of operations. A parameter describes its value under `schema`, or by keywords of its
own.
-/
namespace SwaggerTypes

inductive ParameterLocation where
  | query
  | path
  | header
  | cookie
  | formData
  | body
  | other (name : String)
deriving DecidableEq

def ParameterLocation.ofName : String → ParameterLocation
  | "query" => query
  | "path" => path
  | "header" => header
  | "cookie" => cookie
  | "formData" => formData
  | "body" => body
  | name => other name

/-- A parameter. `nested` tells that its value is described under the key `schema`. -/
structure Parameter where
  name : String
  location : ParameterLocation
  required : Bool
  description : Option String
  schema : Node
  nested : Bool

/-- Whether two parameters are the same one to an operation. -/
def Parameter.same (a b : Parameter) : Bool := a.name = b.name && a.location = b.location

/-- A parameter in a list: written there, or named by a pointer. -/
inductive ParameterSlot where
  | inline (parameter : Parameter)
  | reference (pointer : String)

structure ParameterFields where
  ref : Option String := none
  name : Option String := none
  location : Option String := none
  required : Bool := false
  description : Option String := none
  schema : Option Node := none
  type : Option TypeNames := none
  format : Option String := none
  items : Option Node := none
  enum : Option (List Value) := none
  xNullable : Option Bool := none

namespace ParameterFields

/-- Sets one field; other keys say nothing about the parameter. -/
def set (p : ParameterFields) (name : String) (v : Value) : Reading ParameterFields :=
  let schema? : Option Node := match v with
    | .null => none
    | v => some (Node.ofValue v)
  Reading.here <| match name with
  | "$ref" => do return { p with ref := ← v.optional Value.asString }
  | "name" => do return { p with name := ← v.optional Value.asString }
  | "in" => do return { p with location := ← v.optional Value.asString }
  | "required" => do return { p with required := ← v.asBool }
  | "description" => do return { p with description := ← v.optional Value.asString }
  | "schema" => .ok { p with schema := schema? }
  | "type" => do return { p with type := ← v.optional TypeNames.ofValue }
  | "format" => do return { p with format := ← v.optional Value.asString }
  | "items" => .ok { p with items := schema? }
  | "enum" => do return { p with enum := ← v.optional Value.asList }
  | "x-nullable" => do return { p with xNullable := ← v.optional Value.asBool }
  | _ => .ok p

def ofValue (v : Value) : Reading ParameterFields := Record.parameter.read set {} v

def keywords (p : ParameterFields) : Keywords :=
  { type := p.type
    format := p.format
    items := p.items.map Items.single
    enum := p.enum
    xNullable := p.xNullable }

/-- The schema of the parameter's value: the one under `schema`, else that of its own keywords. -/
def valueSchema (p : ParameterFields) : Node := p.schema.getD p.keywords.node

/-- The slot of a written parameter; `place` is the pointer that an error names. -/
def slot (p : ParameterFields) (place : String) : Outcome ParameterSlot :=
  match p.ref, p.name, p.location with
  | some pointer, _, _ => .ok (.reference pointer)
  | none, none, _ => .error (.malformed (.parameterWithoutName place))
  | none, some name, none => .error (.malformed (.parameterWithoutIn name place))
  | none, some name, some location => .ok <| .inline
    { name
      location := .ofName location
      required := p.required
      description := Text.nonBlank p.description
      schema := p.valueSchema
      nested := p.schema.isSome }

end ParameterFields

end SwaggerTypes
