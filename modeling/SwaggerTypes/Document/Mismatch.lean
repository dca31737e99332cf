import SwaggerTypes.Document.Value
/-!
Why a part of a document cannot be read, and where it stands.
-/
namespace SwaggerTypes

/-- The records of a document. Each can be written as a map, and all but the path item also as
the list of its fields. -/
inductive Record where
  | components
  | pathItem
  | operation
  | parameter
  | schema
  | options

namespace Record

def name : Record → String
  | components => "RawComponents"
  | pathItem => "RawPathItem"
  | operation => "RawOperation"
  | parameter => "RawParameter"
  | schema => "RawSchema"
  | options => "ConvertOptions"

def fields : Record → List String
  | components => ["schemas", "parameters"]
  | pathItem => ["parameters"]
  | operation => ["operationId", "parameters"]
  | parameter => ["$ref", "name", "in", "required", "description", "schema", "type", "format",
      "items", "enum", "x-nullable"]
  | schema => ["$ref", "type", "format", "title", "description", "properties", "required",
      "items", "enum", "const", "allOf", "oneOf", "anyOf", "additionalProperties", "nullable",
      "x-nullable"]
  | options => ["namespace", "withQuery", "sortProps"]

/-- The fields that the list form may end before, because they have a value of their own. -/
def defaulted : Record → List String
  | operation => ["parameters"]
  | parameter => ["required"]
  | options => ["namespace", "withQuery", "sortProps"]
  | _ => []

end Record

inductive Expected where
  | string
  | boolean
  | map
  | sequence
  | record (record : Record)

def Expected.message : Expected → String
  | string => "a string"
  | boolean => "a boolean"
  | map => "a map"
  | sequence => "a sequence"
  | record r => "struct " ++ r.name

inductive Choice where
  | type
  | required

def Choice.name : Choice → String
  | type => "SchemaType"
  | required => "Required"

inductive Mismatch where
  | wrongType (found : Value) (expected : Expected)
  /-- The list form of a record ends before this field. -/
  | tooFew (index : Nat) (record : Record)
  | tooMany (length : Nat)
  | noAlternative (choice : Choice)
  | unknownOption (name : String)

def Mismatch.message : Mismatch → String
  | wrongType found expected =>
    "invalid type: " ++ found.outline ++ ", expected " ++ expected.message
  | tooFew index record =>
    "invalid length " ++ toString index ++ ", expected struct " ++ record.name ++ " with "
      ++ toString record.fields.length ++ " elements"
  | tooMany length =>
    "invalid length " ++ toString length ++ ", expected fewer elements in array"
  | noAlternative choice => "data did not match any variant of untagged enum " ++ choice.name
  | unknownOption name =>
    "unknown field `" ++ name ++ "`, expected one of `namespace`, `withQuery`, `sortProps`"

inductive Step where
  | key (name : String)
  | index (i : Nat)

def Step.first : Step → String
  | key name => name
  | index i => "[" ++ toString i ++ "]"

/-- A later step: a name follows a point, an index stands in brackets. -/
def Step.next : Step → String
  | key name => "." ++ name
  | index i => "[" ++ toString i ++ "]"

/-- The text of a way through a document; a single point for the empty way. -/
def Step.pathText : List Step → String
  | [] => "."
  | step :: steps => step.first ++ String.join (steps.map Step.next)

structure Misplaced where
  path : List Step := []
  cause : Mismatch

def Misplaced.under (step : Step) (m : Misplaced) : Misplaced := { m with path := step :: m.path }

/-- The text of a mismatch in a section of the document; `place` is the dotted way to the
section, empty for the document itself. -/
def Misplaced.message (place : String) (m : Misplaced) : String :=
  let path := Step.pathText m.path
  let full := if place.isEmpty then path else if path = "." then place else place ++ "." ++ path
  "at " ++ full ++ ": " ++ m.cause.message

abbrev Reading := Except Misplaced

end SwaggerTypes
