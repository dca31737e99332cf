import SwaggerTypes.Document.Value
import SwaggerTypes.Schema.Node
import SwaggerTypes.Text.Blank
/-!
The keywords of one written schema, its sub-schemas already in closed form, and the node they
amount to. Structural keywords next to `allOf` become one more of its members; several
independent constraints become an `allOf` of them.
-/
namespace SwaggerTypes

/-- A schema as read: its node, and whether it marks itself as required, as properties could
before `required` became a list on the object. -/
structure Schema where
  node : Node
  required : Bool := false

inductive TypeNames where
  | single (name : String)
  | multiple (names : List String)

/-- The keyword `required`: names on the object, or a flag on the property. -/
inductive Required where
  | names (names : List String)
  | flag (required : Bool)

/-- The keyword `items`: one schema for all items, or one for each position. -/
inductive Items where
  | single (schema : Node)
  | tuple

inductive AdditionalRule where
  | allowed (b : Bool)
  | schema (schema : Node)

structure Keywords where
  ref : Option String := none
  type : Option TypeNames := none
  format : Option String := none
  title : Option String := none
  description : Option String := none
  properties : Option (Entries Schema) := none
  required : Option Required := none
  items : Option Items := none
  enum : Option (List Value) := none
  const : Option Value := none
  allOf : Option (List Node) := none
  oneOf : Option (List Node) := none
  anyOf : Option (List Node) := none
  additional : Option AdditionalRule := none
  nullable : Option Bool := none
  xNullable : Option Bool := none

/-- The literal that an enum lists for a value; lists and maps have none. Integers beyond the
signed 64-bit range become floating point numbers. -/
def Literal.ofValue? : Value → Option Literal
  | .null => some .null
  | .bool b => some (.bool b)
  | .integer n =>
    some (if n < 0x8000000000000000 then .integer n else .float (Decimal.Double.ofInt n))
  | .float d => some (.float d)
  | .string s => some (.string s)
  | .array _ | .object _ => none

def Kind.ofValues (values : List Value) : Kind Node :=
  if values.isEmpty then .unsupported "empty `enum`"
  else match values.mapM Literal.ofValue? with
    | some literals => .enum literals
    | none => .unsupported "non-scalar `enum` value"

namespace Keywords

/-- The documentation: the description, or the title where there is none. -/
def doc (k : Keywords) : Option String := Text.nonBlank (k.description <|> k.title)

def isNullable (k : Keywords) : Bool := k.nullable = some true || k.xNullable = some true

def requiredNames (k : Keywords) : List String :=
  match k.required with
  | some (.names names) => names
  | _ => []

def marksRequired (k : Keywords) : Bool :=
  match k.required with
  | some (.flag b) => b
  | _ => false

def objectKind (k : Keywords) : Kind Node :=
  let properties := k.properties.getD []
  let marked := (properties.filter fun p => p.2.required).map Prod.fst
  .object (properties.map fun p => (p.1, p.2.node)) (k.requiredNames ++ marked).eraseDups
    (match k.additional with
      | none | some (.allowed false) => .closed
      | some (.allowed true) => .unrestricted
      | some (.schema schema) => .typed schema)

def arrayKind (k : Keywords) : Kind Node :=
  match k.items with
  | none => .array (.bare .any)
  | some (.single schema) => .array schema
  | some .tuple => .unsupported "tuple `items`"

def typeKind (k : Keywords) (name : String) : Kind Node :=
  match name with
  | "string" => .primitive .string k.format
  | "number" => .primitive .number k.format
  | "integer" => .primitive .integer k.format
  | "boolean" => .primitive .boolean k.format
  | "null" => .primitive .null k.format
  | "array" => k.arrayKind
  | "object" => k.objectKind
  | other => .unsupported ("type `" ++ other ++ "`")

/-- The structural part: the listed values, else what `type` says, else an object or a list if
keywords of one are there. -/
def structuralKind (k : Keywords) : Option (Kind Node) :=
  match k.const, k.enum, k.type with
  | some value, _, _ => some (.ofValues [value])
  | none, some values, _ => some (.ofValues values)
  | none, none, some (.single name) => some (k.typeKind name)
  | none, none, some (.multiple names) =>
    match names.filter (· ≠ "null") with
    | [] => some (.primitive .null none)
    | [name] => some (k.typeKind name)
    | many => some (.composite .anyOf (many.map fun name => .bare (k.typeKind name)))
  | none, none, none =>
    if k.properties.isSome || k.additional.isSome || !k.requiredNames.isEmpty then
      some k.objectKind
    else if k.items.isSome then some k.arrayKind
    else none

/-- Whether a list of types has `null` among them; listed values hide the types. -/
def listsNull (k : Keywords) : Bool :=
  match k.const, k.enum, k.type with
  | none, none, some (.multiple names) => names.contains "null"
  | _, _, _ => false

def union (keyword : Composition) (members : Option (List Node)) : List Node :=
  (members.map fun ms => Node.bare (.composite keyword ms)).toList

/-- The constraints other than `allOf`. -/
def constraints (k : Keywords) : List Node :=
  (k.structuralKind.map Node.bare).toList ++ union .oneOf k.oneOf ++ union .anyOf k.anyOf

/-- The kind of a schema that is no reference. -/
def kind (k : Keywords) : Kind Node :=
  match k.allOf, k.constraints with
  | some members, constraints => .composite .allOf (members ++ constraints)
  | none, [] => .any
  | none, [one] => one.kind
  | none, constraints => .composite .allOf constraints

/-- The node of a schema. Next to a reference only documentation and nullability count. -/
def node (k : Keywords) : Node :=
  match k.ref with
  | some pointer => ⟨.reference pointer, k.doc, k.isNullable⟩
  | none => ⟨k.kind, k.doc, k.isNullable || k.listsNull⟩

end Keywords

end SwaggerTypes
