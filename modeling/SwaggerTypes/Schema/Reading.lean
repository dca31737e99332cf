import SwaggerTypes.Document.Mismatch
import SwaggerTypes.Schema.Keywords
/-!
Schemas read from the values of a document. Reading a schema never fails: one with a keyword of
the wrong shape becomes an unsupported node that says why, and the schemas around it stay as they
are. The first misread keyword in the order of the document decides what is said.
-/
namespace SwaggerTypes

/-- A value that may be absent; `null` counts as absent. -/
def Value.optional {α : Type} (read : Value → Except Mismatch α) :
    Value → Except Mismatch (Option α)
  | .null => .ok none
  | v => (read v).map some

def Value.asString : Value → Except Mismatch String
  | .string s => .ok s
  | v => .error (.wrongType v .string)

def Value.asBool : Value → Except Mismatch Bool
  | .bool b => .ok b
  | v => .error (.wrongType v .boolean)

def Value.asList : Value → Except Mismatch (List Value)
  | .array items => .ok items
  | v => .error (.wrongType v .sequence)

def Value.texts? (v : Value) : Option (List String) :=
  match v with
  | .array items => items.mapM fun
    | .string s => some s
    | _ => none
  | _ => none

def TypeNames.ofValue (v : Value) : Except Mismatch TypeNames :=
  match v, v.texts? with
  | .string name, _ => .ok (.single name)
  | _, some texts => .ok (.multiple texts)
  | _, none => .error (.noAlternative .type)

def Required.ofValue (v : Value) : Except Mismatch Required :=
  match v, v.texts? with
  | .bool b, _ => .ok (.flag b)
  | _, some texts => .ok (.names texts)
  | _, none => .error (.noAlternative .required)

def Schema.malformed (cause : Mismatch) : Schema :=
  ⟨.bare (.unsupported ("malformed schema (" ++ cause.message ++ ")")), false⟩

def Schema.ofKeywords : Except Mismatch Keywords → Schema
  | .ok k => ⟨k.node, k.marksRequired⟩
  | .error cause => .malformed cause

/-- A value of a document with the schema it writes and, where it is a list or a map, the schemas
that its parts write. Which of them counts depends on the keyword in front of it. -/
structure Part where
  value : Value
  schema : Thunk Schema
  members : List (Thunk Schema) := []
  entries : List (String × Thunk Schema) := []

def Part.properties (p : Part) : Except Mismatch (Option (Entries Schema)) :=
  match p.value with
  | .null => .ok none
  | .object _ => .ok (some (Entries.ofList (p.entries.map fun e => (e.1, e.2.get))))
  | v => .error (.wrongType v .map)

def Part.composition (p : Part) : Except Mismatch (Option (List Node)) :=
  match p.value with
  | .null => .ok none
  | .array _ => .ok (some (p.members.map fun m => m.get.node))
  | v => .error (.wrongType v .sequence)

def Part.items (p : Part) : Option Items :=
  match p.value with
  | .null => none
  | .array _ => some .tuple
  | _ => some (.single p.schema.get.node)

def Part.additional (p : Part) : Option AdditionalRule :=
  match p.value with
  | .null => none
  | .bool b => some (.allowed b)
  | _ => some (.schema p.schema.get.node)

namespace Keywords

/-- Sets one keyword; other keys say nothing about the schema. -/
def set (k : Keywords) (name : String) (p : Part) : Except Mismatch Keywords :=
  let v := p.value
  match name with
  | "$ref" => do return { k with ref := ← v.optional Value.asString }
  | "type" => do return { k with type := ← v.optional TypeNames.ofValue }
  | "format" => do return { k with format := ← v.optional Value.asString }
  | "title" => do return { k with title := ← v.optional Value.asString }
  | "description" => do return { k with description := ← v.optional Value.asString }
  | "properties" => do return { k with properties := ← p.properties }
  | "required" => do return { k with required := ← v.optional Required.ofValue }
  | "items" => .ok { k with items := p.items }
  | "enum" => do return { k with enum := ← v.optional Value.asList }
  | "const" => do return { k with const := ← v.optional .ok }
  | "allOf" => do return { k with allOf := ← p.composition }
  | "oneOf" => do return { k with oneOf := ← p.composition }
  | "anyOf" => do return { k with anyOf := ← p.composition }
  | "additionalProperties" => .ok { k with additional := p.additional }
  | "nullable" => do return { k with nullable := ← v.optional Value.asBool }
  | "x-nullable" => do return { k with xNullable := ← v.optional Value.asBool }
  | _ => .ok k

/-- The keywords of a map, set in its order. -/
def ofFields (fields : List (String × Part)) : Except Mismatch Keywords :=
  fields.foldlM (fun k field => k.set field.1 field.2) {}

/-- The keywords of a list, each place standing for one keyword. -/
def ofItems (items : List Part) : Except Mismatch Keywords := do
  let names := Record.schema.fields
  let k ← ofFields (names.zip items)
  if items.length < names.length then .error (.tooFew items.length .schema)
  else if names.length < items.length then .error (.tooMany items.length)
  else return k

end Keywords

mutual

def Part.ofValue : Value → Part
  | .object fields =>
    let parts := Part.ofFields fields
    { value := .object fields
      schema := Thunk.mk fun _ => .ofKeywords (Keywords.ofFields parts)
      entries := parts.map fun p => (p.1, p.2.schema) }
  | .array items =>
    let parts := Part.ofItems items
    { value := .array items
      schema := Thunk.mk fun _ => .ofKeywords (Keywords.ofItems parts)
      members := parts.map (·.schema) }
  | v => { value := v, schema := Thunk.mk fun _ => .malformed (.wrongType v (.record .schema)) }
termination_by structural v => v

def Part.ofFields : List (String × Value) → List (String × Part)
  | [] => []
  | (name, v) :: fields => (name, Part.ofValue v) :: Part.ofFields fields
termination_by structural fields => fields

def Part.ofItems : List Value → List Part
  | [] => []
  | v :: items => Part.ofValue v :: Part.ofItems items
termination_by structural items => items

end

/-- The schema that a value writes: a map of keywords, or the list of their values. -/
def Schema.ofValue (v : Value) : Schema := (Part.ofValue v).schema.get

def Node.ofValue (v : Value) : Node := (Schema.ofValue v).node

end SwaggerTypes
