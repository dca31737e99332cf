import SwaggerTypes.Model.Definition
import SwaggerTypes.Model.Operation
/-!
A whole document in closed form.
-/
namespace SwaggerTypes

/-- The schemas of a document, its reusable parameters under their pointers, and its operations.
There are no operations when they were not asked for or the document has no paths. -/
structure SchemaModel where
  definitions : DefinitionTable := {}
  parameters : Entries ParameterSlot := []
  operations : Option (List Operation) := none

structure Components where
  schemas : Option (Entries Schema) := none
  parameters : Option Value := none

structure Sections where
  definitions : Option (Entries Schema) := none
  parameters : Option Value := none
  components : Option Components := none
  paths : Option Value := none

/-- A value unless it is `null`. -/
def Value.present? : Value → Option Value
  | .null => none
  | v => some v

def Schema.mapOf (v : Value) : Reading (Option (Entries Schema)) :=
  Reading.here (Part.ofValue v).properties

namespace Components

def set (c : Components) (name : String) (v : Value) : Reading Components :=
  match name with
  | "schemas" => do return { c with schemas := ← Schema.mapOf v }
  | "parameters" => return { c with parameters := v.present? }
  | _ => return c

/-- Reads the section; `null` counts as absent. -/
def ofValue (v : Value) : Reading (Option Components) :=
  match v with
  | .null => return none
  | v => (Record.components.read set {} v).map some

end Components

namespace Sections

def set (s : Sections) (name : String) (v : Value) : Reading Sections :=
  match name with
  | "definitions" => do return { s with definitions := ← Schema.mapOf v }
  | "parameters" => return { s with parameters := v.present? }
  | "components" => do return { s with components := ← Components.ofValue v }
  | "paths" => return { s with paths := v.present? }
  | _ => return s

def ofDocument (document : Value) : Outcome Sections :=
  match document with
  | .object fields => readSection "" <|
    fields.foldlM (fun s field => Reading.under (.key field.1) (s.set field.1 field.2)) {}
  | _ => .error (.malformed .rootNotMap)

def definitionTable (s : Sections) : DefinitionTable :=
  let named (home : Home) (schemas : Option (Entries Schema)) :=
    (schemas.getD []).map fun e => { home, name := e.1, root := e.2.node : Definition }
  .ofList (named .definitions s.definitions
    ++ named .components (s.components.bind (·.schemas)))

end Sections

/-- The reusable parameters of one section under their pointers. The whole section is read before
any of its parameters is looked at. -/
def ParameterSlot.tableOf (segments : List String) (v : Option Value) :
    Outcome (Entries ParameterSlot) :=
  match v with
  | none => return []
  | some v => do
    let table ← readSection (Text.join "." segments) (v.readMap ParameterFields.ofValue)
    table.mapM fun entry => do
      let pointer := Pointer.render (segments ++ [entry.1])
      return (pointer, ← entry.2.slot pointer)

/-- The model of a document. Parameters and paths are read only when operations are asked for;
otherwise they are not even looked at. -/
def SchemaModel.ofDocument (document : Value) (withOperations : Bool) : Outcome SchemaModel := do
  let sections ← Sections.ofDocument document
  let definitions := sections.definitionTable
  if !withOperations then return { definitions }
  let plain ← ParameterSlot.tableOf ["parameters"] sections.parameters
  let reusable ← ParameterSlot.tableOf ["components", "parameters"]
    (sections.components.bind (·.parameters))
  let operations ← sections.paths.mapM fun v => do
    Operation.ofPaths (← readSection "paths" (v.readMap PathItem.ofValue))
  return { definitions, parameters := plain ++ reusable, operations }

end SwaggerTypes
