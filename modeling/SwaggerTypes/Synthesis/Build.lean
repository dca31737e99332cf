import SwaggerTypes.Synthesis.Query
/-!
All declarations of a model: one for each definition in their order, then the query interfaces in
the order of the operations.
-/
namespace SwaggerTypes

structure Build where
  declarations : List Declaration
  warnings : List Warning

namespace SchemaModel

def takeNames (definitions : List Definition) : List String × Progress :=
  definitions.foldl (fun (names, progress) d =>
    let (name, warning) := nextName progress.taken (Text.sanitize d.name) d.pointer
    (names ++ [name],
      { slots := progress.slots ++ [.pending]
        taken := name :: progress.taken
        warnings := progress.warnings ++ warning.toList })) ([], { slots := [] })

def finished (slots : List Slot) : List Declaration :=
  slots.filterMap fun
    | .done declaration => some declaration
    | _ => none

def build (model : SchemaModel) (sorted withQuery : Bool) : Outcome Build := do
  let (names, start) := takeNames model.definitions.entries
  let setting : Setting := { definitions := model.definitions, names, sorted }
  let synthesis : Synthesis (List Declaration) := do
    setting.declareAll
    if withQuery then setting.queryDeclarations model else return []
  let (queries, progress) ← synthesis.run start
  return { declarations := finished progress.slots ++ queries, warnings := progress.warnings }

end SchemaModel

end SwaggerTypes
