import SwaggerTypes.Document.Record
import SwaggerTypes.Schema.Reading
/-!
What a conversion can be asked for.
-/
namespace SwaggerTypes

structure Options where
  /-- The namespace to put around the declarations. -/
  namespaceName : Option String := none
  /-- Whether the query parameters of each operation get an interface. -/
  withQuery : Bool := false
  /-- Whether the properties of objects are ordered by name. -/
  sortProps : Bool := false

namespace Options

/-- Sets an option; there are no others. -/
def set (o : Options) (name : String) (v : Value) : Reading Options :=
  Reading.here <| match name with
  | "namespace" => do return { o with namespaceName := ← v.optional Value.asString }
  | "withQuery" => do return { o with withQuery := ← v.asBool }
  | "sortProps" => do return { o with sortProps := ← v.asBool }
  | _ => .error (.unknownOption name)

def ofValue (v : Value) : Except Mismatch Options :=
  (Record.options.read set {} v).mapError Misplaced.cause

end Options

end SwaggerTypes
