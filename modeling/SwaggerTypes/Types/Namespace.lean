import SwaggerTypes.Fault
import SwaggerTypes.Text.Identifier
import SwaggerTypes.Types.Declaration
/-!
The namespace around a declaration file.
-/
namespace SwaggerTypes

/-- Whether a name can be a namespace: declarable names joined by points. -/
def isNamespace (name : String) : Bool := (Text.splitAt '.' name).all Text.isDeclarable

def DeclarationFile.organize (declarations : List Declaration) (name : Option String) :
    Outcome DeclarationFile :=
  match name with
  | some name =>
    if isNamespace name then .ok { namespaceName := some name, declarations }
    else .error (.invalidNamespace name)
  | none => .ok { declarations }

end SwaggerTypes
