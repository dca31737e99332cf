import SwaggerTypes.Markup.Document
import SwaggerTypes.Options
import SwaggerTypes.Synthesis.Build
import SwaggerTypes.Types.Namespace
import SwaggerTypes.Types.Printer
/-!
A document turned into the text of its declarations.
-/
namespace SwaggerTypes

/-- The text of the declarations, and the warnings in the order they were raised. -/
structure Conversion where
  output : String
  warnings : List Warning

def convert (document : Value) (options : Options) : Outcome Conversion := do
  let model ← SchemaModel.ofDocument document options.withQuery
  let build ← model.build options.sortProps options.withQuery
  let file ← DeclarationFile.organize build.declarations options.namespaceName
  return { output := file.text, warnings := build.warnings }

/-- Converts the document that a reader finds in a text. -/
def convertTextBy (read : String → Option Value) (text : String) (options : Options) :
    Outcome Conversion :=
  match read text with
  | some document => convert document options
  | none => .error .unreadable

def convertText : String → Options → Outcome Conversion := convertTextBy Value.ofText?

end SwaggerTypes
