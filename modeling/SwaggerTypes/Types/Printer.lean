import SwaggerTypes.Decimal.Shortest
import SwaggerTypes.Text.Blank
import SwaggerTypes.Text.Identifier
import SwaggerTypes.Text.Pieces
import SwaggerTypes.Types.Declaration
/-!
The text of type expressions, declarations and declaration files.
-/
namespace SwaggerTypes

def BaseType.text : BaseType → String
  | string => "string"
  | number => "number"
  | boolean => "boolean"
  | null => "null"
  | any => "any"

def Literal.text : Literal → String
  | string s => Text.quote s
  | integer n => toString n
  | float d => d.plainText
  | bool b => if b then "true" else "false"
  | null => "null"

namespace TypeExpr

/-- Whether an expression stands in parentheses before the array suffix: unions, intersections,
and numbers with a sign. -/
def needsParens : TypeExpr → Bool
  | union _ | intersection _ => true
  | literal (.integer n) => n < 0
  | literal (.float d) => d.negative
  | _ => false

/-- Whether an expression stands in parentheses between intersection signs. -/
def isUnion : TypeExpr → Bool
  | union _ => true
  | _ => false

mutual

def text : TypeExpr → String
  | base type => type.text
  | array of => if of.needsParens then "(" ++ of.text ++ ")[]" else of.text ++ "[]"
  | union members => Text.join " | " (texts members)
  | intersection members => Text.join " & " (operandTexts members)
  | object ⟨properties, some index⟩ =>
    "\x7b " ++ Text.join "; " (propertyTexts properties ++ ["[key: string]: " ++ index.text])
      ++ " \x7d"
  | object ⟨[], none⟩ => "\x7b\x7d"
  | object ⟨properties, none⟩ => "\x7b " ++ Text.join "; " (propertyTexts properties) ++ " \x7d"
  | literal value => value.text
  | named name => name
termination_by structural t => t

def texts : List TypeExpr → List String
  | [] => []
  | t :: ts => t.text :: texts ts
termination_by structural ts => ts

def operandTexts : List TypeExpr → List String
  | [] => []
  | t :: ts => (if t.isUnion then "(" ++ t.text ++ ")" else t.text) :: operandTexts ts
termination_by structural ts => ts

/-- The texts of properties without their comments. -/
def propertyTexts : List (Property TypeExpr) → List String
  | [] => []
  | ⟨name, type, optional, _, _⟩ :: ps =>
    (Text.key name ++ (if optional then "?" else "") ++ ": " ++ type.text) :: propertyTexts ps
termination_by structural ps => ps

end

end TypeExpr

def ObjectType.text (o : ObjectType TypeExpr) : String := (TypeExpr.object o).text

/-- The text of a property without its comments. -/
def Property.text (p : Property TypeExpr) : String :=
  Text.key p.name ++ (if p.optional then "?" else "") ++ ": " ++ p.type.text

def indexText (type : TypeExpr) : String := "[key: string]: " ++ type.text

def indentation : String := "  "

namespace Comment

/-- Comment text that cannot end the comment: a backslash separates a star from the slash after
it. -/
def harmless : List Char → List Char
  | '*' :: '/' :: cs => '*' :: '\\' :: '/' :: harmless cs
  | c :: cs => c :: harmless cs
  | [] => []

/-- The lines of a comment, without blanks around the text and at the ends of lines. -/
def lines (text : String) : List String :=
  (Text.lines (harmless (Text.trim text.toList))).map fun line => String.ofList (Text.trimEnd line)

/-- A line of a comment block. -/
def blockLine (indent line : String) : String :=
  if line.isEmpty then indent ++ " *\n" else indent ++ " * " ++ line ++ "\n"

/-- A documentation comment: on one line if the text has one line, else as a block. -/
def doc (text indent : String) : String :=
  match lines text with
  | [line] => indent ++ "/** " ++ line ++ " */\n"
  | block => indent ++ "/**\n" ++ String.join (block.map (blockLine indent)) ++ indent ++ " */\n"

/-- A comment behind a property, its line feeds and carriage returns replaced by spaces. -/
def trailing (format : String) : String :=
  " // " ++ String.ofList (format.toList.map fun c => if c = '\n' || c = '\r' then ' ' else c)

end Comment

def docText (doc : Option String) (indent : String) : String :=
  (doc.map fun text => Comment.doc text indent).getD ""

def Property.lines (p : Property TypeExpr) : String :=
  docText p.doc indentation ++ indentation ++ p.text ++ ";"
    ++ (p.format.map Comment.trailing).getD "" ++ "\n"

def ObjectType.lines (o : ObjectType TypeExpr) : String :=
  String.join (o.properties.map Property.lines)
    ++ (o.index.map fun index => indentation ++ indexText index ++ ";\n").getD ""

def Declaration.text (d : Declaration) : String :=
  let head := docText d.doc "" ++ (if d.exported then "export " else "")
  match d.body with
  | .interface o => head ++ "interface " ++ d.name ++ " \x7b\n" ++ o.lines ++ "\x7d\n"
  | .synonym type => head ++ "type " ++ d.name ++ " = " ++ type.text ++ ";\n"

/-- Indents the lines of a text that are not empty. -/
def indentLines (text : String) : String :=
  String.join <| (Text.lines text.toList).map fun line =>
    (if line.isEmpty then "" else indentation ++ String.ofList line) ++ "\n"

def DeclarationFile.text (file : DeclarationFile) : String :=
  let body := Text.join "\n" (file.declarations.map Declaration.text)
  match file.namespaceName with
  | none => body
  | some name => "declare namespace " ++ name ++ " \x7b\n" ++ indentLines body ++ "\x7d\n"

end SwaggerTypes
