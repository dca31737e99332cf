import SwaggerTypes.Text.Alphabetic
import SwaggerTypes.Text.Numeric
import SwaggerTypes.Text.Uppercase
import SwaggerTypes.Text.Quoted
/-!
Names in declarations: which keys stand without quotes, which names can be declared, and how an
arbitrary key of a document becomes a declared name.
-/
namespace SwaggerTypes.Text

def reservedWords : List String := [
  "break", "case", "catch", "class", "const", "continue", "debugger", "default", "delete", "do",
  "else", "enum", "export", "extends", "false", "finally", "for", "function", "if", "import", "in",
  "instanceof", "new", "null", "return", "super", "switch", "this", "throw", "true", "try",
  "typeof", "var", "void", "while", "with", "yield", "let", "static", "implements", "interface",
  "package", "private", "protected", "public", "await", "async"]

/-- Names of types that are always there. -/
def builtinTypes : List String := [
  "any", "bigint", "boolean", "never", "number", "object", "string", "symbol", "type",
  "undefined", "unknown"]

def isReserved (name : String) : Bool := reservedWords.contains name || builtinTypes.contains name

def isPlainStart (c : Char) : Bool := c.isAlpha || c = '_' || c = '$'

def isPlainChar (c : Char) : Bool := c.isAlphanum || c = '_' || c = '$'

def isPlain (name : String) : Bool :=
  match name.toList with
  | [] => false
  | c :: cs => isPlainStart c && (c :: cs).all isPlainChar

/-- Whether a name can be declared as it is. -/
def isDeclarable (name : String) : Bool := isPlain name && !isReserved name

/-- A property key: the name itself when it is plain, else a quoted literal. -/
def key (name : String) : String := if isPlain name then name else quote name

/-- What a declared name may hold: letters and numerals of any script, `_` and `$`. -/
def isIdentifierChar (c : Char) : Bool :=
  isAlphabetic c || isNumeric c || c = '_' || c = '$'

/-- The identifier characters of a text. The first one is upper-cased when `upper` is set, and so
is one that follows a dropped character, unless nothing was kept before it (`started`). -/
def identifierChars (started upper : Bool) : List Char → List Char
  | [] => []
  | c :: cs =>
    if isIdentifierChar c then
      (if upper then uppercase c else [c]) ++ identifierChars true false cs
    else identifierChars started (upper || started) cs

/-- A text in camel case with a capital first letter: `pets/{petId}` becomes
`PetsPetId`. -/
def pascalCase (s : String) : String := String.ofList (identifierChars false true s.toList)

/-- The declared name for a key of a document: identifier characters only, `_empty` when none are
left, and `_` in front of an ASCII digit or a reserved name. -/
def sanitize (name : String) : String :=
  let kept := identifierChars false false name.toList
  let plain := String.ofList kept
  match kept with
  | [] => "_empty"
  | c :: _ => if c.isDigit || isReserved plain then "_" ++ plain else plain

end SwaggerTypes.Text
