import SwaggerTypes.Decimal.Shortest
import SwaggerTypes.Document.Entries
import SwaggerTypes.Text.Excerpt
/-!
The values a document is made of. Objects keep the order of the document, and integers are told
apart from floating point numbers: `1` and `1.0` are different values.
-/
namespace SwaggerTypes

open Decimal (Double)

inductive Value where
  | null
  | bool (b : Bool)
  | integer (n : Int)
  | float (d : Double)
  | string (s : String)
  | array (items : List Value)
  | object (fields : List (String × Value))
deriving Inhabited

namespace Value

/-- What an error says was found. -/
def outline : Value → String
  | null => "null"
  | bool b => "boolean `" ++ (if b then "true" else "false") ++ "`"
  | integer n => "integer `" ++ toString n ++ "`"
  | float d => "floating point `" ++ d.pointedText ++ "`"
  | string s => "string " ++ Text.excerpt s
  | array _ => "sequence"
  | object _ => "map"

end Value

end SwaggerTypes
