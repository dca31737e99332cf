import SwaggerTypes.Text.Visible
/-!
Texts shown inside a message: double quotes around, and what cannot be seen given by its code
point, as in `"a\u{200d}"`.
-/
namespace SwaggerTypes.Text

/-- The hexadecimal digits of a code point without leading zeros. -/
def codePoint (c : Char) : String := String.ofList (Nat.toDigits 16 c.toNat)

def showChar (c : Char) : String :=
  match c with
  | '\x00' => "\\0"
  | '\t' => "\\t"
  | '\n' => "\\n"
  | '\r' => "\\r"
  | '"' => "\\\""
  | '\\' => "\\\\"
  | c => if isVisible c then c.toString else "\\u\x7b" ++ codePoint c ++ "\x7d"

def excerpt (s : String) : String := "\"" ++ String.join (s.toList.map showChar) ++ "\""

end SwaggerTypes.Text
