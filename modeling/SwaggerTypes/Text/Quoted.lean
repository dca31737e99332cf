/-!
Double-quoted string literals of the declaration language: a backslash, a quote and every control
character are escaped, all else is written as it is.
-/
namespace SwaggerTypes.Text

def hexDigit (n : Nat) : Char := Nat.digitChar n

/-- The last `width` hexadecimal digits of a number, the most significant first. -/
def hexDigits : Nat → Nat → List Char
  | 0, _ => []
  | width + 1, n => hexDigits width (n / 16) ++ [hexDigit (n % 16)]

def isControl (c : Char) : Bool := c.toNat < 0x20 || (0x7F ≤ c.toNat && c.toNat ≤ 0x9F)

def escapeChar (c : Char) : List Char :=
  match c with
  | '\\' => ['\\', '\\']
  | '"' => ['\\', '"']
  | '\n' => ['\\', 'n']
  | '\r' => ['\\', 'r']
  | '\t' => ['\\', 't']
  | c => if isControl c then '\\' :: 'u' :: hexDigits 4 c.toNat else [c]

def escape (s : String) : String := String.ofList (s.toList.flatMap escapeChar)

/-- A double-quoted literal. -/
def quote (s : String) : String := "\"" ++ escape s ++ "\""

end SwaggerTypes.Text
