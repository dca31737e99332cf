import SwaggerTypes.Text.Pieces
import SwaggerTypes.Decimal.Reading
/-!
Local JSON pointers such as `#/definitions/Pet/properties/name`: their segments and their
canonical text. In a segment `~0` stands for `~` and `~1` for `/`.
-/
namespace SwaggerTypes.Pointer

def escapeChar (c : Char) : List Char :=
  match c with
  | '~' => ['~', '0']
  | '/' => ['~', '1']
  | c => [c]

def escape (segment : String) : String := String.ofList (segment.toList.flatMap escapeChar)

/-- The segment that a written one stands for; a `~` before anything but `0` and `1` is itself. -/
def unescape : List Char → List Char
  | '~' :: '1' :: cs => '/' :: unescape cs
  | '~' :: '0' :: cs => '~' :: unescape cs
  | c :: cs => c :: unescape cs
  | [] => []

def render (segments : List String) : String :=
  "#" ++ String.join (segments.map fun s => "/" ++ escape s)

inductive Fault where
  | external
  | notLocal
  | notPointer

def Fault.message : Fault → String
  | external => "external document references are not supported"
  | notLocal => "only local `#/...` pointers are supported"
  | notPointer => "not a JSON pointer"

/-- The segments of a local pointer; there is always at least one. -/
def parse (pointer : String) : Except Fault (List String) :=
  match pointer.toList with
  | '#' :: '/' :: path =>
    .ok ((Text.pieces '/' path).map fun piece => String.ofList (unescape piece))
  | '#' :: _ => .error .notPointer
  | cs => .error (if cs.contains '#' then .external else .notLocal)

/-- A list position in a segment: decimal digits, perhaps after a plus sign, below `2 ^ 64`. -/
def index? (segment : String) : Option Nat :=
  let digits := match segment.toList with
    | '+' :: cs => cs
    | cs => cs
  (Decimal.readNat 10 digits).filter (· < 0x10000000000000000)

end SwaggerTypes.Pointer
