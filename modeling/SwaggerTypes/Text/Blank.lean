import SwaggerTypes.Text.CodeRanges
/-!
Blank characters, the text between them, and lines.
-/
namespace SwaggerTypes.Text

def blank : CodeRanges := [
    (0x9, 0xD), (0x20, 0x20), (0x85, 0x85), (0xA0, 0xA0), (0x1680, 0x1680), (0x2000, 0x200A),
    (0x2028, 0x2029), (0x202F, 0x202F), (0x205F, 0x205F), (0x3000, 0x3000)]

/-- Whether a character is white space in any script. -/
def isBlank (c : Char) : Bool := blank.holds c

/-- The characters up to the last one that is not blank. -/
def trimEnd (cs : List Char) : List Char := (cs.reverse.dropWhile isBlank).reverse

def trim (cs : List Char) : List Char := trimEnd (cs.dropWhile isBlank)

def isBlankText (s : String) : Bool := s.toList.all isBlank

/-- A document text that says something; one of blanks alone counts as absent. -/
def nonBlank (s : Option String) : Option String := s.filter fun t => !isBlankText t

/-- The lines of the rest of a text, seen from its end. -/
structure LineTail where
  startsWithFeed : Bool := false
  lines : List (List Char) := []

/-- One more character in front. A line feed opens a line; a carriage return right before it
belongs to the line end; any other character belongs to the line it stands on. -/
def LineTail.cons (c : Char) (rest : LineTail) : LineTail :=
  if c = '\n' then ⟨true, [] :: rest.lines⟩
  else if c = '\r' && rest.startsWithFeed then ⟨false, rest.lines⟩
  else match rest.lines with
    | [] => ⟨false, [[c]]⟩
    | line :: lines => ⟨false, (c :: line) :: lines⟩

/-- The lines of a text without their line ends (`\n` or `\r\n`). A final line end closes the
last line and opens no other. -/
def lines (cs : List Char) : List (List Char) := (cs.foldr LineTail.cons {}).lines

end SwaggerTypes.Text
