/-!
Texts cut at a separator and joined again.
-/
namespace SwaggerTypes.Text

/-- One more character in front of the pieces of a text. -/
def consPiece (separator c : Char) : List (List Char) → List (List Char)
  | [] => [[c]]
  | piece :: pieces => if c = separator then [] :: piece :: pieces else (c :: piece) :: pieces

/-- The pieces between the separators, one more than there are separators. -/
def pieces (separator : Char) (cs : List Char) : List (List Char) :=
  cs.foldr (consPiece separator) [[]]

def splitAt (separator : Char) (s : String) : List String :=
  (pieces separator s.toList).map String.ofList

def join (separator : String) (texts : List String) : String := separator.intercalate texts

end SwaggerTypes.Text
