import SwaggerTypes.Text.Pieces
/-!
Paths of files: names between slashes. Empty names count for nothing, nor does `.`, except as the
first name of a path.
-/
namespace SwaggerTypes.Path

/-- The names of a path, with empty ones. -/
def names (path : String) : List String := Text.splitAt '/' path

def isAbsolute (path : String) : Bool := path.toList.head? = some '/'

def counts (name : String) (before : List String) : Bool :=
  name ≠ "" && (name ≠ "." || before.isEmpty)

/-- The paths that end at the names that count, longest first. The names are given last first. -/
def beginnings (absolute : Bool) : List String → List String
  | [] => if absolute then ["/"] else []
  | name :: before =>
    if counts name before then
      Text.join "/" (name :: before).reverse :: beginnings absolute before
    else beginnings absolute before

/-- The directories on the way to a file, innermost first. -/
def directories (path : String) : List String :=
  (beginnings (isAbsolute path) (names path).reverse).drop 1

example : directories "a//b/./c" = ["a//b", "a"] := by decide +kernel
example : directories "./x" = ["."] := by decide +kernel
example : directories "/x" = ["/"] := by decide +kernel
example : directories "x" = [] := by decide +kernel

end SwaggerTypes.Path
