import SwaggerTypes.Fault
import SwaggerTypes.Text.Identifier
/-!
Names of declarations. Each is given once: a base name that is taken gets the first free number
from two on behind it, and a warning says so.
-/
namespace SwaggerTypes

/-- The base name with the first number behind it, from two on, that makes it free. Among one more
candidates than there are taken names one is free. -/
def freshName (taken : List String) (base : String) : String :=
  let candidates := (List.range' 2 (taken.length + 1)).map fun n => base ++ toString n
  (candidates.find? (· ∉ taken)).getD base

/-- The name that a base name leads to, and the warning when it is another one. -/
def nextName (taken : List String) (base pointer : String) : String × Option Warning :=
  if base ∈ taken then
    let name := freshName taken base
    (name, some
      { kind := .duplicateName
        pointer
        message := "`" ++ base ++ "` is already declared; using `" ++ name ++ "`" })
  else (base, none)

end SwaggerTypes
