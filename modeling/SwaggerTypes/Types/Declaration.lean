import SwaggerTypes.Types.Expr
/-!
Named declarations, and the file that holds them.
-/
namespace SwaggerTypes

inductive DeclarationBody where
  | interface (object : ObjectType TypeExpr)
  | synonym (type : TypeExpr)

structure Declaration where
  name : String
  exported : Bool := true
  doc : Option String := none
  body : DeclarationBody

/-- A file of declarations, in a namespace or at top level. -/
structure DeclarationFile where
  namespaceName : Option String := none
  declarations : List Declaration := []

end SwaggerTypes
