import SwaggerTypes.Schema.Node
/-!
Type expressions of the declaration language.
-/
namespace SwaggerTypes

inductive BaseType where
  | string
  | number
  | boolean
  | null
  | any
deriving DecidableEq

structure Property (α : Type) where
  name : String
  type : α
  optional : Bool
  doc : Option String := none
  format : Option String := none

/-- The properties of an object, and the type of all others where an index signature gives it. -/
structure ObjectType (α : Type) where
  properties : List (Property α) := []
  index : Option α := none
deriving Inhabited

inductive TypeExpr where
  | base (type : BaseType)
  | array (of : TypeExpr)
  | union (members : List TypeExpr)
  | intersection (members : List TypeExpr)
  | object (object : ObjectType TypeExpr)
  | literal (value : Literal)
  /-- A declaration by its name. -/
  | named (name : String)
deriving Inhabited

namespace TypeExpr

def any : TypeExpr := base .any

def null : TypeExpr := base .null

/-- Whether the expression is the type of `null`, not the literal `null`. -/
def isNull : TypeExpr → Bool
  | base .null => true
  | _ => false

/-- Adds `null` to a type, unless it is there already or everything is. -/
def nullable : TypeExpr → TypeExpr
  | base .null => null
  | base .any => any
  | union members => union (if members.any isNull then members else members ++ [null])
  | t => union [t, null]

mutual

/-- Whether two expressions are the same, floating point literals compared as numbers. -/
def same : TypeExpr → TypeExpr → Bool
  | base a, base b => a = b
  | array a, array b => same a b
  | union a, union b => sameAll a b
  | intersection a, intersection b => sameAll a b
  | object ⟨properties, some index⟩, object ⟨properties', some index'⟩ =>
    sameProperties properties properties' && same index index'
  | object ⟨properties, none⟩, object ⟨properties', none⟩ => sameProperties properties properties'
  | literal a, literal b => a.same b
  | named a, named b => a = b
  | _, _ => false
termination_by structural t => t

def sameAll : List TypeExpr → List TypeExpr → Bool
  | [], [] => true
  | a :: as, b :: bs => same a b && sameAll as bs
  | _, _ => false
termination_by structural ts => ts

def sameProperties : List (Property TypeExpr) → List (Property TypeExpr) → Bool
  | [], [] => true
  | ⟨name, type, optional, doc, format⟩ :: ps, q :: qs =>
    name = q.name && same type q.type && optional = q.optional && doc = q.doc
      && format = q.format && sameProperties ps qs
  | _, _ => false
termination_by structural ps => ps

end

end TypeExpr

/-- Orders properties by name; names are compared by code points, and equal ones keep their
order. -/
def ObjectType.sortProperties (o : ObjectType TypeExpr) : ObjectType TypeExpr :=
  { o with properties := o.properties.mergeSort fun a b => a.name ≤ b.name }

end SwaggerTypes
