import SwaggerTypes.Types.Expr
/-!
Types put together: listed values, unions, and intersections whose object members become one
object.
-/
namespace SwaggerTypes

/-- The values of a list, each kept where it is listed first. -/
def Literal.distinct (values : List Literal) : List Literal :=
  values.foldl (fun kept v => if kept.any (·.same v) then kept else kept ++ [v]) []

def TypeExpr.ofLiterals (values : List Literal) : TypeExpr :=
  match (Literal.distinct values).map TypeExpr.literal with
  | [one] => one
  | literals => .union literals

def TypeExpr.unionOf : List TypeExpr → TypeExpr
  | [] => .any
  | [one] => one
  | members => .union members

/-- The intersection of two types; a member that is there is not added again. -/
def TypeExpr.intersect (left right : TypeExpr) : TypeExpr :=
  match left with
  | .intersection members =>
    .intersection (if members.any (·.same right) then members else members ++ [right])
  | left => .intersection [left, right]

/-- A type that two sources give: itself when they agree, else the intersection. -/
def TypeExpr.agree (left right : TypeExpr) : TypeExpr :=
  if left.same right then left else left.intersect right

/-- A property that two objects declare. It is optional only if both say so, and the first
documentation and the first format are kept. -/
def Property.merge (p q : Property TypeExpr) : Property TypeExpr :=
  { p with
    type := p.type.agree q.type
    optional := p.optional && q.optional
    doc := p.doc <|> q.doc }

namespace ObjectType

/-- Adds a property to a list, merging it with the one of the same name. -/
def addProperty (ps : List (Property TypeExpr)) (p : Property TypeExpr) :
    List (Property TypeExpr) :=
  match ps with
  | [] => [p]
  | q :: qs => if q.name = p.name then q.merge p :: qs else q :: addProperty qs p

def merge (a b : ObjectType TypeExpr) : ObjectType TypeExpr :=
  { properties := b.properties.foldl addProperty a.properties
    index := match a.index, b.index with
      | some x, some y => some (x.agree y)
      | x, y => x <|> y }

def isEmpty (o : ObjectType TypeExpr) : Bool := o.properties.isEmpty && o.index.isNone

/-- The object with its properties in the order asked for. -/
def arrange (sorted : Bool) (o : ObjectType TypeExpr) : ObjectType TypeExpr :=
  if sorted then o.sortProperties else o

end ObjectType

inductive Operand where
  | type (type : TypeExpr)
  /-- An object that becomes one with the other objects. -/
  | object (object : ObjectType TypeExpr)

namespace Operand

def type? : Operand → Option TypeExpr
  | type t => some t
  | object _ => none

def object? : Operand → Option (ObjectType TypeExpr)
  | object o => some o
  | type _ => none

/-- The types among the operands, with the given ones in the place of the first object. -/
def place (merged : List TypeExpr) : List Operand → List TypeExpr
  | [] => []
  | type t :: operands => t :: place merged operands
  | object _ :: operands => merged ++ operands.filterMap type?

def mergedObject? (operands : List Operand) : Option (ObjectType TypeExpr) :=
  match operands.filterMap object? with
  | [] => none
  | first :: rest => some (rest.foldl ObjectType.merge first)

/-- The intersection of operands. The merged object stands where the first object stood, and is
left out when it says nothing and other operands remain. -/
def intersection (sorted : Bool) (operands : List Operand) : TypeExpr :=
  let merged := match mergedObject? operands with
    | none => []
    | some o =>
      let alone := (operands.filterMap type?).isEmpty
      if o.isEmpty && !alone then [] else [.object (o.arrange sorted)]
  match place merged operands with
  | [] => .any
  | [one] => one
  | members => .intersection members

def combine (sorted union : Bool) (operands : List Operand) : TypeExpr :=
  if union then .unionOf (operands.filterMap type?) else intersection sorted operands

end Operand

end SwaggerTypes
