import SwaggerTypes.Schema.Node
/-!
The references in a schema.
-/
namespace SwaggerTypes.Node

mutual

/-- The pointers of the references anywhere in a schema, in document order. -/
def references : Node → List String
  | ⟨kind, _, _⟩ => kindReferences kind
termination_by structural node => node

def kindReferences : Kind Node → List String
  | .reference pointer => [pointer]
  | .array items => items.references
  | .object properties _ additional =>
    propertyReferences properties ++ additionalReferences additional
  | .composite _ members => memberReferences members
  | .any | .primitive .. | .enum _ | .unsupported _ => []
termination_by structural kind => kind

def propertyReferences : List (String × Node) → List String
  | [] => []
  | (_, node) :: rest => node.references ++ propertyReferences rest
termination_by structural properties => properties

def additionalReferences : Additional Node → List String
  | .closed | .unrestricted => []
  | .typed node => node.references
termination_by structural additional => additional

def memberReferences : List Node → List String
  | [] => []
  | member :: rest => member.references ++ memberReferences rest
termination_by structural members => members

end

end SwaggerTypes.Node
