import SwaggerTypes.Fault
import SwaggerTypes.Model.Definition
/-!
The schema a pointer leads to. A pointer names a definition and a way below its root; where a
reference stands in the middle of the way, the way goes on behind what it refers to.
-/
namespace SwaggerTypes

inductive Walk where
  | done (node : Node)
  /-- A reference stands before these segments. -/
  | follow (pointer : String) (rest : List String)
  /-- There is nothing at these segments, counted from the start of the way. -/
  | missing (segments : List String)

/-- Follows the segments of a way; `passed` are those behind. -/
def Node.walk (node : Node) (passed : List String) : List String → Walk
  | [] => .done node
  | segment :: rest =>
    match node.kind with
    | .reference pointer => .follow pointer (segment :: rest)
    | _ =>
      match node.child segment rest.head? with
      | none => .missing (passed ++ [segment])
      | some (child, used) =>
        if used = 1 then child.walk (passed ++ [segment]) rest
        else match rest with
          | [] => .missing (passed ++ [segment])
          | next :: below => child.walk (passed ++ [segment, next]) below

/-- A schema found by a pointer: the position of the definition around it, its canonical pointer,
its node, and whether it is the definition itself. -/
structure Target where
  definition : Nat
  pointer : String
  node : Node
  isRoot : Bool

def parsePointer (pointer : String) : Outcome (List String) :=
  (Pointer.parse pointer).mapError fun fault => .resolution pointer (.pointer fault)

namespace DefinitionTable

/-- How many ways may be walked for one pointer. -/
def maxWalks : Nat := 257

/-- Walks the way of a pointer, and on behind references, until it ends at a node. The pointers
passed so far are `visited`; coming back to one, or more than `walks` ways, is a loop. -/
def resolveFrom (table : DefinitionTable) (pointer : String) :
    (walks : Nat) → (visited segments : List String) → Outcome Target
  | 0, _, segments => .error (.resolution pointer (.loop (Pointer.render segments)))
  | walks + 1, visited, segments =>
    let canonical := Pointer.render segments
    if visited.contains canonical then .error (.resolution pointer (.loop canonical))
    else match Home.split? segments with
      | none => .error (.resolution pointer .outsideDefinitions)
      | some (home, name, rest) =>
        match table.find? home name with
        | none => .error (.resolution pointer (.noDefinition name))
        | some (definition, index) =>
          match definition.root.walk [] rest with
          | .done node => .ok ⟨index, canonical, node, rest.isEmpty⟩
          | .missing segments => .error (.resolution pointer (.noNode segments))
          | .follow next remaining => do
            let followed ← parsePointer next
            table.resolveFrom pointer walks (canonical :: visited) (followed ++ remaining)

def resolve (table : DefinitionTable) (pointer : String) : Outcome Target := do
  let segments ← parsePointer pointer
  table.resolveFrom pointer maxWalks [] segments

end DefinitionTable

end SwaggerTypes
