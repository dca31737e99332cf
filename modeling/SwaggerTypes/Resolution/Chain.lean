/-!
The chain of references that are open at a point of a traversal, innermost first. A reference to
something that is already open closes a cycle; whether it is guarded tells if a property, an item
or another part of a value lies on the way around.
-/
namespace SwaggerTypes

/-- An open reference: its pointer, and how many parts of values lay above it when it was
entered. -/
structure Frame where
  pointer : String
  depth : Nat
deriving DecidableEq

abbrev Chain := List Frame

inductive Visit where
  /-- It is new and now part of the chain. -/
  | entered (chain : Chain)
  /-- It is open already. -/
  | cycle (guarded : Bool)

/-- Opens a reference at a depth. A cycle is guarded when the depth has grown since. -/
def Chain.enter (chain : Chain) (pointer : String) (depth : Nat) : Visit :=
  match chain.find? fun frame => frame.pointer = pointer with
  | some frame => .cycle (frame.depth < depth)
  | none => .entered (⟨pointer, depth⟩ :: chain)

def Chain.leave (chain : Chain) : Chain := chain.tail

end SwaggerTypes
