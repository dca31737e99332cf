import SwaggerTypes.Schema.References
import SwaggerTypes.Synthesis.Mapping
/-!
Declarations of definitions, made when a definition is first met. A reference to a definition
becomes its name; one that closes a cycle made of aliases alone becomes `any`. A reference into
the middle of a definition becomes the type of the schema it leads to.
-/
namespace SwaggerTypes

/-- Whether a definition is declared as an interface: an object that does not allow `null`. -/
def Node.isInterface (root : Node) : Bool :=
  match root.kind, root.nullable with
  | .object .., false => true
  | _, _ => false

def DeclarationBody.ofType (isInterface : Bool) (type : TypeExpr) : DeclarationBody :=
  match isInterface, type with
  | true, .object object => .interface object
  | _, type => .synonym type

namespace Setting

variable (s : Setting) (follow : Place → String → Synthesis TypeExpr)

def declare (p : Place) (index : Nat) (d : Definition) : Synthesis Unit := do
  Synthesis.setSlot index .inProgress
  let type ← d.root.type s.sorted follow p
  Synthesis.setSlot index <| .done
    { name := s.nameOf index
      doc := d.root.description
      body := .ofType d.root.isInterface type }

/-- The type of a reference to a definition, which is declared first if it has not been met. -/
def definitionType (p : Place) (index : Nat) : Synthesis TypeExpr := do
  let name := s.nameOf index
  match ← Synthesis.slot? index, s.definitions.entries[index]? with
  | some (.done _), _ | _, none => return .named name
  | _, some d =>
    match p.chain.enter d.pointer p.depth with
    | .entered chain => do
      s.declare follow { p with location := d.pointer, chain } index d
      return .named name
    | .cycle true => return .named name
    | .cycle false => do
      Synthesis.warn p .circularAlias
        ("reference to `" ++ name ++ "` closes a cycle of type aliases; using `any`")
      return .any

def referenceType (p : Place) (pointer : String) : Synthesis TypeExpr := do
  let target ← s.definitions.resolve pointer
  if target.isRoot then s.definitionType follow p target.definition
  else match p.chain.enter target.pointer p.depth with
    | .entered chain =>
      target.node.type s.sorted follow { p with location := target.pointer, chain }
    | .cycle _ => do
      Synthesis.warn p .unsupportedConstruct
        ("recursive reference `" ++ pointer ++ "` into an unnamed schema; using `any`")
      return .any

end Setting

/-- The type of a reference when no more than `budget` references may be open at once. -/
def Setting.within (s : Setting) : (budget : Nat) → Place → String → Synthesis TypeExpr
  | 0, _, _ => throw .exhausted
  | budget + 1, p, pointer => s.referenceType (s.within budget) p pointer

namespace DefinitionTable

def references (table : DefinitionTable) : List String :=
  (table.entries.map fun d => d.root.references).flatten

/-- More references than can be open at once: those that are have pairwise distinct targets, each
a definition or what a reference in a definition leads to, but for one from elsewhere. -/
def budget (table : DefinitionTable) : Nat := table.entries.length + table.references.length + 2

end DefinitionTable

def Setting.typeOf (s : Setting) (p : Place) (node : Node) : Synthesis TypeExpr :=
  node.type s.sorted (s.within s.definitions.budget) p

def Setting.declareAll (s : Setting) : Synthesis Unit :=
  (List.range s.definitions.entries.length).forM fun index => do
    let _ ← s.definitionType (s.within s.definitions.budget) {} index

end SwaggerTypes
