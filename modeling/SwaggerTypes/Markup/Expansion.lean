import SwaggerTypes.Markup.Datum
import SwaggerTypes.Markup.Node
/-!
The datum of a node. Each reference stands for a copy of its target, so the depth of the datum and
the number of references followed are limited; a target that refers to itself has no datum.
-/
namespace SwaggerTypes.Markup

/-- The targets of references, and how many references may be followed. -/
structure Targets where
  nodes : List (Nat × Node)
  limit : Nat

/-- Of the nodes under one anchor the one that begins last is the target. The limit grows with the
text. -/
def Targets.of (root : Node) : Targets := ⟨root.anchored.reverse, 100 * root.weight⟩

namespace Node

/-- The number of references followed so far goes along. -/
abbrev Expansion := StateT Nat Option

def target (targets : Targets) : Node → Expansion Node
  | reference n => do
    let followed := (← get) + 1
    if targets.limit < followed then failure
    set followed
    match targets.nodes.lookup n with
    | some node => return node
    | none => failure
  | node => return node

def withTag (p : Properties) (content : Datum) : Datum :=
  match p.tag.bind Datum.localName? with
  | some name => .tagged name content
  | none => content

/-- The datum of a scalar. A local tag does not change how the text is read, and one without name
says nothing. -/
def scalarDatum (p : Properties) (text : String) (plain : Bool) : Option Datum :=
  let word := if plain then Datum.ofWord text else some (.string text)
  match p.tag with
  | none => word
  | some tag => if Datum.isLocal tag then word.map (withTag p) else Datum.ofTagged tag text

def distinctKeys : List (Datum × Datum) → Bool
  | [] => true
  | e :: rest => !rest.any (fun f => e.1.same f.1) && distinctKeys rest

/-- The datum of a node with `depth` levels of collections at most. -/
def expand (targets : Targets) (depth : Nat) (node : Node) : Expansion Datum :=
  match depth with
  | 0 => do
    match ← target targets node with
    | scalar p text plain => scalarDatum p text plain
    | _ => failure
  | depth + 1 => do
    match ← target targets node with
    | scalar p text plain => scalarDatum p text plain
    | sequence p items =>
      return withTag p (.sequence (← items.mapM fun item => expand targets depth item))
    | mapping p entries =>
      let data ← entries.mapM fun e => do
        return (← expand targets depth e.1, ← expand targets depth e.2)
      if distinctKeys data then return withTag p (.mapping data) else failure
    | reference _ => failure

def maxDepth : Nat := 128

def datum? (root : Node) : Option Datum :=
  (root.expand (Targets.of root) maxDepth).run' 0

end Node

end SwaggerTypes.Markup
