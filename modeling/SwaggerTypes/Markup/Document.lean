import SwaggerTypes.Markup.Expansion
import SwaggerTypes.Markup.Merge
/-!
Documents as texts.
-/
namespace SwaggerTypes

namespace Markup.Datum

/-- The text of a key. Numbers and booleans are written out, and nothing else becomes a key. -/
def keyText? : Datum → Option String
  | string s => some s
  | integer n => some (toString n)
  | float d => if d.isFinite then some d.pointedText else none
  | bool b => some (if b then "true" else "false")
  | null | sequence _ | mapping _ | tagged .. => none

mutual

/-- The document of a datum. A tagged datum is a map with the tag as its only key, and infinities
are null. Keys whose texts agree are one key: its first place and its last value count. -/
def value? (d : Datum) : Option Value :=
  match d with
  | null => some .null
  | bool b => some (.bool b)
  | integer n => some (.integer n)
  | float d => some (if d.isFinite then .float d else .null)
  | string s => some (.string s)
  | sequence items => (itemValues? items).map .array
  | mapping entries => (entryValues? entries).map fun fields => .object (Entries.ofList fields)
  | tagged name content => (value? content).map fun v => .object [(name, v)]
termination_by structural d

def itemValues? (items : List Datum) : Option (List Value) :=
  match items with
  | [] => some []
  | item :: rest => do
    let v ← value? item
    let vs ← itemValues? rest
    some (v :: vs)
termination_by structural items

def entryValues? (entries : List (Datum × Datum)) : Option (List (String × Value)) :=
  match entries with
  | [] => some []
  | e :: rest => do
    let key ← keyText? e.1
    let v ← value? e.2
    let vs ← entryValues? rest
    some ((key, v) :: vs)
termination_by structural entries

end

end Markup.Datum

def Value.ofText? (text : String) : Option Value := do
  let node ← Markup.Node.ofText? text
  (← (← node.datum?).merged?).value?

end SwaggerTypes
