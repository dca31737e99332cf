import SwaggerTypes.Markup.Datum
/-!
Merge keys. The entries of the mapping under the key `<<`, or of a list of mappings there, join the
mapping around it; where a key is there already the entry is left out.
-/
namespace SwaggerTypes.Markup.Datum

abbrev Mapping := List (Datum × Datum)

def isMerge (e : Datum × Datum) : Bool := e.1.same (string "<<")

/-- Takes an entry out; the last one comes into its place. -/
def takeMerge? (entries : Mapping) : Option (Datum × Mapping) := do
  let i ← entries.findIdx? isMerge
  let e ← entries[i]?
  let last ← entries.getLast?
  some (e.2, (entries.set i last).dropLast)

def addNew (entries : Mapping) (e : Datum × Datum) : Mapping :=
  if entries.any fun f => f.1.same e.1 then entries else entries ++ [e]

def mergeEntries? (merge : Datum) : Option Mapping :=
  match merge with
  | mapping entries => some entries
  | sequence items =>
    (items.mapM fun
      | mapping entries => some entries
      | _ => none).map List.flatten
  | _ => none

def mergeHere? (entries : Mapping) : Option Mapping :=
  match takeMerge? entries with
  | none => some entries
  | some (merge, rest) => (mergeEntries? merge).map (List.foldl addNew rest)

/-- Merges in every mapping, from the outside to the inside. `fuel` is at least the height. -/
def mergeWithin : (fuel : Nat) → Datum → Option Datum
  | 0, _ => none
  | fuel + 1, d => match d with
    | sequence items => (items.mapM (mergeWithin fuel)).map sequence
    | mapping entries => do
      let entries ← mergeHere? entries
      let merged ← entries.mapM fun e => (mergeWithin fuel e.2).map (e.1, ·)
      some (mapping merged)
    | tagged name content => (mergeWithin fuel content).map (tagged name)
    | null | bool _ | integer _ | float _ | string _ => some d

def merged? (d : Datum) : Option Datum := d.mergeWithin d.height

end SwaggerTypes.Markup.Datum
