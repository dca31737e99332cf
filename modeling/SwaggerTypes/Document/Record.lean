import SwaggerTypes.Document.Mismatch
/-!
Records read field by field, in the order of the document.
-/
namespace SwaggerTypes

def Reading.under {α : Type} (step : Step) (r : Reading α) : Reading α :=
  r.mapError (Misplaced.under step)

/-- A reading that can only fail at the value itself. -/
def Reading.here {α : Type} (r : Except Mismatch α) : Reading α := r.mapError fun cause => { cause }

/-- The list form is too short when a field that it does not reach has no value of its own, and
too long when it goes beyond the last field. -/
def Record.lengthMismatch (r : Record) (length : Nat) : Option Mismatch :=
  let unreached := r.fields.zipIdx.drop length
  match unreached.find? fun field => !r.defaulted.contains field.1 with
  | some field => some (.tooFew field.2 r)
  | none => if r.fields.length < length then some (.tooMany length) else none

/-- Reads a record in map form or in list form, one field after the other. -/
def Record.read {α : Type} (r : Record) (set : α → String → Value → Reading α) (start : α)
    (v : Value) : Reading α :=
  match v with
  | .object fields =>
    fields.foldlM (fun a field => Reading.under (.key field.1) (set a field.1 field.2)) start
  | .array items => do
    let a ← (r.fields.zip items).zipIdx.foldlM
      (fun a place => Reading.under (.index place.2) (set a place.1.1 place.1.2)) start
    match r.lengthMismatch items.length with
    | some cause => throw { cause }
    | none => return a
  | v => throw { cause := .wrongType v (.record r) }

def Value.readMap {α : Type} (read : Value → Reading α) (v : Value) : Reading (Entries α) :=
  match v with
  | .object fields => do
    let entries ← fields.mapM fun field =>
      Reading.under (.key field.1) ((read field.2).map fun a => (field.1, a))
    return Entries.ofList entries
  | v => throw { cause := .wrongType v .map }

def Value.readList {α : Type} (read : Value → Reading α) (v : Value) : Reading (List α) :=
  match v with
  | .array items => items.zipIdx.mapM fun item => Reading.under (.index item.2) (read item.1)
  | v => throw { cause := .wrongType v .sequence }

end SwaggerTypes
