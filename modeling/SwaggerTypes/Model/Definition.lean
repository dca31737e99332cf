import SwaggerTypes.Schema.Node
/-!
Named schemas in document order, each addressed by a pointer of its own.
-/
namespace SwaggerTypes

/-- The two places of a document that name schemas. -/
inductive Home where
  | definitions
  | components
deriving DecidableEq

def Home.segments : Home → List String
  | definitions => ["definitions"]
  | components => ["components", "schemas"]

structure Definition where
  home : Home
  name : String
  root : Node

def Definition.pointer (d : Definition) : String := Pointer.render (d.home.segments ++ [d.name])

/-- What tells definitions apart. -/
def Definition.key (d : Definition) : Home × String := (d.home, d.name)

/-- The named schemas of a document. No two have the same name in the same place. -/
structure DefinitionTable where
  entries : List Definition := []
  nodup : (entries.map Definition.key).Nodup := by simp

namespace DefinitionTable

def find? (table : DefinitionTable) (home : Home) (name : String) : Option (Definition × Nat) :=
  table.entries.zipIdx.find? fun e => e.1.home = home && e.1.name = name

def indexOf? (table : DefinitionTable) (pointer : String) : Option Nat :=
  table.entries.findIdx? (·.pointer = pointer)

/-- Adds a definition at the end; a name that is taken stays with its definition. -/
def insert (table : DefinitionTable) (d : Definition) : DefinitionTable :=
  if h : d.key ∈ table.entries.map Definition.key then table
  else
    { entries := table.entries ++ [d]
      nodup := by
        rw [List.map_append, List.nodup_append]
        exact ⟨table.nodup, by simp, fun a ha b hb hab => h (by simp_all)⟩ }

def ofList (ds : List Definition) : DefinitionTable := ds.foldl insert {}

end DefinitionTable

/-- The segments of a schema pointer taken apart: where the schema is named, its name, and the way
below its root. -/
def Home.split? : List String → Option (Home × String × List String)
  | "definitions" :: name :: rest => some (definitions, name, rest)
  | "components" :: "schemas" :: name :: rest => some (components, name, rest)
  | _ => none

end SwaggerTypes
