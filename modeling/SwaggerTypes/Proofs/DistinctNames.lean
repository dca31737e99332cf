import SwaggerTypes.Proofs.Degradation
import SwaggerTypes.Proofs.WrittenSchemas
/-!
# Schemas of a document

An object cannot have two properties of one name, because of a repeated key the last value counts, and
a list of values that is read has one at least. In the model of a document addresses therefore tell all
schemas apart, as far as members can be counted.
-/

namespace SwaggerTypes

namespace Node

/-- An object has no two properties of one name, and a list of values has one at least. -/
def Proper (node : Node) : Prop :=
  match node.kind with
  | .object ps _ _ => (ps.map Prod.fst).Nodup
  | .enum values => values ≠ []
  | _ => True

def Counted (node : Node) : Prop :=
  match node.kind with
  | .composite _ ms => ms.length ≤ 0x10000000000000000
  | _ => True

theorem distinct_of_proper {node : Node} (hn : node.Proper) (hc : node.Counted) : node.Distinct := by
  obtain ⟨kind, doc, nullable⟩ := node
  cases kind with
  | object => exact hn
  | composite => exact hc
  | _ => exact trivial

def ProperBelow (root : Node) : Prop := ∀ node, Below root node → node.Proper

end Node

theorem Kind.ofValues_ne_nil {values : List Value} {literals : List Literal}
    (h : Kind.ofValues values = .enum literals) : literals ≠ [] := by
  unfold Kind.ofValues at h
  cases values with
  | nil => cases h
  | cons v vs =>
      rw [List.isEmpty_cons, if_neg Bool.false_ne_true, List.mapM_cons] at h
      split at h
      · next hread =>
        cases h
        obtain ⟨first, -, hrest⟩ := Option.bind_eq_some_iff.mp hread
        obtain ⟨rest, -, heq⟩ := Option.bind_eq_some_iff.mp hrest
        cases heq
        exact List.cons_ne_nil _ _
      · cases h

/-- Whatever a value writes is proper. -/
theorem Value.grants_proper (v : Value) : v.Grants Node.Proper where
  object := id
  values := fun _ hread => Kind.ofValues_ne_nil hread
  other := by
    intro node hobject henum
    unfold Node.Proper
    split
    · next heq => exact absurd heq (hobject _ _ _)
    · next heq => exact absurd heq (henum _)
    · trivial

/-- In the schema that a value writes no object has two properties of one name. -/
theorem Node.properBelow_ofValue (v : Value) : (Node.ofValue v).ProperBelow :=
  Node.allBelow_ofValue v.grants_proper

/-- Addresses tell apart all schemas of a document, as far as members can be counted. -/
theorem SchemaModel.addressable_of_document {document : Value} {withOperations : Bool}
    {model : SchemaModel} (h : SchemaModel.ofDocument document withOperations = .ok model)
    (hcounted : ∀ d ∈ model.definitions.entries, ∀ node, Node.Below d.root node → node.Counted) :
    model.definitions.Addressable := by
  intro d hd node hb
  obtain ⟨v, -, hroot⟩ := root_of_document h hd
  have hproper := Node.properBelow_ofValue v
  rw [← hroot] at hproper
  exact Node.distinct_of_proper (hproper node hb) (hcounted d hd node hb)

end SwaggerTypes
