import SwaggerTypes.Synthesis.Merging
/-!
# Operands put together

The type of an intersection is that of a list of types: those of the operands, with the merged
object in the place of the first object. No type is put in from elsewhere, and none is lost but the
merged object where it says nothing.
-/

namespace SwaggerTypes

/-- The intersection of types; of none it is the type of all values. -/
def TypeExpr.intersectionOf : List TypeExpr → TypeExpr
  | [] => .any
  | [one] => one
  | members => .intersection members

namespace Operand

def merged (sorted : Bool) (os : List Operand) : List TypeExpr :=
  match mergedObject? os with
  | none => []
  | some o => if o.isEmpty && !(os.filterMap type?).isEmpty then [] else [.object (o.arrange sorted)]

theorem intersection_eq (sorted : Bool) (os : List Operand) :
    intersection sorted os = .intersectionOf (place (merged sorted os) os) := rfl

theorem mem_filterMap_type? {t : TypeExpr} {os : List Operand} :
    t ∈ os.filterMap type? ↔ .type t ∈ os := by
  rw [List.mem_filterMap]
  constructor
  · rintro ⟨o, ho, hot⟩
    cases o with
    | object => cases hot
    | type u =>
        cases hot
        exact ho
  · exact fun h => ⟨_, h, rfl⟩

theorem mem_filterMap_object? {o : ObjectType TypeExpr} {os : List Operand} :
    o ∈ os.filterMap object? ↔ .object o ∈ os := by
  rw [List.mem_filterMap]
  constructor
  · rintro ⟨u, hu, huo⟩
    cases u with
    | type => cases huo
    | object =>
        cases huo
        exact hu
  · exact fun h => ⟨_, h, rfl⟩

theorem mem_of_mem_place {t : TypeExpr} {merged : List TypeExpr} {os : List Operand}
    (h : t ∈ place merged os) : t ∈ merged ∨ .type t ∈ os := by
  induction os with
  | nil => cases h
  | cons o os ih =>
      cases o with
      | type u =>
          rcases List.mem_cons.mp h with rfl | h
          · exact .inr List.mem_cons_self
          · exact (ih h).imp_right (List.mem_cons_of_mem _)
      | object o =>
          rcases List.mem_append.mp h with h | h
          · exact .inl h
          · exact .inr (List.mem_cons_of_mem _ (mem_filterMap_type?.mp h))

theorem place_append {merged : List TypeExpr} {os os' : List Operand} {o : ObjectType TypeExpr}
    (h : os.filterMap object? = []) :
    place merged (os ++ .object o :: os') = os.filterMap type? ++ merged ++ os'.filterMap type? := by
  induction os with
  | nil => rfl
  | cons a os ih =>
      cases a with
      | type t => exact congrArg _ (ih h)
      | object a => cases h

theorem mem_merged {t : TypeExpr} {sorted : Bool} {os : List Operand} (h : t ∈ merged sorted os) :
    ∃ o, mergedObject? os = some o ∧ t = .object (o.arrange sorted) := by
  unfold merged at h
  cases ho : mergedObject? os with
  | none =>
      rw [ho] at h
      cases h
  | some o =>
      rw [ho] at h
      simp only at h
      split at h
      · cases h
      · exact ⟨o, rfl, List.mem_singleton.mp h⟩

end Operand

end SwaggerTypes
