import SwaggerTypes.Model
import SwaggerTypes.Resolution.Target
/-!
The parameter a slot stands for, found by following references through the table of reusable
parameters. Each step visits a new key of the table, so the way ends.
-/
namespace SwaggerTypes

/-- Dropping one more element leaves a shorter list. -/
theorem length_filter_not_mem_cons_lt {keys visited : List String} {key : String}
    (hk : key ∈ keys) (hv : key ∉ visited) :
    (keys.filter (· ∉ key :: visited)).length < (keys.filter (· ∉ visited)).length := by
  have sub : (keys.filter (· ∉ key :: visited)) = (keys.filter (· ∉ visited)).filter (· ≠ key) := by
    rw [List.filter_filter]
    congr 1
    funext k
    by_cases h : k = key <;> simp [h]
  rw [sub]
  exact List.length_filter_lt_length_iff_exists.2
    ⟨key, List.mem_filter.2 ⟨hk, by simpa using hv⟩, by simp⟩

theorem Entries.mem_keys_of_get? {α : Type} {key : String} {map : Entries α} {a : α}
    (h : map.get? key = some a) : key ∈ map.keys := by
  induction map with
  | nil => simp [get?] at h
  | cons e rest ih =>
    obtain ⟨k, v⟩ := e
    by_cases hk : key = k
    · simp [keys, hk]
    · have hb : (key == k) = false := by simpa using hk
      simp only [get?, List.lookup_cons, hb] at h
      have := ih h
      simp only [keys, List.map_cons, List.mem_cons]
      exact .inr this

/-- Follows references from a slot. The canonical pointers followed so far are `visited`. -/
def ParameterSlot.follow (table : Entries ParameterSlot) (visited : List String)
    (slot : ParameterSlot) : Outcome Parameter :=
  match slot with
  | .inline parameter => .ok parameter
  | .reference pointer =>
    match parsePointer pointer with
    | .error fault => .error fault
    | .ok segments =>
      let canonical := Pointer.render segments
      if _hv : canonical ∈ visited then .error (.resolution pointer .parameterLoop)
      else match _ht : table.get? canonical with
        | none => .error (.resolution pointer .noParameter)
        | some next => next.follow table (canonical :: visited)
termination_by (table.keys.filter (· ∉ visited)).length
decreasing_by exact length_filter_not_mem_cons_lt (Entries.mem_keys_of_get? _ht) _hv

def SchemaModel.resolveParameter (model : SchemaModel) (slot : ParameterSlot) :
    Outcome Parameter :=
  slot.follow model.parameters []

end SwaggerTypes
