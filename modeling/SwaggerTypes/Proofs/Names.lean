import Mathlib.Data.List.Induction
import SwaggerTypes.Synthesis.Build
/-!
# Names of declarations

A name that is taken is never given again, and the definitions have pairwise different names: taking
a name leaves the ones before as they are and adds a new one.
-/

namespace SwaggerTypes

/-- The numbered names are one more than the taken ones, so one of them is free. -/
theorem exists_numbered_not_mem (taken : List String) (base : String) :
    ∃ name ∈ (List.range' 2 (taken.length + 1)).map fun n => base ++ toString n, name ∉ taken := by
  have hread (n : Nat) : Nat.ofDigitChars 10 (toString n).toList 0 = n := by
    simp [Nat.repr]
  have hnodup : ((List.range' 2 (taken.length + 1)).map fun n => base ++ toString n).Nodup := by
    refine List.Pairwise.map _ (fun m n hmn h => hmn ?_) List.nodup_range'
    rw [String.append_right_inj] at h
    rw [← hread m, h, hread n]
  by_contra hnone
  have hsub : ((List.range' 2 (taken.length + 1)).map fun n => base ++ toString n) ⊆ taken :=
    fun name hname => by_contra fun hfree => hnone ⟨name, hname, hfree⟩
  have hlen := hnodup.length_le_of_subset hsub
  simp only [List.length_map, List.length_range'] at hlen
  omega

theorem freshName_not_mem (taken : List String) (base : String) :
    freshName taken base ∉ taken := by
  obtain ⟨name, hname, hfree⟩ := exists_numbered_not_mem taken base
  have hsome : (((List.range' 2 (taken.length + 1)).map fun n => base ++ toString n).find?
      (· ∉ taken)).isSome := List.find?_isSome.mpr ⟨name, hname, decide_eq_true hfree⟩
  obtain ⟨first, hfirst⟩ := Option.isSome_iff_exists.mp hsome
  have hfresh : freshName taken base = first := by
    simp only [freshName, hfirst, Option.getD_some]
  rw [hfresh]
  simpa using List.find?_some hfirst

/-- The name that is given has not been taken. -/
theorem nextName_not_mem (taken : List String) (base pointer : String) :
    (nextName taken base pointer).1 ∉ taken := by
  unfold nextName
  split
  · exact freshName_not_mem taken base
  · assumption

/-- The warning about another name tells where the base name came from. -/
theorem nextName_warning {taken : List String} {base pointer : String} {w : Warning}
    (h : (nextName taken base pointer).2 = some w) :
    w.kind = .duplicateName ∧ w.pointer = pointer := by
  unfold nextName at h
  split at h
  · cases h
    exact ⟨rfl, rfl⟩
  · cases h

namespace SchemaModel

theorem takeNames_concat (ds : List Definition) (d : Definition) :
    takeNames (ds ++ [d]) =
      let next := nextName (takeNames ds).2.taken (Text.sanitize d.name) d.pointer
      ((takeNames ds).1 ++ [next.1],
        { slots := (takeNames ds).2.slots ++ [.pending]
          taken := next.1 :: (takeNames ds).2.taken
          warnings := (takeNames ds).2.warnings ++ next.2.toList }) := by
  simp only [takeNames, List.foldl_append, List.foldl_cons, List.foldl_nil]

theorem takeNames_warnings {definitions : List Definition} {w : Warning}
    (h : w ∈ (takeNames definitions).2.warnings) :
    w.kind = .duplicateName ∧ ∃ d ∈ definitions, w.pointer = d.pointer := by
  induction definitions using List.reverseRecOn with
  | nil => cases h
  | append_singleton ds d ih =>
      rw [takeNames_concat] at h
      rcases List.mem_append.mp h with h | h
      · obtain ⟨hkind, e, he, hpointer⟩ := ih h
        exact ⟨hkind, e, List.mem_append_left _ he, hpointer⟩
      · obtain ⟨hkind, hpointer⟩ := nextName_warning (Option.mem_toList.mp h)
        exact ⟨hkind, d, by simp, hpointer⟩

/-- What taking names for definitions leaves: as many different names and pending slots. -/
structure Named (definitions : List Definition) (names : List String) (start : Progress) : Prop
    where
  length : names.length = definitions.length
  nodup : names.Nodup
  taken : start.taken = names.reverse
  slots : start.slots = definitions.map fun _ => .pending

theorem named_takeNames (definitions : List Definition) :
    Named definitions (takeNames definitions).1 (takeNames definitions).2 := by
  induction definitions using List.reverseRecOn with
  | nil => exact ⟨rfl, List.nodup_nil, rfl, rfl⟩
  | append_singleton ds d ih =>
      rw [takeNames_concat]
      have hnew := nextName_not_mem (takeNames ds).2.taken (Text.sanitize d.name) d.pointer
      refine ⟨?_, ?_, ?_, ?_⟩
      · simp [ih.length]
      · rw [ih.taken, List.mem_reverse] at hnew
        rw [ih.taken]
        refine List.nodup_append.mpr ⟨ih.nodup, by simp, ?_⟩
        rintro a ha _ hb rfl
        rw [List.mem_singleton] at hb
        exact hnew (hb ▸ ha)
      · simp [ih.taken]
      · simp [ih.slots]

end SchemaModel

end SwaggerTypes
