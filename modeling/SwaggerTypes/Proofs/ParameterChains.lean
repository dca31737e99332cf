import Mathlib.Data.List.Nodup
import SwaggerTypes.Proofs.ReferenceHops
/-!
# Chains of parameter references

A reusable parameter may stand for another one, and so on. Here the references are followed as far
as one likes, without a list of what was passed: a chain is a way through the table of reusable
parameters, with the canonical pointers under which it goes on. Resolution answers with the
parameter that a chain ends at, finds a loop exactly when a chain comes back to a pointer, and
otherwise names the one that leads no further. It never passes more pointers than the table has.
-/

namespace SwaggerTypes

namespace ParameterSlot

variable {table : Entries ParameterSlot} {slot next last : ParameterSlot} {key : String}
  {keys : List String}

/-! ## Chains -/

/-- A slot stands for another one: its reference has a canonical pointer under which the table has
that one. -/
inductive Refers (table : Entries ParameterSlot) : ParameterSlot → String → ParameterSlot → Prop
  | step {pointer : String} {segments : List String} {next : ParameterSlot}
      (hparse : Pointer.parse pointer = .ok segments)
      (hnext : table.get? (Pointer.render segments) = some next) :
      Refers table (.reference pointer) (Pointer.render segments) next

inductive Passes (table : Entries ParameterSlot) :
    ParameterSlot → List String → ParameterSlot → Prop
  | refl {slot : ParameterSlot} : Passes table slot [] slot
  | head {slot next last : ParameterSlot} {key : String} {keys : List String}
      (h : Refers table slot key next) (hs : Passes table next keys last) :
      Passes table slot (key :: keys) last

def Stops (table : Entries ParameterSlot) (slot : ParameterSlot) : Prop :=
  ∀ key next, ¬ Refers table slot key next

theorem stops_inline (table : Entries ParameterSlot) (parameter : Parameter) :
    Stops table (.inline parameter) := nofun

theorem stops_of_parse {pointer : String} {cause : Pointer.Fault}
    (h : Pointer.parse pointer = .error cause) : Stops table (.reference pointer) := by
  rintro _ _ ⟨hparse, -⟩
  cases h.symm.trans hparse

theorem stops_of_get? {pointer : String} {segments : List String}
    (hparse : Pointer.parse pointer = .ok segments)
    (hnone : table.get? (Pointer.render segments) = none) : Stops table (.reference pointer) := by
  rintro _ _ ⟨hparse', hnext⟩
  cases hparse.symm.trans hparse'
  cases hnone.symm.trans hnext

theorem Refers.get? (h : Refers table slot key next) : table.get? key = some next := by
  cases h with
  | step _ hnext => exact hnext

theorem Refers.unique {key' : String} {next' : ParameterSlot} (h : Refers table slot key next)
    (h' : Refers table slot key' next') : key = key' ∧ next = next' := by
  obtain ⟨hparse, hnext⟩ := h
  obtain ⟨hparse', hnext'⟩ := h'
  cases hparse.symm.trans hparse'
  cases hnext.symm.trans hnext'
  exact ⟨rfl, rfl⟩

namespace Passes

theorem snoc {other : ParameterSlot} (h : Passes table slot keys last)
    (hr : Refers table last key other) : Passes table slot (keys ++ [key]) other := by
  induction h with
  | refl => exact .head hr .refl
  | head hfirst _ ih => exact .head hfirst (ih hr)

theorem split {before after : List String} (h : Passes table slot (before ++ key :: after) last) :
    ∃ found, table.get? key = some found ∧ Passes table found after last := by
  induction before generalizing slot with
  | nil =>
      cases h with
      | head hfirst hrest => exact ⟨_, hfirst.get?, hrest⟩
  | cons first before ih =>
      cases h with
      | head _ hrest => exact ih hrest

/-- Every chain is the beginning of one that stops. -/
theorem before_stop {other : ParameterSlot} {whole : List String}
    (h : Passes table slot keys last) (hwhole : Passes table slot whole other)
    (hstop : Stops table other) : ∃ more, whole = keys ++ more ∧ Passes table last more other := by
  induction h generalizing whole with
  | refl => exact ⟨whole, rfl, hwhole⟩
  | head hfirst _ ih =>
      cases hwhole with
      | refl => exact absurd hfirst (hstop _ _)
      | head hfirst' hrest =>
          obtain ⟨rfl, rfl⟩ := hfirst.unique hfirst'
          obtain ⟨more, rfl, hmore⟩ := ih hrest
          exact ⟨more, rfl, hmore⟩

/-- A chain that stops comes back to no pointer: from there it would go on in the same way. -/
theorem nodup_of_stops (h : Passes table slot keys last) (hstop : Stops table last) :
    keys.Nodup := by
  induction h with
  | refl => exact List.nodup_nil
  | head hfirst hrest ih =>
      refine List.nodup_cons.mpr ⟨fun hmem => ?_, ih hstop⟩
      obtain ⟨before, after, rfl⟩ := List.append_of_mem hmem
      obtain ⟨found, hfound, hafter⟩ := hrest.split
      cases hfound.symm.trans hfirst.get?
      obtain ⟨more, hwhole, -⟩ := hrest.before_stop hafter hstop
      have hlength := congrArg List.length hwhole
      simp only [List.length_append, List.length_cons] at hlength
      omega

theorem get?_of_mem (h : Passes table slot keys last) (hkey : key ∈ keys) :
    ∃ found, table.get? key = some found := by
  obtain ⟨before, after, rfl⟩ := List.append_of_mem hkey
  obtain ⟨found, hfound, -⟩ := h.split
  exact ⟨found, hfound⟩

theorem length_le (h : Passes table slot keys last) (hnodup : keys.Nodup) :
    keys.length ≤ table.length := by
  have hsubset : keys ⊆ table.keys := fun key hkey => by
    obtain ⟨found, hfound⟩ := h.get?_of_mem hkey
    exact Entries.mem_keys_of_get? hfound
  have hlength := hnodup.length_le_of_subset hsubset
  rwa [Entries.keys, List.length_map] at hlength

end Passes

/-! ## Resolution -/

/-- What resolution makes of a slot behind the pointers that it has passed, if it goes no further.
-/
inductive Settles (table : Entries ParameterSlot) (visited : List String) :
    ParameterSlot → Outcome Parameter → Prop
  | found (parameter : Parameter) : Settles table visited (.inline parameter) (.ok parameter)
  | unreadable {pointer : String} {cause : Pointer.Fault}
      (hparse : Pointer.parse pointer = .error cause) :
      Settles table visited (.reference pointer) (.error (.resolution pointer (.pointer cause)))
  | back {pointer : String} {segments : List String}
      (hparse : Pointer.parse pointer = .ok segments) (hback : Pointer.render segments ∈ visited) :
      Settles table visited (.reference pointer) (.error (.resolution pointer .parameterLoop))
  | missing {pointer : String} {segments : List String}
      (hparse : Pointer.parse pointer = .ok segments) (hnew : Pointer.render segments ∉ visited)
      (hnone : table.get? (Pointer.render segments) = none) :
      Settles table visited (.reference pointer) (.error (.resolution pointer .noParameter))

variable {visited : List String} {outcome : Outcome Parameter}

/-- It matters only which pointers were passed. -/
theorem Settles.of_perm {visited' : List String} (h : Settles table visited slot outcome)
    (hperm : visited.Perm visited') : Settles table visited' slot outcome := by
  cases h with
  | found parameter => exact .found parameter
  | unreadable hparse => exact .unreadable hparse
  | back hparse hback => exact .back hparse (hperm.mem_iff.mp hback)
  | missing hparse hnew hnone =>
      exact .missing hparse (fun hback => hnew (hperm.mem_iff.mpr hback)) hnone

theorem Settles.follow_eq (h : Settles table visited slot outcome) :
    slot.follow table visited = outcome := by
  cases h with
  | found => rw [follow]
  | unreadable hparse =>
      rw [follow, parsePointer, hparse]
      rfl
  | back hparse hback =>
      rw [follow, DefinitionTable.parsePointer_eq_ok.mpr hparse]
      exact dif_pos hback
  | missing hparse hnew hnone =>
      rw [follow, DefinitionTable.parsePointer_eq_ok.mpr hparse]
      simp only [hnew, dite_false]
      split
      · rfl
      · next hsome => cases hnone.symm.trans hsome

theorem Refers.follow_eq (h : Refers table slot key next) (hnew : key ∉ visited) :
    slot.follow table visited = next.follow table (key :: visited) := by
  cases h with
  | step hparse hnext =>
      rw [follow, DefinitionTable.parsePointer_eq_ok.mpr hparse]
      simp only [hnew, dite_false]
      split
      · next hnone => cases hnone.symm.trans hnext
      · next hsome =>
        cases hsome.symm.trans hnext
        rfl

theorem Passes.follow_eq (h : Passes table slot keys last) (hnodup : keys.Nodup)
    (hnew : ∀ key ∈ keys, key ∉ visited) :
    slot.follow table visited = last.follow table (keys.reverse ++ visited) := by
  induction h generalizing visited with
  | refl => rfl
  | head hfirst _ ih =>
      obtain ⟨hkey, hrest⟩ := List.nodup_cons.mp hnodup
      obtain ⟨hfresh, hnew⟩ := List.forall_mem_cons.mp hnew
      rw [hfirst.follow_eq hfresh, ih hrest fun k hk => ?_, List.reverse_cons, List.append_assoc,
        List.singleton_append]
      rw [List.mem_cons, not_or]
      exact ⟨ne_of_mem_of_not_mem hk hkey, hnew k hk⟩

/-- Some chain that comes back to nothing is followed, up to where resolution settles. -/
theorem exists_settles (table : Entries ParameterSlot) (visited : List String)
    (slot : ParameterSlot) :
    ∃ keys last, Passes table slot keys last ∧ keys.Nodup ∧ (∀ key ∈ keys, key ∉ visited) ∧
      Settles table (keys ++ visited) last (slot.follow table visited) := by
  have hempty {visited : List String} : ∀ key ∈ ([] : List String), key ∉ visited :=
    fun _ hkey => absurd hkey List.not_mem_nil
  fun_induction follow table visited slot with
  | case1 visited parameter => exact ⟨[], _, .refl, List.nodup_nil, hempty, .found parameter⟩
  | case2 visited pointer fault hparse =>
      refine ⟨[], _, .refl, List.nodup_nil, hempty, ?_⟩
      cases hread : Pointer.parse pointer with
      | error cause =>
          rw [parsePointer, hread] at hparse
          cases hparse
          exact .unreadable hread
      | ok segments => cases (DefinitionTable.parsePointer_eq_ok.mpr hread).symm.trans hparse
  | case3 visited pointer segments hparse canonical hback =>
      exact ⟨[], _, .refl, List.nodup_nil, hempty,
        .back (DefinitionTable.parsePointer_eq_ok.mp hparse) hback⟩
  | case4 visited pointer segments hparse canonical hnew hnone =>
      exact ⟨[], _, .refl, List.nodup_nil, hempty,
        .missing (DefinitionTable.parsePointer_eq_ok.mp hparse) hnew hnone⟩
  | case5 visited pointer segments hparse canonical hnew next hnext ih =>
      obtain ⟨keys, last, hchain, hnodup, hfresh, hsettles⟩ := ih
      have hrefers : Refers table (.reference pointer) canonical next :=
        .step (DefinitionTable.parsePointer_eq_ok.mp hparse) hnext
      have hkey : canonical ∉ keys := fun hmem => hfresh _ hmem List.mem_cons_self
      refine ⟨canonical :: keys, last, .head hrefers hchain, List.nodup_cons.mpr ⟨hkey, hnodup⟩,
        List.forall_mem_cons.mpr ⟨hnew, fun k hk => ?_⟩, hsettles.of_perm List.perm_middle⟩
      exact fun hmem => hfresh k hk (List.mem_cons_of_mem _ hmem)

/-- A chain that stops is followed to its end. -/
theorem Passes.follow_of_stops (h : Passes table slot keys last) (hstop : Stops table last)
    (hsettles : Settles table keys last outcome) : slot.follow table [] = outcome := by
  rw [h.follow_eq (h.nodup_of_stops hstop) fun _ _ => List.not_mem_nil, List.append_nil]
  exact (hsettles.of_perm (List.reverse_perm keys).symm).follow_eq

/-- A chain that comes back to a pointer ends in a loop. -/
theorem Passes.follow_of_not_nodup (h : Passes table slot keys last) (hrepeats : ¬ keys.Nodup) :
    ∃ pointer, slot.follow table [] = .error (.resolution pointer .parameterLoop) := by
  obtain ⟨passed, stop, hchain, -, -, hsettles⟩ := exists_settles table [] slot
  -- where resolution settles for any other reason, the chain is the beginning of one that stops
  have hends : ¬ Stops table stop := fun hstop => by
    obtain ⟨more, rfl, -⟩ := h.before_stop hchain hstop
    exact hrepeats (List.Nodup.of_append_left (hchain.nodup_of_stops hstop))
  generalize slot.follow table [] = outcome at hsettles
  cases hsettles with
  | found parameter => exact absurd (stops_inline table parameter) hends
  | unreadable hparse => exact absurd (stops_of_parse hparse) hends
  | missing hparse _ hnone => exact absurd (stops_of_get? hparse hnone) hends
  | @back pointer => exact ⟨pointer, rfl⟩

/-- Resolution of a parameter follows a chain that comes back to no pointer, has no more pointers
than the table, and ends where there is nothing to follow. It answers with a parameter exactly when
a chain leads to it, and reports a loop exactly when a chain comes back to a pointer. Else it names
the pointer at the end of the chain, which cannot be read or is not one of the table. -/
theorem resolveParameter_follows_chain (model : SchemaModel) (slot : ParameterSlot) :
    (∃ keys last, Passes model.parameters slot keys last ∧ keys.Nodup ∧
      keys.length ≤ model.parameters.length ∧
      Settles model.parameters keys last (model.resolveParameter slot)) ∧
    (∀ parameter, model.resolveParameter slot = .ok parameter ↔
      ∃ keys, Passes model.parameters slot keys (.inline parameter)) ∧
    ((∃ pointer, model.resolveParameter slot = .error (.resolution pointer .parameterLoop)) ↔
      ∃ keys last, Passes model.parameters slot keys last ∧ ¬ keys.Nodup) ∧
    (∀ pointer cause, model.resolveParameter slot = .error (.resolution pointer (.pointer cause)) ↔
      ∃ keys, Passes model.parameters slot keys (.reference pointer) ∧
        Pointer.parse pointer = .error cause) ∧
    (∀ pointer, model.resolveParameter slot = .error (.resolution pointer .noParameter) ↔
      ∃ keys segments, Passes model.parameters slot keys (.reference pointer) ∧
        Pointer.parse pointer = .ok segments ∧
        model.parameters.get? (Pointer.render segments) = none) := by
  obtain ⟨keys, last, hchain, hnodup, -, hsettles⟩ :=
    exists_settles model.parameters [] slot
  rw [List.append_nil] at hsettles
  refine ⟨⟨keys, last, hchain, hnodup, hchain.length_le hnodup, hsettles⟩,
    fun parameter => ⟨fun h => ?_, ?_⟩, ⟨?_, ?_⟩, fun pointer cause => ⟨fun h => ?_, ?_⟩,
    fun pointer => ⟨fun h => ?_, ?_⟩⟩
  · rw [← SchemaModel.resolveParameter, h] at hsettles
    cases hsettles
    exact ⟨keys, hchain⟩
  · rintro ⟨keys, h⟩
    exact h.follow_of_stops (stops_inline _ parameter) (.found parameter)
  · rintro ⟨pointer, h⟩
    rw [← SchemaModel.resolveParameter, h] at hsettles
    cases hsettles with
    | back hparse hback =>
        obtain ⟨next, hnext⟩ := hchain.get?_of_mem hback
        refine ⟨_, next, hchain.snoc (.step hparse hnext), fun hnew => ?_⟩
        exact (List.nodup_append.mp hnew).2.2 _ hback _ List.mem_cons_self rfl
  · rintro ⟨keys, last, h, hrepeats⟩
    exact h.follow_of_not_nodup hrepeats
  · rw [← SchemaModel.resolveParameter, h] at hsettles
    cases hsettles with
    | unreadable hparse => exact ⟨keys, hchain, hparse⟩
  · rintro ⟨keys, h, hparse⟩
    exact h.follow_of_stops (stops_of_parse hparse) (.unreadable hparse)
  · rw [← SchemaModel.resolveParameter, h] at hsettles
    cases hsettles with
    | missing hparse _ hnone => exact ⟨keys, _, hchain, hparse, hnone⟩
  · rintro ⟨keys, segments, h, hparse, hnone⟩
    have hnew : Pointer.render segments ∉ keys := fun hmem => by
      obtain ⟨found, hfound⟩ := h.get?_of_mem hmem
      cases hnone.symm.trans hfound
    exact h.follow_of_stops (stops_of_get? hparse hnone) (.missing hparse hnew hnone)

end ParameterSlot

end SwaggerTypes
