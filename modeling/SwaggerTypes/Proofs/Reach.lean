import SwaggerTypes.Proofs.Names
import SwaggerTypes.Proofs.Slots
/-!
# What reached calls have in common

However far a run has come, the references it may still meet are those it was started with and those
of the definitions; no declaration has been begun twice; and where it gets stuck, the fault is one of
resolution or of the document, never that of a budget.
-/

namespace SwaggerTypes

/-! ## References that a task may meet -/

def PlacedParameter.references (list : List PlacedParameter) : List String :=
  list.flatMap fun placed => placed.parameter.schema.references

def SchemaModel.operationReferences (model : SchemaModel) (op : Operation) : List String :=
  match model.effectiveParameters op with
  | .ok list => PlacedParameter.references (PlacedParameter.ofQuery list)
  | .error _ => []

theorem SchemaModel.operationReferences_of_ok {model : SchemaModel} {op : Operation}
    {list : List PlacedParameter} (effective : model.effectiveParameters op = .ok list) :
    model.operationReferences op =
      PlacedParameter.references (PlacedParameter.ofQuery list) := by
  rw [operationReferences, effective]

def Task.references (model : SchemaModel) : Task → List String
  | .schema node => node.references
  | .object _ ps additional => Node.propertyReferences ps ++ Node.additionalReferences additional
  | .properties _ ps => Node.propertyReferences ps
  | .others additional => Node.additionalReferences additional
  | .members _ _ _ _ ms => Node.memberReferences ms
  | .member _ _ _ node => node.references
  | .reference pointer => [pointer]
  | .definition _ | .definitions _ | .build false => []
  | .parameters list => PlacedParameter.references list
  | .operations ops => ops.flatMap model.operationReferences
  | .build true => (model.operations.getD []).flatMap model.operationReferences

namespace Setting

variable {s : Setting} {model : SchemaModel} {c d : Call} {log : List Begun}

/-- A call meets no references but those of its caller and of the definitions. -/
theorem Calls.references (h : s.Calls model c log d) :
    d.task.references model ⊆ c.task.references model ++ s.definitions.references := by
  intro r hr
  rw [List.mem_append]
  cases h with
  | deepReference resolved => exact .inr (DefinitionTable.target_references resolved hr)
  | newDefinition _ entry =>
      exact .inr (DefinitionTable.mem_references (List.mem_of_getElem? entry) hr)
  | rootReference | firstDefinition | restDefinitions | build => cases hr
  | operation effective =>
      refine .inl (List.mem_append_left _ ?_)
      rw [SchemaModel.operationReferences_of_ok effective]
      exact hr
  | afterPlainOperation | afterOperation => exact .inl (List.mem_append_right _ hr)
  | query paths =>
      refine .inl ?_
      rw [Task.references, paths]
      exact hr
  | objectProperties | firstProperty | firstMember | firstParameter =>
      exact .inl (List.mem_append_left _ hr)
  | objectOthers | restProperties | restMembers | restParameters =>
      exact .inl (List.mem_append_right _ hr)
  | array | objectSchema | referenceSchema | composite | typed | liftedMember | objectMember
  | plainMember => exact .inl hr

theorem Reaches.references (h : s.Reaches model c log d) :
    d.task.references model ⊆ c.task.references model ++ s.definitions.references := by
  induction h with
  | refl => exact List.subset_append_left _ _
  | tail _ call ih =>
      intro r hr
      rcases List.mem_append.mp (call.references hr) with hr | hr
      · exact ih hr
      · exact List.mem_append_right _ hr

end Setting

/-! ## Declarations begun on the way -/

/-- What the way to a call does to the slots: the declarations in `log` were pending, are begun
afterwards, and none is begun twice. -/
structure Progress.Begins (st : Progress) (log : List Begun) (st' : Progress) : Prop where
  kept : ∀ {i : Nat}, st'.slots[i]? = some .pending → st.slots[i]? = some .pending
  pending : ∀ i ∈ log.map Begun.index, st.slots[i]? = some .pending
  begun : ∀ i ∈ log.map Begun.index, st'.slots[i]? ≠ some .pending
  nodup : (log.map Begun.index).Nodup

namespace Progress

theorem Begins.nil (st : Progress) : st.Begins [] st := ⟨id, by simp, by simp, List.nodup_nil⟩

theorem Begins.append {st st₁ st₂ : Progress} {log₁ log₂ : List Begun} (h₁ : st.Begins log₁ st₁)
    (h₂ : st₁.Begins log₂ st₂) : st.Begins (log₁ ++ log₂) st₂ where
  kept := fun h => h₁.kept (h₂.kept h)
  pending := by
    intro i hi
    rw [List.map_append, List.mem_append] at hi
    exact hi.elim (h₁.pending i) fun hi => h₁.kept (h₂.pending i hi)
  begun := by
    intro i hi
    rw [List.map_append, List.mem_append] at hi
    exact hi.elim (fun hi h => h₁.begun i hi (h₂.kept h)) (h₂.begun i)
  nodup := by
    rw [List.map_append, List.nodup_append]
    refine ⟨h₁.nodup, h₂.nodup, ?_⟩
    rintro i hi _ hj rfl
    exact h₁.begun i hi (h₂.pending i hj)

theorem Finishes.begins {st st' : Progress} {log : List Begun} (h : st.Finishes log st') :
    st.Begins log st' where
  kept := fun hp => (h.advances.of_not_done (not_isDone_of_eq hp (by simp))).symm.trans hp
  pending := h.pending
  begun := fun i hi hp => not_isDone_of_eq hp (by simp) ((h.done_iff i).mpr (.inr hi))
  nodup := h.nodup

theorem Begins.takeName {st st' : Progress} {log : List Begun} {base pointer : String}
    (h : st.Begins log st') : st.Begins log (st'.takeName base pointer) :=
  ⟨h.kept, h.pending, h.begun, h.nodup⟩

theorem Begins.setSlot {st : Progress} {b : Begun} (h : st.slots[b.index]? = some .pending) :
    st.Begins [b] (st.setSlot b.index .inProgress) := by
  have hself := slots_setSlot_self .inProgress (List.getElem?_eq_some_iff.mp h).1
  refine ⟨?_, by simpa using h, ?_, by simp⟩
  · intro i hi
    by_cases hb : b.index = i
    · exact hb ▸ h
    · rwa [slots_setSlot_ne _ hb] at hi
  · simp only [List.map_singleton, List.mem_singleton]
    rintro _ rfl
    rw [hself]
    simp

end Progress

namespace Setting

variable {s : Setting} {model : SchemaModel} {c d : Call} {log : List Begun}

theorem Calls.begins (h : s.Calls model c log d) (ho : s.Orderly c.place.chain c.progress) :
    c.progress.Begins log d.progress ∧ s.Orderly d.place.chain d.progress := by
  cases h with
  -- calls after an answer: the run that gave it has kept the slots in order
  | objectOthers first | restProperties first | restMembers first | restDefinitions first
  | restParameters first | query _ first =>
      have hf := first.finishes ho
      exact ⟨hf.begins, ho.advance hf.advances⟩
  | afterOperation _ _ first =>
      have hf := first.finishes ho
      exact ⟨hf.begins.takeName, (ho.advance hf.advances).takeName⟩
  | deepReference _ _ entered => exact ⟨.nil _, ho.enter entered⟩
  | newDefinition unfinished entry entered =>
      have hp := ho.pending entry unfinished (Chain.enter_entered entered).1
      exact ⟨.setSlot hp, ho.openDefinition entry entered⟩
  | _ => exact ⟨.nil _, ho⟩

/-- On the way to a call no declaration is begun twice. -/
theorem Reaches.begins (h : s.Reaches model c log d) (ho : s.Orderly c.place.chain c.progress) :
    c.progress.Begins log d.progress ∧ s.Orderly d.place.chain d.progress := by
  induction h with
  | refl => exact ⟨.nil _, ho⟩
  | tail _ call ih =>
      have hd := call.begins ih.2
      exact ⟨ih.1.append hd.1, hd.2⟩

end Setting

/-! ## Faults -/

theorem ParameterSlot.follow_error {table : Entries ParameterSlot} {visited : List String}
    {slot : ParameterSlot} {fault : Fault} (h : slot.follow table visited = .error fault) :
    fault.IsResolution := by
  fun_induction ParameterSlot.follow table visited slot with
  | case1 => cases h
  | case2 visited pointer cause hparse =>
      cases h
      exact DefinitionTable.parsePointer_error hparse
  | case3 | case4 =>
      cases h
      exact ⟨_, _, rfl⟩
  | case5 visited pointer segments hparse canonical hnew next hnext ih => exact ih h

theorem foldlM_error {ε α β : Type} {f : β → α → Except ε β} {P : ε → Prop}
    (hf : ∀ b a e, f b a = .error e → P e) {l : List α} :
    ∀ {b : β} {e : ε}, l.foldlM f b = .error e → P e := by
  induction l with
  | nil => exact fun h => nomatch h
  | cons a rest ih =>
      intro b e h
      rw [List.foldlM_cons] at h
      rcases bind_eq_error.mp h with hstep | ⟨b', -, hrest⟩
      · exact hf b a e hstep
      · exact ih hrest

def Fault.OfDocument (fault : Fault) : Prop :=
  fault.IsResolution ∨ ∃ cause, fault = .malformed cause

namespace SchemaModel

variable {model : SchemaModel}

theorem parameterList_error {owner : String} {slots : List ParameterSlot} {fault : Fault}
    (h : model.parameterList owner slots = .error fault) : fault.OfDocument := by
  refine foldlM_error (fun list entry fault h => ?_) h
  obtain ⟨slot, index⟩ := entry
  rcases bind_eq_error.mp h with hresolve | ⟨parameter, -, hrest⟩
  · exact .inl (ParameterSlot.follow_error hresolve)
  · cases hoccurs : PlacedParameter.occurs list parameter with
    | true =>
        simp only [hoccurs] at hrest
        cases hrest
        exact .inr ⟨_, rfl⟩
    | false =>
        simp only [hoccurs] at hrest
        cases hrest

theorem effectiveParameters_error {op : Operation} {fault : Fault}
    (h : model.effectiveParameters op = .error fault) : fault.OfDocument := by
  rcases bind_eq_error.mp h with hshared | ⟨shared, -, hrest⟩
  · exact parameterList_error hshared
  · rcases bind_eq_error.mp hrest with hown | ⟨own, -, hpure⟩
    · exact parameterList_error hown
    · cases hpure

end SchemaModel

/-- A run gets stuck at the document only. -/
theorem Setting.Stuck.ofDocument {s : Setting} {model : SchemaModel} {c : Call} {fault : Fault}
    (h : s.Stuck model c fault) : fault.OfDocument := by
  cases h with
  | dangling failed => exact .inl (DefinitionTable.resolve_error failed)
  | parameters failed => exact SchemaModel.effectiveParameters_error failed
  | noPaths => exact .inr ⟨_, rfl⟩

/-! ## The start of a build -/

namespace SchemaModel

variable (model : SchemaModel)

theorem start_slots : model.start.slots = model.definitions.entries.map fun _ => .pending :=
  (named_takeNames model.definitions.entries).slots

theorem start_pending {i : Nat} {slot : Slot} (h : model.start.slots[i]? = some slot) :
    slot = .pending := by
  rw [start_slots, List.getElem?_map, Option.map_eq_some_iff] at h
  obtain ⟨_, -, rfl⟩ := h
  rfl

theorem start_orderly (sorted : Bool) :
    (model.setting sorted).Orderly ({} : Place).chain model.start where
  length := by simp [start_slots, setting]
  opened := by
    intro i d hi
    cases model.start_pending hi

end SchemaModel

end SwaggerTypes
