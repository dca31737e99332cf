import SwaggerTypes.Proofs.Budget
import SwaggerTypes.Proofs.Reach
/-!
# Every build ends

A call either goes to a part of what is at hand or opens a pointer that is not open yet. The pointers
that can be open are finitely many, so the calls are well founded by the number of pointers still
closed and, between two openings, by the size of what is left. No budget enters the argument: the one
of the functions is never used up.
-/

namespace SwaggerTypes

namespace PlacedParameter

noncomputable def weight : List PlacedParameter → Nat
  | [] => 0
  | placed :: rest => sizeOf placed.parameter.schema + 1 + weight rest

end PlacedParameter

namespace SchemaModel

variable (model : SchemaModel)

noncomputable def operationWeight (op : Operation) : Nat :=
  match model.effectiveParameters op with
  | .ok list => PlacedParameter.weight (PlacedParameter.ofQuery list) + 1
  | .error _ => 0

noncomputable def operationsWeight : List Operation → Nat
  | [] => 0
  | op :: rest => model.operationWeight op + 1 + operationsWeight rest

/-- The pointers of definitions and of what references lead to: all that can ever be open. -/
def openable : List String :=
  model.definitions.entries.map Definition.pointer ++
    ((Task.build true).references model ++ model.definitions.references).filterMap fun r =>
      (model.definitions.resolve r).toOption.map Target.pointer

end SchemaModel

noncomputable def Task.weight (model : SchemaModel) : Task → Nat
  | .schema node => sizeOf node
  | .object _ ps additional => sizeOf ps + sizeOf additional + 1
  | .properties _ ps => sizeOf ps
  | .others additional => sizeOf additional
  | .members _ _ _ _ ms => sizeOf ms + 1
  | .member _ _ _ node => sizeOf node + 1
  | .reference _ => 1
  | .definition _ => 0
  | .definitions indices => indices.length + 1
  | .parameters list => PlacedParameter.weight list
  | .operations ops => model.operationsWeight ops
  | .build _ =>
    model.definitions.entries.length + model.operationsWeight (model.operations.getD []) + 2

/-- One call inside another: it goes to a part of the task and leaves the chain as it is, or it
opens a pointer that is not open yet. -/
inductive Call.Inside (model : SchemaModel) (d c : Call) : Prop
  | part (chain : d.place.chain = c.place.chain)
      (smaller : d.task.weight model < c.task.weight model)
  | opens (frame : Frame) (chain : d.place.chain = frame :: c.place.chain)
      (new : frame.pointer ∉ c.place.chain.pointers) (openable : frame.pointer ∈ model.openable)

namespace Setting

variable {s : Setting} {model : SchemaModel} {c d : Call} {log : List Begun}

/-- Calls stay inside: each one descends into what is at hand, or opens a new pointer. -/
theorem Calls.inside (h : s.Calls model c log d) (hs : s.definitions = model.definitions)
    (hr : c.task.references model ⊆
      (Task.build true).references model ++ model.definitions.references) :
    d.Inside model c := by
  cases h with
  | deepReference resolved _ entered =>
      obtain ⟨hnew, rfl⟩ := Chain.enter_entered entered
      refine .opens _ rfl hnew (List.mem_append_right _ ?_)
      rw [hs] at resolved
      exact List.mem_filterMap.mpr ⟨_, hr List.mem_cons_self, by rw [resolved]; rfl⟩
  | newDefinition _ entry entered =>
      obtain ⟨hnew, rfl⟩ := Chain.enter_entered entered
      rw [hs] at entry
      exact .opens _ rfl hnew
        (List.mem_append_left _ (List.mem_map_of_mem (List.mem_of_getElem? entry)))
  | operation effective | afterPlainOperation effective | afterOperation effective =>
      refine .part rfl ?_
      simp only [Task.weight, SchemaModel.operationsWeight, SchemaModel.operationWeight, effective]
      omega
  | build =>
      refine .part rfl ?_
      simp only [Task.weight, hs, List.length_range]
      omega
  | query paths =>
      refine .part rfl ?_
      simp only [Task.weight, paths, Option.getD_some]
      omega
  | array | objectSchema | referenceSchema | composite | liftedMember | objectMember =>
      refine .part rfl ?_
      simp only [Task.weight, Node.mk.sizeOf_spec, Kind.array.sizeOf_spec, Kind.object.sizeOf_spec,
        Kind.reference.sizeOf_spec, Kind.composite.sizeOf_spec]
      omega
  | objectProperties | objectOthers | firstProperty | restProperties | firstMember | restMembers
  | typed | plainMember =>
      refine .part rfl ?_
      simp only [Task.weight, List.cons.sizeOf_spec, Prod.mk.sizeOf_spec,
        Additional.typed.sizeOf_spec]
      omega
  | rootReference | firstDefinition | restDefinitions | firstParameter | restParameters =>
      refine .part rfl ?_
      simp only [Task.weight, PlacedParameter.weight, List.length_cons]
      omega

/-- A call that stays inside finitely many pointers: the references it may still meet lead there,
and its open pointers are pairwise distinct. -/
structure Bounded (s : Setting) (model : SchemaModel) (c : Call) : Prop where
  references : c.task.references model ⊆
    (Task.build true).references model ++ model.definitions.references
  within : c.place.chain.Within model.openable

theorem Calls.bounded (h : s.Calls model c log d) (hs : s.definitions = model.definitions)
    (hc : s.Bounded model c) : s.Bounded model d where
  references := by
    refine List.Subset.trans h.references (List.append_subset.mpr ⟨hc.references, ?_⟩)
    rw [hs]
    exact List.subset_append_right _ _
  within := by
    rcases h.inside hs hc.references with ⟨hchain, -⟩ | ⟨frame, hchain, hnew, hopen⟩
    · rw [hchain]
      exact hc.within
    · rw [hchain]
      exact ⟨List.nodup_cons.mpr ⟨hnew, hc.within.nodup⟩,
        List.cons_subset.mpr ⟨hopen, hc.within.subset⟩⟩

theorem Reaches.bounded (h : s.Reaches model c log d) (hs : s.definitions = model.definitions)
    (hc : s.Bounded model c) : s.Bounded model d := by
  induction h with
  | refl => exact hc
  | tail _ call ih => exact call.bounded hs ih

/-- From a bounded call no infinite sequence of calls starts. The induction is on the number of
pointers that are still closed, and for each on the weight of the task. -/
theorem Bounded.acc (hc : s.Bounded model c) (hs : s.definitions = model.definitions) :
    Acc (fun e d => ∃ log, s.Calls model d log e) c := by
  generalize hclosed : model.openable.length - c.place.chain.length = closed
  induction closed using Nat.strongRecOn generalizing c with
  | ind closed ihClosed =>
      generalize hweight : c.task.weight model = weight
      induction weight using Nat.strongRecOn generalizing c with
      | ind weight ihWeight =>
          refine ⟨c, ?_⟩
          rintro d ⟨log, hcall⟩
          have hd := hcall.bounded hs hc
          -- a part of the task weighs less; an opened pointer leaves fewer closed ones
          rcases hcall.inside hs hc.references with ⟨hchain, hsmaller⟩ | ⟨frame, hchain, -, -⟩
          · exact ihWeight _ (hweight ▸ hsmaller) hd (by rw [hchain, hclosed]) rfl
          · have hlen := hd.within.length_le
            rw [hchain, List.length_cons] at hlen
            refine ihClosed _ ?_ hd rfl
            rw [hchain, List.length_cons]
            omega

end Setting

namespace SchemaModel

variable (model : SchemaModel) (sorted withQuery : Bool)

theorem buildCall_bounded :
    (model.setting sorted).Bounded model (model.buildCall withQuery) where
  references := by
    cases withQuery with
    | false => exact List.nil_subset _
    | true => exact List.subset_append_left _ _
  within := Chain.within_nil _

/-- Every build ends, with declarations or with a fault of the document. It never runs out of its
budget: from no call that it comes to does an infinite sequence of calls start, since the open
pointers are pairwise distinct and of finitely many, and each call descends into what is at hand or
opens one more. No definition is declared twice on the way. -/
theorem build_terminates :
    (match model.build sorted withQuery with
      | .ok b => ∃ log ds st,
          (model.setting sorted).Run model {} (.build withQuery) model.start log
            (.declarations ds) st ∧
            b = ⟨finished st.slots ++ ds, st.warnings⟩ ∧ (log.map Begun.index).Nodup
      | .error fault => fault ≠ .exhausted ∧ ∃ log c,
          (model.setting sorted).Reaches model (model.buildCall withQuery) log c ∧
            (model.setting sorted).Stuck model c fault) ∧
      ∀ log c, (model.setting sorted).Reaches model (model.buildCall withQuery) log c →
        Acc (fun e d => ∃ log, (model.setting sorted).Calls model d log e) c ∧
          c.place.chain.Within model.openable ∧ (log.map Begun.index).Nodup ∧
          ∀ log' d, (model.setting sorted).Calls model c log' d → d.Inside model c := by
  have horderly := model.start_orderly sorted
  refine ⟨?_, ?_⟩
  · have houtcome := model.build_outcome sorted withQuery
    split
    · next b hb =>
      rw [hb] at houtcome
      obtain ⟨log, ds, st, run, rfl⟩ := houtcome
      exact ⟨log, ds, st, run, rfl, (run.finishes horderly).nodup⟩
    · next fault hb =>
      rw [hb] at houtcome
      obtain ⟨log, c, reached, stuck⟩ := houtcome
      refine ⟨?_, log, c, reached, stuck⟩
      rintro rfl
      rcases stuck.ofDocument with ⟨_, _, h⟩ | ⟨_, h⟩ <;> cases h
  · intro log c reached
    have hc := reached.bounded rfl (model.buildCall_bounded sorted withQuery)
    exact ⟨hc.acc rfl, hc.within, (reached.begins horderly).1.nodup,
      fun log' d call => call.inside rfl hc.references⟩

end SchemaModel

end SwaggerTypes
