import SwaggerTypes.Proofs.Declarations
/-!
# Dangling references

The declarations of the definitions can be built exactly when every reference in them leads
somewhere. Nothing hides a reference: each definition is declared, a run over its root meets every
reference below, whatever is merged, lifted, skipped or cut, and meets it even where the reference
closes a cycle. And nothing else ends such a build.
-/

namespace SwaggerTypes

/-! ## References anywhere in a schema -/

namespace Node

theorem PartOf.sizeOf_lt {part node : Node} (h : PartOf part node) : sizeOf part < sizeOf node := by
  cases h with
  | items | additional =>
      simp only [mk.sizeOf_spec, Kind.array.sizeOf_spec, Kind.object.sizeOf_spec,
        Additional.typed.sizeOf_spec]
      omega
  | property h =>
      have hlt := List.sizeOf_lt_of_mem h
      simp only [mk.sizeOf_spec, Kind.object.sizeOf_spec, Prod.mk.sizeOf_spec] at hlt ⊢
      omega
  | member h =>
      have hlt := List.sizeOf_lt_of_mem h
      simp only [mk.sizeOf_spec, Kind.composite.sizeOf_spec] at hlt ⊢
      omega

/-- A reference that is listed for a schema is the schema itself or listed for a part of it. -/
theorem mem_references_cases {r : String} {node : Node} (h : r ∈ node.references) :
    node.kind = .reference r ∨ ∃ part, PartOf part node ∧ r ∈ part.references := by
  obtain ⟨kind, doc, nullable⟩ := node
  cases kind with
  | any | primitive | enum | unsupported => cases h
  | reference pointer => exact .inl (congrArg Kind.reference (List.mem_singleton.mp h).symm)
  | array items => exact .inr ⟨items, .items, h⟩
  | object ps required additional =>
      rcases List.mem_append.mp h with h | h
      · obtain ⟨e, he, hr⟩ := mem_propertyReferences.mp h
        exact .inr ⟨e.2, .property he, hr⟩
      · cases additional with
        | closed | unrestricted => cases h
        | typed child => exact .inr ⟨child, .additional, h⟩
  | composite keyword ms =>
      obtain ⟨m, hm, hr⟩ := mem_memberReferences.mp h
      exact .inr ⟨m, .member hm, hr⟩

theorem exists_below_of_mem_references {r : String} (root : Node) (h : r ∈ root.references) :
    ∃ node, Below root node ∧ node.kind = .reference r := by
  rcases mem_references_cases h with hk | ⟨part, hp, hr⟩
  · exact ⟨root, .refl, hk⟩
  · obtain ⟨node, hb, hk⟩ := exists_below_of_mem_references part hr
    exact ⟨node, hb.head hp, hk⟩
termination_by sizeOf root
decreasing_by exact hp.sizeOf_lt

theorem mem_references_iff {r : String} {root : Node} :
    r ∈ root.references ↔ ∃ node, Below root node ∧ node.kind = .reference r := by
  refine ⟨exists_below_of_mem_references root, ?_⟩
  rintro ⟨node, hb, hk⟩
  obtain ⟨kind, doc, nullable⟩ := node
  obtain rfl : kind = .reference r := hk
  exact hb.references List.mem_cons_self

end Node

/-! ## Runs meet every reference -/

namespace Setting

variable {s : Setting} {model : SchemaModel} {p : Place} {task : Task} {st st' : Progress}
  {log : List Begun} {finding : Finding}

/-- A task that comes to an end has found all its references leading somewhere. -/
theorem Run.resolves (h : s.Run model p task st log finding st') :
    ∀ r ∈ task.references model, ∃ target, s.definitions.resolve r = .ok target := by
  induction h with
  | any | primitive | enum | unsupported | noProperties | closed | unrestricted | noMembers
  | skippedMember | knownDefinition | newDefinition | guardedCycle | aliasCycle
  | noDefinitions | definitions | noParameters | noOperations | build =>
      exact fun r hr => nomatch hr
  | array _ ih | objectSchema _ ih | referenceSchema _ ih | composite _ ih | typed _ ih
  | liftedMember _ _ ih | objectMember _ _ ih | plainMember _ _ ih => exact ih
  | recursiveReference resolved | rootReference resolved | deepReference resolved =>
      intro r hr
      obtain rfl := List.mem_singleton.mp hr
      exact ⟨_, resolved⟩
  | object _ _ ih₁ ih₂ | properties _ _ ih₁ ih₂ | members _ _ ih₁ ih₂ | parameters _ _ ih₁ ih₂ =>
      intro r hr
      exact (List.mem_append.mp hr).elim (ih₁ r) (ih₂ r)
  | plainOperation effective plain _ ih =>
      intro r hr
      rcases List.mem_append.mp hr with hr | hr
      · rw [SchemaModel.operationReferences_of_ok effective, plain] at hr
        cases hr
      · exact ih r hr
  | queryOperation effective _ _ _ ih₁ ih₂ =>
      intro r hr
      rcases List.mem_append.mp hr with hr | hr
      · rw [SchemaModel.operationReferences_of_ok effective] at hr
        exact ih₁ r hr
      · exact ih₂ r hr
  | queryBuild paths _ _ _ ih =>
      intro r hr
      rw [Task.references, paths] at hr
      exact ih r hr

/-- Calls of a build without query interfaces stay among schemas. -/
def OfSchemas : Task → Prop
  | .build withQuery => withQuery = false
  | .operations _ | .parameters _ => False
  | _ => True

theorem Calls.ofSchemas {c d : Call} (h : s.Calls model c log d) (hc : OfSchemas c.task) :
    OfSchemas d.task := by
  cases h with
  | query | firstParameter | restParameters | operation | afterPlainOperation | afterOperation =>
      cases hc
  | _ => trivial

theorem Reaches.ofSchemas {c d : Call} (h : s.Reaches model c log d) (hc : OfSchemas c.task) :
    OfSchemas d.task := by
  induction h with
  | refl => exact hc
  | tail _ call ih => exact call.ofSchemas ih

end Setting

/-! ## Builds without query interfaces -/

namespace SchemaModel

variable {model : SchemaModel} {sorted : Bool}

/-- A build that succeeds has resolved every reference of the definitions. -/
theorem Built.resolves {withQuery : Bool} {b : Build} {log : List Begun} {st : Progress}
    {queries : List Declaration} (h : Built model sorted withQuery b log st queries) {r : String}
    (hr : r ∈ model.definitions.references) :
    ∃ target, model.definitions.resolve r = .ok target := by
  -- the reference stands in some definition, and every definition has had its run
  obtain ⟨_, hmap, hr⟩ := List.mem_flatten.mp hr
  obtain ⟨d, hd, rfl⟩ := List.mem_map.mp hmap
  obtain ⟨i, hi, hentry⟩ := List.getElem_of_mem hd
  obtain ⟨p, hb⟩ := h.begun hi
  obtain ⟨d', t, st₁, log', st₂, entry, -, run, -⟩ := h.declared _ hb
  have hsome : model.definitions.entries[i]? = some d' := entry
  rw [List.getElem?_eq_getElem hi, hentry, Option.some.injEq] at hsome
  subst hsome
  exact run.resolves r hr

/-- The fault of a build without query interfaces is that of a reference of the definitions. -/
theorem fault_of_build {fault : Fault} (h : model.build sorted false = .error fault) :
    ∃ r ∈ model.definitions.references, model.definitions.resolve r = .error fault := by
  have houtcome := model.build_outcome sorted false
  rw [h] at houtcome
  obtain ⟨log, c, reached, stuck⟩ := houtcome
  have hof := reached.ofSchemas rfl
  have hrefs := reached.references
  cases stuck with
  | dangling failed => exact ⟨_, hrefs List.mem_cons_self, failed⟩
  | parameters | noPaths => cases hof

/-- Without query interfaces a build succeeds exactly when every reference anywhere in a definition
leads somewhere, and otherwise its fault is that of resolving one of them. -/
theorem build_ok_iff_references_resolve (model : SchemaModel) (sorted : Bool) :
    ((∃ b, model.build sorted false = .ok b) ↔
      ∀ d ∈ model.definitions.entries, ∀ node pointer, Node.Below d.root node →
        node.kind = .reference pointer → ∃ target, model.definitions.resolve pointer = .ok target) ∧
      ∀ fault, model.build sorted false = .error fault → fault.IsResolution ∧
        ∃ d ∈ model.definitions.entries, ∃ node pointer, Node.Below d.root node ∧
          node.kind = .reference pointer ∧ model.definitions.resolve pointer = .error fault := by
  have hfault : ∀ fault, model.build sorted false = .error fault →
      ∃ d ∈ model.definitions.entries, ∃ node pointer, Node.Below d.root node ∧
        node.kind = .reference pointer ∧ model.definitions.resolve pointer = .error fault := by
    intro fault h
    obtain ⟨r, hr, failed⟩ := fault_of_build h
    obtain ⟨_, hmap, hr⟩ := List.mem_flatten.mp hr
    obtain ⟨d, hd, rfl⟩ := List.mem_map.mp hmap
    obtain ⟨node, hb, hk⟩ := Node.mem_references_iff.mp hr
    exact ⟨d, hd, node, r, hb, hk, failed⟩
  refine ⟨⟨?_, ?_⟩, ?_⟩
  · rintro ⟨b, hok⟩ d hd node pointer hb hk
    obtain ⟨log, st, queries, hbuilt⟩ := built_of_ok hok
    exact hbuilt.resolves
      (DefinitionTable.mem_references hd (Node.mem_references_iff.mpr ⟨node, hb, hk⟩))
  · intro hall
    cases hbuild : model.build sorted false with
    | ok b => exact ⟨b, rfl⟩
    | error fault =>
        obtain ⟨d, hd, node, pointer, hb, hk, failed⟩ := hfault fault hbuild
        obtain ⟨target, resolved⟩ := hall d hd node pointer hb hk
        rw [failed] at resolved
        cases resolved
  · intro fault h
    obtain ⟨d, hd, node, pointer, hb, hk, failed⟩ := hfault fault h
    exact ⟨DefinitionTable.resolve_error failed, d, hd, node, pointer, hb, hk, failed⟩

end SchemaModel

end SwaggerTypes
