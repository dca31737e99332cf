import SwaggerTypes.Proofs.Adequacy
/-!
# The budget is never used up

The pointers of open references are pairwise distinct, and each is that of a definition or the
target of a reference in one, but for the target of a reference in the schema of a parameter. So no
more references are open at once than the budget allows, and every build ends as its runs do.
-/

namespace SwaggerTypes

namespace DefinitionTable

def targets (table : DefinitionTable) : List String :=
  table.entries.map Definition.pointer ++
    table.references.filterMap fun r => (table.resolve r).toOption.map Target.pointer

theorem pointer_mem_targets {table : DefinitionTable} {i : Nat} {d : Definition}
    (h : table.entries[i]? = some d) : d.pointer ∈ table.targets :=
  List.mem_append_left _ (List.mem_map_of_mem (List.mem_of_getElem? h))

theorem target_mem_targets {table : DefinitionTable} {pointer : String} {target : Target}
    (hp : pointer ∈ table.references) (h : table.resolve pointer = .ok target) :
    target.pointer ∈ table.targets :=
  List.mem_append_right _ (List.mem_filterMap.mpr ⟨pointer, hp, by rw [h]; rfl⟩)

theorem length_targets_lt (table : DefinitionTable) : table.targets.length + 1 < table.budget := by
  have h := List.length_filterMap_le
    (fun r => (table.resolve r).toOption.map Target.pointer) table.references
  simp only [targets, budget, List.length_append, List.length_map]
  omega

end DefinitionTable

/-- A chain of open references without repetition, all of them among some pointers. -/
structure Chain.Within (chain : Chain) (pointers : List String) : Prop where
  nodup : chain.pointers.Nodup
  subset : chain.pointers ⊆ pointers

theorem Chain.Within.length_le {chain : Chain} {pointers : List String}
    (h : chain.Within pointers) : chain.length ≤ pointers.length := by
  have := h.nodup.length_le_of_subset h.subset
  simpa [Chain.pointers] using this

theorem Chain.Within.enter {chain opened : Chain} {pointers : List String} {pointer : String}
    {depth : Nat} (h : chain.Within pointers) (hp : pointer ∈ pointers)
    (entered : chain.enter pointer depth = .entered opened) :
    opened.Within pointers ∧ opened.length = chain.length + 1 := by
  obtain ⟨hnew, rfl⟩ := Chain.enter_entered entered
  exact ⟨⟨List.nodup_cons.mpr ⟨hnew, h.nodup⟩, List.cons_subset.mpr ⟨hp, h.subset⟩⟩, rfl⟩

theorem Chain.within_nil (pointers : List String) : Chain.Within [] pointers :=
  ⟨List.nodup_nil, List.nil_subset _⟩

namespace Setting

variable {s : Setting} {model : SchemaModel}

/-- References are followed to their end while the budget and the open references together exceed
the pointers that can be open. -/
theorem performs_within {pointers : List String} (hbase : s.definitions.targets ⊆ pointers) :
    ∀ (budget : Nat) (p : Place) (pointer : String) (st : Progress), p.chain.Within pointers →
      pointers.length < budget + p.chain.length →
      (∀ target, s.definitions.resolve pointer = .ok target → target.pointer ∈ pointers) →
      s.Performs model (s.within budget p pointer) ⟨p, .reference pointer, st⟩ .type := by
  intro budget
  induction budget with
  | zero =>
      intro p pointer st hw hlen _
      have := hw.length_le
      omega
  | succ budget ih =>
      intro p pointer st hw hlen htarget
      have below : ∀ {opened : Chain} {r : String} {refs : List String}, r ∈ pointers →
          p.chain.enter r p.depth = .entered opened → refs ⊆ s.definitions.references →
          FollowsAll s model (s.within budget) opened refs := by
        intro opened r refs hr entered hrefs q pointer' st' hq hp'
        obtain ⟨hw', hlen'⟩ := hw.enter hr entered
        subst hq
        exact ih q pointer' st' hw' (by omega) fun target ht =>
          hbase (DefinitionTable.target_mem_targets (hrefs hp') ht)
      refine performs_referenceType ?_ ?_
      · intro target resolved root
        refine performs_definitionType fun d chain entry entered => ?_
        have hd := hbase (DefinitionTable.pointer_mem_targets entry)
        have hr : d.root.references ⊆ s.definitions.references := fun r hr =>
          DefinitionTable.mem_references (List.mem_of_getElem? entry) hr
        exact performs_type (below hd entered hr) _ _ _ rfl (List.Subset.refl _)
      · intro target chain resolved entered
        have hr := DefinitionTable.target_references resolved
        exact performs_type (below (htarget target resolved) entered hr) _ _ _ rfl
          (List.Subset.refl _)

/-- With the budget of the table, references among the definitions are followed to their end from
any chain that can be open there. -/
theorem followsAll_within {chain : Chain} {refs : List String}
    (hw : chain.Within s.definitions.targets) (hrefs : refs ⊆ s.definitions.references) :
    FollowsAll s model (s.within s.definitions.budget) chain refs := by
  intro q pointer st hq hp
  subst hq
  have hlen := s.definitions.length_targets_lt
  exact performs_within (List.Subset.refl _) _ q pointer st hw (by omega) fun target ht =>
    DefinitionTable.target_mem_targets (hrefs hp) ht

/-- The type of a schema from elsewhere is found as well: one more pointer may be open then. -/
theorem performs_typeOf {p : Place} {node : Node} {st : Progress} (hp : p.chain = []) :
    s.Performs model (s.typeOf p node) ⟨p, .schema node, st⟩ .type := by
  refine performs_type (fun q pointer st' hq _ => ?_) node p st hp (List.Subset.refl _)
  have hlen := s.definitions.length_targets_lt
  cases resolved : s.definitions.resolve pointer with
  | error fault =>
      refine performs_within (List.Subset.refl _) _ q pointer st' (hq ▸ Chain.within_nil _)
        (by omega) fun target ht => ?_
      rw [resolved] at ht
      cases ht
  | ok target =>
      -- the target may be known to no definition, so it is counted on its own
      refine performs_within (List.subset_append_left s.definitions.targets [target.pointer]) _ q
        pointer st' (hq ▸ Chain.within_nil _) ?_ fun other ho => ?_
      · simp only [List.length_append, List.length_singleton]
        omega
      · rw [resolved] at ho
        cases ho
        simp

/-! ## Builds -/

theorem performs_definition {i : Nat} {st : Progress} :
    s.Performs model (s.definitionType (s.within s.definitions.budget) {} i)
      ⟨{}, .definition i, st⟩ .type := by
  refine performs_definitionType fun d chain entry entered => ?_
  obtain ⟨hw, -⟩ := (Chain.within_nil s.definitions.targets).enter
    (DefinitionTable.pointer_mem_targets entry) entered
  have hr : d.root.references ⊆ s.definitions.references := fun r hr =>
    DefinitionTable.mem_references (List.mem_of_getElem? entry) hr
  exact performs_type (followsAll_within hw hr) _ _ _ rfl (List.Subset.refl _)

theorem performs_definitions : ∀ (indices : List Nat) (st : Progress),
    s.Performs model
      (indices.forM fun index => do
        let _ ← s.definitionType (s.within s.definitions.budget) {} index)
      ⟨{}, .definitions indices, st⟩ fun _ => .nothing := by
  intro indices
  induction indices with
  | nil => exact fun st => Resumes.pure .noDefinitions
  | cons i rest ih =>
      intro st
      rw [List.forM_eq_forM, List.forM_cons, bind_assoc]
      refine .bind .firstDefinition performs_definition fun t log₁ st₁ run₁ => ?_
      rw [pure_bind]
      exact .answer (ih st₁) (.restDefinitions run₁) fun _ log₂ st₂ run₂ => .definitions run₁ run₂

theorem performs_parameters : ∀ (list : List PlacedParameter) (st : Progress),
    s.Performs model (list.mapM s.queryProperty) ⟨{}, .parameters list, st⟩ .properties := by
  intro list
  induction list with
  | nil => exact fun st => Resumes.pure .noParameters
  | cons placed rest ih =>
      intro st
      rw [List.mapM_cons]
      unfold queryProperty
      rw [bind_assoc]
      refine .bind .firstParameter (performs_typeOf rfl) fun t log₁ st₁ run₁ => ?_
      rw [pure_bind]
      refine .bind (.restParameters run₁) (ih st₁) fun qs log₂ st₂ run₂ => ?_
      exact .pure (.parameters run₁ run₂)

theorem queryDeclaration_of_ok {op : Operation} {list : List PlacedParameter}
    (effective : model.effectiveParameters op = .ok list) :
    s.queryDeclaration model op =
      if PlacedParameter.ofQuery list = [] then pure none
      else do
        let properties ← (PlacedParameter.ofQuery list).mapM s.queryProperty
        let name ← Synthesis.takeName op.queryName op.pointer
        return some { name, body := .interface (ObjectType.arrange s.sorted { properties }) } := by
  unfold queryDeclaration
  rw [effective]
  show (if (PlacedParameter.ofQuery list).isEmpty = true then _ else _) = _
  simp only [List.isEmpty_iff]
  rfl

theorem performs_operations : ∀ (operations : List Operation) (st : Progress),
    s.Performs model (do return (← operations.mapM (s.queryDeclaration model)).filterMap id)
      ⟨{}, .operations operations, st⟩ .declarations := by
  intro operations
  induction operations with
  | nil => exact fun st => Resumes.pure .noOperations
  | cons op rest ih =>
      intro st
      rw [List.mapM_cons]
      cases effective : model.effectiveParameters op with
      | error fault =>
          unfold queryDeclaration
          rw [effective]
          exact ⟨[], _, .refl, .parameters effective⟩
      | ok list =>
          rw [queryDeclaration_of_ok effective]
          split
          · next plain =>
            simp only [pure_bind, bind_assoc, List.filterMap_cons_none (f := id) rfl]
            exact .answer (ih st) (.afterPlainOperation effective plain)
              fun _ _ _ => .plainOperation effective plain
          · next query =>
            simp only [bind_assoc]
            refine .bind (.operation effective query) (performs_parameters _ st)
              fun qs log₁ st₁ run₁ => ?_
            refine Resumes.takeName ?_
            simp only [pure_bind, List.filterMap_cons_some (f := id) rfl]
            have hx := Resumes.bind (.afterOperation effective query run₁) (ih _)
              fun ds log₂ st₂ run₂ => .pure (.queryOperation effective query run₁ run₂)
            simpa only [List.nil_append, bind_assoc, pure_bind] using hx

/-- The declarations of all definitions, and the query interfaces where they are asked for. -/
theorem performs_build (withQuery : Bool) (st : Progress) :
    s.Performs model
      (do
        s.declareAll
        if withQuery then s.queryDeclarations model else return [])
      ⟨{}, .build withQuery, st⟩ .declarations := by
  refine .bind .build (performs_definitions _ st) fun _ log₁ st₁ run₁ => ?_
  cases withQuery with
  | false => exact .pure (.build run₁)
  | true =>
      simp only [if_true]
      unfold queryDeclarations
      split
      · next absent => exact ⟨[], _, .refl, .noPaths absent run₁⟩
      · next operations paths =>
        exact .answer (performs_operations operations st₁) (.query paths run₁)
          fun ds log₂ st₂ run₂ => .queryBuild paths run₁ run₂

end Setting

namespace SchemaModel

variable (model : SchemaModel) (sorted withQuery : Bool)

/-- A build ends as its run does: with the declarations that the run leaves finished, or with the
fault of a call that it comes to. -/
theorem build_outcome :
    match model.build sorted withQuery with
    | .ok b => ∃ log ds st,
        (model.setting sorted).Run model {} (.build withQuery) model.start log (.declarations ds) st ∧
          b = ⟨finished st.slots ++ ds, st.warnings⟩
    | .error fault => ∃ log c,
        (model.setting sorted).Reaches model (model.buildCall withQuery) log c ∧
          (model.setting sorted).Stuck model c fault := by
  have h : (model.setting sorted).Performs model _ (model.buildCall withQuery) _ :=
    Setting.performs_build withQuery model.start
  unfold Setting.Performs Setting.Resumes buildCall at h
  have hb : model.build sorted withQuery =
      (do
        let r ← (do
          (model.setting sorted).declareAll
          if withQuery then (model.setting sorted).queryDeclarations model else return []
            : Synthesis (List Declaration)).run model.start
        return ⟨finished r.2.slots ++ r.1, r.2.warnings⟩) := rfl
  rw [hb]
  split at h
  · next ds st hrun =>
    obtain ⟨log, run⟩ := h
    rw [hrun]
    exact ⟨log, ds, st, run, rfl⟩
  · next fault hrun =>
    rw [hrun]
    exact h

end SchemaModel

end SwaggerTypes
