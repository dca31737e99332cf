import SwaggerTypes.Proofs.Composed
import SwaggerTypes.Proofs.Declarations
/-!
# Types found by a run

A run makes up no type of its own but names of definitions: what is said of a type when it is said of
the types in it holds of all that a run finds, if it holds of these names and of the values that are
listed in the schemas.
-/

namespace SwaggerTypes

def Node.Lists (P : Literal → Prop) (node : Node) : Prop :=
  ∀ values, node.kind = .enum values → ∀ value ∈ values, P value

def Declaration.All (C : TypeExpr → Prop) (d : Declaration) : Prop :=
  match d.body with
  | .interface o => C (.object o)
  | .synonym t => C t

def Finding.All (C : TypeExpr → Prop) : Finding → Prop
  | .type t => C t
  | .object o => C (.object o)
  | .properties ps => ∀ p ∈ ps, C p.type
  | .others index => ∀ t, index = some t → C t
  | .operands os => ∀ o ∈ os, C o.alone
  | .declarations ds => ∀ d ∈ ds, d.All C
  | .nothing => True

def SchemaModel.ParametersBelow (P : Node → Prop) (model : SchemaModel) (op : Operation) : Prop :=
  ∀ list, model.effectiveParameters op = .ok list →
    ∀ placed ∈ list, placed.parameter.schema.AllBelow P

/-- A property holds of the schemas that a task reads itself, and of all below them. -/
def Task.AllBelow (P : Node → Prop) (model : SchemaModel) : Task → Prop
  | .schema node | .member _ _ _ node => node.AllBelow P
  | .object _ ps additional =>
      ∃ required doc nullable, Node.AllBelow P ⟨.object ps required additional, doc, nullable⟩
  | .properties _ ps => ∀ e ∈ ps, e.2.AllBelow P
  | .others additional => ∀ node, additional = .typed node → node.AllBelow P
  | .members _ _ _ _ ms => ∀ m ∈ ms, m.AllBelow P
  | .parameters list => ∀ placed ∈ list, placed.parameter.schema.AllBelow P
  | .operations ops => ∀ op ∈ ops, model.ParametersBelow P op
  | .build true => ∀ ops, model.operations = some ops → ∀ op ∈ ops, model.ParametersBelow P op
  | _ => True

namespace Node.AllBelow

variable {P : Node → Prop} {ps : List (String × Node)} {required : List String}
  {additional : Additional Node} {doc : Option String} {nullable : Bool}

theorem properties (h : Node.AllBelow P ⟨.object ps required additional, doc, nullable⟩) :
    ∀ e ∈ ps, e.2.AllBelow P :=
  fun ⟨_, _⟩ he => h.part (.property he)

theorem others (h : Node.AllBelow P ⟨.object ps required additional, doc, nullable⟩) :
    ∀ node, additional = .typed node → node.AllBelow P := by
  rintro node rfl
  exact h.part .additional

end Node.AllBelow

namespace Setting

variable {s : Setting} {model : SchemaModel} {p : Place} {task : Task} {st st' : Progress}
  {log : List Begun} {finding : Finding}

/-- A run finds types of which all is said that is said of the names of definitions and of the values
that its schemas list. -/
theorem Run.all {C : TypeExpr → Prop} (hC : TypeExpr.Hereditary C)
    (hnamed : ∀ i < s.definitions.entries.length, C (.named (s.nameOf i)))
    {P : Literal → Prop} (hlisted : ∀ value, P value → C (.literal value))
    (hdefinitions : ∀ d ∈ s.definitions.entries, d.root.AllBelow (Node.Lists P))
    (h : s.Run model p task st log finding st') :
    (∀ i, task = .definition i → i < s.definitions.entries.length) →
      task.AllBelow (Node.Lists P) model → finding.All C := by
  have hM := hC.merged
  induction h with
  | any | primitive | unsupported => exact fun _ _ => hC.orNull (hC.base _) _
  | enum =>
      intro _ hp
      refine hC.orNull (hC.ofLiterals fun value hvalue => ?_) _
      exact hlisted value (hp _ .refl _ rfl value hvalue)
  | array _ ih =>
      intro _ hp
      exact hC.orNull (hC.array _ (ih nofun (hp.part .items))) _
  | objectSchema _ ih =>
      intro _ hp
      exact hC.orNull (ih nofun ⟨_, _, _, hp⟩) _
  | referenceSchema _ ih => exact fun _ _ => hC.orNull (ih nofun trivial) _
  | composite _ ih =>
      intro _ hp
      refine hC.orNull (hM.combine _ _ (ih nofun fun m hm => ?_)) _
      exact hp.part (.member hm)
  | object _ _ ih₁ ih₂ =>
      rintro - ⟨_, _, _, hp⟩
      exact hM.arrange _ _ ((hC.object _).mpr ⟨ih₁ nofun hp.properties, ih₂ nofun hp.others⟩)
  | properties _ _ ih₁ ih₂ | parameters _ _ ih₁ ih₂ =>
      intro _ hp
      obtain ⟨hfirst, hrest⟩ := List.forall_mem_cons.mp hp
      exact List.forall_mem_cons.mpr ⟨ih₁ nofun hfirst, ih₂ nofun hrest⟩
  | typed _ ih =>
      intro _ hp t ht
      cases ht
      exact ih nofun (hp _ rfl)
  | members _ _ ih₁ ih₂ =>
      intro _ hp
      obtain ⟨hfirst, hrest⟩ := List.forall_mem_cons.mp hp
      exact List.forall_mem_append.mpr ⟨ih₁ nofun hfirst, ih₂ nofun hrest⟩
  | liftedMember _ _ ih =>
      intro _ hp
      exact ih nofun fun m hm => hp.part (.member hm)
  | objectMember _ _ ih =>
      intro _ hp
      exact List.forall_mem_singleton.mpr (ih nofun ⟨_, _, _, hp⟩)
  | plainMember _ _ ih =>
      intro _ hp
      exact List.forall_mem_singleton.mpr (ih nofun hp)
  | rootReference resolved _ _ ih =>
      intro _ _
      obtain ⟨d, _, entry, -⟩ := DefinitionTable.resolve_ok resolved
      refine ih (fun i heq => ?_) trivial
      cases heq
      exact (List.getElem?_eq_some_iff.mp entry).1
  | deepReference resolved _ _ _ ih =>
      intro _ _
      obtain ⟨d, way, entry, hwalk, -⟩ := DefinitionTable.resolve_ok resolved
      exact ih nofun ((hdefinitions d (List.mem_of_getElem? entry)).below (Node.walk_below hwalk))
  | recursiveReference | aliasCycle => exact fun _ _ => hC.base _
  | knownDefinition | newDefinition | guardedCycle => exact fun hi _ => hnamed _ (hi _ rfl)
  | unrestricted =>
      intro _ _ t ht
      cases ht
      exact hC.base _
  | plainOperation _ _ _ ih => exact fun _ hp => ih nofun (List.forall_mem_cons.mp hp).2
  | queryOperation effective _ _ _ ih₁ ih₂ =>
      intro _ hp
      obtain ⟨hop, hrest⟩ := List.forall_mem_cons.mp hp
      refine List.forall_mem_cons.mpr ⟨?_, ih₂ nofun hrest⟩
      refine hM.arrange s.sorted { properties := _ } ((hC.object _).mpr ⟨ih₁ nofun ?_, nofun⟩)
      exact fun placed hplaced => hop _ effective placed (List.mem_filter.mp hplaced).1
  | queryBuild paths _ _ _ ih => exact fun _ hp => ih nofun (hp _ paths)
  | closed => exact fun _ _ => nofun
  | noProperties | noMembers | skippedMember | noParameters | noOperations | build =>
      exact fun _ _ _ hmem => nomatch hmem
  | noDefinitions | definitions => exact fun _ _ => trivial

theorem all_declarationOf {C : TypeExpr → Prop} {i : Nat} {d : Definition} {t : TypeExpr} :
    (s.declarationOf i d t).All C ↔ C t := by
  unfold declarationOf DeclarationBody.ofType Declaration.All
  cases d.root.isInterface <;> cases t <;> exact Iff.rfl

end Setting

namespace SchemaModel.Built

variable {model : SchemaModel} {sorted withQuery : Bool} {b : Build} {log : List Begun}
  {st : Progress} {queries : List Declaration} {C : TypeExpr → Prop}

/-- A property holds of all types that are declared when it holds of those that the roots of the
definitions become, and of the interfaces of query parameters. -/
theorem all (h : Built model sorted withQuery b log st queries)
    (hroots : ∀ d ∈ model.definitions.entries, ∀ {p st log t st'},
      (model.setting sorted).Run model p (.schema d.root) st log (.type t) st' → C t)
    (hqueries : ∀ d ∈ queries, d.All C) : ∀ d ∈ b.declarations, d.All C := by
  intro d hd
  obtain ⟨i, hget⟩ := List.getElem?_of_mem hd
  rcases Nat.lt_or_ge i model.definitions.entries.length with hlt | hge
  · obtain ⟨_, t, _, _, _, -, -, run, -, hdeclared⟩ :=
      h.definition (List.getElem?_eq_getElem hlt)
    rw [Option.some.inj (hget.symm.trans hdeclared), Setting.all_declarationOf]
    exact hroots _ (List.getElem_mem hlt) run
  · rw [h.declarations_eq, List.getElem?_append_right (h.length ▸ hge)] at hget
    exact hqueries d (List.mem_of_getElem? hget)

/-- What is said of the names of definitions, and of the values that are listed in a model, is said of
all types that are declared. -/
theorem all_of_hereditary (h : Built model sorted withQuery b log st queries)
    (hC : TypeExpr.Hereditary C)
    (hnamed : ∀ i < model.definitions.entries.length, C (.named ((model.setting sorted).nameOf i)))
    {P : Literal → Prop} (hlisted : ∀ value, P value → C (.literal value))
    (hdefinitions : ∀ d ∈ model.definitions.entries, d.root.AllBelow (Node.Lists P))
    (hoperations : ∀ ops, model.operations = some ops →
      ∀ op ∈ ops, model.ParametersBelow (Node.Lists P) op) : ∀ d ∈ b.declarations, d.All C := by
  refine h.all (fun d hd _ _ _ _ _ run => ?_) ?_
  · exact run.all hC hnamed hlisted hdefinitions nofun (hdefinitions d hd)
  · refine h.run.all hC hnamed hlisted hdefinitions nofun ?_
    cases withQuery with
    | false => trivial
    | true => exact hoperations

end SchemaModel.Built

end SwaggerTypes
