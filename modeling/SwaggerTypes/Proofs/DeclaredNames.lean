import SwaggerTypes.Proofs.RunTypes
/-!
# Declared names

The declarations of a build are closed: a name that stands in one of them, at whatever depth, is that
of one definition, and that definition is declared. A name is given out while its definition may still
be open, but by the end every definition has its declaration, in the order of the table, and only the
interfaces of query parameters come behind.
-/

namespace SwaggerTypes

/-! ## Names at any depth -/

namespace TypeExpr

mutual

def names : TypeExpr → List String
  | .named name => [name]
  | .base _ | .literal _ => []
  | .array of => of.names
  | .union members | .intersection members => memberNames members
  | .object ⟨properties, none⟩ => propertyNames properties
  | .object ⟨properties, some index⟩ => propertyNames properties ++ index.names
termination_by structural t => t

def memberNames : List TypeExpr → List String
  | [] => []
  | t :: ts => t.names ++ memberNames ts
termination_by structural ts => ts

def propertyNames : List (Property TypeExpr) → List String
  | [] => []
  | ⟨_, type, _, _, _⟩ :: ps => type.names ++ propertyNames ps
termination_by structural ps => ps

end

theorem mem_memberNames {name : String} {ts : List TypeExpr} :
    name ∈ memberNames ts ↔ ∃ t ∈ ts, name ∈ t.names := by
  induction ts with
  | nil => simp [memberNames]
  | cons t ts ih => simp [memberNames, ih]

theorem mem_propertyNames {name : String} {ps : List (Property TypeExpr)} :
    name ∈ propertyNames ps ↔ ∃ p ∈ ps, name ∈ p.type.names := by
  induction ps with
  | nil => simp [propertyNames]
  | cons p ps ih => simp [propertyNames, ih]

end TypeExpr

def ObjectType.names (o : ObjectType TypeExpr) : List String := (TypeExpr.object o).names

def Declaration.names (d : Declaration) : List String :=
  match d.body with
  | .interface o => o.names
  | .synonym t => t.names

theorem Declaration.all_names {P : String → Prop} {d : Declaration} :
    d.All (fun t => ∀ name ∈ t.names, P name) ↔ ∀ name ∈ d.names, P name := by
  unfold Declaration.All Declaration.names
  cases d.body <;> exact Iff.rfl

theorem ObjectType.mem_names {name : String} {o : ObjectType TypeExpr} : name ∈ o.names ↔
    (∃ p ∈ o.properties, name ∈ p.type.names) ∨ ∃ t, o.index = some t ∧ name ∈ t.names := by
  obtain ⟨properties, index⟩ := o
  cases index <;> simp [names, TypeExpr.names, TypeExpr.mem_propertyNames]

/-- To have certain names only is a property of a type when it is one of the types in it. -/
theorem TypeExpr.hereditary_names (P : String → Prop) :
    Hereditary fun t => ∀ name ∈ t.names, P name := by
  refine ⟨⟨?base, ?union, ?intersection⟩, fun _ h => h, fun o => ?_⟩
  case base => exact fun _ _ hn => nomatch hn
  case union | intersection =>
    intro ms
    simp only [names, mem_memberNames]
    exact ⟨fun h t ht n hn => h n ⟨t, ht, hn⟩, fun h n ⟨t, ht, hn⟩ => h t ht n hn⟩
  show (∀ name ∈ o.names, P name) ↔ _
  simp only [ObjectType.mem_names]
  constructor
  · intro h
    exact ⟨fun p hp n hn => h n (.inl ⟨p, hp, hn⟩), fun t ht n hn => h n (.inr ⟨t, ht, hn⟩)⟩
  · rintro ⟨hps, hindex⟩ n (⟨p, hp, hn⟩ | ⟨t, ht, hn⟩)
    · exact hps p hp n hn
    · exact hindex t ht n hn

/-! ## Names lead to definitions -/

namespace Setting

def Defines (s : Setting) (name : String) : Prop :=
  ∃ i < s.definitions.entries.length, name = s.nameOf i

end Setting

/-! ## Query interfaces -/

namespace SchemaModel

def queryParameters (model : SchemaModel) (op : Operation) : List PlacedParameter :=
  match model.effectiveParameters op with
  | .ok list => PlacedParameter.ofQuery list
  | .error _ => []

def queryOperations (model : SchemaModel) (withQuery : Bool) : List Operation :=
  if withQuery then
    (model.operations.getD []).filter fun op => !(model.queryParameters op).isEmpty
  else []

theorem queryParameters_of_ok {model : SchemaModel} {op : Operation} {list : List PlacedParameter}
    (effective : model.effectiveParameters op = .ok list) :
    model.queryParameters op = PlacedParameter.ofQuery list := by
  rw [queryParameters, effective]

/-- A declaration is the interface of an operation's query parameters: it has a name of its own made
from that of the operation, and one property for each parameter. -/
def IsQueryInterface (model : SchemaModel) (sorted : Bool) (op : Operation) (d : Declaration) :
    Prop :=
  (∃ taken, d.name = (nextName taken op.queryName op.pointer).1) ∧
    ∃ qs, d.body = .interface (ObjectType.arrange sorted { properties := qs }) ∧
      List.Forall₂ (fun placed q => ∃ t, q = placed.property t) (model.queryParameters op) qs

end SchemaModel

namespace Setting

variable {s : Setting} {model : SchemaModel} {st st' : Progress} {log : List Begun}

theorem Run.properties_of_parameters {list : List PlacedParameter} {qs : List (Property TypeExpr)}
    (h : s.Run model {} (.parameters list) st log (.properties qs) st') :
    List.Forall₂ (fun placed q => ∃ t, q = placed.property t) list qs := by
  induction list generalizing st log qs with
  | nil =>
      cases h
      exact .nil
  | cons placed rest ih =>
      cases h with
      | parameters first second => exact .cons ⟨_, rfl⟩ (ih second)

/-- The operations with query parameters have their interfaces, in their order. -/
theorem Run.interfaces_of_operations {ops : List Operation} {ds : List Declaration}
    (h : s.Run model {} (.operations ops) st log (.declarations ds) st') :
    List.Forall₂ (model.IsQueryInterface s.sorted)
      (ops.filter fun op => !(model.queryParameters op).isEmpty) ds := by
  induction ops generalizing st log ds with
  | nil =>
      cases h
      exact .nil
  | cons op rest ih =>
      cases h with
      | plainOperation effective plain second =>
          have hq : model.queryParameters op = [] :=
            (SchemaModel.queryParameters_of_ok effective).trans plain
          rw [List.filter_cons_of_neg (by simp [hq])]
          exact ih second
      | queryOperation effective query first second =>
          have hq := SchemaModel.queryParameters_of_ok effective
          rw [List.filter_cons_of_pos (by simpa [hq] using query)]
          refine .cons ⟨⟨_, rfl⟩, _, rfl, ?_⟩ (ih second)
          rw [hq]
          exact first.properties_of_parameters

end Setting

/-! ## Declarations of a build -/

namespace SchemaModel

variable {model : SchemaModel} {sorted withQuery : Bool} {b : Build} {log : List Begun}
  {st : Progress} {queries : List Declaration}

namespace Built

theorem take_declarations (h : Built model sorted withQuery b log st queries) :
    b.declarations.take model.definitions.entries.length = finished st.slots := by
  rw [h.declarations_eq, ← h.length, List.take_left]

theorem drop_declarations (h : Built model sorted withQuery b log st queries) :
    b.declarations.drop model.definitions.entries.length = queries := by
  rw [h.declarations_eq, ← h.length, List.drop_left]

theorem interfaces (h : Built model sorted withQuery b log st queries) :
    List.Forall₂ (model.IsQueryInterface sorted) (model.queryOperations withQuery) queries := by
  cases h.run with
  | build run => exact .nil
  | queryBuild paths first second =>
      have hops := second.interfaces_of_operations
      rwa [queryOperations, if_pos rfl, paths]

/-- A name in a declaration is that of a definition. -/
theorem defines_of_mem_names (h : Built model sorted withQuery b log st queries) {d : Declaration}
    (hd : d ∈ b.declarations) {name : String} (hn : name ∈ d.names) :
    (model.setting sorted).Defines name := by
  have hany : ∀ root : Node, root.AllBelow (Node.Lists fun _ => True) := fun _ _ _ _ _ _ _ => trivial
  refine Declaration.all_names.mp (h.all_of_hereditary (TypeExpr.hereditary_names _) ?_
    (fun _ _ _ hname => nomatch hname) (fun d _ => hany d.root) ?_ d hd) name hn
  · intro i hlt name hname
    exact ⟨i, hlt, List.mem_singleton.mp hname⟩
  · exact fun _ _ _ _ _ _ placed _ => hany placed.parameter.schema

/-- The name of a definition is that of exactly one of the first declarations. -/
theorem existsUnique_of_defines (h : Built model sorted withQuery b log st queries) {name : String}
    (hn : (model.setting sorted).Defines name) :
    ∃! i, i < model.definitions.entries.length ∧
      b.declarations[i]?.map Declaration.name = some name := by
  obtain ⟨i, hi, rfl⟩ := hn
  obtain ⟨p, t, _, _, _, -, -, -, -, hd⟩ := h.definition (List.getElem?_eq_getElem hi)
  refine ⟨i, ⟨hi, by rw [hd]; rfl⟩, ?_⟩
  rintro j ⟨-, hj⟩
  obtain ⟨e, he, hname⟩ := Option.map_eq_some_iff.mp hj
  exact h.position_of_name hi he hname

end Built

/-- The declarations of a build: first one for each definition, in the order of the table and under
the name taken for it; then the interfaces of the operations with query parameters, in their order.
All have different names, and a name that stands anywhere in one of them is that of exactly one
definition. -/
theorem declarations_of_build (h : model.build sorted withQuery = .ok b) :
    (b.declarations.take model.definitions.entries.length).map Declaration.name =
        (takeNames model.definitions.entries).1 ∧
      (∀ i d, model.definitions.entries[i]? = some d → ∃ t,
        b.declarations[i]? = some ((model.setting sorted).declarationOf i d t)) ∧
      List.Forall₂ (model.IsQueryInterface sorted) (model.queryOperations withQuery)
        (b.declarations.drop model.definitions.entries.length) ∧
      (b.declarations.map Declaration.name).Nodup ∧
      ∀ d ∈ b.declarations, ∀ name ∈ d.names,
        ∃! i, i < model.definitions.entries.length ∧
          b.declarations[i]?.map Declaration.name = some name := by
  obtain ⟨log, st, queries, hb⟩ := built_of_ok h
  refine ⟨?_, ?_, ?_, hb.nodup_names, ?_⟩
  · rw [hb.take_declarations]
    exact hb.names_eq
  · intro i d entry
    obtain ⟨_, t, _, _, _, -, -, -, -, hd⟩ := hb.definition entry
    exact ⟨t, hd⟩
  · rw [hb.drop_declarations]
    exact hb.interfaces
  · intro d hd name hn
    exact hb.existsUnique_of_defines (hb.defines_of_mem_names hd hn)

def petStore : SchemaModel where
  definitions :=
    { entries :=
        [⟨.definitions, "Pet", .bare <| .object
            [("owner", .bare (.reference "#/definitions/Owner"))] [] .closed⟩,
          ⟨.definitions, "Owner", .bare <| .object
            [("pets", .bare (.array (.bare (.reference "#/definitions/Pet"))))] ["pets"] .closed⟩]
      nodup := by decide }
  operations := some
    [{ path := "/pets"
       method := "get"
       operationId := some "listPets"
       itemPointer := "#/paths/~1pets"
       pathParameters := []
       parameters :=
         [.inline ⟨"of", .query, false, none, .bare (.reference "#/definitions/Owner"), true⟩] }]

theorem petStore_names :
    (petStore.build false true).toOption.map
      (fun b => b.declarations.map fun d => (d.name, d.names)) =
        some [("Pet", ["Owner"]), ("Owner", ["Pet"]), ("ListPetsQuery", ["Owner"])] := by
  decide +kernel

theorem petStore_declarations : ∃ b, petStore.build false true = .ok b ∧
    b.declarations.map (fun d => (d.name, d.names)) =
      [("Pet", ["Owner"]), ("Owner", ["Pet"]), ("ListPetsQuery", ["Owner"])] ∧
    List.Forall₂ (petStore.IsQueryInterface false) (petStore.queryOperations true)
      (b.declarations.drop 2) ∧
    ∀ d ∈ b.declarations, ∀ name ∈ d.names,
      ∃! i, i < 2 ∧ b.declarations[i]?.map Declaration.name = some name := by
  obtain ⟨b, hbuild, hnames⟩ := eq_ok_of_toOption_map petStore_names
  obtain ⟨-, -, hqueries, -, hclosed⟩ := declarations_of_build hbuild
  exact ⟨b, hbuild, hnames, hqueries, hclosed⟩

end SchemaModel

end SwaggerTypes
