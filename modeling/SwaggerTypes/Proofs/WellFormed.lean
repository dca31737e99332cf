import SwaggerTypes.Proofs.Approximation
import SwaggerTypes.Proofs.ByteOrder
import SwaggerTypes.Proofs.DeclaredNames
import SwaggerTypes.Proofs.DistinctNames
import SwaggerTypes.Proofs.ParameterSchemas
import SwaggerTypes.Proofs.SortedBuilds
/-!
# Well-formed types

Every type in a declaration is one that the declaration language can write: a union or an intersection
has two members at least, and an object has no two properties of one name. Where the order of
properties is asked for, it is that of their names, at every depth.
-/

namespace SwaggerTypes

/-- Properties with different names, in their order where that is asked for. -/
structure TidyNames (sorted : Bool) (names : List String) : Prop where
  nodup : names.Nodup
  ordered : sorted = true → names.Pairwise Text.BytesLt

/-- A type that is well formed at every depth. -/
inductive TypeExpr.WellFormed (sorted : Bool) : TypeExpr → Prop
  | base {type} : WellFormed sorted (.base type)
  | literal {value} : WellFormed sorted (.literal value)
  | named {name} : WellFormed sorted (.named name)
  | array {t} (of : WellFormed sorted t) : WellFormed sorted (.array t)
  | union {ms} (two : 2 ≤ ms.length) (members : ∀ t ∈ ms, WellFormed sorted t) :
      WellFormed sorted (.union ms)
  | intersection {ms} (two : 2 ≤ ms.length) (members : ∀ t ∈ ms, WellFormed sorted t) :
      WellFormed sorted (.intersection ms)
  | object {o} (names : TidyNames sorted (o.properties.map Property.name))
      (properties : ∀ p ∈ o.properties, WellFormed sorted p.type)
      (index : ∀ t, o.index = some t → WellFormed sorted t) : WellFormed sorted (.object o)

theorem Literal.distinct_ne_nil {values : List Literal} (h : values ≠ []) : distinct values ≠ [] := by
  have hgrow : ∀ (rest kept : List Literal), kept ≠ [] →
      rest.foldl (fun kept v => if kept.any (·.same v) then kept else kept ++ [v]) kept ≠ [] := by
    intro rest
    induction rest with
    | nil => exact fun _ hkept => hkept
    | cons value rest ih =>
        intro kept hkept
        rw [List.foldl_cons]
        apply ih
        split
        · exact hkept
        · exact List.append_ne_nil_of_left_ne_nil hkept _
  obtain ⟨value, rest, rfl⟩ := List.exists_cons_of_ne_nil h
  exact hgrow rest [value] (List.cons_ne_nil _ _)

namespace TypeExpr.WellFormed

variable {sorted : Bool} {t u : TypeExpr} {ts : List TypeExpr}

theorem nullable (h : t.WellFormed sorted) : t.nullable.WellFormed sorted := by
  rcases t.nullable_cases with heq | heq | ⟨ms, rfl, heq⟩
  · rwa [heq]
  · rw [heq]
    exact .union (Nat.le_refl 2) (List.forall_mem_cons.mpr ⟨h, List.forall_mem_singleton.mpr .base⟩)
  · rw [heq]
    cases h with
    | union two members =>
        refine .union (by simpa using Nat.le_succ_of_le two) fun m hm => ?_
        rcases List.mem_append.mp hm with hm | hm
        · exact members m hm
        · exact List.mem_singleton.mp hm ▸ .base

theorem orNull (h : t.WellFormed sorted) (nullable : Bool) :
    (t.orNull nullable).WellFormed sorted := by
  cases nullable with
  | false => exact h
  | true => exact h.nullable

theorem unionOf (h : ∀ t ∈ ts, t.WellFormed sorted) : (unionOf ts).WellFormed sorted := by
  match ts, h with
  | [], _ => exact .base
  | [one], h => exact h one List.mem_cons_self
  | _ :: _ :: _, h => exact .union (by simp) h

theorem intersectionOf (h : ∀ t ∈ ts, t.WellFormed sorted) :
    (intersectionOf ts).WellFormed sorted := by
  match ts, h with
  | [], _ => exact .base
  | [one], h => exact h one List.mem_cons_self
  | _ :: _ :: _, h => exact .intersection (by simp) h

theorem ofLiterals {values : List Literal} (h : values ≠ []) :
    (ofLiterals values).WellFormed sorted := by
  have hkept := Literal.distinct_ne_nil h
  unfold TypeExpr.ofLiterals
  generalize Literal.distinct values = literals at hkept
  have hall : ∀ t ∈ literals.map TypeExpr.literal, t.WellFormed sorted := by
    intro t ht
    obtain ⟨value, -, rfl⟩ := List.mem_map.mp ht
    exact .literal
  match literals, hkept, hall with
  | [one], _, _ => exact .literal
  | _ :: _ :: _, _, hall => exact .union (by simp) hall

theorem intersect (ht : t.WellFormed sorted) (hu : u.WellFormed sorted) :
    (t.intersect u).WellFormed sorted := by
  unfold TypeExpr.intersect
  split
  · next ms =>
    split
    · exact ht
    · cases ht with
      | intersection two members =>
          refine .intersection (by simpa using Nat.le_succ_of_le two) fun m hm => ?_
          rcases List.mem_append.mp hm with hm | hm
          · exact members m hm
          · exact List.mem_singleton.mp hm ▸ hu
  · refine .intersection (Nat.le_refl 2) ?_
    exact List.forall_mem_cons.mpr ⟨ht, List.forall_mem_singleton.mpr hu⟩

theorem agree (ht : t.WellFormed sorted) (hu : u.WellFormed sorted) :
    (t.agree u).WellFormed sorted := by
  unfold TypeExpr.agree
  split
  · exact ht
  · exact ht.intersect hu

end TypeExpr.WellFormed

/-! ## Objects -/

namespace ObjectType

variable {sorted : Bool} {a b o : ObjectType TypeExpr}

structure Ready (sorted : Bool) (o : ObjectType TypeExpr) : Prop where
  names : (o.properties.map Property.name).Nodup
  properties : ∀ p ∈ o.properties, p.type.WellFormed sorted
  index : ∀ t, o.index = some t → t.WellFormed sorted

theorem ready_of_wellFormed (h : (TypeExpr.object o).WellFormed sorted) : o.Ready sorted := by
  cases h with
  | object names properties index => exact ⟨names.nodup, properties, index⟩

theorem perm_arrange : (o.arrange sorted).properties.Perm o.properties := by
  cases sorted with
  | false => exact .refl _
  | true => exact perm_sortProperties o

theorem pairwise_sortProperties (h : (o.properties.map Property.name).Nodup) :
    (o.sortProperties.properties.map Property.name).Pairwise (· < ·) := by
  have hne : (o.sortProperties.properties.map Property.name).Nodup :=
    ((perm_sortProperties o).map _).nodup_iff.mpr h
  rw [List.Nodup, List.pairwise_map] at hne
  rw [List.pairwise_map]
  exact ((ordered_sortProperties o).and hne).imp fun hab => lt_of_le_of_ne hab.1 hab.2

theorem Ready.arrange (h : o.Ready sorted) :
    (TypeExpr.object (o.arrange sorted)).WellFormed sorted := by
  refine .object ⟨?_, ?_⟩ (fun p hp => h.properties p (mem_arrange.mp hp)) ?_
  · exact (perm_arrange.map _).nodup_iff.mpr h.names
  · rintro rfl
    exact (pairwise_sortProperties h.names).imp Text.bytesLt_of_lt
  · rw [index_arrange]
    exact h.index

theorem nodup_addProperty {ps : List (Property TypeExpr)} {p : Property TypeExpr}
    (h : (ps.map Property.name).Nodup) : ((addProperty ps p).map Property.name).Nodup := by
  rw [names_addProperty]
  split
  · exact h
  · next hnew => exact List.nodup_append.mpr ⟨h, by simp, by simpa using hnew⟩

theorem Ready.foldl_addProperty {ps qs : List (Property TypeExpr)}
    (hps : (ps.map Property.name).Nodup) (hp : ∀ p ∈ ps, p.type.WellFormed sorted)
    (hq : ∀ q ∈ qs, q.type.WellFormed sorted) :
    ((qs.foldl addProperty ps).map Property.name).Nodup ∧
      ∀ p ∈ qs.foldl addProperty ps, p.type.WellFormed sorted := by
  induction qs generalizing ps with
  | nil => exact ⟨hps, hp⟩
  | cons q qs ih =>
      refine ih (nodup_addProperty hps) (fun p hmem => ?_) fun r hr => hq r (List.mem_cons_of_mem _ hr)
      rcases mem_addProperty hmem with hmem | rfl | ⟨r, hr, htype⟩
      · exact hp p hmem
      · exact hq p List.mem_cons_self
      · rw [htype]
        exact (hp r hr).agree (hq q List.mem_cons_self)

theorem index_merge {t : TypeExpr} (h : (a.merge b).index = some t) :
    a.index = some t ∨ b.index = some t ∨
      ∃ x y, a.index = some x ∧ b.index = some y ∧ t = x.agree y := by
  obtain ⟨ps, ia⟩ := a
  obtain ⟨qs, ib⟩ := b
  cases ia with
  | none => exact .inr (.inl (by simpa [merge] using h))
  | some x =>
      cases ib with
      | none => exact .inl (by simpa [merge] using h)
      | some y => exact .inr (.inr ⟨x, y, rfl, rfl, (Option.some.inj h).symm⟩)

theorem Ready.merge (ha : a.Ready sorted) (hb : b.Ready sorted) : (a.merge b).Ready sorted := by
  obtain ⟨hnames, hproperties⟩ := foldl_addProperty ha.names ha.properties hb.properties
  refine ⟨hnames, hproperties, fun t ht => ?_⟩
  rcases index_merge ht with hx | hy | ⟨x, y, hx, hy, rfl⟩
  · exact ha.index t hx
  · exact hb.index t hy
  · exact (ha.index x hx).agree (hb.index y hy)

end ObjectType

namespace Operand

variable {sorted : Bool} {os : List Operand}

/-- The object that the objects among operands become together only has to be put into order. -/
theorem ready_mergedObject {o : ObjectType TypeExpr} (h : ∀ o ∈ os, o.alone.WellFormed sorted)
    (ho : mergedObject? os = some o) : o.Ready sorted := by
  have hall : ∀ a ∈ os.filterMap object?, a.Ready sorted := fun a ha =>
    ObjectType.ready_of_wellFormed (h _ (mem_filterMap_object?.mp ha))
  unfold mergedObject? at ho
  split at ho
  · cases ho
  · next first rest hlist =>
    cases ho
    rw [hlist] at hall
    obtain ⟨hfirst, hrest⟩ := List.forall_mem_cons.mp hall
    clear hlist hall
    induction rest generalizing first with
    | nil => exact hfirst
    | cons b rest ih =>
        obtain ⟨hb, hrest⟩ := List.forall_mem_cons.mp hrest
        exact ih _ (hfirst.merge hb) hrest

theorem wellFormed_combine (union : Bool) (h : ∀ o ∈ os, o.alone.WellFormed sorted) :
    (combine sorted union os).WellFormed sorted := by
  cases union with
  | true => exact .unionOf fun t ht => h _ (mem_filterMap_type?.mp ht)
  | false =>
      show (intersection sorted os).WellFormed sorted
      rw [intersection_eq]
      refine .intersectionOf fun t ht => ?_
      rcases mem_of_mem_place ht with hm | ho
      · obtain ⟨o, ho, rfl⟩ := mem_merged hm
        exact (ready_mergedObject h ho).arrange
      · exact h _ ho

end Operand

/-! ## Runs -/

def Declaration.WellFormed (sorted : Bool) (d : Declaration) : Prop :=
  match d.body with
  | .interface o => (TypeExpr.object o).WellFormed sorted
  | .synonym t => t.WellFormed sorted

def Finding.WellFormed (sorted : Bool) : Finding → Prop
  | .type t => t.WellFormed sorted
  | .object o => (TypeExpr.object o).WellFormed sorted
  | .properties qs => ∀ q ∈ qs, q.type.WellFormed sorted
  | .others index => ∀ t, index = some t → t.WellFormed sorted
  | .operands os => ∀ o ∈ os, o.alone.WellFormed sorted
  | .declarations ds => ∀ d ∈ ds, d.WellFormed sorted
  | .nothing => True

namespace Setting

variable {s : Setting} {model : SchemaModel} {p : Place} {task : Task} {st st' : Progress}
  {log : List Begun} {finding : Finding}

theorem Run.names_parameters {list : List PlacedParameter} {qs : List (Property TypeExpr)}
    (h : s.Run model {} (.parameters list) st log (.properties qs) st') :
    qs.map Property.name = list.map fun placed => placed.parameter.name := by
  have hall := h.properties_of_parameters
  clear h
  induction hall with
  | nil => rfl
  | cons hfirst _ ih =>
      obtain ⟨t, rfl⟩ := hfirst
      rw [List.map_cons, List.map_cons, ih]
      rfl

/-- From proper schemas a run finds well-formed types. -/
theorem Run.wellFormed (hdefinitions : ∀ d ∈ s.definitions.entries, d.root.ProperBelow)
    (h : s.Run model p task st log finding st') :
    task.AllBelow Node.Proper model → finding.WellFormed s.sorted := by
  induction h with
  | any | primitive | unsupported => exact fun _ => .orNull .base _
  | enum =>
      intro hp
      exact .orNull (.ofLiterals (hp _ .refl)) _
  | array _ ih =>
      intro hp
      exact .orNull (.array (ih (hp.part .items))) _
  | objectSchema _ ih =>
      intro hp
      exact (ih ⟨_, _, _, hp⟩).orNull _
  | referenceSchema _ ih => exact fun _ => (ih trivial).orNull _
  | composite _ ih =>
      intro hp
      refine (Operand.wellFormed_combine _ (ih fun m hm => ?_)).orNull _
      exact hp.part (.member hm)
  | object first _ ih₁ ih₂ =>
      rintro ⟨_, _, _, hp⟩
      refine ObjectType.Ready.arrange ⟨?_, ih₁ hp.properties, ih₂ hp.others⟩
      rw [first.names_properties]
      exact hp _ .refl
  | properties _ _ ih₁ ih₂ =>
      intro hp
      obtain ⟨hfirst, hrest⟩ := List.forall_mem_cons.mp hp
      exact List.forall_mem_cons.mpr ⟨ih₁ hfirst, ih₂ hrest⟩
  | typed _ ih =>
      intro hp t ht
      cases ht
      exact ih (hp _ rfl)
  | members _ _ ih₁ ih₂ =>
      intro hp
      obtain ⟨hfirst, hrest⟩ := List.forall_mem_cons.mp hp
      exact List.forall_mem_append.mpr ⟨ih₁ hfirst, ih₂ hrest⟩
  | liftedMember _ _ ih =>
      intro hp
      exact ih fun m hm => hp.part (.member hm)
  | objectMember _ _ ih =>
      intro hp
      exact List.forall_mem_singleton.mpr (ih ⟨_, _, _, hp⟩)
  | plainMember _ _ ih =>
      intro hp
      exact List.forall_mem_singleton.mpr (ih hp)
  | rootReference _ _ _ ih => exact fun _ => ih trivial
  | deepReference resolved _ _ _ ih =>
      intro _
      obtain ⟨d, way, entry, hwalk, -⟩ := DefinitionTable.resolve_ok resolved
      have hroot : d.root.AllBelow Node.Proper := hdefinitions d (List.mem_of_getElem? entry)
      exact ih (hroot.below (Node.walk_below hwalk))
  | recursiveReference | aliasCycle => exact fun _ => .base
  | knownDefinition | newDefinition | guardedCycle => exact fun _ => .named
  | unrestricted =>
      intro _ t ht
      cases ht
      exact .base
  | parameters _ _ ih₁ ih₂ =>
      intro hp
      obtain ⟨hfirst, hrest⟩ := List.forall_mem_cons.mp hp
      exact List.forall_mem_cons.mpr ⟨ih₁ hfirst, ih₂ hrest⟩
  | plainOperation _ _ _ ih => exact fun hp => ih (List.forall_mem_cons.mp hp).2
  | queryOperation effective _ first _ ih₁ ih₂ =>
      intro hp
      obtain ⟨hop, hrest⟩ := List.forall_mem_cons.mp hp
      refine List.forall_mem_cons.mpr ⟨?_, ih₂ hrest⟩
      refine ObjectType.Ready.arrange (o := { properties := _ }) ⟨?_, ih₁ ?_, fun _ ht => nomatch ht⟩
      · rw [first.names_parameters]
        exact PlacedParameter.nodup_queryNames (SchemaModel.effectiveParameters_distinct effective)
      · exact fun placed hplaced => hop _ effective placed (List.mem_filter.mp hplaced).1
  | queryBuild paths _ _ _ ih => exact fun hp => ih (hp _ paths)
  | closed => exact fun _ _ ht => nomatch ht
  | noProperties | noMembers | skippedMember | noParameters | noOperations | build =>
      exact fun _ _ hmem => nomatch hmem
  | noDefinitions | definitions => exact fun _ => trivial

end Setting

namespace SchemaModel

variable {document : Value} {withOperations sorted withQuery : Bool} {model : SchemaModel}
  {b : Build}

/-- Every declaration that is built from a document is well formed, those of query parameters too: at
every depth a union or an intersection has two members at least, and the properties of an object have
different names, which increase in the order of their bytes when sorting is asked for. -/
theorem declarations_wellFormed (hmodel : ofDocument document withOperations = .ok model)
    (h : model.build sorted withQuery = .ok b) :
    ∀ d ∈ b.declarations, d.WellFormed sorted := by
  have hproper := allBelow_of_document document.grants_proper hmodel
  obtain ⟨log, st, queries, hb⟩ := built_of_ok h
  refine hb.all (fun d hd _ _ _ _ _ run => ?_) ?_
  · exact run.wellFormed hproper.definitions (hproper.definitions d hd)
  · refine hb.run.wellFormed hproper.definitions ?_
    cases withQuery with
    | false => trivial
    | true => exact fun ops hops op hop => hproper.parametersBelow (hproper.operations ops hops op hop)

def petSearch : Value :=
  .object
    [("definitions", .object
      [("Pet", .object [("allOf", .array
        [.object [("properties", .object
            [("name", .object [("type", .string "string")]),
              ("kind", .object [("enum", .array [.string "cat", .string "dog", .string "cat"])])])],
          .object [("properties", .object
            [("name", .object [("enum", .array [.string "Rex"]), ("x-nullable", .bool true)]),
              ("age", .object [("type", .string "integer")])])]])])]),
      ("paths", .object
        [("/pets", .object
          [("get", .object
            [("parameters", .array
              [.object [("name", .string "name"), ("in", .string "query"), ("type", .string "string")],
                .object
                  [("name", .string "age"), ("in", .string "query"), ("type", .string "integer")]])])])])]

def propertyNames (d : Declaration) : List String :=
  match d.body with
  | .interface o | .synonym (.object o) => o.properties.map Property.name
  | .synonym _ => []

theorem petSearch_names :
    (ofDocument petSearch true >>= fun model => model.build false true).toOption.map
      (fun b => b.declarations.map fun d => (d.name, propertyNames d)) =
        some [("Pet", ["name", "kind", "age"]), ("GetPetsQuery", ["name", "age"])] := by
  decide +kernel

/-- The declarations are well formed as they come and, where they are asked for so, in order. -/
theorem petSearch_wellFormed : ∃ model b b', ofDocument petSearch true = .ok model ∧
    model.build false true = .ok b ∧ model.build true true = .ok b' ∧
      (b.declarations.map fun d => (d.name, propertyNames d)) =
        [("Pet", ["name", "kind", "age"]), ("GetPetsQuery", ["name", "age"])] ∧
      (∀ d ∈ b.declarations, d.WellFormed false) ∧ ∀ d ∈ b'.declarations, d.WellFormed true := by
  obtain ⟨b, hbind, hnames⟩ := eq_ok_of_toOption_map petSearch_names
  obtain ⟨model, hmodel, hbuild⟩ := bind_eq_ok.mp hbind
  obtain ⟨b', hsorted⟩ := exists_build_sorted hbuild
  exact ⟨model, b, b', hmodel, hbuild, hsorted, hnames, declarations_wellFormed hmodel hbuild,
    declarations_wellFormed hmodel hsorted⟩

end SchemaModel

end SwaggerTypes
