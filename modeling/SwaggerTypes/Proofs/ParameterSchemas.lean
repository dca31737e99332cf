import SwaggerTypes.Proofs.RunTypes
import SwaggerTypes.Proofs.WrittenSchemas
/-!
# Schemas of parameters

What is true of the schemas of definitions is true of those of parameters as well: a parameter is read
from its own value, wherever it stands, and what holds for an operation are parameters of its path, of
its own, or reusable ones. No two of them have the same name and location.
-/

namespace SwaggerTypes

/-- What comes out of a list read item by item has been read from one of the items. -/
theorem mem_of_mapM_ok {ε α β : Type} {f : α → Except ε β} {l : List α} {l' : List β}
    (h : l.mapM f = .ok l') : ∀ b ∈ l', ∃ a ∈ l, f a = .ok b := by
  induction l generalizing l' with
  | nil =>
      cases h
      exact fun b hb => nomatch hb
  | cons a l ih =>
      rw [List.mapM_cons] at h
      obtain ⟨first, hfirst, h⟩ := bind_eq_ok.mp h
      obtain ⟨rest, hrest, heq⟩ := bind_eq_ok.mp h
      cases heq
      intro b hb
      rcases List.mem_cons.mp hb with rfl | hb
      · exact ⟨a, List.mem_cons_self, hfirst⟩
      · obtain ⟨c, hc, hread⟩ := ih hrest b hb
        exact ⟨c, List.mem_cons_of_mem _ hc, hread⟩

theorem Reading.here_eq_ok {α : Type} {r : Except Mismatch α} {a : α}
    (h : Reading.here r = .ok a) : r = .ok a := by
  cases r with
  | error m => cases h
  | ok b =>
      cases h
      rfl

namespace Value

variable {α : Type} {read : Value → Reading α} {v : Value}

theorem mem_of_readMap {entries : Entries α} (h : v.readMap read = .ok entries) :
    ∀ e ∈ entries, ∃ w, v.Holds w ∧ read w = .ok e.2 := by
  cases v with
  | object fields =>
      obtain ⟨list, hlist, heq⟩ := bind_eq_ok.mp h
      cases heq
      intro e he
      obtain ⟨field, hfield, hread⟩ := mem_of_mapM_ok hlist e (Entries.mem_ofList he)
      replace hread := Reading.under_eq_ok hread
      cases hw : read field.2 with
      | error m =>
          rw [hw] at hread
          cases hread
      | ok a =>
          rw [hw] at hread
          cases hread
          exact ⟨field.2, .inl ⟨fields, field.1, rfl, hfield⟩, hw⟩
  | _ => cases h

theorem mem_of_readList {list : List α} (h : v.readList read = .ok list) :
    ∀ a ∈ list, ∃ w, v.Holds w ∧ read w = .ok a := by
  cases v with
  | array items =>
      intro a ha
      obtain ⟨item, hitem, hread⟩ := mem_of_mapM_ok h a ha
      have hmem := List.mem_of_getElem? (List.mk_mem_zipIdx_iff_getElem?.mp hitem)
      exact ⟨item.1, .inr ⟨items, rfl, hmem⟩, Reading.under_eq_ok hread⟩
  | _ => cases h

end Value

/-! ## Written parameters -/

namespace ParameterFields

/-- The schemas in the fields of a parameter have a property, and what it lists stands in the value. -/
structure Carries (v : Value) (P : Node → Prop) (p : ParameterFields) : Prop where
  schema : ∀ node, p.schema = some node → node.AllBelow P
  items : ∀ node, p.items = some node → node.AllBelow P
  enum : ∀ values, p.enum = some values → ∀ w ∈ values, v.Contains w

variable {p p' : ParameterFields} {v w : Value} {P : Node → Prop}

theorem set_carries {name : String} (hP : v.Grants P) (hw : v.Holds w) (hp : p.Carries v P)
    (h : p.set name w = .ok p') : p'.Carries v P := by
  have hvalue : ∀ node, some (Node.ofValue w) = some node → node.AllBelow P := by
    intro node hnode
    cases hnode
    exact Node.allBelow_ofValue (hP.of_holds hw)
  unfold set at h
  replace h := Reading.here_eq_ok h
  split at h
  case h_6 =>
    cases h
    refine ⟨fun node hnode => ?_, hp.items, hp.enum⟩
    split at hnode
    · cases hnode
    · exact hvalue node hnode
  case h_9 =>
    cases h
    refine ⟨hp.schema, fun node hnode => ?_, hp.enum⟩
    split at hnode
    · cases hnode
    · exact hvalue node hnode
  case h_10 =>
    obtain ⟨found, hread, heq⟩ := bind_eq_ok.mp h
    cases heq
    refine ⟨hp.schema, hp.items, fun values hvalues u hu => ?_⟩
    have hlist := Value.array_of_asList (hread.trans (congrArg _ hvalues))
    exact (Relation.ReflTransGen.single hw).tail (.inr ⟨values, hlist, hu⟩)
  all_goals
    first
      | obtain ⟨_, -, heq⟩ := bind_eq_ok.mp h
        cases heq
        exact ⟨hp.schema, hp.items, hp.enum⟩
      | cases h
        exact hp

theorem ofValue_carries (hP : v.Grants P) (h : ofValue v = .ok p) : p.Carries v P :=
  Record.read_invariant (Carries v P) h ⟨nofun, nofun, nofun⟩
    fun _ _ _ _ hw hp hset => set_carries hP hw hp hset

/-- In the schema of a parameter's value all has the property that the parameter's value grants. -/
theorem allBelow_valueSchema (hP : v.Grants P) (h : ofValue v = .ok p) :
    p.valueSchema.AllBelow P := by
  have hp := ofValue_carries hP h
  unfold ParameterFields.valueSchema
  cases hschema : p.schema with
  | some node => exact hp.schema node hschema
  | none =>
      have hnone : p.keywords.properties = none := rfl
      have hk : p.keywords.Carries v P := by
        refine ⟨?_, hp.enum, nofun, fun segments part hw => ?_⟩
        · rw [hnone]
          exact nofun
        cases hw with
        | items h =>
            obtain ⟨_, hnode, heq⟩ := Option.map_eq_some_iff.mp h
            cases heq
            exact hp.items _ hnode
        | property hps => cases hps
        | additional h => cases h
        | @member keyword _ _ _ hms =>
            cases keyword <;> cases hms
      exact hk.node hP

end ParameterFields

def ParameterSlot.AllBelow (P : Node → Prop) : ParameterSlot → Prop
  | .inline parameter => parameter.schema.AllBelow P
  | .reference _ => True

section

variable {P : Node → Prop}

theorem ParameterFields.slot_allBelow {p : ParameterFields} {place : String} {slot : ParameterSlot}
    (hp : p.valueSchema.AllBelow P) (h : p.slot place = .ok slot) : slot.AllBelow P := by
  unfold ParameterFields.slot at h
  split at h
  · cases h
    trivial
  · cases h
  · cases h
  · cases h
    exact hp

theorem slots_allBelow {list : List ParameterFields} {place : String} {slots : List ParameterSlot}
    (hlist : ∀ p ∈ list, p.valueSchema.AllBelow P) (h : list.mapM (·.slot place) = .ok slots) :
    ∀ slot ∈ slots, slot.AllBelow P := by
  intro slot hslot
  obtain ⟨p, hp, hread⟩ := mem_of_mapM_ok h slot hslot
  exact ParameterFields.slot_allBelow (hlist p hp) hread

theorem parameters_allBelow {v : Value} {list : List ParameterFields} (hP : v.Grants P)
    (h : v.readList ParameterFields.ofValue = .ok list) :
    ∀ p ∈ list, p.valueSchema.AllBelow P := by
  intro p hp
  obtain ⟨w, hw, hread⟩ := Value.mem_of_readList h p hp
  exact ParameterFields.allBelow_valueSchema (hP.of_holds hw) hread

/-! ## Operations -/

structure PathItem.Carries (P : Node → Prop) (item : PathItem) : Prop where
  parameters : ∀ p ∈ item.parameters, p.valueSchema.AllBelow P
  rest : ∀ e ∈ item.rest, e.2.Grants P

theorem PathItem.ofValue_carries {v : Value} {item : PathItem} (hP : v.Grants P)
    (h : PathItem.ofValue v = .ok item) : item.Carries P := by
  cases v with
  | object fields =>
      have hread : Record.pathItem.read PathItem.set {} (.object fields) = .ok item := h
      refine Record.read_invariant (Carries P) hread
        ⟨fun _ hp => (nomatch hp), fun _ he => (nomatch he)⟩ fun item name w item' hw hitem hset => ?_
      unfold PathItem.set at hset
      split at hset
      · obtain ⟨list, hlist, heq⟩ := bind_eq_ok.mp hset
        cases heq
        exact ⟨parameters_allBelow (hP.of_holds hw) hlist, hitem.rest⟩
      · cases hset
        refine ⟨hitem.parameters, fun e he => ?_⟩
        rcases List.mem_append.mp he with he | he
        · exact hitem.rest e he
        · exact List.mem_singleton.mp he ▸ hP.of_holds hw
  | _ => cases h

theorem OperationFields.parameters_allBelow {v : Value} {op : OperationFields} (hP : v.Grants P)
    (h : OperationFields.ofValue v = .ok op) : ∀ p ∈ op.parameters, p.valueSchema.AllBelow P := by
  refine Record.read_invariant
    (fun op : OperationFields => ∀ p ∈ op.parameters, p.valueSchema.AllBelow P) h
    (fun _ hp => nomatch hp) fun op name w op' hw hold hset => ?_
  unfold OperationFields.set at hset
  split at hset
  · obtain ⟨_, -, heq⟩ := bind_eq_ok.mp hset
    cases heq
    exact hold
  · obtain ⟨list, hlist, heq⟩ := bind_eq_ok.mp hset
    cases heq
    exact SwaggerTypes.parameters_allBelow (hP.of_holds hw) hlist
  · cases hset
    exact hold

structure Operation.AllBelow (P : Node → Prop) (op : Operation) : Prop where
  shared : ∀ slot ∈ op.pathParameters, slot.AllBelow P
  own : ∀ slot ∈ op.parameters, slot.AllBelow P

theorem PathItem.operations_allBelow {path : String} {item : PathItem} {ops : List Operation}
    (hitem : item.Carries P) (h : item.operations path = .ok ops) : ∀ op ∈ ops, op.AllBelow P := by
  obtain ⟨shared, hshared, h⟩ := bind_eq_ok.mp h
  intro op hop
  obtain ⟨⟨method, v⟩, hmem, hread⟩ := mem_of_mapM_ok h op hop
  obtain ⟨fields, hfields, hread⟩ := bind_eq_ok.mp hread
  obtain ⟨own, hown, heq⟩ := bind_eq_ok.mp hread
  cases heq
  have hv := hitem.rest _ (List.mem_filter.mp hmem).1
  exact ⟨slots_allBelow hitem.parameters hshared,
    slots_allBelow (OperationFields.parameters_allBelow hv (readSection_eq_ok hfields)) hown⟩

theorem Operation.ofPaths_allBelow {paths : Entries PathItem} {ops : List Operation}
    (hpaths : ∀ e ∈ paths, e.2.Carries P) (h : Operation.ofPaths paths = .ok ops) :
    ∀ op ∈ ops, op.AllBelow P := by
  obtain ⟨lists, hlists, heq⟩ := bind_eq_ok.mp h
  cases heq
  intro op hop
  obtain ⟨list, hlist, hop⟩ := List.mem_flatten.mp hop
  obtain ⟨e, he, hread⟩ := mem_of_mapM_ok hlists list hlist
  exact PathItem.operations_allBelow (hpaths e he) hread op hop

theorem Operation.ofSection_allBelow {paths : Option Value} {operations : Option (List Operation)}
    (hP : ∀ v, paths = some v → v.Grants P)
    (h : (paths.mapM fun v => do
      Operation.ofPaths (← readSection "paths" (v.readMap PathItem.ofValue)) :
        Outcome (Option (List Operation))) = .ok operations) :
    ∀ ops, operations = some ops → ∀ op ∈ ops, op.AllBelow P := by
  rintro ops rfl
  cases paths with
  | none => cases h
  | some v =>
      obtain ⟨items, hread, hops⟩ := bind_eq_ok.mp (map_some_eq_ok h)
      refine Operation.ofPaths_allBelow (fun e he => ?_) hops
      obtain ⟨w, hw, hitem⟩ := Value.mem_of_readMap (readSection_eq_ok hread) e he
      exact PathItem.ofValue_carries ((hP v rfl).of_holds hw) hitem

theorem ParameterSlot.tableOf_allBelow {segments : List String} {v : Option Value}
    {table : Entries ParameterSlot} (hP : ∀ w, v = some w → w.Grants P)
    (h : ParameterSlot.tableOf segments v = .ok table) : ∀ e ∈ table, e.2.AllBelow P := by
  cases v with
  | none =>
      cases h
      exact nofun
  | some v =>
      obtain ⟨fields, hfields, h⟩ := bind_eq_ok.mp h
      intro e he
      obtain ⟨entry, hentry, hread⟩ := mem_of_mapM_ok h e he
      obtain ⟨slot, hslot, heq⟩ := bind_eq_ok.mp hread
      cases heq
      obtain ⟨w, hw, hread⟩ := Value.mem_of_readMap (readSection_eq_ok hfields) entry hentry
      have hwritten := ParameterFields.allBelow_valueSchema ((hP v rfl).of_holds hw) hread
      exact ParameterFields.slot_allBelow hwritten hslot

/-! ## Models of documents -/

theorem Value.Grants.present {v w : Value} (hP : v.Grants P) (h : v.present? = some w) :
    w.Grants P := by
  cases v with
  | null => cases h
  | _ =>
      cases h
      exact hP

theorem Components.parameters_grants {v : Value} {c : Components} (hP : v.Grants P)
    (h : Components.ofValue v = .ok (some c)) : ∀ w, c.parameters = some w → w.Grants P := by
  refine Record.read_invariant
    (fun c : Components => ∀ w, c.parameters = some w → w.Grants P) (read_of_value h) nofun
    fun c name u c' hu hold hset w hw => ?_
  unfold Components.set at hset
  split at hset
  · obtain ⟨_, -, heq⟩ := bind_eq_ok.mp hset
    cases heq
    exact hold w hw
  · cases hset
    exact (hP.of_holds hu).present hw
  · cases hset
    exact hold w hw

structure Sections.Grants (P : Node → Prop) (s : Sections) : Prop where
  parameters : ∀ v, s.parameters = some v → v.Grants P
  components : ∀ c, s.components = some c → ∀ v, c.parameters = some v → v.Grants P
  paths : ∀ v, s.paths = some v → v.Grants P

theorem Sections.grants_of_document {fields : List (String × Value)} {s : Sections}
    (hP : (Value.object fields).Grants P) (h : Sections.ofDocument (.object fields) = .ok s) :
    s.Grants P := by
  refine foldlM_invariant (Sections.Grants P) (readSection_eq_ok h) ⟨nofun, nofun, nofun⟩
    fun s field hfield s' hs hset => ?_
  have hv := hP.of_holds (.inl ⟨fields, field.1, rfl, hfield⟩)
  replace hset := Reading.under_eq_ok hset
  unfold Sections.set at hset
  split at hset
  · obtain ⟨_, -, heq⟩ := bind_eq_ok.mp hset
    cases heq
    exact ⟨hs.parameters, hs.components, hs.paths⟩
  · cases hset
    exact ⟨fun _ hw => hv.present hw, hs.components, hs.paths⟩
  · obtain ⟨found, hread, heq⟩ := bind_eq_ok.mp hset
    cases heq
    refine ⟨hs.parameters, fun c hc => ?_, hs.paths⟩
    exact Components.parameters_grants hv (hread.trans (congrArg _ hc))
  · cases hset
    exact ⟨hs.parameters, hs.components, fun _ hw => hv.present hw⟩
  · cases hset
    exact hs

end

namespace SchemaModel

structure AllBelow (P : Node → Prop) (model : SchemaModel) : Prop where
  definitions : ∀ d ∈ model.definitions.entries, d.root.AllBelow P
  parameters : ∀ e ∈ model.parameters, e.2.AllBelow P
  operations : ∀ ops, model.operations = some ops → ∀ op ∈ ops, op.AllBelow P

/-- All schemas that a document is read as have the property that the document grants. -/
theorem allBelow_of_document {document : Value} {withOperations : Bool} {model : SchemaModel}
    {P : Node → Prop} (hP : document.Grants P)
    (h : SchemaModel.ofDocument document withOperations = .ok model) : model.AllBelow P := by
  have hdefinitions : ∀ d ∈ model.definitions.entries, d.root.AllBelow P := by
    intro d hd
    obtain ⟨v, hv, hroot⟩ := root_of_document h hd
    rw [hroot]
    exact Node.allBelow_ofValue (hP.of_contains hv)
  obtain ⟨sections, hread, hrest⟩ := bind_eq_ok.mp h
  have hsections : sections.Grants P := by
    cases document with
    | object fields => exact Sections.grants_of_document hP hread
    | _ => cases hread
  cases withOperations with
  | false =>
      cases hrest
      exact ⟨hdefinitions, nofun, nofun⟩
  | true =>
      obtain ⟨plain, hplain, hrest⟩ := bind_eq_ok.mp hrest
      obtain ⟨reusable, hreusable, hrest⟩ := bind_eq_ok.mp hrest
      obtain ⟨operations, hoperations, heq⟩ := bind_eq_ok.mp hrest
      cases heq
      refine ⟨hdefinitions, fun e he => ?_, fun ops hops => ?_⟩
      · rcases List.mem_append.mp he with he | he
        · exact ParameterSlot.tableOf_allBelow hsections.parameters hplain e he
        · refine ParameterSlot.tableOf_allBelow (fun w hw => ?_) hreusable e he
          obtain ⟨c, hc, hw⟩ := Option.bind_eq_some_iff.mp hw
          exact hsections.components c hc w hw
      · exact Operation.ofSection_allBelow hsections.paths hoperations ops hops

end SchemaModel

/-! ## The parameters of an operation -/

theorem ParameterSlot.follow_allBelow {P : Node → Prop} {table : Entries ParameterSlot}
    {visited : List String} {slot : ParameterSlot} {parameter : Parameter}
    (htable : ∀ e ∈ table, e.2.AllBelow P) (hslot : slot.AllBelow P)
    (h : slot.follow table visited = .ok parameter) : parameter.schema.AllBelow P := by
  fun_induction ParameterSlot.follow table visited slot with
  | case1 =>
      cases h
      exact hslot
  | case2 | case3 | case4 => cases h
  | case5 visited pointer segments hparse canonical hnew next hnext ih =>
      exact ih (htable _ (Entries.mem_of_get? hnext)) h

theorem Parameter.same_iff {a b : Parameter} :
    a.same b = true ↔ a.name = b.name ∧ a.location = b.location := by
  simp [same]

theorem Parameter.same_comm (a b : Parameter) : a.same b = b.same a := by
  rw [Bool.eq_iff_iff, same_iff, same_iff]
  exact ⟨fun h => ⟨h.1.symm, h.2.symm⟩, fun h => ⟨h.1.symm, h.2.symm⟩⟩

theorem Parameter.same_congr {a b c : Parameter} (h : a.same b = true) : a.same c = b.same c := by
  obtain ⟨hname, hlocation⟩ := same_iff.mp h
  rw [same, same, hname, hlocation]

namespace PlacedParameter

/-- No two parameters are the same one to an operation. -/
def Distinct (list : List PlacedParameter) : Prop :=
  list.Pairwise fun a b => a.parameter.same b.parameter = false

variable {list : List PlacedParameter} {placed q : PlacedParameter}

theorem mem_override (h : q ∈ placed.override list) : q = placed ∨ q ∈ list := by
  induction list with
  | nil => exact .inl (List.mem_singleton.mp h)
  | cons r rest ih =>
      unfold override at h
      split at h
      · exact (List.mem_cons.mp h).imp_right (List.mem_cons_of_mem _)
      · rcases List.mem_cons.mp h with rfl | h
        · exact .inr List.mem_cons_self
        · exact (ih h).imp_right (List.mem_cons_of_mem _)

theorem mem_foldl_override {own : List PlacedParameter}
    (h : q ∈ own.foldl (fun list placed => placed.override list) list) : q ∈ list ∨ q ∈ own := by
  induction own generalizing list with
  | nil => exact .inl h
  | cons placed own ih =>
      rcases ih h with h | h
      · rcases mem_override h with rfl | h
        · exact .inr List.mem_cons_self
        · exact .inl h
      · exact .inr (List.mem_cons_of_mem _ h)

/-- The parameter that is put in stands for those of its name and location. -/
theorem distinct_override (h : Distinct list) : Distinct (placed.override list) := by
  induction list with
  | nil => exact List.pairwise_singleton _ _
  | cons r rest ih =>
      obtain ⟨hr, hrest⟩ := List.pairwise_cons.mp h
      unfold override
      split
      · next hsame =>
        refine List.pairwise_cons.mpr ⟨fun q hq => ?_, hrest⟩
        rw [← Parameter.same_congr hsame]
        exact hr q hq
      · next hne =>
        refine List.pairwise_cons.mpr ⟨fun q hq => ?_, ih hrest⟩
        rcases mem_override hq with rfl | hq
        · exact Bool.eq_false_iff.mpr hne
        · exact hr q hq

theorem distinct_foldl_override {own : List PlacedParameter} (h : Distinct list) :
    Distinct (own.foldl (fun list placed => placed.override list) list) := by
  induction own generalizing list with
  | nil => exact h
  | cons placed own ih => exact ih (distinct_override h)

theorem distinct_snoc (h : Distinct list) (hnew : occurs list placed.parameter = false) :
    Distinct (list ++ [placed]) := by
  refine List.pairwise_append.mpr ⟨h, List.pairwise_singleton _ _, ?_⟩
  intro a ha b hb
  obtain rfl := List.mem_singleton.mp hb
  simpa using List.any_eq_false.mp hnew a ha

/-- Query parameters have different names. -/
theorem nodup_queryNames (h : Distinct list) :
    ((ofQuery list).map fun placed => placed.parameter.name).Nodup := by
  refine List.pairwise_map.mpr (List.pairwise_filter.mpr (h.imp ?_))
  intro a b hdistinct ha hb hname
  have hlocation : a.parameter.location = b.parameter.location :=
    (of_decide_eq_true ha).trans (of_decide_eq_true hb).symm
  rw [Parameter.same_iff.mpr ⟨hname, hlocation⟩] at hdistinct
  cases hdistinct

end PlacedParameter

namespace SchemaModel

variable {model : SchemaModel} {P : Node → Prop} {op : Operation} {list : List PlacedParameter}

/-- The parameters of a list are those that its slots lead to, and none of them is there twice. -/
theorem parameterList_eq_ok {owner : String} {slots : List ParameterSlot}
    (h : model.parameterList owner slots = .ok list) :
    (∀ placed ∈ list, ∃ slot ∈ slots, model.resolveParameter slot = .ok placed.parameter) ∧
      PlacedParameter.Distinct list := by
  refine foldlM_invariant
    (fun list : List PlacedParameter =>
      (∀ placed ∈ list, ∃ slot ∈ slots, model.resolveParameter slot = .ok placed.parameter) ∧
        PlacedParameter.Distinct list) h ⟨nofun, List.Pairwise.nil⟩ ?_
  rintro list ⟨slot, index⟩ hmem list' ⟨hold, hdistinct⟩ hstep
  obtain ⟨parameter, hresolve, hstep⟩ := bind_eq_ok.mp hstep
  cases hoccurs : PlacedParameter.occurs list parameter with
  | true =>
      rw [hoccurs] at hstep
      cases hstep
  | false =>
      rw [hoccurs] at hstep
      cases hstep
      refine ⟨fun placed hplaced => ?_, PlacedParameter.distinct_snoc hdistinct hoccurs⟩
      rcases List.mem_append.mp hplaced with hplaced | hplaced
      · exact hold placed hplaced
      · obtain rfl := List.mem_singleton.mp hplaced
        have hslot := List.mem_of_getElem? (List.mk_mem_zipIdx_iff_getElem?.mp hmem)
        exact ⟨slot, hslot, hresolve⟩

theorem effectiveParameters_distinct (h : model.effectiveParameters op = .ok list) :
    PlacedParameter.Distinct list := by
  obtain ⟨shared, hshared, h⟩ := bind_eq_ok.mp h
  obtain ⟨own, -, heq⟩ := bind_eq_ok.mp h
  cases heq
  exact PlacedParameter.distinct_foldl_override (parameterList_eq_ok hshared).2

theorem AllBelow.parametersBelow (h : model.AllBelow P) (hop : op.AllBelow P) :
    model.ParametersBelow P op := by
  intro list hlist placed hplaced
  obtain ⟨shared, hshared, hlist⟩ := bind_eq_ok.mp hlist
  obtain ⟨own, hown, heq⟩ := bind_eq_ok.mp hlist
  cases heq
  have hschema : ∀ {owner slots list}, model.parameterList owner slots = .ok list →
      (∀ slot ∈ slots, slot.AllBelow P) → placed ∈ list → placed.parameter.schema.AllBelow P := by
    intro owner slots list hlist hslots hmem
    obtain ⟨slot, hslot, hresolve⟩ := (parameterList_eq_ok hlist).1 placed hmem
    exact ParameterSlot.follow_allBelow h.parameters (hslots slot hslot) hresolve
  rcases PlacedParameter.mem_foldl_override hplaced with hmem | hmem
  · exact hschema hshared hop.shared hmem
  · exact hschema hown hop.own hmem

end SchemaModel

end SwaggerTypes
