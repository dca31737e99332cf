import SwaggerTypes.Proofs.ParameterKeywords
/-!
# Where parameters are written

Reusable parameters stand under their names in a section of the document, the parameters of a path
and of an operation at the positions of a list. Here it is said for each slot of a model which value
of the document it was read from. In a list form of a record there are no keys to go by, so what is
read from components or from an operation in that form has no such place.
-/

namespace SwaggerTypes

/-! ## Keys without repetition -/

namespace Value

mutual

/-- Whether each map in a value has each of its keys once, as in all documents of JSON. -/
def hasDistinctKeys : Value → Bool
  | array items => itemsDistinctKeys items
  | object fields => decide (fields.map Prod.fst).Nodup && fieldsDistinctKeys fields
  | null | bool _ | integer _ | float _ | string _ => true
termination_by structural v => v

def itemsDistinctKeys : List Value → Bool
  | [] => true
  | v :: vs => v.hasDistinctKeys && itemsDistinctKeys vs
termination_by structural vs => vs

def fieldsDistinctKeys : List (String × Value) → Bool
  | [] => true
  | (_, v) :: fields => v.hasDistinctKeys && fieldsDistinctKeys fields
termination_by structural fields => fields

end

theorem itemsDistinctKeys_eq (items : List Value) :
    itemsDistinctKeys items = items.all hasDistinctKeys := by
  induction items with
  | nil => rfl
  | cons v vs ih => rw [itemsDistinctKeys, ih, List.all_cons]

theorem fieldsDistinctKeys_eq (fields : List (String × Value)) :
    fieldsDistinctKeys fields = fields.all fun field => field.2.hasDistinctKeys := by
  induction fields with
  | nil => rfl
  | cons field fields ih => rw [fieldsDistinctKeys, ih, List.all_cons]

/-- A value stands in a document behind these keys, and in it each map has each of its keys once. -/
structure Stands (document : Value) (keys : List String) (v : Value) : Prop where
  locate : document.locate keys = some v
  distinct : v.hasDistinctKeys = true

variable {document v w : Value} {keys : List String}

theorem Stands.root (h : document.hasDistinctKeys = true) : document.Stands [] document := ⟨rfl, h⟩

theorem Stands.field {fields : List (String × Value)} {name : String}
    (h : document.Stands keys (.object fields)) (hmem : (name, w) ∈ fields) :
    document.Stands (keys ++ [name]) w := by
  have hdistinct := h.distinct
  rw [hasDistinctKeys, Bool.and_eq_true, decide_eq_true_eq, fieldsDistinctKeys_eq,
    List.all_eq_true] at hdistinct
  refine ⟨?_, hdistinct.2 _ hmem⟩
  have hget := Entries.get?_ofList_of_mem hdistinct.1 hmem
  rw [locate_append, h.locate, Option.bind_some, Value.locate, field?, hget]
  rfl

theorem Stands.item {items : List Value} {i : Nat} (h : document.Stands keys (.array items))
    (hitem : items[i]? = some w) : document.Stands (keys ++ [toString i]) w := by
  have hdistinct := h.distinct
  rw [hasDistinctKeys, itemsDistinctKeys_eq, List.all_eq_true] at hdistinct
  refine ⟨?_, hdistinct _ (List.mem_of_getElem? hitem)⟩
  rw [locate_append, h.locate, Option.bind_some, Value.locate, field?, Pointer.position?_toString]
  simp [hitem, Value.locate]

theorem locate_array_of_key {items : List Value} {key : String} {below : List String}
    (h : document.locate keys = some (.array items)) (hkey : Pointer.position? key = none) :
    document.locate (keys ++ key :: below) = none := by
  rw [locate_append, h, Option.bind_some, Value.locate, field?, hkey]
  rfl

end Value

/-! ## Slots -/

namespace Value

variable {v : Value}

def WritesSlot (v : Value) (slot : ParameterSlot) : Prop :=
  ∃ fields place, ParameterFields.ofValue v = .ok fields ∧ fields.slot place = .ok slot

theorem writesSlot_inline {parameter : Parameter} :
    v.WritesSlot (.inline parameter) ↔ v.WritesParameter parameter := Iff.rfl

theorem WritesSlot.not_writesParameter {pointer : String} {parameter : Parameter}
    (h : v.WritesSlot (.reference pointer)) : ¬ v.WritesParameter parameter := by
  rintro ⟨p, place, hp, hslot⟩
  obtain ⟨p', place', hp', hslot'⟩ := h
  cases hp.symm.trans hp'
  obtain ⟨href, -⟩ := ParameterFields.slot_inline hslot
  cases (ParameterFields.slot_reference hslot').symm.trans href

end Value

theorem getElem?_of_mapM_ok {ε α β : Type} {f : α → Except ε β} {l : List α} {l' : List β} {i : Nat}
    {b : β} (h : l.mapM f = .ok l') (hb : l'[i]? = some b) : ∃ a, l[i]? = some a ∧ f a = .ok b := by
  induction l generalizing l' i with
  | nil =>
      cases h
      cases hb
  | cons a l ih =>
      rw [List.mapM_cons] at h
      obtain ⟨first, hfirst, h⟩ := bind_eq_ok.mp h
      obtain ⟨rest, hrest, heq⟩ := bind_eq_ok.mp h
      cases heq
      cases i with
      | zero =>
          cases hb
          exact ⟨a, rfl, hfirst⟩
      | succ i => exact ih hrest hb

/-- Each of the fields in a list is read from the value at its position. -/
theorem Value.getElem?_of_readList {α : Type} {read : Value → Reading α} {v : Value} {list : List α}
    {i : Nat} {a : α} (h : v.readList read = .ok list) (ha : list[i]? = some a) :
    ∃ items w, v = .array items ∧ items[i]? = some w ∧ read w = .ok a := by
  cases v with
  | array items =>
      obtain ⟨⟨w, j⟩, hitem, hread⟩ := getElem?_of_mapM_ok h ha
      rw [List.getElem?_zipIdx, Option.map_eq_some_iff] at hitem
      obtain ⟨u, hu, heq⟩ := hitem
      cases heq
      exact ⟨items, w, rfl, hu, Reading.under_eq_ok hread⟩
  | _ => cases h

theorem Value.mem_fields_of_readMap {α : Type} {read : Value → Reading α} {v : Value}
    {entries : Entries α} (h : v.readMap read = .ok entries) {e : String × α} (he : e ∈ entries) :
    ∃ fields w, v = .object fields ∧ (e.1, w) ∈ fields ∧ read w = .ok e.2 := by
  cases v with
  | object fields =>
      obtain ⟨list, hlist, heq⟩ := bind_eq_ok.mp h
      cases heq
      obtain ⟨field, hfield, hread⟩ := mem_of_mapM_ok hlist e (Entries.mem_ofList he)
      replace hread := Reading.under_eq_ok hread
      cases hw : read field.2 with
      | error m =>
          rw [hw] at hread
          cases hread
      | ok a =>
          rw [hw] at hread
          cases hread
          exact ⟨fields, field.2, rfl, hfield, hw⟩
  | _ => cases h

/-- What holds at the start of a reading of a map and is kept by each of its fields holds at its
end. -/
theorem Record.read_object_invariant {σ : Type} (P : σ → Prop) {r : Record}
    {set : σ → String → Value → Reading σ} {s s' : σ} {fields : List (String × Value)}
    (h : r.read set s (.object fields) = .ok s') (hs : P s)
    (hset : ∀ s name w s', (name, w) ∈ fields → P s → set s name w = .ok s' → P s') : P s' :=
  foldlM_invariant P h hs fun s field hfield s' hs hstep =>
    hset s field.1 field.2 s' hfield hs (Reading.under_eq_ok hstep)

/-! ## Lists of parameters -/

section

variable {document v : Value} {keys : List String}

def ParameterFields.ListedAt (document : Value) (keys : List String) (list : List ParameterFields) :
    Prop :=
  ∀ (i : Nat) p, list[i]? = some p → ∃ w, document.Stands (keys ++ ["parameters", toString i]) w ∧
    ParameterFields.ofValue w = .ok p

theorem ParameterFields.listedAt_nil : ListedAt document keys [] := by
  intro i p hp
  rw [List.getElem?_nil] at hp
  cases hp

theorem ParameterFields.listedAt_of_readList {list : List ParameterFields}
    {fields : List (String × Value)} (h : document.Stands keys (.object fields))
    (hmem : ("parameters", v) ∈ fields) (hread : v.readList ParameterFields.ofValue = .ok list) :
    ListedAt document keys list := by
  intro i p hp
  obtain ⟨items, w, rfl, hitem, hw⟩ := Value.getElem?_of_readList hread hp
  have hstands := (h.field hmem).item hitem
  rw [List.append_assoc] at hstands
  exact ⟨w, hstands, hw⟩

def ParameterSlot.ListedAt (document : Value) (keys : List String) (slots : List ParameterSlot) :
    Prop :=
  ∀ (i : Nat) slot, slots[i]? = some slot → ∃ w,
    document.locate (keys ++ ["parameters", toString i]) = some w ∧ w.WritesSlot slot

theorem ParameterFields.ListedAt.slots {list : List ParameterFields} {place : String}
    {slots : List ParameterSlot} (h : ListedAt document keys list)
    (hslots : list.mapM (·.slot place) = .ok slots) :
    ParameterSlot.ListedAt document keys slots := by
  intro i slot hslot
  obtain ⟨p, hp, hread⟩ := getElem?_of_mapM_ok hslots hslot
  obtain ⟨w, hw, hfields⟩ := h i p hp
  exact ⟨w, hw.locate, p, place, hfields, hread⟩

/-! ## Path items and operations -/

structure PathItem.ReadAt (document : Value) (keys : List String) (item : PathItem) : Prop where
  parameters : ParameterFields.ListedAt document keys item.parameters
  rest : ∀ e ∈ item.rest, document.Stands (keys ++ [e.1]) e.2

theorem PathItem.readAt {item : PathItem} (h : document.Stands keys v)
    (hread : PathItem.ofValue v = .ok item) : item.ReadAt document keys := by
  cases v with
  | object fields =>
      have hmap : Record.pathItem.read PathItem.set {} (.object fields) = .ok item := hread
      refine Record.read_object_invariant (ReadAt document keys) hmap
        ⟨ParameterFields.listedAt_nil, nofun⟩ fun item name w item' hfield hitem hset => ?_
      unfold PathItem.set at hset
      split at hset
      · next hname =>
        subst hname
        obtain ⟨list, hlist, heq⟩ := bind_eq_ok.mp hset
        cases heq
        exact ⟨ParameterFields.listedAt_of_readList h hfield hlist, hitem.rest⟩
      · cases hset
        refine ⟨hitem.parameters, fun e he => ?_⟩
        rcases List.mem_append.mp he with he | he
        · exact hitem.rest e he
        · obtain rfl := List.mem_singleton.mp he
          exact h.field hfield
  | _ => cases hread

/-- The parameters of an operation are read from its list, unless the operation itself is a list. -/
theorem OperationFields.listedAt {op : OperationFields} (h : document.Stands keys v)
    (hread : OperationFields.ofValue v = .ok op) :
    (∃ items, v = .array items) ∨ ParameterFields.ListedAt document keys op.parameters := by
  cases v with
  | array items => exact .inl ⟨items, rfl⟩
  | object fields =>
      have hmap : Record.operation.read OperationFields.set {} (.object fields) = .ok op := hread
      refine .inr (Record.read_object_invariant
        (fun op : OperationFields => ParameterFields.ListedAt document keys op.parameters) hmap
        ParameterFields.listedAt_nil fun op name w op' hfield hop hset => ?_)
      unfold OperationFields.set at hset
      split at hset
      · obtain ⟨_, -, heq⟩ := bind_eq_ok.mp hset
        cases heq
        exact hop
      · obtain ⟨list, hlist, heq⟩ := bind_eq_ok.mp hset
        cases heq
        exact ParameterFields.listedAt_of_readList h hfield hlist
      · cases hset
        exact hop
  | _ => cases hread

structure Operation.ReadFrom (document : Value) (op : Operation) : Prop where
  item : op.itemPointer = Pointer.render ["paths", op.path]
  method : op.method ∈ methods
  shared : ParameterSlot.ListedAt document ["paths", op.path] op.pathParameters
  own : (∃ items, document.locate ["paths", op.path, op.method] = some (.array items)) ∨
    ParameterSlot.ListedAt document ["paths", op.path, op.method] op.parameters

theorem PathItem.operations_readFrom {path : String} {item : PathItem} {ops : List Operation}
    (hitem : item.ReadAt document ["paths", path]) (h : item.operations path = .ok ops) :
    ∀ op ∈ ops, op.ReadFrom document := by
  obtain ⟨shared, hshared, h⟩ := bind_eq_ok.mp h
  intro op hop
  obtain ⟨⟨method, v⟩, hmem, hread⟩ := mem_of_mapM_ok h op hop
  obtain ⟨fields, hfields, hread⟩ := bind_eq_ok.mp hread
  obtain ⟨own, hown, heq⟩ := bind_eq_ok.mp hread
  cases heq
  obtain ⟨hrest, hmethod⟩ := List.mem_filter.mp hmem
  have hv : document.Stands ["paths", path, method] v := hitem.rest _ hrest
  refine ⟨rfl, List.contains_iff_mem.mp hmethod, hitem.parameters.slots hshared, ?_⟩
  rcases OperationFields.listedAt hv (readSection_eq_ok hfields) with ⟨items, rfl⟩ | hlisted
  · exact .inl ⟨items, hv.locate⟩
  · exact .inr (hlisted.slots hown)

theorem Operation.ofPaths_readFrom {paths : Entries PathItem} {ops : List Operation}
    (hpaths : ∀ e ∈ paths, e.2.ReadAt document ["paths", e.1])
    (h : Operation.ofPaths paths = .ok ops) : ∀ op ∈ ops, op.ReadFrom document := by
  obtain ⟨lists, hlists, heq⟩ := bind_eq_ok.mp h
  cases heq
  intro op hop
  obtain ⟨list, hlist, hop⟩ := List.mem_flatten.mp hop
  obtain ⟨e, he, hread⟩ := mem_of_mapM_ok hlists list hlist
  exact PathItem.operations_readFrom (hpaths e he) hread op hop

/-- The reusable parameters of a section stand under their names there. -/
theorem ParameterSlot.tableOf_readFrom {segments : List String} {table : Entries ParameterSlot}
    (hv : document.Stands segments v) (h : ParameterSlot.tableOf segments (some v) = .ok table) :
    ∀ e ∈ table, ∃ name w, e.1 = Pointer.render (segments ++ [name]) ∧
      document.locate (segments ++ [name]) = some w ∧ w.WritesSlot e.2 := by
  obtain ⟨entries, hentries, h⟩ := bind_eq_ok.mp h
  intro e he
  obtain ⟨entry, hentry, hread⟩ := mem_of_mapM_ok h e he
  obtain ⟨slot, hslot, heq⟩ := bind_eq_ok.mp hread
  cases heq
  obtain ⟨fields, w, rfl, hmem, hw⟩ :=
    Value.mem_fields_of_readMap (readSection_eq_ok hentries) hentry
  exact ⟨entry.1, w, rfl, (hv.field hmem).locate, entry.2, _, hw, hslot⟩

end

/-! ## Sections -/

theorem Value.eq_of_present? {v w : Value} (h : v.present? = some w) : v = w := by
  cases v with
  | null => cases h
  | _ =>
      cases h
      rfl

structure Sections.KeptFrom (fields : List (String × Value)) (s : Sections) : Prop where
  parameters : ∀ v, s.parameters = some v → ("parameters", v) ∈ fields
  components : ∀ c, s.components = some c → ∃ v, ("components", v) ∈ fields ∧
    Components.ofValue v = .ok (some c)
  paths : ∀ v, s.paths = some v → ("paths", v) ∈ fields

theorem Sections.keptFrom {fields : List (String × Value)} {s : Sections}
    (h : Sections.ofDocument (.object fields) = .ok s) : s.KeptFrom fields := by
  refine foldlM_invariant (KeptFrom fields) (readSection_eq_ok h) ⟨nofun, nofun, nofun⟩ ?_
  rintro s ⟨name, w⟩ hfield s' hs hset
  replace hset : Sections.set s name w = .ok s' := Reading.under_eq_ok hset
  unfold Sections.set at hset
  split at hset
  · obtain ⟨_, -, heq⟩ := bind_eq_ok.mp hset
    cases heq
    exact ⟨hs.parameters, hs.components, hs.paths⟩
  · cases hset
    refine ⟨fun v hv => ?_, hs.components, hs.paths⟩
    rw [← Value.eq_of_present? hv]
    exact hfield
  · obtain ⟨found, hread, heq⟩ := bind_eq_ok.mp hset
    cases heq
    exact ⟨hs.parameters, fun c hc => ⟨w, hfield, hread.trans (congrArg _ hc)⟩, hs.paths⟩
  · cases hset
    refine ⟨hs.parameters, hs.components, fun v hv => ?_⟩
    rw [← Value.eq_of_present? hv]
    exact hfield
  · cases hset
    exact hs

/-- The reusable parameters of components in map form stand under their key. -/
theorem Components.parameters_mem {fields : List (String × Value)} {c : Components}
    (h : Components.ofValue (.object fields) = .ok (some c)) {v : Value}
    (hv : c.parameters = some v) : ("parameters", v) ∈ fields := by
  refine Record.read_object_invariant
    (fun c : Components => ∀ v, c.parameters = some v → ("parameters", v) ∈ fields)
    (read_of_value h) nofun (fun c name w c' hfield hc hset => ?_) v hv
  unfold Components.set at hset
  split at hset
  · obtain ⟨_, -, heq⟩ := bind_eq_ok.mp hset
    cases heq
    exact hc
  · cases hset
    intro v hv
    rw [← Value.eq_of_present? hv]
    exact hfield
  · cases hset
    exact hc

namespace SchemaModel

variable {document : Value} {model : SchemaModel}

/-- A reusable parameter is read from what stands behind these keys, or from components that are a
list. -/
inductive HasReusable (document : Value) : List String → ParameterSlot → Prop
  | plain {name : String} {w : Value} {slot : ParameterSlot}
      (h : document.locate ["parameters", name] = some w) (hw : w.WritesSlot slot) :
      HasReusable document ["parameters", name] slot
  | component {name : String} {w : Value} {slot : ParameterSlot}
      (h : document.locate ["components", "parameters", name] = some w) (hw : w.WritesSlot slot) :
      HasReusable document ["components", "parameters", name] slot
  | listed {name : String} {items : List Value} {slot : ParameterSlot}
      (h : document.locate ["components"] = some (.array items)) :
      HasReusable document ["components", "parameters", name] slot

/-- The reusable parameters and the operations of a model stand in the document, each in its place.
-/
structure PlacedIn (model : SchemaModel) (document : Value) : Prop where
  reusable : ∀ e ∈ model.parameters, ∃ segments, e.1 = Pointer.render segments ∧
    HasReusable document segments e.2
  operations : ∀ ops, model.operations = some ops → ∀ op ∈ ops, op.ReadFrom document

/-- A model stands in the document that it was read from. -/
theorem placedIn_of_document (hkeys : document.hasDistinctKeys = true)
    (h : SchemaModel.ofDocument document true = .ok model) : model.PlacedIn document := by
  obtain ⟨sections, hread, hrest⟩ := bind_eq_ok.mp h
  cases document with
  | object fields =>
      have hroot := Value.Stands.root hkeys
      have hkept := Sections.keptFrom hread
      obtain ⟨plain, hplain, hrest⟩ := bind_eq_ok.mp hrest
      obtain ⟨reusable, hreusable, hrest⟩ := bind_eq_ok.mp hrest
      obtain ⟨operations, hoperations, heq⟩ := bind_eq_ok.mp hrest
      cases heq
      refine ⟨fun e he => ?_, ?_⟩
      · rcases List.mem_append.mp he with he | he
        · cases hparameters : sections.parameters with
          | none =>
              rw [hparameters] at hplain
              cases hplain
              cases he
          | some v =>
              rw [hparameters] at hplain
              obtain ⟨name, w, hname, hlocate, hw⟩ := ParameterSlot.tableOf_readFrom
                (hroot.field (hkept.parameters v hparameters)) hplain e he
              exact ⟨_, hname, .plain hlocate hw⟩
        · cases hparameters : sections.components.bind (·.parameters) with
          | none =>
              rw [hparameters] at hreusable
              cases hreusable
              cases he
          | some v =>
              rw [hparameters] at hreusable
              obtain ⟨c, hc, hv⟩ := Option.bind_eq_some_iff.mp hparameters
              obtain ⟨found, hfound, hcomponents⟩ := hkept.components c hc
              have hstands := hroot.field hfound
              cases found with
              | object inner =>
                  obtain ⟨name, w, hname, hlocate, hw⟩ := ParameterSlot.tableOf_readFrom
                    (hstands.field (Components.parameters_mem hcomponents hv)) hreusable e he
                  exact ⟨_, hname, .component hlocate hw⟩
              | array items =>
                  obtain ⟨entries, -, hreusable⟩ := bind_eq_ok.mp hreusable
                  obtain ⟨entry, -, hentry⟩ := mem_of_mapM_ok hreusable e he
                  obtain ⟨slot, -, heq⟩ := bind_eq_ok.mp hentry
                  cases heq
                  exact ⟨["components", "parameters", entry.1], rfl, .listed hstands.locate⟩
              | _ => cases hcomponents
      · rintro ops rfl
        cases hpaths : sections.paths with
        | none =>
            rw [hpaths] at hoperations
            cases hoperations
        | some v =>
            rw [hpaths] at hoperations
            obtain ⟨items, hitems, hops⟩ := bind_eq_ok.mp (map_some_eq_ok hoperations)
            have hstands := hroot.field (hkept.paths v hpaths)
            refine Operation.ofPaths_readFrom (fun e he => ?_) hops
            obtain ⟨inner, w, rfl, hmem, hitem⟩ :=
              Value.mem_fields_of_readMap (readSection_eq_ok hitems) he
            exact PathItem.readAt (hstands.field hmem) hitem
  | _ => cases hread

end SchemaModel

end SwaggerTypes
