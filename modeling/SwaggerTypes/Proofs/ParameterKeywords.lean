import SwaggerTypes.Proofs.ExchangedSchemas
import SwaggerTypes.Proofs.ParameterSchemas
/-!
# The keywords of parameters

A parameter describes its value by keywords of its own or by a schema under `schema`. Here it is
said what each of its fields is read from, and what a schema with the same keywords is: the two are
read differently only in `items`, where a schema takes a list for a tuple, and that counts only if
they describe a list.
-/

namespace SwaggerTypes

def Value.under (fields : List (String × Value)) (key : String) : Value :=
  ((Entries.ofList fields).get? key).getD .null

def Value.WritesParameter (v : Value) (parameter : Parameter) : Prop :=
  ∃ fields place, ParameterFields.ofValue v = .ok fields ∧ fields.slot place = .ok (.inline parameter)

namespace ParameterFields

variable {fields : List (String × Value)} {p p' : ParameterFields}

theorem set_frame {name : String} {v : Value} (h : p.set name v = .ok p') :
    (name ≠ "name" → p'.name = p.name) ∧ (name ≠ "in" → p'.location = p.location) ∧
      (name ≠ "required" → p'.required = p.required) ∧
      (name ≠ "description" → p'.description = p.description) ∧
      (name ≠ "schema" → p'.schema = p.schema) ∧ (name ≠ "type" → p'.type = p.type) ∧
      (name ≠ "format" → p'.format = p.format) ∧ (name ≠ "items" → p'.items = p.items) ∧
      (name ≠ "enum" → p'.enum = p.enum) ∧ (name ≠ "x-nullable" → p'.xNullable = p.xNullable) := by
  unfold set at h
  replace h := Reading.here_eq_ok h
  split at h
  all_goals
    first
      | obtain ⟨_, -, hp⟩ := bind_eq_ok.mp h
        cases hp
      | cases h
    simp

/-- A field that one key sets, and no other, is read from the last value under that key, or from the
one that stands for no value. -/
theorem field_read {γ : Type} (field : ParameterFields → γ) {key : String}
    (read : Value → Except Mismatch γ) (absent : Value) (put : γ → ParameterFields → ParameterFields)
    (hset : ∀ p v, set p key v = Reading.here (do return put (← read v) p))
    (hput : ∀ c p, field (put c p) = c)
    (hframe : ∀ {p p' : ParameterFields} {name v}, p.set name v = .ok p' → name ≠ key →
      field p' = field p)
    (habsent : read absent = .ok (field {})) (h : ofValue (.object fields) = .ok p) :
    read (((Entries.ofList fields).get? key).getD absent) = .ok (field p) := by
  rcases Entries.field_of_foldlM (fun p name v => Reading.under (.key name) (set p name v)) field key
    (fun v found => read v = .ok found)
    (fun hread => by
      replace hread := Reading.under_eq_ok hread
      rw [hset] at hread
      obtain ⟨c, hc, heq⟩ := bind_eq_ok.mp (Reading.here_eq_ok hread)
      cases heq
      rw [hput]
      exact hc)
    (fun hread => hframe (Reading.under_eq_ok hread)) h with ⟨hnone, hstart⟩ | ⟨v, hv, hread⟩
  · rw [hnone, hstart]
    exact habsent
  · rw [hv]
    exact hread

def writtenSchema : Value → Option Node
  | .null => none
  | v => some (Node.ofValue v)

structure ReadFrom (fields : List (String × Value)) (p : ParameterFields) : Prop where
  name : (Value.under fields "name").optional Value.asString = .ok p.name
  location : (Value.under fields "in").optional Value.asString = .ok p.location
  required : (((Entries.ofList fields).get? "required").getD (.bool false)).asBool = .ok p.required
  description : (Value.under fields "description").optional Value.asString = .ok p.description
  schema : p.schema = writtenSchema (Value.under fields "schema")
  type : (Value.under fields "type").optional TypeNames.ofValue = .ok p.type
  format : (Value.under fields "format").optional Value.asString = .ok p.format
  items : p.items = writtenSchema (Value.under fields "items")
  enum : (Value.under fields "enum").optional Value.asList = .ok p.enum
  xNullable : (Value.under fields "x-nullable").optional Value.asBool = .ok p.xNullable

theorem readFrom (h : ofValue (.object fields) = .ok p) : ReadFrom fields p where
  name := field_read (·.name) (Value.optional Value.asString) .null
    (fun c p => { p with name := c }) (fun _ _ => rfl) (fun _ _ => rfl)
    (fun hset => (set_frame hset).1) rfl h
  location := field_read (·.location) (Value.optional Value.asString) .null
    (fun c p => { p with location := c }) (fun _ _ => rfl) (fun _ _ => rfl)
    (fun hset => (set_frame hset).2.1) rfl h
  required := field_read (·.required) Value.asBool (.bool false)
    (fun c p => { p with required := c }) (fun _ _ => rfl) (fun _ _ => rfl)
    (fun hset => (set_frame hset).2.2.1) rfl h
  description := field_read (·.description) (Value.optional Value.asString) .null
    (fun c p => { p with description := c }) (fun _ _ => rfl) (fun _ _ => rfl)
    (fun hset => (set_frame hset).2.2.2.1) rfl h
  schema := Except.ok.inj <| Eq.symm <| field_read (·.schema) (fun v => .ok (writtenSchema v)) .null
    (fun c p => { p with schema := c }) (fun _ v => by cases v <;> rfl) (fun _ _ => rfl)
    (fun hset => (set_frame hset).2.2.2.2.1) rfl h
  type := field_read (·.type) (Value.optional TypeNames.ofValue) .null
    (fun c p => { p with type := c }) (fun _ _ => rfl) (fun _ _ => rfl)
    (fun hset => (set_frame hset).2.2.2.2.2.1) rfl h
  format := field_read (·.format) (Value.optional Value.asString) .null
    (fun c p => { p with format := c }) (fun _ _ => rfl) (fun _ _ => rfl)
    (fun hset => (set_frame hset).2.2.2.2.2.2.1) rfl h
  items := Except.ok.inj <| Eq.symm <| field_read (·.items) (fun v => .ok (writtenSchema v)) .null
    (fun c p => { p with items := c }) (fun _ v => by cases v <;> rfl) (fun _ _ => rfl)
    (fun hset => (set_frame hset).2.2.2.2.2.2.2.1) rfl h
  enum := field_read (·.enum) (Value.optional Value.asList) .null
    (fun c p => { p with enum := c }) (fun _ _ => rfl) (fun _ _ => rfl)
    (fun hset => (set_frame hset).2.2.2.2.2.2.2.2.1) rfl h
  xNullable := field_read (·.xNullable) (Value.optional Value.asBool) .null
    (fun c p => { p with xNullable := c }) (fun _ _ => rfl) (fun _ _ => rfl)
    (fun hset => (set_frame hset).2.2.2.2.2.2.2.2.2) rfl h

theorem slot_inline {place : String} {a : Parameter} (h : p.slot place = .ok (.inline a)) :
    p.ref = none ∧ p.name = some a.name ∧ a.required = p.required ∧
      a.description = Text.nonBlank p.description ∧ a.schema = p.valueSchema ∧
      a.nested = p.schema.isSome := by
  unfold slot at h
  split at h
  · cases h
  · cases h
  · cases h
  · next href hname _ =>
    cases h
    exact ⟨href, hname, rfl, rfl, rfl, rfl⟩

theorem slot_reference {place pointer : String} (h : p.slot place = .ok (.reference pointer)) :
    p.ref = some pointer := by
  unfold slot at h
  split at h
  · cases h
    assumption
  all_goals cases h

end ParameterFields

/-! ## The keywords of a value -/

theorem Entries.get?_ofList_of_mem {α : Type} {entries : List (String × α)} {key : String} {a : α}
    (hnodup : (entries.map Prod.fst).Nodup) (h : (key, a) ∈ entries) :
    (ofList entries).get? key = some a := by
  induction entries using List.reverseRecOn with
  | nil => cases h
  | append_singleton entries e ih =>
      rw [List.map_append, List.nodup_append] at hnodup
      rw [get?_ofList_concat]
      rcases List.mem_append.mp h with h | h
      · have hne : key ≠ e.1 := hnodup.2.2 _ (List.mem_map_of_mem h) _ List.mem_cons_self
        rw [if_neg hne]
        exact ih hnodup.1 h
      · cases List.mem_singleton.mp h
        rw [if_pos rfl]

/-- The keywords by which a parameter describes its value itself. -/
def valueKeywords : List String := ["type", "format", "items", "enum", "x-nullable"]

namespace Keywords

variable {fields inner : List (String × Value)} {p : ParameterFields} {k k' : Keywords}

def DescribesValue (k : Keywords) : Prop :=
  ∃ type format items enum xNullable, k = { type, format, items, enum, xNullable : Keywords }

theorem set_frame_value {name : String} {part : Part} (h : k.set name part = .ok k') :
    (name ≠ "type" → k'.type = k.type) ∧ (name ≠ "format" → k'.format = k.format) ∧
      (name ≠ "items" → k'.items = k.items) ∧ (name ≠ "enum" → k'.enum = k.enum) ∧
      (name ≠ "x-nullable" → k'.xNullable = k.xNullable) := by
  unfold set at h
  split at h
  all_goals
    first
      | obtain ⟨_, -, hk⟩ := bind_eq_ok.mp h
        cases hk
      | cases h
    simp

theorem set_other {name : String} (hname : name ∉ Record.schema.fields) (k : Keywords) (part : Part) :
    k.set name part = .ok k := by
  unfold set
  split
  all_goals
    first
      | rfl
      | exact absurd (by decide) hname

/-- A keyword that a parameter could be read from is read in a schema as well. -/
theorem set_value (hp : ParameterFields.ReadFrom fields p) {key : String} (hkey : key ∈ valueKeywords)
    (hk : k.DescribesValue) :
    ∃ k', k.set key (Part.ofValue (Value.under fields key)) = .ok k' ∧ k'.DescribesValue := by
  obtain ⟨type, format, items, enum, xNullable, rfl⟩ := hk
  simp only [valueKeywords, List.mem_cons, List.not_mem_nil, or_false] at hkey
  rcases hkey with rfl | rfl | rfl | rfl | rfl
  · simp only [set, Part.value_ofValue, hp.type]
    exact ⟨_, rfl, _, _, _, _, _, rfl⟩
  · simp only [set, Part.value_ofValue, hp.format]
    exact ⟨_, rfl, _, _, _, _, _, rfl⟩
  · exact ⟨_, rfl, _, _, _, _, _, rfl⟩
  · simp only [set, Part.value_ofValue, hp.enum]
    exact ⟨_, rfl, _, _, _, _, _, rfl⟩
  · simp only [set, Part.value_ofValue, hp.xNullable]
    exact ⟨_, rfl, _, _, _, _, _, rfl⟩

theorem ofFields_value (hp : ParameterFields.ReadFrom fields p)
    (hinner : ∀ e ∈ inner, e.1 ∈ valueKeywords ∧ e.2 = Value.under fields e.1 ∨
      e.1 ∉ Record.schema.fields) :
    ∃ k, ofFields (Part.ofFields inner) = .ok k ∧ k.DescribesValue := by
  suffices h : ∀ start : Keywords, start.DescribesValue → ∃ k,
      (Part.ofFields inner).foldlM (fun k e => k.set e.1 e.2) start = .ok k ∧ k.DescribesValue from
    h {} ⟨none, none, none, none, none, rfl⟩
  induction inner with
  | nil => exact fun start hstart => ⟨start, rfl, hstart⟩
  | cons e inner ih =>
      intro start hstart
      obtain ⟨hfirst, hrest⟩ := List.forall_mem_cons.mp hinner
      obtain ⟨name, v⟩ := e
      obtain ⟨k, hk, hvalue⟩ : ∃ k, start.set name (Part.ofValue v) = .ok k ∧ k.DescribesValue := by
        rcases hfirst with ⟨hkey, hv⟩ | hother
        · rw [show v = Value.under fields name from hv]
          exact set_value hp hkey hstart
        · exact ⟨start, set_other hother _ _, hstart⟩
      obtain ⟨last, hlast, hdone⟩ := ih hrest k hvalue
      refine ⟨last, ?_, hdone⟩
      rw [Part.ofFields, List.foldlM_cons, hk]
      exact hlast

theorem value_read {γ : Type} (field : Keywords → γ) {key : String} (read : Part → Except Mismatch γ)
    (put : γ → Keywords → Keywords) (hset : ∀ k part, set k key part = (do return put (← read part) k))
    (hput : ∀ c k, field (put c k) = c)
    (hframe : ∀ {k k' : Keywords} {name part}, k.set name part = .ok k' → name ≠ key →
      field k' = field k)
    (habsent : read (Part.ofValue .null) = .ok (field {})) (h : ofFields (Part.ofFields inner) = .ok k) :
    read (Part.ofValue (Value.under inner key)) = .ok (field k) := by
  rcases Entries.field_of_foldlM set field key (fun part found => read part = .ok found)
    (fun hread => by
      rw [hset] at hread
      obtain ⟨c, hc, heq⟩ := bind_eq_ok.mp hread
      cases heq
      rw [hput]
      exact hc) hframe h with ⟨hnone, hstart⟩ | ⟨part, hpart, hread⟩
  · rw [Part.ofFields_eq_map, Entries.get?_ofList_map, Option.map_eq_none_iff] at hnone
    rw [Value.under, hnone, hstart]
    exact habsent
  · obtain ⟨v, hv, rfl⟩ := get?_ofFields hpart
    rw [Value.under, hv]
    exact hread

/-- The keywords of such a schema are those of the parameter, but for the form of `items`. -/
theorem ofFields_eq_keywords (hp : ParameterFields.ReadFrom fields p)
    (hinner : ∀ e ∈ inner, e.1 ∈ valueKeywords ∧ e.2 = Value.under fields e.1 ∨
      e.1 ∉ Record.schema.fields)
    (hsame : ∀ key ∈ valueKeywords, Value.under inner key = Value.under fields key) :
    ofFields (Part.ofFields inner) = .ok
      { p.keywords with items := (Part.ofValue (Value.under fields "items")).items } := by
  obtain ⟨k, hk, hvalue⟩ := ofFields_value hp hinner
  have htype := value_read Keywords.type (fun part => part.value.optional TypeNames.ofValue)
    (fun c k => { k with type := c }) (fun _ _ => rfl) (fun _ _ => rfl)
    (fun hset => (set_frame_value hset).1) rfl hk
  have hformat := value_read Keywords.format (fun part => part.value.optional Value.asString)
    (fun c k => { k with format := c }) (fun _ _ => rfl) (fun _ _ => rfl)
    (fun hset => (set_frame_value hset).2.1) rfl hk
  have hitems := value_read Keywords.items (fun part => .ok part.items)
    (fun c k => { k with items := c }) (fun _ _ => rfl) (fun _ _ => rfl)
    (fun hset => (set_frame_value hset).2.2.1) rfl hk
  have henum := value_read Keywords.enum (fun part => part.value.optional Value.asList)
    (fun c k => { k with enum := c }) (fun _ _ => rfl) (fun _ _ => rfl)
    (fun hset => (set_frame_value hset).2.2.2.1) rfl hk
  have hnullable := value_read Keywords.xNullable (fun part => part.value.optional Value.asBool)
    (fun c k => { k with xNullable := c }) (fun _ _ => rfl) (fun _ _ => rfl)
    (fun hset => (set_frame_value hset).2.2.2.2) rfl hk
  rw [Part.value_ofValue, hsame _ (by decide), hp.type] at htype
  rw [Part.value_ofValue, hsame _ (by decide), hp.format] at hformat
  rw [hsame _ (by decide)] at hitems
  rw [Part.value_ofValue, hsame _ (by decide), hp.enum] at henum
  rw [Part.value_ofValue, hsame _ (by decide), hp.xNullable] at hnullable
  obtain ⟨type, format, items, enum, xNullable, rfl⟩ := hvalue
  cases htype
  cases hformat
  cases hitems
  cases henum
  cases hnullable
  exact hk

/-! ## Where the form of the items counts -/

theorem DescribesValue.kind_eq (hk : k.DescribesValue) : k.kind = k.structuralKind.getD .any := by
  obtain ⟨type, format, items, enum, xNullable, rfl⟩ := hk
  unfold kind constraints
  cases structuralKind { type, format, items, enum, xNullable } <;> rfl

theorem DescribesValue.node_eq (hk : k.DescribesValue) :
    k.node = ⟨k.structuralKind.getD .any, k.doc, k.isNullable || k.listsNull⟩ := by
  have href : k.ref = none := by
    obtain ⟨type, format, items, enum, xNullable, rfl⟩ := hk
    rfl
  rw [node, href, ← hk.kind_eq]

/-- The keywords describe a list, or several types with lists among them. -/
def MakesList (k : Keywords) : Prop :=
  k.enum = none ∧ (k.type = none ∨ k.type = some (.single "array") ∨
    ∃ names, k.type = some (.multiple names) ∧ "array" ∈ names)

def withItems (items : Items) (k : Keywords) : Keywords := { k with items := some items }

theorem DescribesValue.withItems (hk : k.DescribesValue) (items : Items) :
    (k.withItems items).DescribesValue := by
  obtain ⟨type, format, own, enum, xNullable, rfl⟩ := hk
  exact ⟨type, format, some items, enum, xNullable, rfl⟩

theorem typeKind_items {name : String} (hname : name ≠ "array") (items : Items) :
    (k.withItems items).typeKind name = k.typeKind name := by
  unfold typeKind
  split
  all_goals
    first
      | rfl
      | exact absurd rfl hname

theorem typesKind_items {names : List String} (hnames : "array" ∉ names) (items : Items) :
    (k.withItems items).typesKind names = k.typesKind names := by
  match names with
  | [] => rfl
  | [name] => exact typeKind_items (fun h => hnames (h ▸ List.mem_cons_self)) items
  | first :: second :: rest =>
      refine congrArg (Kind.composite .anyOf) (List.map_congr_left fun name hname => ?_)
      exact congrArg Node.bare (typeKind_items (fun h => hnames (h ▸ hname)) items)

theorem structuralKind_items (hk : k.DescribesValue) (hlist : ¬ k.MakesList) (items : Items) :
    (k.withItems items).structuralKind = k.structuralKind := by
  obtain ⟨type, format, own, enum, xNullable, rfl⟩ := hk
  cases enum with
  | some values => rfl
  | none =>
      cases type with
      | none => exact absurd ⟨rfl, .inl rfl⟩ hlist
      | some types =>
          cases types with
          | single name =>
              have hname : name ≠ "array" := by
                rintro rfl
                exact hlist ⟨rfl, .inr (.inl rfl)⟩
              exact congrArg some (typeKind_items hname items)
          | multiple names =>
              have hnames : "array" ∉ names.filter (· ≠ "null") := fun hmem =>
                hlist ⟨rfl, .inr (.inr ⟨names, rfl, List.mem_of_mem_filter hmem⟩)⟩
              rw [structuralKind_types rfl rfl rfl, structuralKind_types rfl rfl rfl,
                typesKind_items hnames]

theorem node_items (hk : k.DescribesValue) (hlist : ¬ k.MakesList) (items : Items) :
    (k.withItems items).node = k.node := by
  rw [hk.node_eq, (hk.withItems items).node_eq, structuralKind_items hk hlist]
  rfl

/-- What describes a list is the list itself, or it has the list among its types. -/
theorem structuralKind_list (hk : k.DescribesValue) (hlist : k.MakesList) :
    (∀ items : Items, (k.withItems items).structuralKind =
      some (k.withItems items).arrayKind) ∨
    ∃ first second rest, "array" ∈ first :: second :: rest ∧ ∀ items : Items,
      (k.withItems items).structuralKind =
        some ((k.withItems items).typesKind (first :: second :: rest)) := by
  obtain ⟨type, format, own, enum, xNullable, rfl⟩ := hk
  obtain ⟨rfl, rfl | rfl | ⟨names, rfl, hmem⟩⟩ := hlist
  · exact .inl fun items => rfl
  · exact .inl fun items => rfl
  · have hlists : "array" ∈ names.filter (· ≠ "null") := by simpa using hmem
    have htypes (items : Items) : Keywords.structuralKind
        { type := some (.multiple names), format, items := some items, xNullable } =
          some (Keywords.typesKind
            { type := some (.multiple names), format, items := some items, xNullable }
            (names.filter (· ≠ "null"))) := structuralKind_types rfl rfl rfl
    generalize names.filter (· ≠ "null") = others at hlists htypes
    match others with
    | [] => cases hlists
    | [name] =>
        cases List.mem_singleton.mp hlists
        exact .inl htypes
    | first :: second :: rest => exact .inr ⟨first, second, rest, hlists, htypes⟩

end Keywords

theorem ParameterFields.keywords_describe (p : ParameterFields) : p.keywords.DescribesValue :=
  ⟨_, _, _, _, _, rfl⟩

end SwaggerTypes
