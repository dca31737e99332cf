import SwaggerTypes.Proofs.Reading
/-!
# Pointers into documents

A pointer is read as the fragment of a URI: escapes with a percent sign stand for bytes, and behind
each slash stands a key of a map or a position in a list. What warnings write is read back unless a
name has a percent sign in it.
-/

namespace SwaggerTypes

namespace Pointer

/-! ## Reading a fragment -/

/-- The bytes that the characters of a fragment stand for; a percent sign comes with two hexadecimal
digits. -/
def fragmentBytes : List Char → Option (List UInt8)
  | '%' :: high :: low :: cs => do
    let high ← Decimal.digitValue 16 high
    let low ← Decimal.digitValue 16 low
    return UInt8.ofNat (16 * high + low) :: (← fragmentBytes cs)
  | '%' :: _ => none
  | c :: cs => do return String.utf8EncodeChar c ++ (← fragmentBytes cs)
  | [] => some []

def percentDecode (cs : List Char) : Option String := do
  String.fromUTF8? (← fragmentBytes cs).toByteArray

/-- The key that a written one stands for; every `~` begins an escape. -/
def token? : List Char → Option (List Char)
  | '~' :: '1' :: cs => (token? cs).map fun rest => '/' :: rest
  | '~' :: '0' :: cs => (token? cs).map fun rest => '~' :: rest
  | '~' :: _ => none
  | c :: cs => (token? cs).map fun rest => c :: rest
  | [] => some []

def fragment? (pointer : String) : Option (List String) :=
  match pointer.toList with
  | '#' :: cs => do
    match (← percentDecode cs).toList with
    | '/' :: path => (Text.pieces '/' path).mapM fun piece => (token? piece).map String.ofList
    | [] => some []
    | _ => none
  | _ => none

/-- The position in a list that a key writes, in decimal digits without leading zeros. -/
def position? (key : String) : Option Nat :=
  (Decimal.readNat 10 key.toList).filter fun i => toString i = key

theorem fragmentBytes_of_not_mem {cs : List Char} (h : '%' ∉ cs) :
    fragmentBytes cs = some (cs.flatMap String.utf8EncodeChar) := by
  induction cs with
  | nil => rfl
  | cons c cs ih =>
      rw [List.mem_cons, not_or] at h
      rw [fragmentBytes, ih h.2]
      · rfl
      · exact fun _ _ _ hc _ => h.1 hc.symm
      · exact fun hc => h.1 hc.symm

theorem percentDecode_of_not_mem {cs : List Char} (h : '%' ∉ cs) :
    percentDecode cs = some (String.ofList cs) := by
  have hvalid : (cs.flatMap String.utf8EncodeChar).toByteArray.IsValidUTF8 := .intro cs rfl
  rw [percentDecode, fragmentBytes_of_not_mem h]
  show String.fromUTF8? _ = _
  rw [String.fromUTF8?, dif_pos hvalid]
  rfl

theorem token?_escapeChar (c : Char) (cs : List Char) :
    token? (escapeChar c ++ cs) = (token? cs).map fun rest => c :: rest := by
  by_cases htilde : c = '~'
  · subst htilde
    rfl
  · by_cases hslash : c = '/'
    · subst hslash
      rfl
    · have hself : escapeChar c = [c] := by simp [escapeChar]
      simp [hself, token?, htilde]

theorem token?_escape (segment : String) :
    token? (escape segment).toList = some segment.toList := by
  rw [toList_escape]
  generalize segment.toList = cs
  induction cs with
  | nil => rfl
  | cons c cs ih =>
      rw [List.flatMap_cons, token?_escapeChar, ih]
      rfl

/-- A written pointer is read as the segments it was written from. -/
theorem fragment?_render {segments : List String} (h : '%' ∉ (render segments).toList) :
    fragment? (render segments) = some segments := by
  have hlist : (render segments).toList =
      '#' :: segments.flatMap fun s => '/' :: (escape s).toList := by
    rw [render_eq_extend, toList_extend]
    rfl
  rw [hlist, List.mem_cons, not_or] at h
  unfold fragment?
  rw [hlist]
  simp only [percentDecode_of_not_mem h.2, String.toList_ofList, Option.bind_eq_bind,
    Option.bind_some]
  cases segments with
  | nil => rfl
  | cons segment rest =>
      rw [List.flatMap_cons, List.cons_append]
      show ((Text.pieces '/' _).mapM _) = _
      have hread : ((fun piece => (token? piece).map String.ofList) ∘ fun s =>
          (escape s).toList) = fun s : String => pure s := by
        funext s
        simp [token?_escape]
      rw [pieces_segments, List.mapM_map, hread, List.mapM_pure]
      simp

theorem position?_toString (i : Nat) : position? (toString i) = some i := by
  rw [position?, readNat_toString, Option.filter_some, if_pos (decide_eq_true rfl)]

end Pointer

namespace Value

/-! ## Looking a pointer up -/

def field? (v : Value) (key : String) : Option Value :=
  match v with
  | .object fields => (Entries.ofList fields).get? key
  | .array items => do items[← Pointer.position? key]?
  | _ => none

def locate (v : Value) : List String → Option Value
  | [] => some v
  | key :: rest => do (← v.field? key).locate rest

def Addresses (document : Value) (pointer : String) : Prop :=
  ((Pointer.fragment? pointer).bind document.locate).isSome

instance (document : Value) (pointer : String) : Decidable (document.Addresses pointer) :=
  inferInstanceAs (Decidable (_ = true))

theorem locate_append (v : Value) (keys more : List String) :
    v.locate (keys ++ more) = (v.locate keys).bind fun found => found.locate more := by
  induction keys generalizing v with
  | nil => rfl
  | cons key keys ih =>
      rw [List.cons_append, locate, locate]
      cases v.field? key with
      | none => rfl
      | some found => exact ih found

theorem addresses_render {document v : Value} {segments : List String}
    (h : document.locate segments = some v) (hpercent : '%' ∉ (Pointer.render segments).toList) :
    document.Addresses (Pointer.render segments) := by
  rw [Addresses, Pointer.fragment?_render hpercent, Option.bind_some, h]
  rfl

/-! ## Schemas in a document -/

/-- One value stands in another where a schema may have a part, and these keys lead to it. -/
inductive SchemaAt : Value → List String → Value → Prop
  | property {fields ps : List (String × Value)} {name : String} {v : Value}
      (hps : (Entries.ofList fields).get? "properties" = some (.object ps))
      (h : (Entries.ofList ps).get? name = some v) :
      SchemaAt (.object fields) ["properties", name] v
  | items {fields : List (String × Value)} {v : Value}
      (h : (Entries.ofList fields).get? "items" = some v) : SchemaAt (.object fields) ["items"] v
  | additional {fields : List (String × Value)} {v : Value}
      (h : (Entries.ofList fields).get? "additionalProperties" = some v) :
      SchemaAt (.object fields) ["additionalProperties"] v
  | member {fields : List (String × Value)} {keyword : Composition} {vs : List Value} {i : Nat}
      {v : Value} (hvs : (Entries.ofList fields).get? keyword.keyword = some (.array vs))
      (h : vs[i]? = some v) : SchemaAt (.object fields) [keyword.keyword, toString i] v

theorem SchemaAt.locate {v part : Value} {keys : List String} (h : v.SchemaAt keys part) :
    v.locate keys = some part := by
  cases h with
  | property hps h => simp [Value.locate, field?, hps, h]
  | items h | additional h => simp [Value.locate, field?, h]
  | @member _ _ vs i _ hvs h =>
      have hposition : Pointer.position? (toString i) = some i := Pointer.position?_toString i
      simp only [Value.locate, field?, hvs, hposition, Option.bind_eq_bind, Option.bind_some, h]

/-- A schema is written as a map that puts one constraint at most. -/
def SaysOne (v : Value) : Prop :=
  (∀ items, v ≠ .array items) ∧ ∀ fields k, v = .object fields →
    Keywords.ofFields (Part.ofFields fields) = .ok k → k.ref = none → k.Single

theorem schemaAt_of_writes {fields : List (String × Value)} {k : Keywords}
    (h : Keywords.ofFields (Part.ofFields fields) = .ok k) {segments : List String} {part : Node}
    (hw : k.Writes segments part) :
    ∃ w, (Value.object fields).SchemaAt segments w ∧ part = Node.ofValue w := by
  cases hw with
  | @property ps name schema hps hmem =>
      obtain ⟨vs, hvs, rfl⟩ := Keywords.properties_of_ofFields h hps
      have hget := Entries.get?_of_mem (Entries.nodup_keys_ofList _) hmem
      rw [Entries.get?_ofList_map, Option.map_eq_some_iff] at hget
      obtain ⟨w, hw, rfl⟩ := hget
      exact ⟨w, .property hvs hw, rfl⟩
  | items hitems =>
      obtain ⟨w, hw, rfl⟩ := Keywords.items_of_ofFields h hitems
      exact ⟨w, .items hw, rfl⟩
  | additional hadditional =>
      obtain ⟨w, hw, rfl⟩ := Keywords.additional_of_ofFields h hadditional
      exact ⟨w, .additional hw, rfl⟩
  | member hms hmem =>
      obtain ⟨vs, hvs, rfl⟩ := Keywords.members_of_ofFields h hms
      rw [List.getElem?_map, Option.map_eq_some_iff] at hmem
      obtain ⟨w, hw, rfl⟩ := hmem
      exact ⟨w, .member hvs hw, rfl⟩

theorem locate_of_made {fields : List (String × Value)} {k : Keywords}
    (h : Keywords.ofFields (Part.ofFields fields) = .ok k) {segments : List String}
    (hm : k.Made segments) : (Value.object fields).locate segments = none := by
  obtain ⟨keyword, i, rfl, hbeyond⟩ := hm
  have hposition : Pointer.position? (toString i) = some i := Pointer.position?_toString i
  rcases Keywords.members_read h keyword with ⟨hnone, -⟩ | ⟨v, hv, hread⟩
  · simp [Value.locate, field?, hnone]
  · cases v with
    | null => simp [Value.locate, field?, hv]
    | array vs =>
        cases hms : k.members keyword with
        | none =>
            rw [hms] at hread
            cases hread
        | some ms =>
            rw [hms] at hread
            obtain ⟨_, heq, rfl⟩ := Part.composition_ofValue hread
            cases heq
            have hlength : vs.length ≤ i := by simpa using hbeyond _ hms
            simp only [Value.locate, field?, hv, hposition, Option.bind_eq_bind, Option.bind_some,
              List.getElem?_eq_none hlength, Option.bind_none]
    | _ => cases hread

theorem locate_array {items : List Value} {node part : Node} {segments : List String}
    (hp : node.PartAt segments part) : (Value.array items).locate segments = none := by
  cases hp with
  | @member _ keyword => cases keyword <;> rfl
  | _ => rfl

/-- The parts of the schema that a value writes are written by parts of the value, but for items that
are not mentioned and for the members that several constraints become: these the value does not
have. -/
theorem partAt_ofValue {v : Value} {segments : List String} {part : Node}
    (hp : (Node.ofValue v).PartAt segments part) :
    (∃ w, v.SchemaAt segments w ∧ part = Node.ofValue w) ∨ part = .bare .any ∨
      (¬ v.SaysOne ∧ v.locate segments = none) := by
  cases v with
  | array items => exact .inr (.inr ⟨fun hone => hone.1 items rfl, locate_array hp⟩)
  | object fields =>
      replace hp : (Schema.ofKeywords (Keywords.ofFields (Part.ofFields fields))).node.PartAt
        segments part := hp
      cases hread : Keywords.ofFields (Part.ofFields fields) with
      | error cause =>
          rw [hread] at hp
          cases hp
      | ok k =>
          rw [hread] at hp
          rcases k.partAt_cases hp with hw | hany | ⟨hseveral, hmade⟩
          · exact .inl (schemaAt_of_writes hread hw)
          · exact .inr (.inl hany)
          · refine .inr (.inr ⟨fun hone => hseveral ?_, locate_of_made hread hmade⟩)
            have href : k.ref = none := by
              cases href : k.ref with
              | none => rfl
              | some pointer =>
                  replace hp : k.node.PartAt segments part := hp
                  rw [Keywords.node, href] at hp
                  cases hp
            exact hone.2 fields k rfl hread href
  | _ => cases hp

end Value

/-! ## The sections of a document -/

theorem Reading.under_eq_ok {α : Type} {step : Step} {r : Reading α} {a : α}
    (h : Reading.under step r = .ok a) : r = .ok a := by
  cases r with
  | error m => cases h
  | ok b => exact h

theorem readSection_eq_ok {α : Type} {place : String} {r : Reading α} {a : α}
    (h : readSection place r = .ok a) : r = .ok a := by
  cases r with
  | error m => cases h
  | ok b =>
      cases h
      rfl

theorem Schema.mapOf_eq_ok {v : Value} {schemas : Entries Schema}
    (h : Schema.mapOf v = .ok (some schemas)) :
    ∃ vs, v = .object vs ∧ schemas = Entries.ofList (vs.map fun e => (e.1, Schema.ofValue e.2)) := by
  refine Part.properties_ofValue ?_
  cases hread : (Part.ofValue v).properties with
  | error cause =>
      rw [Schema.mapOf, hread] at h
      cases h
  | ok found =>
      rw [Schema.mapOf, hread] at h
      cases h
      rfl

namespace Sections

variable {fields : List (String × Value)} {s : Sections}

theorem set_frame {s s' : Sections} {name : String} {v : Value} (h : s.set name v = .ok s') :
    (name ≠ "definitions" → s'.definitions = s.definitions) ∧
      (name ≠ "components" → s'.components = s.components) := by
  unfold set at h
  split at h
  all_goals
    first
      | obtain ⟨_, -, hs⟩ := bind_eq_ok.mp h
        cases hs
      | cases h
    simp

theorem definitions_of_document (h : ofDocument (.object fields) = .ok s)
    {schemas : Entries Schema} (hs : s.definitions = some schemas) :
    ∃ vs, (Entries.ofList fields).get? "definitions" = some (.object vs) ∧
      schemas = Entries.ofList (vs.map fun e => (e.1, Schema.ofValue e.2)) := by
  obtain ⟨v, hv, hread⟩ := Entries.last_of_foldlM
    (fun s name v => Reading.under (.key name) (set s name v)) Sections.definitions "definitions"
    (fun v schemas => Schema.mapOf v = .ok schemas) rfl
    (fun hset => by
      obtain ⟨_, hread, hs⟩ := bind_eq_ok.mp (Reading.under_eq_ok hset)
      cases hs
      exact hread)
    (fun hset hne => (set_frame (Reading.under_eq_ok hset)).1 hne) (readSection_eq_ok h) hs
  obtain ⟨vs, rfl, hschemas⟩ := Schema.mapOf_eq_ok hread
  exact ⟨vs, hv, hschemas⟩

theorem components_of_document (h : ofDocument (.object fields) = .ok s) {c : Components}
    (hs : s.components = some c) :
    ∃ v, (Entries.ofList fields).get? "components" = some v ∧
      Components.ofValue v = .ok (some c) :=
  Entries.last_of_foldlM
    (fun s name v => Reading.under (.key name) (set s name v)) Sections.components "components"
    (fun v c => Components.ofValue v = .ok c) rfl
    (fun hset => by
      obtain ⟨_, hread, hs⟩ := bind_eq_ok.mp (Reading.under_eq_ok hset)
      cases hs
      exact hread)
    (fun hset hne => (set_frame (Reading.under_eq_ok hset)).2 hne) (readSection_eq_ok h) hs

end Sections

namespace Components

theorem set_frame {c c' : Components} {name : String} {v : Value} (h : c.set name v = .ok c') :
    name ≠ "schemas" → c'.schemas = c.schemas := by
  unfold set at h
  split at h
  all_goals
    first
      | obtain ⟨_, -, hc⟩ := bind_eq_ok.mp h
        cases hc
      | cases h
    simp

theorem read_of_value {v : Value} {c : Components} (h : Components.ofValue v = .ok (some c)) :
    Record.components.read set {} v = .ok c := by
  cases v with
  | null => cases h
  | _ => exact map_some_eq_ok h

theorem schemas_of_value {v : Value} {c : Components} (h : Components.ofValue v = .ok (some c))
    (hv : ∀ items, v ≠ .array items) {schemas : Entries Schema} (hc : c.schemas = some schemas) :
    ∃ fields vs, v = .object fields ∧
      (Entries.ofList fields).get? "schemas" = some (.object vs) ∧
      schemas = Entries.ofList (vs.map fun e => (e.1, Schema.ofValue e.2)) := by
  cases v with
  | array items => exact absurd rfl (hv items)
  | object fields =>
      obtain ⟨w, hw, hread⟩ := Entries.last_of_foldlM
        (fun c name v => Reading.under (.key name) (set c name v)) Components.schemas "schemas"
        (fun v schemas => Schema.mapOf v = .ok schemas) rfl
        (fun hset => by
          obtain ⟨_, hread, hs⟩ := bind_eq_ok.mp (Reading.under_eq_ok hset)
          cases hs
          exact hread)
        (fun hset hne => set_frame (Reading.under_eq_ok hset) hne) (read_of_value h) hc
      obtain ⟨vs, rfl, hschemas⟩ := Schema.mapOf_eq_ok hread
      exact ⟨fields, vs, rfl, hw, hschemas⟩
  | _ => cases h

end Components

/-! ## Where definitions are written -/

theorem DefinitionTable.mem_insert {table : DefinitionTable} {d e : Definition}
    (h : e ∈ (table.insert d).entries) : e ∈ table.entries ∨ e = d := by
  unfold insert at h
  split at h
  · exact .inl h
  · simpa using h

theorem DefinitionTable.mem_ofList {ds : List Definition} {d : Definition}
    (h : d ∈ (ofList ds).entries) : d ∈ ds := by
  induction ds using List.reverseRecOn with
  | nil => cases h
  | append_singleton ds e ih =>
      rw [ofList, List.foldl_append] at h
      rcases mem_insert h with h | rfl
      · exact List.mem_append_left _ (ih h)
      · simp

theorem Sections.mem_definitionTable {s : Sections} {d : Definition}
    (h : d ∈ s.definitionTable.entries) : ∃ schemas schema, (d.name, schema) ∈ schemas ∧
      d.root = schema.node ∧ (d.home = .definitions ∧ s.definitions = some schemas ∨
        d.home = .components ∧ ∃ c, s.components = some c ∧ c.schemas = some schemas) := by
  rcases List.mem_append.mp (DefinitionTable.mem_ofList h) with h | h
  · obtain ⟨⟨name, schema⟩, hmem, rfl⟩ := List.mem_map.mp h
    cases hs : s.definitions with
    | none =>
        rw [hs] at hmem
        cases hmem
    | some schemas =>
        rw [hs] at hmem
        exact ⟨schemas, schema, hmem, rfl, .inl ⟨rfl, rfl⟩⟩
  · obtain ⟨⟨name, schema⟩, hmem, rfl⟩ := List.mem_map.mp h
    cases hs : s.components.bind (·.schemas) with
    | none =>
        rw [hs] at hmem
        cases hmem
    | some schemas =>
        rw [hs] at hmem
        obtain ⟨c, hc, hschemas⟩ := Option.bind_eq_some_iff.mp hs
        exact ⟨schemas, schema, hmem, rfl, .inr ⟨rfl, c, hc, hschemas⟩⟩

theorem SchemaModel.sections_of_document {document : Value} {withOperations : Bool}
    {model : SchemaModel} (h : SchemaModel.ofDocument document withOperations = .ok model) :
    ∃ fields s, document = .object fields ∧ Sections.ofDocument document = .ok s ∧
      model.definitions = s.definitionTable := by
  obtain ⟨s, hs, hrest⟩ := bind_eq_ok.mp h
  have hdefinitions : model.definitions = s.definitionTable := by
    cases withOperations with
    | false =>
        cases hrest
        rfl
    | true =>
        obtain ⟨plain, -, hrest⟩ := bind_eq_ok.mp hrest
        obtain ⟨reusable, -, hrest⟩ := bind_eq_ok.mp hrest
        obtain ⟨operations, -, hrest⟩ := bind_eq_ok.mp hrest
        cases hrest
        rfl
  cases document with
  | object fields => exact ⟨fields, s, rfl, hs, hdefinitions⟩
  | _ => cases hs

/-- Every definition is read from the value at its pointer, or the components are a list. -/
theorem SchemaModel.definition_of_document {document : Value} {withOperations : Bool}
    {model : SchemaModel} (h : SchemaModel.ofDocument document withOperations = .ok model)
    {d : Definition} (hd : d ∈ model.definitions.entries)
    (hlist : d.home = .components →
      ∀ items, document.locate ["components"] ≠ some (.array items)) :
    ∃ v, document.locate (d.home.segments ++ [d.name]) = some v ∧ d.root = Node.ofValue v := by
  obtain ⟨fields, s, rfl, hs, hdefinitions⟩ := sections_of_document h
  rw [hdefinitions] at hd
  obtain ⟨schemas, schema, hmem, hroot, hplace⟩ := Sections.mem_definitionTable hd
  have hentry : ∀ vs, schemas = Entries.ofList (vs.map fun e => (e.1, Schema.ofValue e.2)) →
      ∃ v, (Entries.ofList vs).get? d.name = some v ∧ d.root = Node.ofValue v := by
    rintro vs rfl
    have hget := Entries.get?_of_mem (Entries.nodup_keys_ofList _) hmem
    rw [Entries.get?_ofList_map, Option.map_eq_some_iff] at hget
    obtain ⟨v, hv, rfl⟩ := hget
    exact ⟨v, hv, hroot⟩
  rcases hplace with ⟨hhome, hschemas⟩ | ⟨hhome, c, hc, hschemas⟩
  · obtain ⟨vs, hvs, heq⟩ := Sections.definitions_of_document hs hschemas
    obtain ⟨v, hv, hnode⟩ := hentry vs heq
    refine ⟨v, ?_, hnode⟩
    simp [hhome, Home.segments, Value.locate, Value.field?, hvs, hv]
  · obtain ⟨w, hw, hread⟩ := Sections.components_of_document hs hc
    have hmap : ∀ items, w ≠ .array items := by
      rintro items rfl
      exact hlist hhome items (by simp [Value.locate, Value.field?, hw])
    obtain ⟨inner, vs, rfl, hvs, heq⟩ := Components.schemas_of_value hread hmap hschemas
    obtain ⟨v, hv, hnode⟩ := hentry vs heq
    refine ⟨v, ?_, hnode⟩
    simp [hhome, Home.segments, Value.locate, Value.field?, hw, hvs, hv]

end SwaggerTypes
