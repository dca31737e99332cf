import SwaggerTypes.Proofs.ExchangedSchemas
import SwaggerTypes.Proofs.QueryInterfaces
/-!
# Faults stay where they are

Reading a schema never fails: what cannot be read becomes a node that says why. So any part may be
exchanged for anything, be it a scalar or a malformed schema. The schema around it changes at the node
of that part only, and among the definitions of a document no other one changes.
-/

namespace SwaggerTypes

/-! ## An entry of a record exchanged -/

section

variable {σ γ : Type} {set : σ → String → Value → Reading σ} (put : γ → σ → σ) {key : String}
  {w w' v v' : Value} {c c' : γ} {step : Step}
  (hown : ∀ v s c, set (put c s) key v = set s key v)
  (hother : ∀ name, name ≠ key → ∀ v s c, set (put c s) name v = (set s name v).map (put c))
  (hw : ∀ s, set s key w = .ok (put c s)) (hw' : ∀ s, set s key w' = .ok (put c' s))

include hown hother hw hw'

theorem fields_exchange (before after : List (String × Value)) (start : σ) :
    let read (fields : List (String × Value)) : Reading σ :=
      fields.foldlM (fun s field => Reading.under (.key field.1) (set s field.1 field.2)) start
    read (before ++ (key, w) :: after) = read (before ++ (key, w') :: after) ∨
      ∃ r : Reading σ, read (before ++ (key, w) :: after) = r.map (put c) ∧
        read (before ++ (key, w') :: after) = r.map (put c') :=
  foldlM_exchange
    (fun s (field : String × Value) => Reading.under (.key field.1) (set s field.1 field.2)) (fun field => field.1 = key)
    (fun field hfield s c => by rw [hfield, hown])
    (fun field hfield s c => by rw [hother _ hfield, Reading.map_under])
    (key, w) (key, w') (fun s => by rw [hw]; rfl) (fun s => by rw [hw']; rfl) before after start

/-- A record in map form or in list form with one field exchanged. -/
theorem Record.read_exchange {r : Record} (hstep : r.StepTo key step)
    (h : Value.Exchange w w' [step] v v') (start : σ) :
    r.read set start v = r.read set start v' ∨
      ∃ x : Reading σ, r.read set start v = x.map (put c) ∧ r.read set start v' = x.map (put c') := by
  cases hstep with
  | key =>
      cases h with
      | @field _ _ _ _ before after h =>
        cases h
        exact fields_exchange put hown hother hw hw' before after start
  | place hfield =>
      cases h with
      | @item _ _ _ before after h =>
        cases h
        obtain ⟨front, back, hzip⟩ := zip_exchange hfield after
        have hplaces : ∀ u : Value, (front ++ (key, u) :: back).zipIdx =
            front.zipIdx ++ ((key, u), front.length) :: back.zipIdx (front.length + 1) := by
          intro u
          rw [List.zipIdx_append, List.zipIdx_cons, Nat.zero_add]
        have hlength : ∀ u : Value,
            (before ++ u :: after).length = before.length + (after.length + 1) := fun u => by simp
        simp only [read, hzip, hplaces, hlength]
        have hput : ∀ {u : Value} {d : γ}, (∀ s, set s key u = .ok (put d s)) → ∀ s : σ,
            Reading.under (.index front.length) (set s key u) = .ok (put d s) := by
          intro u d hu s
          rw [hu]
          rfl
        have hfold := foldlM_exchange
          (fun s (place : (String × Value) × Nat) =>
            Reading.under (.index place.2) (set s place.1.1 place.1.2))
          (fun place => place.1.1 = key)
          (fun place hplace s c => by rw [hplace, hown])
          (fun place hplace s c => by rw [hother _ hplace, Reading.map_under])
          ((key, w), front.length) ((key, w'), front.length) (hput hw) (hput hw')
          front.zipIdx (back.zipIdx (front.length + 1)) start
        rcases hfold with heq | ⟨x, hx, hx'⟩
        · exact .inl (by rw [heq])
        · rw [hx, hx']
          cases r.lengthMismatch (before.length + (after.length + 1)) with
          | some cause =>
              left
              cases x <;> rfl
          | none =>
              refine .inr ⟨x, ?_, ?_⟩
              all_goals cases x <;> rfl

end

/-! ## A definition exchanged -/

namespace DefinitionTable

variable {x y : Definition}

theorem entries_insert (table : DefinitionTable) (d : Definition) :
    (table.insert d).entries = if d.key ∈ table.entries.map Definition.key then table.entries
      else table.entries ++ [d] := by
  unfold insert
  split <;> rfl

/-- With one definition exchanged for another of the same name, the table changes at this one only. -/
theorem swap_ofList (hkey : x.key = y.key) {ds ds' : List Definition} (h : SwapIn x y ds ds') :
    SwapIn x y (ofList ds).entries (ofList ds').entries := by
  rcases h with rfl | ⟨before, after, rfl, rfl⟩
  · exact .inl rfl
  refine SwapIn.foldl_related (R := fun t t' : DefinitionTable => SwapIn x y t.entries t'.entries)
    (fun t t' d h => ?_) (fun t => ?_) before after {}
  · have hkeys : t.entries.map Definition.key = t'.entries.map Definition.key := by
      rcases h with heq | ⟨front, back, heq, heq'⟩
      · rw [heq]
      · simp only [heq, heq', List.map_append, List.map_cons, hkey]
    rw [entries_insert, entries_insert, hkeys]
    split
    · exact h
    · exact h.append [] [d]
  · rw [entries_insert, entries_insert, hkey]
    split
    · exact .inl rfl
    · exact .inr ⟨t.entries, [], rfl, rfl⟩

end DefinitionTable

namespace Sections

def schemasOf (s : Sections) : Home → Entries Schema
  | .definitions => s.definitions.getD []
  | .components => (s.components.bind (·.schemas)).getD []

/-- With one schema exchanged in its place, the table of definitions changes at this one only. -/
theorem swap_definitionTable {s s' : Sections} {home : Home} {name : String} {old new : Schema}
    (h : SwapIn (name, old) (name, new) (s.schemasOf home) (s'.schemasOf home))
    (hothers : ∀ other, other ≠ home → s'.schemasOf other = s.schemasOf other) :
    SwapIn ⟨home, name, old.node⟩ ⟨home, name, new.node⟩ s.definitionTable.entries
      s'.definitionTable.entries := by
  have htable : ∀ s : Sections, s.definitionTable = .ofList
      ((s.schemasOf .definitions).map (fun e => ⟨.definitions, e.1, e.2.node⟩) ++
        (s.schemasOf .components).map fun e => ⟨.components, e.1, e.2.node⟩) := fun _ => rfl
  have hmap := h.map fun e => (⟨home, e.1, e.2.node⟩ : Definition)
  rw [htable, htable]
  have hkey : (⟨home, name, old.node⟩ : Definition).key =
      (⟨home, name, new.node⟩ : Definition).key := rfl
  refine DefinitionTable.swap_ofList hkey ?_
  cases home with
  | definitions =>
      rw [hothers .components (by decide)]
      exact hmap.append [] _
  | components =>
      rw [hothers .definitions (by decide)]
      simpa using hmap.append (List.map _ (s.schemasOf .definitions)) []

end Sections

/-! ## Documents -/

theorem Schema.mapOf_object (vs : List (String × Value)) :
    Schema.mapOf (.object vs) = .ok (some (Schema.readAll vs)) := by
  rw [Schema.mapOf, Part.properties_object]
  rfl

inductive Home.WayTo : Home → List Step → Prop
  | definitions : WayTo .definitions [.key "definitions"]
  | components {step : Step} (h : Record.components.StepTo "schemas" step) :
      WayTo .components [.key "components", step]

def Components.withSchemas (ps : Entries Schema) (c : Components) : Components :=
  { c with schemas := some ps }

theorem Components.set_withSchemas {c : Components} {ps : Entries Schema} {name : String}
    (hne : name ≠ "schemas") (v : Value) :
    (c.withSchemas ps).set name v = (c.set name v).map (withSchemas ps) := by
  unfold set
  split
  · exact absurd rfl hne
  all_goals rfl

theorem Components.set_schemas (c : Components) (vs : List (String × Value)) :
    c.set "schemas" (.object vs) = .ok (c.withSchemas (Schema.readAll vs)) := by
  simp only [set, Schema.mapOf_object]
  rfl

namespace Sections

def withDefinitions (ps : Entries Schema) (s : Sections) : Sections :=
  { s with definitions := some ps }

def withComponents (c : Components) (s : Sections) : Sections := { s with components := some c }

theorem set_withDefinitions {s : Sections} {ps : Entries Schema} {name : String}
    (hne : name ≠ "definitions") (v : Value) :
    (s.withDefinitions ps).set name v = (s.set name v).map (withDefinitions ps) := by
  unfold set
  split
  all_goals
    first
      | rfl
      | exact absurd rfl hne
      | (rw [map_read]; rfl)

theorem set_withComponents {s : Sections} {c : Components} {name : String}
    (hne : name ≠ "components") (v : Value) :
    (s.withComponents c).set name v = (s.set name v).map (withComponents c) := by
  unfold set
  split
  all_goals
    first
      | rfl
      | exact absurd rfl hne
      | (rw [map_read]; rfl)

theorem set_definitions (s : Sections) (vs : List (String × Value)) :
    s.set "definitions" (.object vs) = .ok (s.withDefinitions (Schema.readAll vs)) := by
  simp only [set, Schema.mapOf_object]
  rfl

theorem set_components {v : Value} {c : Components} (h : Components.ofValue v = .ok (some c))
    (s : Sections) : s.set "components" v = .ok (s.withComponents c) := by
  simp only [set, h]
  rfl

/-- The sections of an accepted document with one section exchanged for another that can be read. -/
theorem exchange_section {γ : Type} (put : γ → Sections → Sections) {key : String} {w w' : Value}
    {c c' : γ} (hown : ∀ v s c, (put c s).set key v = s.set key v)
    (hother : ∀ name, name ≠ key → ∀ v s c, (put c s).set name v = (s.set name v).map (put c))
    (hw : ∀ s : Sections, s.set key w = .ok (put c s))
    (hw' : ∀ s : Sections, s.set key w' = .ok (put c' s)) {before after : List (String × Value)}
    {s : Sections} (hs : ofDocument (.object (before ++ (key, w) :: after)) = .ok s) :
    ∃ s', ofDocument (.object (before ++ (key, w') :: after)) = .ok s' ∧
      (s = s' ∨ ∃ t, s = put c t ∧ s' = put c' t) := by
  have hfold := readSection_eq_ok hs
  rcases fields_exchange put hown hother hw hw' before after {} with heq | ⟨r, hr, hr'⟩
  · exact ⟨s, congrArg (readSection "") (heq.symm.trans hfold), .inl rfl⟩
  · cases r with
    | error m => cases hr.symm.trans hfold
    | ok t =>
        cases hr.symm.trans hfold
        exact ⟨put c' t, congrArg (readSection "") hr', .inr ⟨t, rfl, rfl⟩⟩

end Sections

section

variable {old new v v' document document' : Value} {name : String} {step : Step}

/-- Components with one schema exchanged are read with this schema exchanged. -/
theorem Components.exchange (hstep : Record.components.StepTo "schemas" step)
    (h : Value.Exchange old new [step, .key name] v v') {c : Option Components}
    (hv : Components.ofValue v = .ok c) :
    ∃ d d', Components.ofValue v = .ok (some d) ∧ Components.ofValue v' = .ok (some d') ∧
      SwapIn (name, Schema.ofValue old) (name, Schema.ofValue new) (d.schemas.getD [])
        (d'.schemas.getD []) := by
  obtain ⟨w, w', hinner, houter⟩ := h.outermost
  have hrecord : ∀ u : Value, u = v ∨ u = v' →
      Components.ofValue u = (Record.components.read Components.set {} u).map some := by
    intro u hu
    cases houter
    all_goals rcases hu with rfl | rfl <;> rfl
  cases hinner with
  | @field _ _ _ _ before after hold =>
    cases hold
    rw [hrecord v (.inl rfl)] at hv
    rw [hrecord v (.inl rfl), hrecord v' (.inr rfl)]
    rcases Record.read_exchange Components.withSchemas (fun _ _ _ => rfl)
      (fun _ hne u _ _ => Components.set_withSchemas hne u) (fun c => c.set_schemas _)
      (fun c => c.set_schemas _) hstep houter {} with heq | ⟨r, hr, hr'⟩
    · rw [← heq]
      cases hread : Record.components.read Components.set {} v with
      | error m =>
          rw [hread] at hv
          cases hv
      | ok d => exact ⟨d, d, rfl, rfl, .inl rfl⟩
    · cases r with
      | error m =>
          rw [hr] at hv
          cases hv
      | ok d =>
          rw [hr, hr']
          exact ⟨_, _, rfl, rfl, Schema.swap_readAll before after⟩

/-- A section that is read in an accepted document is read without a fault. -/
theorem Sections.components_read {before after : List (String × Value)} {s : Sections}
    (h : Sections.ofDocument (.object (before ++ ("components", v) :: after)) = .ok s) :
    ∃ c, Components.ofValue v = .ok c := by
  have hfold := readSection_eq_ok h
  rw [List.foldlM_append] at hfold
  obtain ⟨t, -, hrest⟩ := bind_eq_ok.mp hfold
  obtain ⟨t', hset, -⟩ := bind_eq_ok.mp hrest
  obtain ⟨c, hc, -⟩ := bind_eq_ok.mp (Reading.under_eq_ok hset)
  exact ⟨c, hc⟩

theorem Sections.exchange {home : Home} {way : List Step} (hway : home.WayTo way)
    (h : Value.Exchange old new (way ++ [.key name]) document document') {s : Sections}
    (hs : Sections.ofDocument document = .ok s) :
    ∃ s', Sections.ofDocument document' = .ok s' ∧
      SwapIn (name, Schema.ofValue old) (name, Schema.ofValue new) (s.schemasOf home)
        (s'.schemasOf home) ∧
      ∀ other, other ≠ home → s'.schemasOf other = s.schemasOf other := by
  cases hway with
  | definitions =>
      obtain ⟨w, w', hinner, houter⟩ := h.outermost
      cases houter with
      | field hw =>
      cases hw
      cases hinner with
      | field hold =>
      cases hold
      obtain ⟨s', hs', rfl | ⟨t, rfl, rfl⟩⟩ := exchange_section withDefinitions (fun _ _ _ => rfl)
        (fun _ hne v _ _ => set_withDefinitions hne v) (fun s => s.set_definitions _)
        (fun s => s.set_definitions _) hs
      · exact ⟨s, hs', .inl rfl, fun _ _ => rfl⟩
      · refine ⟨_, hs', Schema.swap_readAll _ _, fun other hother => ?_⟩
        cases other with
        | definitions => exact absurd rfl hother
        | components => rfl
  | components hstep =>
      obtain ⟨w, w', hinner, houter⟩ := h.outermost
      cases houter with
      | field hw =>
      cases hw
      obtain ⟨c, hc⟩ := components_read hs
      obtain ⟨d, d', hd, hd', hswap⟩ := Components.exchange hstep hinner hc
      obtain ⟨s', hs', rfl | ⟨t, rfl, rfl⟩⟩ := exchange_section withComponents (fun _ _ _ => rfl)
        (fun _ hne v _ _ => set_withComponents hne v) (set_components hd) (set_components hd') hs
      · exact ⟨s, hs', .inl rfl, fun _ _ => rfl⟩
      · refine ⟨_, hs', hswap, fun other hother => ?_⟩
        cases other with
        | definitions => rfl
        | components => exact absurd rfl hother

theorem SchemaModel.ofDocument_of_sections {s : Sections} (h : Sections.ofDocument document = .ok s) :
    SchemaModel.ofDocument document false = .ok { definitions := s.definitionTable } := by
  rw [SchemaModel.ofDocument, h]
  rfl

end

/-- A fault stays where it is. With a property of a schema exchanged for any value, the closed form
changes at this property, in the structural part or in one of its types, and there in whether the
property is required. With a member of a composition exchanged it changes at this member. And with one
of its definitions exchanged, an accepted document is still accepted and no other definition changes. -/
theorem exchange_contained {old new : Value} :
    (∀ {v v' : Value} {step : Step} {name : String}, Record.schema.StepTo "properties" step →
      Value.Exchange old new [step, .key name] v v' →
      Node.Exchanges (Node.ofValue old) (Node.ofValue new) (v.PropertyWay name) (Node.ofValue v)
        (Node.ofValue v')) ∧
    (∀ {v v' : Value} {step : Step} {keyword : Composition} {i : Nat},
      Record.schema.StepTo keyword.keyword step →
      Value.Exchange old new [step, .index i] v v' →
      Node.ofValue v = Node.ofValue v' ∨ ∃ way, v.MemberWay keyword i way ∧
        Node.Exchange (Node.ofValue old) (Node.ofValue new) way (Node.ofValue v) (Node.ofValue v')) ∧
    ∀ {document document' : Value} {home : Home} {way : List Step} {name : String}
      {model : SchemaModel}, home.WayTo way →
      Value.Exchange old new (way ++ [.key name]) document document' →
      SchemaModel.ofDocument document false = .ok model →
      ∃ model', SchemaModel.ofDocument document' false = .ok model' ∧
        SwapIn ⟨home, name, Node.ofValue old⟩ ⟨home, name, Node.ofValue new⟩
          model.definitions.entries model'.definitions.entries := by
  refine ⟨Value.property_exchanges, Value.member_exchange, ?_⟩
  intro document document' home way name model hway h hmodel
  obtain ⟨s, hs, hrest⟩ := bind_eq_ok.mp hmodel
  cases hrest
  obtain ⟨s', hs', hswap, hothers⟩ := Sections.exchange hway h hs
  exact ⟨_, SchemaModel.ofDocument_of_sections hs', Sections.swap_definitionTable hswap hothers⟩

def word : Value := .object [("type", .string "string")]

/-- A pet with a tag, in sizes that are words or else this. -/
def petWith (tag size : Value) : Value :=
  .object [("properties", .object [("tag", tag)]), ("oneOf", .array [word, size])]

def petsWith (pet : Value) : Value :=
  .object [("definitions", .object [("Tag", word), ("Pet", pet)])]

theorem null_contained :
    Node.Exchanges (Node.ofValue word) (Node.ofValue .null) ((petWith word word).PropertyWay "tag")
      (Node.ofValue (petWith word word)) (Node.ofValue (petWith .null word)) ∧
    (Node.ofValue (petWith word word) = Node.ofValue (petWith word .null) ∨
      ∃ way, (petWith word word).MemberWay .oneOf 1 way ∧
        Node.Exchange (Node.ofValue word) (Node.ofValue .null) way
          (Node.ofValue (petWith word word)) (Node.ofValue (petWith word .null))) ∧
    ∃ model model', SchemaModel.ofDocument (petsWith word) false = .ok model ∧
      SchemaModel.ofDocument (petsWith .null) false = .ok model' ∧
      SwapIn ⟨.definitions, "Pet", Node.ofValue word⟩ ⟨.definitions, "Pet", Node.ofValue .null⟩
        model.definitions.entries model'.definitions.entries := by
  have htag : Value.Exchange word .null [.key "properties", .key "tag"] (petWith word word)
      (petWith .null word) :=
    @Value.Exchange.field _ _ _ _ _ _ [] _ (@Value.Exchange.field _ _ _ _ _ _ [] [] .here)
  have hsize : Value.Exchange word .null [.key "oneOf", .index 1] (petWith word word)
      (petWith word .null) :=
    @Value.Exchange.field _ _ _ _ _ _ [("properties", .object [("tag", word)])] []
      (@Value.Exchange.item _ _ _ _ _ [word] [] .here)
  have hpet : Value.Exchange word .null ([.key "definitions"] ++ [.key "Pet"]) (petsWith word)
      (petsWith .null) :=
    @Value.Exchange.field _ _ _ _ _ _ [] [] (@Value.Exchange.field _ _ _ _ _ _ [("Tag", word)] [] .here)
  obtain ⟨model, hmodel⟩ : ∃ model, SchemaModel.ofDocument (petsWith word) false = .ok model :=
    ⟨_, rfl⟩
  obtain ⟨model', hmodel', hswap⟩ := exchange_contained.2.2 .definitions hpet hmodel
  exact ⟨exchange_contained.1 .key htag, exchange_contained.2.1 .key hsize, model, model', hmodel,
    hmodel', hswap⟩

end SwaggerTypes
