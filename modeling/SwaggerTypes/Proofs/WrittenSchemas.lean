import Mathlib.Logic.Relation
import SwaggerTypes.Proofs.DocumentPointers
/-!
# Schemas and the values they are written in

The schema that a value writes is put together from the schemas that stand in the value. So what is said
of the names in an object, and of the values that a schema lists, holds of a schema and of all below it
when it holds of what is written in the value: because of a repeated key the last value counts, and no
value is listed that the document does not have.
-/

namespace SwaggerTypes

open Relation (ReflTransGen)

namespace Entries

variable {α : Type}

theorem mem_insert {key : String} {a : α} {map : Entries α} {e : String × α}
    (h : e ∈ map.insert key a) : e ∈ map ∨ e = (key, a) := by
  induction map with
  | nil => exact .inr (List.mem_singleton.mp h)
  | cons first rest ih =>
      unfold insert at h
      split at h
      · next hkey =>
        subst hkey
        rcases List.mem_cons.mp h with rfl | h
        · exact .inr rfl
        · exact .inl (List.mem_cons_of_mem _ h)
      · rcases List.mem_cons.mp h with rfl | h
        · exact .inl List.mem_cons_self
        · exact (ih h).imp_left (List.mem_cons_of_mem _)

theorem mem_ofList {entries : List (String × α)} {e : String × α} (h : e ∈ ofList entries) :
    e ∈ entries := by
  induction entries using List.reverseRecOn with
  | nil => cases h
  | append_singleton entries last ih =>
      rw [ofList_concat] at h
      rcases mem_insert h with h | rfl
      · exact List.mem_append_left _ (ih h)
      · simp

theorem mem_of_get?_ofList {entries : List (String × α)} {key : String} {a : α}
    (h : (ofList entries).get? key = some a) : (key, a) ∈ entries :=
  mem_ofList (mem_of_get? h)

end Entries

/-! ## Values -/

namespace Value

def Holds (v w : Value) : Prop :=
  (∃ fields name, v = .object fields ∧ (name, w) ∈ fields) ∨ ∃ items, v = .array items ∧ w ∈ items

theorem Holds.sizeOf_lt {v w : Value} (h : v.Holds w) : sizeOf w < sizeOf v := by
  rcases h with ⟨fields, name, rfl, hmem⟩ | ⟨items, rfl, hmem⟩
  · have hlt := List.sizeOf_lt_of_mem hmem
    simp only [Prod.mk.sizeOf_spec, object.sizeOf_spec] at hlt ⊢
    omega
  · have hlt := List.sizeOf_lt_of_mem hmem
    rw [array.sizeOf_spec]
    omega

/-- A schema in a map stands under one of its keys, or in the value there. -/
theorem SchemaAt.near {fields : List (String × Value)} {keys : List String} {w : Value}
    (h : (object fields).SchemaAt keys w) :
    ∃ name v, (name, v) ∈ fields ∧ (w = v ∨ v.Holds w) := by
  cases h with
  | property hps h =>
      exact ⟨_, _, Entries.mem_of_get?_ofList hps,
        .inr (.inl ⟨_, _, rfl, Entries.mem_of_get?_ofList h⟩)⟩
  | items h | additional h => exact ⟨_, _, Entries.mem_of_get?_ofList h, .inl rfl⟩
  | member hvs h =>
      exact ⟨_, _, Entries.mem_of_get?_ofList hvs, .inr (.inr ⟨_, rfl, List.mem_of_getElem? h⟩)⟩

def Contains : Value → Value → Prop := ReflTransGen Holds

/-- A property of schemas that a value gives to all that it writes: it is about the names in an object,
which are different, and about the values that a schema lists, which stand in the value. -/
structure Grants (v : Value) (P : Node → Prop) : Prop where
  object : ∀ {ps required additional doc nullable}, (ps.map Prod.fst).Nodup →
    P ⟨.object ps required additional, doc, nullable⟩
  values : ∀ {values literals doc nullable}, (∀ w ∈ values, v.Contains w) →
    Kind.ofValues values = .enum literals → P ⟨.enum literals, doc, nullable⟩
  other : ∀ {node : Node}, (∀ ps required additional, node.kind ≠ .object ps required additional) →
    (∀ literals, node.kind ≠ .enum literals) → P node

theorem Grants.of_contains {v w : Value} {P : Node → Prop} (h : v.Grants P) (hw : v.Contains w) :
    w.Grants P where
  object := h.object
  values := fun hvalues => h.values fun u hu => hw.trans (hvalues u hu)
  other := h.other

theorem Grants.of_holds {v w : Value} {P : Node → Prop} (h : v.Grants P) (hw : v.Holds w) :
    w.Grants P := h.of_contains (ReflTransGen.single hw)

end Value

/-! ## Keywords -/

namespace Keywords

open Node

variable {k : Keywords} {v : Value} {P : Node → Prop} {doc : Option String} {nullable : Bool}

theorem typeKind_ne_enum (k : Keywords) (name : String) (literals : List Literal) :
    k.typeKind name ≠ .enum literals := by
  intro h
  unfold typeKind arrayKind objectKind at h
  split at h
  case h_6 => split at h <;> cases h
  all_goals cases h

theorem structuralKind_enum {literals : List Literal}
    (h : k.structuralKind = some (.enum literals)) :
    ∃ values, (k.enum = some values ∨ ∃ value, k.const = some value ∧ values = [value]) ∧
      Kind.ofValues values = .enum literals := by
  have htype : ∀ name, some (k.typeKind name) ≠ some (.enum literals) :=
    fun name heq => typeKind_ne_enum k name literals (Option.some.inj heq)
  unfold structuralKind at h
  split at h
  · next value _ hconst => exact ⟨_, .inr ⟨_, hconst, rfl⟩, Option.some.inj h⟩
  · next henum => exact ⟨_, .inl henum, Option.some.inj h⟩
  · exact absurd h (htype _)
  · split at h
    · cases h
    · exact absurd h (htype _)
    · cases h
  · split at h
    · cases h
    · split at h
      · unfold arrayKind at h
        split at h <;> cases h
      · cases h

/-- The property holds of all that the keywords write, and what they list stands in the value. -/
structure Carries (v : Value) (P : Node → Prop) (k : Keywords) : Prop where
  names : ∀ ps, k.properties = some ps → ps.keys.Nodup
  enum : ∀ values, k.enum = some values → ∀ w ∈ values, v.Contains w
  const : ∀ w, k.const = some w → v.Contains w
  parts : ∀ segments part, k.Writes segments part → part.AllBelow P

/-- A property of all parts of a schema, which are told by their addresses. -/
theorem allBelow_of_parts {root : Node} (hroot : P root)
    (hparts : ∀ segments part, PartAt root segments part → part.AllBelow P) : root.AllBelow P := by
  refine .of_parts hroot fun part hp => ?_
  obtain ⟨segments, hat⟩ := hp.partAt
  exact hparts segments part hat

section

variable (hP : v.Grants P)

include hP

theorem allBelow_composite {keyword : Composition} {ms : List Node} (h : ∀ m ∈ ms, m.AllBelow P) :
    AllBelow P ⟨.composite keyword ms, doc, nullable⟩ := by
  refine .of_parts (hP.other nofun nofun) fun part hp => ?_
  cases hp with
  | member hm => exact h part hm

theorem Leaf.allBelow {kd : Kind Node} (h : Leaf kd)
    (hvalues : ∀ literals, kd = .enum literals → P ⟨kd, doc, nullable⟩) :
    AllBelow P ⟨kd, doc, nullable⟩ := by
  refine allBelow_of_parts ?_ fun segments part hp => absurd hp (h doc nullable segments part)
  cases kd with
  | enum literals => exact hvalues literals rfl
  | object ps required additional =>
      cases ps with
      | nil => exact hP.object List.nodup_nil
      | cons p ps => exact absurd (.property List.mem_cons_self) (h doc nullable _ p.2)
  | _ => exact hP.other nofun nofun

end

namespace Carries

section

variable (hP : v.Grants P) (hk : k.Carries v P)

include hP hk

theorem arrayKind : AllBelow P ⟨k.arrayKind, doc, nullable⟩ := by
  refine allBelow_of_parts ?_ fun segments part hp => ?_
  · unfold Keywords.arrayKind
    split <;> exact hP.other nofun nofun
  · rcases arrayKind_partAt hp with hw | rfl
    · exact hk.parts _ _ hw
    · exact .of_parts (hP.other nofun nofun) nofun

theorem objectKind : AllBelow P ⟨k.objectKind, doc, nullable⟩ := by
  refine allBelow_of_parts ?_ fun segments part hp => hk.parts _ _ (objectKind_partAt hp)
  obtain ⟨required, others, hkind, -⟩ := k.objectKind_eq
  rw [hkind]
  refine hP.object ?_
  rw [List.map_map]
  cases hps : k.properties with
  | none => exact List.nodup_nil
  | some ps => exact hk.names ps hps

theorem typeKind (name : String) : AllBelow P ⟨k.typeKind name, doc, nullable⟩ := by
  rcases typeKind_cases k name with h | h | h
  · rw [h]
    exact hk.arrayKind hP
  · rw [h]
    exact hk.objectKind hP
  · exact h.allBelow hP fun literals heq => absurd heq (typeKind_ne_enum k name literals)

theorem structuralKind {kd : Kind Node} (h : k.structuralKind = some kd) :
    AllBelow P ⟨kd, doc, nullable⟩ := by
  rcases structuralKind_cases h with rfl | rfl | hleaf | ⟨names, rfl⟩
  · exact hk.arrayKind hP
  · exact hk.objectKind hP
  · refine hleaf.allBelow hP fun literals heq => ?_
    subst heq
    obtain ⟨values, henum | ⟨value, hconst, rfl⟩, hread⟩ := structuralKind_enum h
    · exact hP.values (hk.enum values henum) hread
    · exact hP.values (List.forall_mem_singleton.mpr (hk.const value hconst)) hread
  · refine allBelow_composite hP fun m hm => ?_
    obtain ⟨name, -, rfl⟩ := List.mem_map.mp hm
    exact hk.typeKind hP name

omit hP in
theorem members {keyword : Composition} {ms : List Node} (h : k.members keyword = some ms) :
    ∀ m ∈ ms, m.AllBelow P := by
  intro m hm
  obtain ⟨i, hi⟩ := List.getElem?_of_mem hm
  exact hk.parts _ _ (.member h hi)

theorem constraints (doc : Option String) (nullable : Bool) :
    ∀ c ∈ k.constraints, c.AllBelow P ∧ AllBelow P ⟨c.kind, doc, nullable⟩ := by
  intro c hc
  rcases mem_constraints hc with ⟨kd, hkd, rfl⟩ | ⟨keyword, ms, hms, rfl⟩
  · exact ⟨hk.structuralKind hP hkd, hk.structuralKind hP hkd⟩
  · exact ⟨allBelow_composite hP (hk.members hms), allBelow_composite hP (hk.members hms)⟩

theorem node : k.node.AllBelow P := by
  have hmembers := hk.constraints hP k.doc (k.isNullable || k.listsNull)
  unfold Keywords.node
  split
  · exact .of_parts (hP.other nofun nofun) nofun
  · unfold kind
    split
    · next ms hall =>
      refine allBelow_composite hP fun m hm => ?_
      rcases List.mem_append.mp hm with hm | hm
      · exact hk.members (show k.members .allOf = _ from hall) m hm
      · exact (hmembers m hm).1
    · exact .of_parts (hP.other nofun nofun) nofun
    · next one _ hone => exact (hmembers one (hone ▸ List.mem_cons_self)).2
    · exact allBelow_composite hP fun c hc => (hmembers c hc).1

end

end Carries

/-- What the keywords of a map list stands in the map, and the schemas in its values are those that the
keywords write. -/
theorem carries_of_ofFields {fields : List (String × Value)}
    (h : ofFields (Part.ofFields fields) = .ok k)
    (hfields : ∀ name w, (name, w) ∈ fields → v.Holds w)
    (hschemas : ∀ name w, (name, w) ∈ fields →
      (Node.ofValue w).AllBelow P ∧ ∀ u, w.Holds u → (Node.ofValue u).AllBelow P) :
    k.Carries v P where
  names := by
    intro ps hps
    obtain ⟨vs, -, rfl⟩ := properties_of_ofFields h hps
    exact Entries.nodup_keys_ofList _
  enum := by
    intro values hvalues w hw
    have hheld := hfields _ _ (Entries.mem_of_get?_ofList (enum_of_ofFields h hvalues))
    exact (ReflTransGen.single hheld).tail (.inr ⟨values, rfl, hw⟩)
  const := by
    intro w hw
    exact ReflTransGen.single (hfields _ _ (Entries.mem_of_get?_ofList (const_of_ofFields h hw)))
  parts := by
    intro segments part hw
    obtain ⟨w, hat, rfl⟩ := Value.schemaAt_of_writes h hw
    obtain ⟨name, u, hmem, rfl | hholds⟩ := hat.near
    · exact (hschemas name _ hmem).1
    · exact (hschemas name u hmem).2 w hholds

/-- A list of keywords is read as the map that has their names as keys. -/
theorem ofItems_eq_ok {items : List Value} (h : ofItems (Part.ofItems items) = .ok k) :
    ofFields (Part.ofFields (Record.schema.fields.zip items)) = .ok k := by
  obtain ⟨k', hread, hrest⟩ := bind_eq_ok.mp h
  have hk : k' = k := by
    split at hrest
    · cases hrest
    · split at hrest
      · cases hrest
      · exact Except.ok.inj hrest
  have hzip : Part.ofFields (Record.schema.fields.zip items) =
      Record.schema.fields.zip (Part.ofItems items) := by
    rw [Part.ofFields_eq_map, Part.ofItems_eq_map, List.zip_map_right]
    rfl
  rw [hzip, ← hk]
  exact hread

end Keywords

/-- In the schema that a value writes all has the property that the value grants. -/
theorem Node.allBelow_ofValue {P : Node → Prop} {v : Value} (hP : v.Grants P) :
    (Node.ofValue v).AllBelow P := by
  -- the schemas in the keywords are written in smaller values, for which the theorem is at hand
  have hkeywords : ∀ fields k, Keywords.ofFields (Part.ofFields fields) = .ok k →
      (∀ name w, (name, w) ∈ fields → v.Holds w) → k.node.AllBelow P := by
    intro fields k hread hfields
    refine (Keywords.carries_of_ofFields hread hfields fun name w hmem => ?_).node hP
    have hw := hP.of_holds (hfields name w hmem)
    exact ⟨allBelow_ofValue hw, fun u hholds => allBelow_ofValue (hw.of_holds hholds)⟩
  have hschema : ∀ read, (∀ k, read = .ok k → k.node.AllBelow P) →
      (Schema.ofKeywords read).node.AllBelow P := by
    intro read hread
    cases read with
    | ok k => exact hread k rfl
    | error cause => exact .of_parts (hP.other nofun nofun) nofun
  cases v with
  | object fields =>
      exact hschema _ fun k hread =>
        hkeywords fields k hread fun name w hmem => .inl ⟨fields, name, rfl, hmem⟩
  | array items =>
      exact hschema _ fun k hread =>
        hkeywords _ k (Keywords.ofItems_eq_ok hread) fun name w hmem =>
          .inr ⟨items, rfl, (List.of_mem_zip hmem).2⟩
  | _ => exact .of_parts (hP.other nofun nofun) nofun
termination_by sizeOf v
decreasing_by
  · exact (hfields name w hmem).sizeOf_lt
  · exact Nat.lt_trans hholds.sizeOf_lt (hfields name w hmem).sizeOf_lt

/-! ## Readings -/

/-- What holds at the start of a reading and is kept by each step holds at its end. -/
theorem foldlM_invariant {σ β ε : Type} (P : σ → Prop) {step : σ → β → Except ε σ} {bs : List β}
    {s s' : σ} (h : bs.foldlM step s = .ok s') (hs : P s)
    (hstep : ∀ s, ∀ b ∈ bs, ∀ s', P s → step s b = .ok s' → P s') : P s' := by
  induction bs generalizing s with
  | nil =>
      cases h
      exact hs
  | cons b bs ih =>
      rw [List.foldlM_cons] at h
      obtain ⟨t, hfirst, hrest⟩ := bind_eq_ok.mp h
      exact ih hrest (hstep s b List.mem_cons_self t hs hfirst)
        fun s b hb => hstep s b (List.mem_cons_of_mem _ hb)

theorem Record.read_invariant {σ : Type} (P : σ → Prop) {r : Record}
    {set : σ → String → Value → Reading σ} {s s' : σ} {v : Value} (h : r.read set s v = .ok s')
    (hs : P s) (hset : ∀ s name w s', v.Holds w → P s → set s name w = .ok s' → P s') : P s' := by
  cases v with
  | object fields =>
      exact foldlM_invariant P h hs fun s f hf s' hs hstep =>
        hset s f.1 f.2 s' (.inl ⟨fields, f.1, rfl, hf⟩) hs (Reading.under_eq_ok hstep)
  | array items =>
      obtain ⟨t, hfold, hrest⟩ := bind_eq_ok.mp h
      have ht : P t := foldlM_invariant P hfold hs fun s f hf s' hs hstep => by
        have hzip := List.mem_of_getElem? (List.mk_mem_zipIdx_iff_getElem?.mp hf)
        have hmem := (List.of_mem_zip hzip).2
        exact hset s f.1.1 f.1.2 s' (.inr ⟨items, rfl, hmem⟩) hs (Reading.under_eq_ok hstep)
      split at hrest
      · cases hrest
      · cases hrest
        exact ht
  | _ => cases h

/-! ## Documents -/

def Entries.WrittenIn (document : Value) (schemas : Entries Schema) : Prop :=
  ∀ e ∈ schemas, ∃ v, document.Contains v ∧ e.2 = Schema.ofValue v

theorem Entries.writtenIn_ofList {document : Value} {vs : List (String × Value)}
    (h : document.Contains (.object vs)) :
    (Entries.ofList (vs.map fun e => (e.1, Schema.ofValue e.2))).WrittenIn document := by
  intro e he
  obtain ⟨⟨name, v⟩, hmem, rfl⟩ := List.mem_map.mp (Entries.mem_ofList he)
  exact ⟨v, h.tail (.inl ⟨vs, name, rfl, hmem⟩), rfl⟩

theorem Components.schemas_writtenIn {document v : Value} {c : Components}
    (hv : document.Contains v) (h : Components.ofValue v = .ok (some c)) {schemas : Entries Schema}
    (hc : c.schemas = some schemas) : schemas.WrittenIn document := by
  refine Record.read_invariant
    (fun c : Components => ∀ schemas, c.schemas = some schemas → schemas.WrittenIn document)
    (read_of_value h) (fun _ h => nomatch h)
    (fun c name w c' hw hold hset schemas hschemas => ?_) schemas hc
  by_cases hname : name = "schemas"
  · subst hname
    obtain ⟨found, hmap, hset⟩ := bind_eq_ok.mp hset
    cases hset
    obtain ⟨vs, rfl, rfl⟩ := Schema.mapOf_eq_ok (hmap.trans (congrArg _ hschemas))
    exact Entries.writtenIn_ofList (hv.tail hw)
  · exact hold schemas ((set_frame hset hname).symm.trans hschemas)

/-- Every definition is read from a value in the document. -/
theorem SchemaModel.root_of_document {document : Value} {withOperations : Bool}
    {model : SchemaModel} (h : SchemaModel.ofDocument document withOperations = .ok model)
    {d : Definition} (hd : d ∈ model.definitions.entries) :
    ∃ v, document.Contains v ∧ d.root = Node.ofValue v := by
  obtain ⟨fields, s, rfl, hs, hdefinitions⟩ := sections_of_document h
  obtain ⟨schemas, schema, hmem, hroot, hplace⟩ :=
    Sections.mem_definitionTable (hdefinitions ▸ hd)
  have hheld : ∀ {name v}, (Entries.ofList fields).get? name = some v →
      (Value.object fields).Contains v :=
    fun hget => ReflTransGen.single (.inl ⟨fields, _, rfl, Entries.mem_of_get?_ofList hget⟩)
  have hschemas : schemas.WrittenIn (.object fields) := by
    rcases hplace with ⟨-, hschemas⟩ | ⟨-, c, hc, hschemas⟩
    · obtain ⟨vs, hvs, rfl⟩ := Sections.definitions_of_document hs hschemas
      exact Entries.writtenIn_ofList (hheld hvs)
    · obtain ⟨v, hv, hread⟩ := Sections.components_of_document hs hc
      exact Components.schemas_writtenIn (hheld hv) hread hschemas
  obtain ⟨v, hv, hwritten⟩ := hschemas _ hmem
  refine ⟨v, hv, hroot.trans ?_⟩
  rw [show schema = Schema.ofValue v from hwritten]
  rfl

end SwaggerTypes
