import SwaggerTypes.Proofs.ParameterKeywords
import SwaggerTypes.Proofs.PlaceIndependence
/-!
# The two forms of a parameter

Where a parameter writes under `schema` what another one writes itself, both have the same schema,
unless a list of schemas counts as the items of a list: the one takes it for a tuple, which has no
type of its own, the other for one schema in its list form. So both become the same property, or
their types are never the same.
-/

namespace SwaggerTypes

/-! ## Types of unions -/

section

variable {sorted : Bool} {follow : Place → String → Synthesis TypeExpr} {k : Keywords}

theorem exists_getElem?_of_forall₂ {α β : Type} {R : α → β → Prop} {as : List α} {bs : List β}
    (h : List.Forall₂ R as bs) {i : Nat} {a : α} (ha : as[i]? = some a) :
    ∃ b, bs[i]? = some b ∧ R a b := by
  have hrel := rel_getElem? h i
  rw [ha] at hrel
  generalize bs[i]? = found at hrel ⊢
  cases hrel with
  | some hab => exact ⟨_, rfl, hab⟩

def Node.Has (sorted : Bool) (follow : Place → String → Synthesis TypeExpr) (node : Node)
    (t : TypeExpr) : Prop :=
  ∃ p st st', (node.type sorted follow p).run st = .ok (t, st')

theorem Node.operands_of_standsAlone {joining : Joining} {lifted : Bool} {members : List Node}
    (h : ∀ m ∈ members, joining.standsAlone lifted m = true) {p : Place} {way : List String} {i : Nat}
    {st st' : Progress} {os : List Operand}
    (hrun : (Node.operands sorted follow p joining lifted way i members).run st = .ok (os, st')) :
    ∃ ts, os = ts.map Operand.type ∧ List.Forall₂ (Node.Has sorted follow) members ts := by
  induction members generalizing i st os with
  | nil =>
      cases hrun
      exact ⟨[], rfl, .nil⟩
  | cons m members ih =>
      obtain ⟨hm, hmembers⟩ := List.forall_mem_cons.mp h
      rw [Node.operands, Setting.operand_of_standsAlone hm, bind_assoc, StateT.run_bind] at hrun
      obtain ⟨⟨t, st₁⟩, hfirst, hrun⟩ := bind_eq_ok.mp hrun
      rw [pure_bind, StateT.run_bind] at hrun
      obtain ⟨⟨rest, st₂⟩, hrest, heq⟩ := bind_eq_ok.mp hrun
      cases heq
      obtain ⟨ts, rfl, hts⟩ := ih hmembers hrest
      exact ⟨t :: ts, rfl, .cons ⟨_, _, _, hfirst⟩ hts⟩

theorem Node.exists_operands {joining : Joining} {lifted : Bool} {members : List Node}
    (h : ∀ m ∈ members, joining.standsAlone lifted m = true ∧
      ∀ p st, ∃ r, (Node.type sorted follow p m).run st = .ok r)
    (p : Place) (way : List String) (i : Nat) (st : Progress) :
    ∃ r, (Node.operands sorted follow p joining lifted way i members).run st = .ok r := by
  induction members generalizing i st with
  | nil => exact ⟨_, rfl⟩
  | cons m members ih =>
      obtain ⟨⟨hm, htype⟩, hmembers⟩ := List.forall_mem_cons.mp h
      obtain ⟨⟨t, st₁⟩, hfirst⟩ := htype (p.below (way ++ [toString i]) false) st
      obtain ⟨⟨rest, st₂⟩, hrest⟩ := ih hmembers (i + 1) st₁
      refine ⟨(.type t :: rest, st₂), ?_⟩
      rw [Node.operands, Setting.operand_of_standsAlone hm, bind_assoc, StateT.run_bind]
      refine bind_eq_ok.mpr ⟨_, hfirst, ?_⟩
      rw [pure_bind, StateT.run_bind]
      exact bind_eq_ok.mpr ⟨_, hrest, rfl⟩

namespace Keywords

theorem standsAlone_typeKind (members : List Node) (name : String) :
    (Joining.of .anyOf members).standsAlone false (.bare (k.typeKind name)) = true := by
  cases hkind : k.typeKind name with
  | composite keyword ms => exact absurd hkind (k.typeKind_ne_composite name keyword ms)
  | _ => rfl

theorem standsAlone_types (names : List String) :
    ∀ m ∈ names.map fun name => Node.bare (k.typeKind name),
      (Joining.of .anyOf (names.map fun name => .bare (k.typeKind name))).standsAlone false m = true := by
  intro m hm
  obtain ⟨name, -, rfl⟩ := List.mem_map.mp hm
  exact standsAlone_typeKind _ name

theorem type_of_types {first second : String} {rest : List String} {doc : Option String}
    {nullable : Bool} {t : TypeExpr}
    (h : Node.Has sorted follow ⟨k.typesKind (first :: second :: rest), doc, nullable⟩ t) :
    ∃ ts, t = (TypeExpr.union ts).orNull nullable ∧
      List.Forall₂ (fun name => Node.Has sorted follow (.bare (k.typeKind name)))
        (first :: second :: rest) ts := by
  obtain ⟨p, st, st', hrun⟩ := h
  have hkind : k.typesKind (first :: second :: rest) = .composite .anyOf
      ((first :: second :: rest).map fun name => .bare (k.typeKind name)) := rfl
  rw [Setting.type_eq, hkind, Node.kindType, bind_assoc, StateT.run_bind] at hrun
  obtain ⟨⟨os, st₁⟩, hoperands, heq⟩ := bind_eq_ok.mp hrun
  cases heq
  obtain ⟨ts, rfl, hts⟩ := Node.operands_of_standsAlone (standsAlone_types _) hoperands
  rw [List.forall₂_map_left_iff] at hts
  have htypes : (ts.map Operand.type).filterMap Operand.type? = ts := by
    rw [List.filterMap_map]
    exact List.filterMap_some
  refine ⟨ts, ?_, hts⟩
  show (TypeExpr.unionOf ((ts.map Operand.type).filterMap Operand.type?)).orNull nullable = _
  rw [htypes]
  cases hts with
  | cons _ hts =>
      cases hts with
      | cons _ _ => rfl

/-- With a tuple in the place of the items a value has a type in any case. -/
theorem exists_type_of_typeKind (hk : k.DescribesValue) (name : String) (p : Place) (st : Progress) :
    ∃ r, (Node.type sorted follow p
      (.bare ((k.withItems .tuple).typeKind name))).run st = .ok r := by
  obtain ⟨type, format, own, enum, xNullable, rfl⟩ := hk
  unfold typeKind
  split <;> exact ⟨_, rfl⟩

theorem exists_type_of_types (hk : k.DescribesValue) (first second : String) (rest : List String)
    (doc : Option String) (nullable : Bool) (p : Place) (st : Progress) :
    ∃ r, (Node.type sorted follow p
      ⟨(k.withItems .tuple).typesKind (first :: second :: rest), doc, nullable⟩).run st =
        .ok r := by
  have hmembers : ∀ m ∈ (first :: second :: rest).map fun name =>
      Node.bare ((k.withItems .tuple).typeKind name),
      ∀ p st, ∃ r, (Node.type sorted follow p m).run st = .ok r := by
    intro m hm
    obtain ⟨name, -, rfl⟩ := List.mem_map.mp hm
    exact exists_type_of_typeKind hk name
  obtain ⟨⟨os, st₁⟩, hrun⟩ := Node.exists_operands
    (fun m hm => ⟨standsAlone_types _ m hm, hmembers m hm⟩) p [Composition.anyOf.keyword] 0 st
  have hkind : (k.withItems .tuple).typesKind (first :: second :: rest) =
      .composite .anyOf ((first :: second :: rest).map fun name =>
        .bare ((k.withItems .tuple).typeKind name)) := rfl
  rw [Setting.type_eq, hkind, Node.kindType, bind_assoc, StateT.run_bind]
  exact ⟨_, bind_eq_ok.mpr ⟨_, hrun, rfl⟩⟩

theorem getElem?_orNull {ts : List TypeExpr} {t : TypeExpr} {i : Nat} (h : ts[i]? = some t)
    (nullable : Bool) :
    ∃ us, (TypeExpr.union ts).orNull nullable = .union us ∧ us[i]? = some t := by
  cases nullable with
  | false => exact ⟨ts, rfl, h⟩
  | true =>
      refine ⟨_, rfl, ?_⟩
      split
      · exact h
      · rw [List.getElem?_append_left (List.getElem?_eq_some_iff.mp h).1, h]

theorem type_of_array {node : Node} {doc : Option String} {nullable : Bool} {t : TypeExpr}
    (h : Node.Has sorted follow ⟨.array node, doc, nullable⟩ t) :
    ∃ u, t = (TypeExpr.array u).orNull nullable := by
  obtain ⟨p, st, st', hrun⟩ := h
  rw [Setting.type_eq, Node.kindType, bind_assoc, StateT.run_bind] at hrun
  obtain ⟨⟨u, st₁⟩, -, heq⟩ := bind_eq_ok.mp hrun
  cases heq
  exact ⟨u, rfl⟩

theorem type_of_tuple {construct : String} {doc : Option String} {nullable : Bool} {t : TypeExpr}
    (h : Node.Has sorted follow ⟨.unsupported construct, doc, nullable⟩ t) : t = .any := by
  obtain ⟨p, st, st', hrun⟩ := h
  cases hrun
  cases nullable <;> rfl

theorem array_orNull_ne_any (u : TypeExpr) (nullable : Bool) :
    (TypeExpr.array u).orNull nullable ≠ .any := by
  cases nullable <;> exact nofun

/-- Whatever a list holds, its type is not that of a tuple. -/
theorem list_ne_tuple (hk : k.DescribesValue) (hlist : k.MakesList) {node : Node} {t t' : TypeExpr}
    (h : Node.Has sorted follow (k.withItems (.single node)).node t)
    (h' : Node.Has sorted follow (k.withItems .tuple).node t') : t ≠ t' := by
  rw [(hk.withItems _).node_eq] at h h'
  rcases structuralKind_list hk hlist with harray | ⟨first, second, rest, hmem, htypes⟩
  · rw [harray, Option.getD_some] at h h'
    obtain ⟨u, rfl⟩ := type_of_array h
    obtain rfl := type_of_tuple h'
    exact array_orNull_ne_any u _
  · rw [htypes, Option.getD_some] at h h'
    obtain ⟨ts, rfl, hts⟩ := type_of_types h
    obtain ⟨ts', rfl, hts'⟩ := type_of_types h'
    obtain ⟨i, hi⟩ := List.getElem?_of_mem hmem
    obtain ⟨u, hu, hlist⟩ := exists_getElem?_of_forall₂ hts hi
    obtain ⟨u', hu', htuple⟩ := exists_getElem?_of_forall₂ hts' hi
    obtain ⟨v, rfl⟩ := type_of_array hlist
    obtain rfl := type_of_tuple htuple
    intro heq
    obtain ⟨us, hus, hat⟩ := getElem?_orNull hu (k.isNullable || k.listsNull)
    obtain ⟨us', hus', hat'⟩ := getElem?_orNull hu' (k.isNullable || k.listsNull)
    cases hus.symm.trans (heq.trans hus')
    cases hat.symm.trans hat'

theorem exists_type_of_tuple (hk : k.DescribesValue) (hlist : k.MakesList) (p : Place)
    (st : Progress) :
    ∃ r, (Node.type sorted follow p (k.withItems .tuple).node).run st = .ok r := by
  rw [(hk.withItems _).node_eq]
  rcases structuralKind_list hk hlist with harray | ⟨first, second, rest, -, htypes⟩
  · rw [harray]
    exact ⟨_, rfl⟩
  · rw [htypes]
    exact exists_type_of_types hk first second rest _ _ p st

end Keywords

end

/-! ## Forms -/

/-- One parameter writes under `schema` what the other one writes itself, and both say the same of
everything else. -/
structure Nests (fields nested inner : List (String × Value)) : Prop where
  direct : (Entries.ofList fields).get? "schema" = none
  schema : (Entries.ofList nested).get? "schema" = some (.object inner)
  shared : ∀ key ∈ ["name", "in", "required", "description"],
    (Entries.ofList nested).get? key = (Entries.ofList fields).get? key
  keywords : ∀ key ∈ valueKeywords,
    (Entries.ofList inner).get? key = (Entries.ofList fields).get? key
  others : ∀ e ∈ inner, e.1 ∈ valueKeywords ∨ e.1 ∉ Record.schema.fields
  nodup : (inner.map Prod.fst).Nodup

/-- A parameter describes a list, or several types with lists among them, and writes a list of
schemas for the items. -/
def WritesTuple (fields : List (String × Value)) : Prop :=
  (∃ items, Value.under fields "items" = .array items) ∧ Value.under fields "enum" = .null ∧
    (Value.under fields "type" = .null ∨ Value.under fields "type" = .string "array" ∨
      ∃ names, Value.under fields "type" = .array names ∧ .string "array" ∈ names)

section

variable {fields nested inner : List (String × Value)} {p q : ParameterFields} {a b : Parameter}

theorem Value.under_congr {others : List (String × Value)} {key : String}
    (h : (Entries.ofList fields).get? key = (Entries.ofList others).get? key) :
    under fields key = under others key := by
  rw [under, under, h]

theorem Part.items_eq {v : Value} (hv : ∀ items, v ≠ .array items) :
    (Part.ofValue v).items = (ParameterFields.writtenSchema v).map Items.single := by
  cases v with
  | array items => exact absurd rfl (hv items)
  | _ => rfl

theorem Value.optional_eq_none {α : Type} {read : Value → Except Mismatch α} {v : Value} {c : Option α}
    (h : v.optional read = .ok c) : c = none ↔ v = .null := by
  cases v with
  | null =>
      cases h
      exact ⟨fun _ => rfl, fun _ => rfl⟩
  | _ =>
      cases c with
      | none =>
          replace h : (read _).map some = .ok none := h
          cases hread : read _ <;> (rw [hread] at h; cases h)
      | some c => exact ⟨nofun, nofun⟩

theorem Value.mem_texts {items : List Value} {texts : List String}
    (h : (Value.array items).texts? = some texts) (text : String) :
    text ∈ texts ↔ .string text ∈ items := by
  simp only [texts?] at h
  induction items generalizing texts with
  | nil =>
      cases h
      simp
  | cons v items ih =>
      rw [List.mapM_cons] at h
      obtain ⟨first, hfirst, h⟩ := Option.bind_eq_some_iff.mp h
      obtain ⟨rest, hrest, heq⟩ := Option.bind_eq_some_iff.mp h
      cases heq
      cases v with
      | string s =>
          cases hfirst
          rw [List.mem_cons, List.mem_cons, ih hrest, Value.string.injEq]
      | _ => cases hfirst

theorem TypeNames.list_iff {v : Value} {types : Option TypeNames}
    (h : v.optional TypeNames.ofValue = .ok types) :
    (types = none ∨ types = some (.single "array") ∨
      ∃ names, types = some (.multiple names) ∧ "array" ∈ names) ↔
    v = .null ∨ v = .string "array" ∨ ∃ names, v = .array names ∧ .string "array" ∈ names := by
  cases v with
  | null =>
      cases h
      simp
  | string name =>
      cases h
      simp
  | array items =>
      replace h : (TypeNames.ofValue (.array items)).map some = .ok types := h
      unfold TypeNames.ofValue at h
      cases htexts : (Value.array items).texts? with
      | none =>
          rw [htexts] at h
          cases h
      | some texts =>
          rw [htexts] at h
          cases h
          simp [Value.mem_texts htexts]
  | _ => cases h

theorem writesTuple_iff (hp : ParameterFields.ReadFrom fields p) :
    WritesTuple fields ↔
      (∃ items, Value.under fields "items" = .array items) ∧ p.keywords.MakesList :=
  and_congr_right fun _ =>
    and_congr (Value.optional_eq_none hp.enum).symm (TypeNames.list_iff hp.type).symm

namespace Nests

variable (hform : Nests fields nested inner) (hp : ParameterFields.ReadFrom fields p)
  (hq : ParameterFields.ReadFrom nested q)

include hform hp hq

theorem shared_eq : q.name = p.name ∧ q.required = p.required ∧ q.description = p.description := by
  have hname := hq.name
  have hrequired := hq.required
  have hdescription := hq.description
  rw [Value.under_congr (hform.shared "name" (by decide)), hp.name] at hname
  rw [hform.shared "required" (by decide), hp.required] at hrequired
  rw [Value.under_congr (hform.shared "description" (by decide)), hp.description] at hdescription
  exact ⟨(Except.ok.inj hname).symm, (Except.ok.inj hrequired).symm,
    (Except.ok.inj hdescription).symm⟩

/-- The one describes its value by keywords, the other by a schema with the same keywords. -/
theorem schema_eq : p.valueSchema = p.keywords.node ∧ q.valueSchema =
    Keywords.node { p.keywords with items := (Part.ofValue (Value.under fields "items")).items } := by
  have hdirect : p.schema = none := by
    rw [hp.schema, Value.under, hform.direct]
    rfl
  have hinner : ∀ e ∈ inner, e.1 ∈ valueKeywords ∧ e.2 = Value.under fields e.1 ∨
      e.1 ∉ Record.schema.fields := by
    rintro ⟨key, v⟩ he
    rcases hform.others _ he with hkey | hother
    · refine .inl ⟨hkey, ?_⟩
      rw [Value.under, ← hform.keywords key hkey, Entries.get?_ofList_of_mem hform.nodup he]
      rfl
    · exact .inr hother
  have hread := Keywords.ofFields_eq_keywords hp hinner fun key hkey =>
    Value.under_congr (hform.keywords key hkey)
  have hschema : q.schema = some (Node.ofValue (.object inner)) := by
    rw [hq.schema, Value.under, hform.schema]
    rfl
  have hnode : Node.ofValue (.object inner) =
      (Schema.ofKeywords (Keywords.ofFields (Part.ofFields inner))).node := rfl
  rw [ParameterFields.valueSchema, ParameterFields.valueSchema, hdirect, hschema, hnode, hread]
  exact ⟨rfl, rfl⟩

/-- Without a tuple both describe the same schema. -/
theorem schema_same (h : ¬ WritesTuple fields) : q.valueSchema = p.valueSchema := by
  obtain ⟨hdirect, hnested⟩ := hform.schema_eq hp hq
  rw [hdirect, hnested]
  by_cases hitems : ∃ items, Value.under fields "items" = .array items
  · obtain ⟨items, harray⟩ := hitems
    have hlist : ¬ p.keywords.MakesList := fun hlist =>
      h ((writesTuple_iff hp).mpr ⟨⟨items, harray⟩, hlist⟩)
    rw [harray]
    exact Keywords.node_items p.keywords_describe hlist .tuple
  · rw [Part.items_eq (not_exists.mp hitems), ← hp.items]
    rfl

/-- With a tuple their schemas have no type in common, and the nested one has a type in any case. -/
theorem types_differ (h : WritesTuple fields) {sorted : Bool}
    {follow : Place → String → Synthesis TypeExpr} :
    (∀ t t', Node.Has sorted follow p.valueSchema t → Node.Has sorted follow q.valueSchema t' →
      t ≠ t') ∧
    ∀ place st, ∃ r, (q.valueSchema.type sorted follow place).run st = .ok r := by
  obtain ⟨⟨items, harray⟩, hlist⟩ := (writesTuple_iff hp).mp h
  obtain ⟨hdirect, hnested⟩ := hform.schema_eq hp hq
  have hsingle : p.keywords = p.keywords.withItems (.single (Node.ofValue (.array items))) := by
    unfold ParameterFields.keywords Keywords.withItems
    rw [hp.items, harray]
    rfl
  rw [harray] at hnested
  rw [hdirect, hnested]
  refine ⟨fun t t' ht ht' => ?_, Keywords.exists_type_of_tuple p.keywords_describe hlist⟩
  rw [hsingle] at ht
  exact Keywords.list_ne_tuple p.keywords_describe hlist ht ht'

end Nests

/-- A parameter that describes its value by keywords of its own and one that puts the same keywords
under `schema` become the same property, and everything met on the way is the same. Only a list of
schemas for the items makes a difference: the first parameter takes it for one schema. Then the
types are never the same. -/
theorem Nests.properties_agree (hform : Nests fields nested inner)
    (ha : (Value.object fields).WritesParameter a) (hb : (Value.object nested).WritesParameter b) :
    (¬ WritesTuple fields → ∀ (s : Setting) pointer pointer',
      Synthesis.Agree (s.queryProperty ⟨pointer, a⟩) (s.queryProperty ⟨pointer', b⟩)) ∧
    (WritesTuple fields → ∀ (s : Setting) pointer pointer' st st',
      ¬ SameOutcome (fun r r' => r.1.type = r'.1.type) ((s.queryProperty ⟨pointer, a⟩).run st)
        ((s.queryProperty ⟨pointer', b⟩).run st')) := by
  obtain ⟨p, place, hp, ha⟩ := ha
  obtain ⟨q, place', hq, hb⟩ := hb
  obtain ⟨-, hname, hrequired, hdescription, hschema, -⟩ := ParameterFields.slot_inline ha
  obtain ⟨-, hname', hrequired', hdescription', hschema', -⟩ := ParameterFields.slot_inline hb
  replace hp := ParameterFields.readFrom hp
  replace hq := ParameterFields.readFrom hq
  refine ⟨fun h s pointer pointer' => ?_, fun h s pointer pointer' st st' hsame => ?_⟩
  · obtain ⟨hn, hr, hd⟩ := hform.shared_eq hp hq
    refine s.agree_queryProperty ?_ ?_ ?_ ?_
    · exact Option.some.inj (hname'.symm.trans (hn.trans hname))
    · rw [hrequired, hrequired', hr]
    · rw [hdescription, hdescription', hd]
    · rw [hschema, hschema', hform.schema_same hp hq h]
  · obtain ⟨hdiffer, hexists⟩ := hform.types_differ hp hq h
    have hrun (placed : PlacedParameter) (st : Progress) : (s.queryProperty placed).run st =
        (s.typeOf placed.place placed.parameter.schema).run st >>= fun r =>
          .ok (placed.property r.1, r.2) := by
      unfold Setting.queryProperty
      rw [StateT.run_bind]
      rfl
    rw [hrun, hrun] at hsame
    obtain ⟨⟨t', after'⟩, ht'⟩ := hexists (PlacedParameter.place ⟨pointer', b⟩) st'
    rw [← hschema'] at ht'
    cases ht : (s.typeOf (PlacedParameter.place ⟨pointer, a⟩) a.schema).run st with
    | error fault =>
        rw [ht, Setting.typeOf, ht'] at hsame
        cases hsame
    | ok r =>
        obtain ⟨t, after⟩ := r
        rw [ht, Setting.typeOf, ht'] at hsame
        obtain ⟨heq⟩ := hsame
        rw [hschema] at ht
        rw [hschema'] at ht'
        exact hdiffer t t' ⟨_, _, _, ht⟩ ⟨_, _, _, ht'⟩ heq

end

/-! ## A parameter for tags -/

def listOf (items : Value) : List (String × Value) := [("type", .string "array"), ("items", items)]

def tagFields (items : Value) : List (String × Value) :=
  [("name", .string "tag"), ("in", .string "query")] ++ listOf items

def nestedTagFields (items : Value) : List (String × Value) :=
  [("name", .string "tag"), ("in", .string "query"), ("schema", .object (listOf items))]

def tagParameter (items : Items) (nested : Bool) : Parameter where
  name := "tag"
  location := .query
  required := false
  description := none
  schema := Keywords.node { type := some (.single "array"), items := some items }
  nested := nested

def wordSchema : Value := .object [("type", .string "string")]

theorem tagFields_nests (items : Value) :
    Nests (tagFields items) (nestedTagFields items) (listOf items) where
  direct := rfl
  schema := rfl
  shared := by
    intro key hkey
    simp only [List.mem_cons, List.not_mem_nil, or_false] at hkey
    rcases hkey with rfl | rfl | rfl | rfl <;> rfl
  keywords := by
    intro key hkey
    simp only [valueKeywords, List.mem_cons, List.not_mem_nil, or_false] at hkey
    rcases hkey with rfl | rfl | rfl | rfl | rfl <;> rfl
  others := by simp [valueKeywords, listOf]
  nodup := by simp [listOf]

theorem tagFields_writes {items : Value} (hitems : items ≠ .null) :
    (Value.object (tagFields items)).WritesParameter
      (tagParameter (.single (Node.ofValue items)) false) := by
  refine ⟨{ name := some "tag", location := some "query", type := some (.single "array"),
            items := some (Node.ofValue items) }, "#", ?_, rfl⟩
  cases items with
  | null => exact absurd rfl hitems
  | _ => rfl

theorem nestedTagFields_writes {written : Value} {items : Items}
    (hitems : (Part.ofValue written).items = some items) :
    (Value.object (nestedTagFields written)).WritesParameter (tagParameter items true) := by
  refine ⟨{ name := some "tag", location := some "query",
            schema := some (tagParameter items true).schema }, "#", ?_, rfl⟩
  rw [tagParameter, ← hitems]
  rfl

/-- Lists of texts agree; with a list of schemas for the items the two forms part. -/
theorem tags_agree :
    (∀ (s : Setting) pointer pointer', Synthesis.Agree
      (s.queryProperty ⟨pointer, tagParameter (.single (Node.ofValue wordSchema)) false⟩)
      (s.queryProperty ⟨pointer', tagParameter (.single (Node.ofValue wordSchema)) true⟩)) ∧
    ∀ (s : Setting) pointer pointer' st st',
      ¬ SameOutcome (fun r r' => r.1.type = r'.1.type)
        ((s.queryProperty ⟨pointer,
          tagParameter (.single (Node.ofValue (.array [wordSchema]))) false⟩).run st)
        ((s.queryProperty ⟨pointer', tagParameter .tuple true⟩).run st') := by
  constructor
  · refine ((tagFields_nests wordSchema).properties_agree (tagFields_writes nofun)
      (nestedTagFields_writes rfl)).1 ?_
    rintro ⟨⟨items, hitems⟩, -⟩
    cases hitems
  · exact ((tagFields_nests (.array [wordSchema])).properties_agree (tagFields_writes nofun)
      (nestedTagFields_writes rfl)).2 ⟨⟨_, rfl⟩, rfl, .inr (.inl rfl)⟩

/-- Of a list of schemas for the items the one form makes a list of anything, the other one
anything. -/
theorem tagTuple_types : ∃ a b,
    (Value.object (tagFields (.array [wordSchema]))).WritesParameter a ∧
    (Value.object (nestedTagFields (.array [wordSchema]))).WritesParameter b ∧
    (∃ st, ((({} : SchemaModel).setting false).queryProperty ⟨"#/parameters/tag", a⟩).run
      { slots := [] } = .ok ({ name := "tag", type := .array .any, optional := true }, st)) ∧
    ∃ st, ((({} : SchemaModel).setting false).queryProperty ⟨"#/parameters/tag", b⟩).run
      { slots := [] } = .ok ({ name := "tag", type := .any, optional := true }, st) :=
  ⟨tagParameter (.single (Node.ofValue (.array [wordSchema]))) false, tagParameter .tuple true,
    tagFields_writes nofun, nestedTagFields_writes rfl, ⟨_, rfl⟩, ⟨_, rfl⟩⟩

end SwaggerTypes
