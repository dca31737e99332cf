import SwaggerTypes.Proofs.ExchangedValues
import Mathlib.Data.List.Forall2
/-!
# Exchanged parts of a schema

When one property or one member of a composition is exchanged for any other value, the schema around
it is read as before, or it is malformed for the same reason as before. Its closed form changes where
this part stands: a property in the structural part, a member behind its keyword.
-/

namespace SwaggerTypes

theorem map_read {α β γ ε : Type} (x : Except ε α) (f : α → β) (g : β → γ) :
    (x >>= fun a => pure (f a)).map g = x >>= fun a => pure (g (f a)) := by
  cases x <;> rfl

def Schema.readAll (vs : List (String × Value)) : Entries Schema :=
  Entries.ofList (vs.map fun e => (e.1, Schema.ofValue e.2))

/-- With one value exchanged, the schemas of a map change under that key at most. -/
theorem Schema.swap_readAll {name : String} {old new : Value} (before after : List (String × Value)) :
    SwapIn (name, Schema.ofValue old) (name, Schema.ofValue new)
      (readAll (before ++ (name, old) :: after)) (readAll (before ++ (name, new) :: after)) := by
  rw [readAll, readAll, List.map_append, List.map_append, List.map_cons, List.map_cons]
  exact Entries.swap_ofList _ _

namespace Part

theorem properties_object (vs : List (String × Value)) :
    (ofValue (.object vs)).properties = .ok (some (Schema.readAll vs)) := by
  obtain ⟨ps, hps⟩ : ∃ ps, (ofValue (.object vs)).properties = .ok (some ps) := ⟨_, rfl⟩
  obtain ⟨_, heq, rfl⟩ := properties_ofValue hps
  cases heq
  exact hps

theorem composition_array (vs : List Value) :
    (ofValue (.array vs)).composition = .ok (some (vs.map Node.ofValue)) := by
  obtain ⟨ms, hms⟩ : ∃ ms, (ofValue (.array vs)).composition = .ok (some ms) := ⟨_, rfl⟩
  obtain ⟨_, heq, rfl⟩ := composition_ofValue hms
  cases heq
  exact hms

end Part

namespace Keywords

variable {k : Keywords} {ps : Entries Schema} {ms : List Node} {keyword : Composition}

/-! ## Keywords with parts -/

def withProperties (ps : Entries Schema) (k : Keywords) : Keywords := { k with properties := some ps }

def withMembers (keyword : Composition) (ms : List Node) (k : Keywords) : Keywords :=
  match keyword with
  | .allOf => { k with allOf := some ms }
  | .oneOf => { k with oneOf := some ms }
  | .anyOf => { k with anyOf := some ms }

theorem set_withProperties {name : String} (hne : name ≠ "properties") (p : Part) :
    (k.withProperties ps).set name p = (k.set name p).map (withProperties ps) := by
  unfold set
  split
  all_goals
    first
      | rfl
      | exact absurd rfl hne
      | (dsimp only; rw [map_read]; rfl)

theorem set_withMembers {name : String} (hne : name ≠ keyword.keyword) (p : Part) :
    (k.withMembers keyword ms).set name p = (k.set name p).map (withMembers keyword ms) := by
  cases keyword
  all_goals
    unfold set
    split
    all_goals
      first
        | rfl
        | exact absurd rfl hne
        | (dsimp only; rw [map_read]; rfl)

theorem set_properties (k : Keywords) (vs : List (String × Value)) :
    k.set "properties" (Part.ofValue (.object vs)) = .ok (k.withProperties (Schema.readAll vs)) := by
  simp only [set, Part.properties_object]
  rfl

theorem set_members (k : Keywords) (keyword : Composition) (vs : List Value) :
    k.set keyword.keyword (Part.ofValue (.array vs)) =
      .ok (k.withMembers keyword (vs.map Node.ofValue)) := by
  cases keyword
  all_goals
    simp only [set, Composition.keyword, Part.composition_array]
    rfl

def ofLength (length : Nat) (k : Keywords) : Except Mismatch Keywords :=
  if length < Record.schema.fields.length then .error (.tooFew length .schema)
  else if Record.schema.fields.length < length then .error (.tooMany length)
  else return k

theorem ofItems_eq_bind (items : List Part) :
    ofItems items = ofFields (Record.schema.fields.zip items) >>= ofLength items.length := rfl

theorem map_bind_ofLength (r : Except Mismatch Keywords) (f : Keywords → Keywords) (length : Nat) :
    (r.map f >>= ofLength length) = (r >>= ofLength length).map f := by
  cases r with
  | error cause => rfl
  | ok k =>
      show ofLength length (f k) = (ofLength length k).map f
      unfold ofLength
      split
      · rfl
      · split <;> rfl

end Keywords

theorem zip_exchange {α β : Type} {as : List α} {a : α} {before : List β}
    (h : as[before.length]? = some a) (after : List β) :
    ∃ front back, ∀ b, as.zip (before ++ b :: after) = front ++ (a, b) :: back := by
  obtain ⟨hlt, ha⟩ := List.getElem?_eq_some_iff.mp h
  refine ⟨(as.take before.length).zip before, (as.drop (before.length + 1)).zip after, fun b => ?_⟩
  have hsplit : as = as.take before.length ++ a :: as.drop (before.length + 1) := by
    rw [← ha, List.getElem_cons_drop, List.take_append_drop]
  have hlength : (as.take before.length).length = before.length := by
    rw [List.length_take]
    exact Nat.min_eq_left (Nat.le_of_lt hlt)
  conv_lhs => rw [hsplit, List.zip_append hlength, List.zip_cons_cons]

namespace Value

variable {old new w w' v v' : Value} {step : Step} {way : List Step} {key : String}

theorem Exchange.outermost (h : Exchange old new (step :: way) v v') :
    ∃ w w', Exchange old new way w w' ∧ Exchange w w' [step] v v' := by
  cases h with
  | field h => exact ⟨_, _, h, .field .here⟩
  | item h => exact ⟨_, _, h, .item .here⟩

section

variable {γ : Type} (put : γ → Keywords → Keywords) {c c' : γ}
  (hown : ∀ p k c, (put c k).set key p = k.set key p)
  (hother : ∀ name, name ≠ key → ∀ p k c, (put c k).set name p = (k.set name p).map (put c))
  (hw : ∀ k : Keywords, k.set key (Part.ofValue w) = .ok (put c k))
  (hw' : ∀ k : Keywords, k.set key (Part.ofValue w') = .ok (put c' k))
  (hstep : Record.schema.StepTo key step) (h : Exchange w w' [step] v v')

include hown hother hw hw' hstep h

/-- With the value of one field exchanged, a record in map form or in list form has the same fields
but for this one. -/
theorem keywords_exchange : v.keywords = v'.keywords ∨
    ∃ r : Except Mismatch Keywords, v.keywords = r.map (put c) ∧ v'.keywords = r.map (put c') := by
  have hfold := foldlM_exchange (fun (k : Keywords) (field : String × Part) => k.set field.1 field.2)
    (fun field => field.1 = key) (fun field hfield k c => hfield ▸ hown field.2 k c)
    (fun field hfield k c => hother field.1 hfield field.2 k c) (key, Part.ofValue w)
    (key, Part.ofValue w') hw hw'
  cases hstep with
  | key =>
      cases h with
      | @field _ _ _ _ before after h =>
        cases h
        simp only [keywords, Part.ofFields_eq_map, List.map_append, List.map_cons]
        exact hfold (before.map _) (after.map _) {}
  | place hfield =>
      cases h with
      | @item _ _ _ before after h =>
        cases h
        have hitems : ∀ u, Part.ofItems (before ++ u :: after) =
            before.map Part.ofValue ++ Part.ofValue u :: after.map Part.ofValue := by
          intro u
          rw [Part.ofItems_eq_map, List.map_append, List.map_cons]
        have hplace : Record.schema.fields[(before.map Part.ofValue).length]? = some key := by
          rwa [List.length_map]
        obtain ⟨front, back, hzip⟩ := zip_exchange hplace (after.map Part.ofValue)
        have hlength : ∀ u,
            (before.map Part.ofValue ++ Part.ofValue u :: after.map Part.ofValue).length =
              before.length + (after.length + 1) := fun u => by simp
        simp only [keywords, hitems, Keywords.ofItems_eq_bind, Keywords.ofFields, hzip, hlength]
        rcases hfold front back {} with heq | ⟨r, hr, hr'⟩
        · exact .inl (by rw [heq])
        · refine .inr ⟨r >>= Keywords.ofLength (before.length + (after.length + 1)), ?_, ?_⟩
          · rw [hr, Keywords.map_bind_ofLength]
          · rw [hr', Keywords.map_bind_ofLength]

/-- So the node is the same, or the values are schemas that differ in what this keyword puts. -/
theorem node_exchange_cases : Node.ofValue v = Node.ofValue v' ∨
    ∃ k, v.keywords = .ok (put c k) ∧ v'.keywords = .ok (put c' k) := by
  have hsame : v.keywords = v'.keywords → Node.ofValue v = Node.ofValue v' := by
    intro heq
    rw [Node.ofValue, Node.ofValue, schema_eq, schema_eq, heq]
  rcases keywords_exchange put hown hother hw hw' hstep h with heq | ⟨r, hr, hr'⟩
  · exact .inl (hsame heq)
  · cases r with
    | error cause => exact .inl (hsame (hr.trans hr'.symm))
    | ok k => exact .inr ⟨k, hr, hr'⟩

end

end Value

namespace Keywords

variable {k : Keywords} {ps ps' : Entries Schema} {name : String} {old new : Schema}
  {doc : Option String} {nullable : Bool}

/-! ## A property exchanged -/

theorem filter_eraseDups (p : String → Bool) (l : List String) :
    l.eraseDups.filter p = (l.filter p).eraseDups := by
  match l with
  | [] => rfl
  | a :: rest =>
      have ih := filter_eraseDups p (rest.filter fun b => !b == a)
      rw [List.filter_filter] at ih
      rw [List.eraseDups_cons]
      cases ha : p a with
      | true =>
          rw [List.filter_cons_of_pos ha, List.filter_cons_of_pos ha, List.eraseDups_cons, ih,
            List.filter_filter]
          simp only [Bool.and_comm]
      | false =>
          have hsame : rest.filter (fun b => p b && !b == a) = rest.filter p := by
            refine List.filter_congr fun b _ => ?_
            by_cases hb : b = a
            · rw [hb, ha, Bool.false_and]
            · simp [hb]
          rw [List.filter_cons_of_neg (by simp [ha]), List.filter_cons_of_neg (by simp [ha]), ih,
            hsame]
termination_by l.length
decreasing_by exact Nat.lt_succ_of_le (List.length_filter_le _ _)

/-- Whether the object requires the property may change, but not what else it requires. -/
theorem required_exchange (names : List String) (before after : Entries Schema) :
    let required (schema : Schema) := (names ++ ((before ++ (name, schema) :: after).filter
      fun p => p.2.required).map Prod.fst).eraseDups
    (required old).filter (· ≠ name) = (required new).filter (· ≠ name) := by
  have hmarked : ∀ schema : Schema,
      (((before ++ (name, schema) :: after).filter fun p => p.2.required).map Prod.fst).filter
        (· ≠ name) = (((before ++ after).filter fun p => p.2.required).map Prod.fst).filter
        (· ≠ name) := by
    intro schema
    cases hrequired : schema.required <;> simp [hrequired]
  simp only [filter_eraseDups, List.filter_append (p := (· ≠ name)), hmarked]

theorem objectKind_exchange (before after : Entries Schema) :
    Node.Exchange old.node new.node ["properties", name]
      ⟨(k.withProperties (before ++ (name, old) :: after)).objectKind, doc, nullable⟩
      ⟨(k.withProperties (before ++ (name, new) :: after)).objectKind, doc, nullable⟩ := by
  have hnodes : ∀ schema : Schema, (before ++ (name, schema) :: after).map (fun p => (p.1, p.2.node)) =
      before.map (fun p => (p.1, p.2.node)) ++ (name, schema.node) ::
        after.map (fun p => (p.1, p.2.node)) := fun schema => by simp
  simp only [objectKind, withProperties, Option.getD_some, hnodes]
  exact .property (required_exchange _ before after)

theorem typeKind_exchanges (before after : Entries Schema) (type : String) :
    Node.Exchanges old.node new.node (· = ["properties", name])
      ⟨(k.withProperties (before ++ (name, old) :: after)).typeKind type, doc, nullable⟩
      ⟨(k.withProperties (before ++ (name, new) :: after)).typeKind type, doc, nullable⟩ := by
  unfold typeKind
  split
  case h_7 => exact .single ⟨_, rfl, objectKind_exchange before after⟩
  all_goals exact .refl

/-- The structural part that a list of types other than `null` describes. -/
def typesKind (k : Keywords) : List String → Kind Node
  | [] => .primitive .null none
  | [name] => k.typeKind name
  | many => .composite .anyOf (many.map fun name => .bare (k.typeKind name))

theorem structuralKind_types {names : List String} (hconst : k.const = none) (henum : k.enum = none)
    (htype : k.type = some (.multiple names)) :
    k.structuralKind = some (k.typesKind (names.filter (· ≠ "null"))) := by
  unfold structuralKind
  rw [hconst, henum, htype]
  dsimp only
  generalize names.filter (· ≠ "null") = others
  match others with
  | [] | [_] | _ :: _ :: _ => rfl

/-- The ways to a property in a structural part; those into a list of types start with one type. -/
def InnerWay (k : Keywords) (name : String) (way : List String) : Prop :=
  way = ["properties", name] ∨ ∃ (names : List String) (i : Nat),
    k.type = some (.multiple names) ∧ way = ["anyOf", toString i, "properties", name]

theorem typesKind_exchanges (before after : Entries Schema) {names : List String}
    (htype : k.type = some (.multiple names)) (others : List String) :
    Node.Exchanges old.node new.node (k.InnerWay name)
      (.bare ((k.withProperties (before ++ (name, old) :: after)).typesKind others))
      (.bare ((k.withProperties (before ++ (name, new) :: after)).typesKind others)) := by
  match others with
  | [] => exact .refl
  | [type] => exact (typeKind_exchanges before after type).mono fun _ => .inl
  | first :: second :: rest =>
      have hmembers : ∀ types : List String, List.Forall₂
          (Node.Exchanges old.node new.node (· = ["properties", name]))
          (types.map fun type =>
            .bare ((k.withProperties (before ++ (name, old) :: after)).typeKind type))
          (types.map fun type =>
            .bare ((k.withProperties (before ++ (name, new) :: after)).typeKind type)) := by
        intro types
        rw [List.forall₂_map_left_iff, List.forall₂_map_right_iff, List.forall₂_same]
        exact fun type _ => typeKind_exchanges before after type
      refine (Node.Exchanges.members (hmembers (first :: second :: rest)) []).mono ?_
      rintro way ⟨i, inner, rfl, rfl⟩
      exact .inr ⟨names, i, htype, rfl⟩

theorem structuralKind_exchanges (k : Keywords) (name : String) (old new : Schema)
    (before after : Entries Schema) :
    ∃ kd kd', (k.withProperties (before ++ (name, old) :: after)).structuralKind = some kd ∧
      (k.withProperties (before ++ (name, new) :: after)).structuralKind = some kd' ∧
      Node.Exchanges old.node new.node (k.InnerWay name) (.bare kd) (.bare kd') := by
  cases hconst : k.const with
  | some value =>
      refine ⟨.ofValues [value], .ofValues [value], ?_, ?_, .refl⟩
      all_goals simp [structuralKind, withProperties, hconst]
  | none =>
  cases henum : k.enum with
  | some values =>
      refine ⟨.ofValues values, .ofValues values, ?_, ?_, .refl⟩
      all_goals simp [structuralKind, withProperties, hconst, henum]
  | none =>
  match htype : k.type with
  | none =>
      refine ⟨_, _, ?_, ?_, .single ⟨_, .inl rfl, objectKind_exchange (k := k) before after⟩⟩
      all_goals simp [structuralKind, withProperties, hconst, henum, htype]
  | some (.single type) =>
      refine ⟨_, _, ?_, ?_, (typeKind_exchanges (k := k) before after type).mono fun _ => .inl⟩
      all_goals simp [structuralKind, withProperties, hconst, henum, htype]
  | some (.multiple names) =>
      exact ⟨_, _, structuralKind_types hconst henum htype, structuralKind_types hconst henum htype,
        typesKind_exchanges before after htype _⟩

/-- With a property exchanged, the closed form changes where the structural part has it. -/
theorem node_property_exchanges (before after : Entries Schema) :
    Node.Exchanges old.node new.node
      (fun way => ∃ inner, k.InnerWay name inner ∧
        way = (k.withProperties (before ++ (name, old) :: after)).constraintWay 0 ++ inner)
      (k.withProperties (before ++ (name, old) :: after)).node
      (k.withProperties (before ++ (name, new) :: after)).node := by
  obtain ⟨kd, kd', hkd, hkd', hex⟩ := k.structuralKind_exchanges name old new before after
  cases href : k.ref with
  | some pointer =>
      simp only [node, withProperties, href]
      exact .refl
  | none =>
      have hconstraints : ∀ (ps : Entries Schema) (kd : Kind Node),
          (k.withProperties ps).structuralKind = some kd → (k.withProperties ps).constraints =
            .bare kd :: (union .oneOf k.oneOf ++ union .anyOf k.anyOf) := by
        intro ps kd h
        rw [constraints, h]
        rfl
      have hnode : ∀ (ps : Entries Schema) (kd : Kind Node),
          (k.withProperties ps).structuralKind = some kd → (k.withProperties ps).node =
            ⟨joined k.allOf (.bare kd :: (union .oneOf k.oneOf ++ union .anyOf k.anyOf)), k.doc,
              k.isNullable || k.listsNull⟩ := by
        intro ps kd h
        rw [← hconstraints ps kd h]
        simp only [node, withProperties, href]
        rfl
      have hway : (k.withProperties (before ++ (name, old) :: after)).constraintWay 0 =
          joinedWay k.allOf (union .oneOf k.oneOf ++ union .anyOf k.anyOf).length.succ 0 := by
        rw [constraintWay, hconstraints _ kd hkd]
        rfl
      rw [hnode _ kd hkd, hnode _ kd' hkd', hway]
      exact hex.lift (f := fun m => ⟨joined k.allOf (m :: _), k.doc, k.isNullable || k.listsNull⟩)
        fun way m m' hinner h => ⟨_, ⟨way, hinner, rfl⟩, joined_exchange h k.allOf [] _⟩

/-! ## A member exchanged -/

theorem node_constraint_exchange {k k' : Keywords} {x y m m' : Node} {way : List String}
    {front back : List Node} (h : Node.Exchange x y way m m') (href : k.ref = none)
    (href' : k'.ref = none) (hall : k'.allOf = k.allOf) (hdoc : k'.doc = k.doc)
    (hnull : (k'.isNullable || k'.listsNull) = (k.isNullable || k.listsNull))
    (hk : k.constraints = front ++ m :: back) (hk' : k'.constraints = front ++ m' :: back) :
    Node.Exchange x y (k.constraintWay front.length ++ way) k.node k'.node := by
  simp only [node, href, href', kind_eq_joined, constraintWay, hall, hdoc, hnull, hk, hk']
  exact joined_exchange h k.allOf front back

/-- With a member exchanged, the closed form of a schema that is no reference changes at this member. -/
theorem node_member_exchange (href : k.ref = none) (keyword : Composition) (before after : List Node)
    (x y : Node) :
    Node.Exchange x y
      ((k.withMembers keyword (before ++ x :: after)).compositionWay keyword ++
        [keyword.keyword, toString before.length])
      (k.withMembers keyword (before ++ x :: after)).node
      (k.withMembers keyword (before ++ y :: after)).node := by
  have hmember : ∀ doc nullable, Node.Exchange x y [keyword.keyword, toString before.length]
      ⟨.composite keyword (before ++ x :: after), doc, nullable⟩
      ⟨.composite keyword (before ++ y :: after), doc, nullable⟩ := fun _ _ => .member
  have hstructural : (k.structuralKind.map Node.bare).toList.length =
      k.structuralKind.toList.length := by
    cases k.structuralKind <;> rfl
  cases keyword with
  | allOf =>
      have hnode : ∀ z, (k.withMembers .allOf (before ++ z :: after)).node =
          ⟨.composite .allOf (before ++ z :: (after ++ k.constraints)), k.doc,
            k.isNullable || k.listsNull⟩ := by
        intro z
        rw [← List.cons_append, ← List.append_assoc]
        simp only [node, withMembers, href]
        rfl
      rw [hnode, hnode]
      exact .member
  | oneOf =>
      have hconstraints : ∀ ms, (k.withMembers .oneOf ms).constraints =
          (k.structuralKind.map Node.bare).toList ++
            .bare (.composite .oneOf ms) :: union .anyOf k.anyOf := by
        intro ms
        rw [constraints, List.append_assoc]
        rfl
      have h := node_constraint_exchange (hmember none false)
        (show (k.withMembers .oneOf (before ++ x :: after)).ref = none from href)
        (show (k.withMembers .oneOf (before ++ y :: after)).ref = none from href) rfl rfl rfl
        (hconstraints _) (hconstraints _)
      rw [hstructural] at h
      exact h
  | anyOf =>
      have hconstraints : ∀ ms, (k.withMembers .anyOf ms).constraints =
          ((k.structuralKind.map Node.bare).toList ++ union .oneOf k.oneOf) ++
            [.bare (.composite .anyOf ms)] := by
        intro ms
        rw [constraints]
        rfl
      have hone : (union .oneOf k.oneOf).length = k.oneOf.toList.length := by
        cases k.oneOf <;> rfl
      have h := node_constraint_exchange (hmember none false)
        (show (k.withMembers .anyOf (before ++ x :: after)).ref = none from href)
        (show (k.withMembers .anyOf (before ++ y :: after)).ref = none from href) rfl rfl rfl
        (hconstraints _) (hconstraints _)
      rw [List.length_append, hstructural, hone] at h
      exact h

end Keywords

namespace Value

variable {old new v v' : Value} {step : Step} {name : String} {keyword : Composition} {i : Nat}

/-- The ways in the closed form to a property of the structural part. -/
def PropertyWay (v : Value) (name : String) (way : List String) : Prop :=
  ∃ k inner, v.keywords = .ok k ∧ k.InnerWay name inner ∧ way = k.constraintWay 0 ++ inner

/-- The way in the closed form to a member under a composition keyword. -/
def MemberWay (v : Value) (keyword : Composition) (i : Nat) (way : List String) : Prop :=
  ∃ k, v.keywords = .ok k ∧ way = k.compositionWay keyword ++ [keyword.keyword, toString i]

/-- With a property exchanged for any value, the schema changes at this property only, and perhaps in
whether it requires it. -/
theorem property_exchanges (hstep : Record.schema.StepTo "properties" step)
    (h : Exchange old new [step, .key name] v v') :
    Node.Exchanges (Node.ofValue old) (Node.ofValue new) (v.PropertyWay name) (Node.ofValue v)
      (Node.ofValue v') := by
  obtain ⟨w, w', hinner, houter⟩ := h.outermost
  cases hinner with
  | @field _ _ _ _ before after hold =>
    cases hold
    rcases node_exchange_cases Keywords.withProperties (fun _ _ _ => rfl)
      (fun _ hne p _ _ => Keywords.set_withProperties hne p) (fun k => k.set_properties _)
      (fun k => k.set_properties _) hstep houter with heq | ⟨k, hk, hk'⟩
    · rw [heq]
      exact .refl
    · rw [node_eq hk, node_eq hk']
      rcases Schema.swap_readAll before after with hsame | ⟨front, back, hps, hps'⟩
      · rw [hsame]
        exact .refl
      · rw [hps] at hk
        rw [hps, hps']
        refine (Keywords.node_property_exchanges front back).mono ?_
        rintro way ⟨inner, hinner, rfl⟩
        exact ⟨_, inner, hk, hinner, rfl⟩

/-- With a member of a composition exchanged for any value, the schema changes at this member only. -/
theorem member_exchange (hstep : Record.schema.StepTo keyword.keyword step)
    (h : Exchange old new [step, .index i] v v') :
    Node.ofValue v = Node.ofValue v' ∨ ∃ way, v.MemberWay keyword i way ∧
      Node.Exchange (Node.ofValue old) (Node.ofValue new) way (Node.ofValue v) (Node.ofValue v') := by
  obtain ⟨w, w', hinner, houter⟩ := h.outermost
  cases hinner with
  | @item _ _ _ before after hold =>
    cases hold
    rcases node_exchange_cases (Keywords.withMembers keyword)
      (fun _ _ _ => by cases keyword <;> rfl)
      (fun _ hne p _ _ => Keywords.set_withMembers hne p) (fun k => k.set_members keyword _)
      (fun k => k.set_members keyword _) hstep houter with heq | ⟨k, hk, hk'⟩
    · exact .inl heq
    · rw [node_eq hk, node_eq hk']
      rw [List.map_append, List.map_cons] at hk ⊢
      rw [List.map_append, List.map_cons]
      cases href : k.ref with
      | some pointer =>
          left
          cases keyword
          all_goals
            simp only [Keywords.node, Keywords.withMembers, href]
            rfl
      | none =>
          refine .inr ⟨_, ⟨_, hk, rfl⟩, ?_⟩
          have hex := Keywords.node_member_exchange href keyword (before.map Node.ofValue)
            (after.map Node.ofValue) (Node.ofValue old) (Node.ofValue new)
          rw [List.length_map] at hex
          exact hex

end Value

end SwaggerTypes
