import SwaggerTypes.Conversion
import SwaggerTypes.Proofs.Addresses
/-!
# What schemas are read from

The parts of a schema are read from parts of the value that writes it. Of a repeated key the last
value counts, and each keyword depends on the value of its own key only.
-/

namespace SwaggerTypes

namespace Entries

variable {α β : Type}

/-! ## Values under keys -/

theorem get?_insert (wanted key : String) (a : α) (map : Entries α) :
    (map.insert key a).get? wanted = if wanted = key then some a else map.get? wanted := by
  induction map with
  | nil =>
      by_cases h : wanted = key
      · simp [get?, h]
      · simp [get?, List.lookup_cons, beq_eq_false_iff_ne.mpr h, h]
  | cons e rest ih =>
      obtain ⟨k, b⟩ := e
      by_cases h : wanted = k
      · subst h
        by_cases hk : wanted = key
        · simp [insert, get?, hk]
        · simp [insert, get?, hk]
      · have hskip : ∀ (c : α) (others : Entries α),
            get? wanted ((k, c) :: others) = get? wanted others := by
          intro c others
          rw [get?, List.lookup_cons, beq_eq_false_iff_ne.mpr h]
          rfl
        by_cases hk : k = key
        · have hne : wanted ≠ key := fun heq => h (heq.trans hk.symm)
          rw [insert, if_pos hk, hskip, hskip, if_neg hne]
        · rw [insert, if_neg hk, hskip, hskip, ih]

theorem ofList_concat (entries : List (String × α)) (key : String) (a : α) :
    ofList (entries ++ [(key, a)]) = (ofList entries).insert key a := by
  simp [ofList, List.foldl_append]

theorem get?_ofList_concat (wanted key : String) (a : α) (entries : List (String × α)) :
    (ofList (entries ++ [(key, a)])).get? wanted =
      if wanted = key then some a else (ofList entries).get? wanted := by
  rw [ofList_concat, get?_insert]

theorem get?_ofList_map (f : α → β) (wanted : String) (entries : List (String × α)) :
    (ofList (entries.map fun e => (e.1, f e.2))).get? wanted =
      ((ofList entries).get? wanted).map f := by
  induction entries using List.reverseRecOn with
  | nil => rfl
  | append_singleton entries e ih =>
      obtain ⟨key, a⟩ := e
      rw [List.map_append, List.map_singleton, get?_ofList_concat, get?_ofList_concat, ih]
      by_cases h : wanted = key
      · simp [h]
      · simp [h]

/-- Fields are set one after the other. What one key sets and no other changes is as at the start, or
it comes from the last value under that key. -/
theorem field_of_foldlM {σ ε γ : Type} (set : σ → String → β → Except ε σ) {start : σ}
    (field : σ → γ) (key : String) (reads : β → γ → Prop)
    (hset : ∀ {s s' b}, set s key b = .ok s' → reads b (field s'))
    (hframe : ∀ {s s' name b}, set s name b = .ok s' → name ≠ key → field s' = field s)
    {fields : List (String × β)} {s : σ}
    (h : fields.foldlM (fun s f => set s f.1 f.2) start = .ok s) :
    ((ofList fields).get? key = none ∧ field s = field start) ∨
      ∃ b, (ofList fields).get? key = some b ∧ reads b (field s) := by
  induction fields using List.reverseRecOn generalizing s with
  | nil =>
      cases h
      exact .inl ⟨rfl, rfl⟩
  | append_singleton fields e ih =>
      obtain ⟨name, b⟩ := e
      rw [List.foldlM_append] at h
      obtain ⟨s₀, hfields, hlast⟩ := bind_eq_ok.mp h
      obtain ⟨s₁, hlast, hpure⟩ := bind_eq_ok.mp hlast
      cases hpure
      rw [get?_ofList_concat]
      by_cases hkey : key = name
      · subst hkey
        rw [if_pos rfl]
        exact .inr ⟨b, rfl, hset hlast⟩
      · rw [if_neg hkey, hframe hlast (Ne.symm hkey)]
        exact ih hfields

/-- What was not there at the start comes from the last value under its key. -/
theorem last_of_foldlM {σ ε γ : Type} (set : σ → String → β → Except ε σ) {start : σ}
    (field : σ → Option γ) (key : String) (reads : β → Option γ → Prop)
    (hnone : field start = none)
    (hset : ∀ {s s' b}, set s key b = .ok s' → reads b (field s'))
    (hframe : ∀ {s s' name b}, set s name b = .ok s' → name ≠ key → field s' = field s)
    {fields : List (String × β)} {s : σ} {c : γ}
    (h : fields.foldlM (fun s f => set s f.1 f.2) start = .ok s) (hc : field s = some c) :
    ∃ b, (ofList fields).get? key = some b ∧ reads b (some c) := by
  rcases field_of_foldlM set field key reads hset hframe h with ⟨-, hstart⟩ | ⟨b, hb, hread⟩
  · rw [hc, hnone] at hstart
    cases hstart
  · rw [hc] at hread
    exact ⟨b, hb, hread⟩

end Entries

theorem Value.array_of_asList {v : Value} {items : List Value}
    (h : v.optional asList = .ok (some items)) : v = .array items := by
  cases v with
  | array =>
      cases h
      rfl
  | _ => cases h

namespace Part

theorem ofFields_eq_map (fields : List (String × Value)) :
    ofFields fields = fields.map fun e => (e.1, ofValue e.2) := by
  induction fields with
  | nil => rfl
  | cons e rest ih =>
      obtain ⟨name, v⟩ := e
      rw [ofFields, ih, List.map_cons]

theorem ofItems_eq_map (items : List Value) : ofItems items = items.map ofValue := by
  induction items with
  | nil => rfl
  | cons v rest ih => rw [ofItems, ih, List.map_cons]

theorem value_ofValue (v : Value) : (ofValue v).value = v := by
  cases v <;> rfl

theorem properties_ofValue {v : Value} {ps : Entries Schema}
    (h : (ofValue v).properties = .ok (some ps)) :
    ∃ vs, v = .object vs ∧ ps = Entries.ofList (vs.map fun e => (e.1, Schema.ofValue e.2)) := by
  cases v with
  | null => cases h
  | object vs =>
      refine ⟨vs, rfl, ?_⟩
      have hps : Entries.ofList (((ofFields vs).map fun p => (p.1, p.2.schema)).map
          fun e => (e.1, e.2.get)) = ps := Option.some.inj (Except.ok.inj h)
      rw [← hps, ofFields_eq_map, List.map_map, List.map_map]
      rfl
  | _ => cases h

theorem composition_ofValue {v : Value} {ms : List Node}
    (h : (ofValue v).composition = .ok (some ms)) :
    ∃ vs, v = .array vs ∧ ms = vs.map Node.ofValue := by
  cases v with
  | null => cases h
  | array vs =>
      refine ⟨vs, rfl, ?_⟩
      have hms : ((ofItems vs).map (·.schema)).map (fun m => m.get.node) = ms :=
        Option.some.inj (Except.ok.inj h)
      rw [← hms, ofItems_eq_map, List.map_map, List.map_map]
      rfl
  | _ => cases h

theorem items_ofValue {v : Value} {node : Node} (h : (ofValue v).items = some (.single node)) :
    node = Node.ofValue v := by
  cases v with
  | null | array => cases h
  | _ =>
      cases h
      rfl

theorem additional_ofValue {v : Value} {node : Node}
    (h : (ofValue v).additional = some (.schema node)) : node = Node.ofValue v := by
  cases v with
  | null | bool => cases h
  | _ =>
      cases h
      rfl

end Part

namespace Keywords

theorem set_frame {k k' : Keywords} {name : String} {p : Part} (h : k.set name p = .ok k') :
    (name ≠ "properties" → k'.properties = k.properties) ∧
      (name ≠ "items" → k'.items = k.items) ∧
      (name ≠ "additionalProperties" → k'.additional = k.additional) ∧
      (name ≠ "allOf" → k'.allOf = k.allOf) ∧ (name ≠ "oneOf" → k'.oneOf = k.oneOf) ∧
      (name ≠ "anyOf" → k'.anyOf = k.anyOf) ∧ (name ≠ "enum" → k'.enum = k.enum) ∧
      (name ≠ "const" → k'.const = k.const) := by
  unfold set at h
  split at h
  all_goals
    first
      | obtain ⟨_, -, hk⟩ := bind_eq_ok.mp h
        cases hk
      | cases h
    simp

variable {fields : List (String × Value)} {k : Keywords}

theorem get?_ofFields {key : String} {p : Part}
    (h : (Entries.ofList (Part.ofFields fields)).get? key = some p) :
    ∃ v, (Entries.ofList fields).get? key = some v ∧ p = Part.ofValue v := by
  rw [Part.ofFields_eq_map, Entries.get?_ofList_map, Option.map_eq_some_iff] at h
  obtain ⟨v, hv, rfl⟩ := h
  exact ⟨v, hv, rfl⟩

def members (k : Keywords) : Composition → Option (List Node)
  | .allOf => k.allOf
  | .oneOf => k.oneOf
  | .anyOf => k.anyOf

theorem properties_of_ofFields (h : ofFields (Part.ofFields fields) = .ok k) {ps : Entries Schema}
    (hk : k.properties = some ps) :
    ∃ vs, (Entries.ofList fields).get? "properties" = some (.object vs) ∧
      ps = Entries.ofList (vs.map fun e => (e.1, Schema.ofValue e.2)) := by
  obtain ⟨p, hp, hread⟩ := Entries.last_of_foldlM set Keywords.properties "properties"
    (fun p ps => p.properties = .ok ps) rfl
    (fun hset => by
      obtain ⟨_, hread, hk⟩ := bind_eq_ok.mp hset
      cases hk
      exact hread) (fun hset hne => (set_frame hset).1 hne) h hk
  obtain ⟨v, hv, rfl⟩ := get?_ofFields hp
  obtain ⟨vs, rfl, hps⟩ := Part.properties_ofValue hread
  exact ⟨vs, hv, hps⟩

theorem items_of_ofFields (h : ofFields (Part.ofFields fields) = .ok k) {node : Node}
    (hk : k.items = some (.single node)) :
    ∃ v, (Entries.ofList fields).get? "items" = some v ∧ node = Node.ofValue v := by
  obtain ⟨p, hp, hread⟩ := Entries.last_of_foldlM set Keywords.items "items"
    (fun p items => p.items = items) rfl
    (fun hset => by
      cases hset
      rfl) (fun hset hne => (set_frame hset).2.1 hne) h hk
  obtain ⟨v, hv, rfl⟩ := get?_ofFields hp
  exact ⟨v, hv, Part.items_ofValue hread⟩

theorem additional_of_ofFields (h : ofFields (Part.ofFields fields) = .ok k) {node : Node}
    (hk : k.additional = some (.schema node)) :
    ∃ v, (Entries.ofList fields).get? "additionalProperties" = some v ∧ node = Node.ofValue v := by
  obtain ⟨p, hp, hread⟩ := Entries.last_of_foldlM set Keywords.additional "additionalProperties"
    (fun p rule => p.additional = rule) rfl
    (fun hset => by
      cases hset
      rfl) (fun hset hne => (set_frame hset).2.2.1 hne) h hk
  obtain ⟨v, hv, rfl⟩ := get?_ofFields hp
  exact ⟨v, hv, Part.additional_ofValue hread⟩

theorem enum_of_ofFields (h : ofFields (Part.ofFields fields) = .ok k) {values : List Value}
    (hk : k.enum = some values) : (Entries.ofList fields).get? "enum" = some (.array values) := by
  obtain ⟨p, hp, hread⟩ := Entries.last_of_foldlM set Keywords.enum "enum"
    (fun p values => p.value.optional Value.asList = .ok values) rfl
    (fun hset => by
      obtain ⟨_, hread, hk⟩ := bind_eq_ok.mp hset
      cases hk
      exact hread) (fun hset hne => (set_frame hset).2.2.2.2.2.2.1 hne) h hk
  obtain ⟨v, hv, rfl⟩ := get?_ofFields hp
  rw [Part.value_ofValue] at hread
  rw [hv, Value.array_of_asList hread]

theorem const_of_ofFields (h : ofFields (Part.ofFields fields) = .ok k) {value : Value}
    (hk : k.const = some value) : (Entries.ofList fields).get? "const" = some value := by
  obtain ⟨p, hp, hread⟩ := Entries.last_of_foldlM set Keywords.const "const"
    (fun p value => p.value.optional .ok = .ok value) rfl
    (fun hset => by
      obtain ⟨_, hread, hk⟩ := bind_eq_ok.mp hset
      cases hk
      exact hread) (fun hset hne => (set_frame hset).2.2.2.2.2.2.2 hne) h hk
  obtain ⟨v, hv, rfl⟩ := get?_ofFields hp
  rw [Part.value_ofValue] at hread
  cases v with
  | null => cases hread
  | _ =>
      cases hread
      exact hv

theorem members_read (h : ofFields (Part.ofFields fields) = .ok k) (keyword : Composition) :
    ((Entries.ofList fields).get? keyword.keyword = none ∧ k.members keyword = none) ∨
      ∃ v, (Entries.ofList fields).get? keyword.keyword = some v ∧
        (Part.ofValue v).composition = .ok (k.members keyword) := by
  have hread := Entries.field_of_foldlM set (fun k => k.members keyword) keyword.keyword
    (fun p ms => p.composition = .ok ms)
    (fun hset => by
      cases keyword
      all_goals
        obtain ⟨_, hread, hk⟩ := bind_eq_ok.mp hset
        cases hk
        exact hread)
    (fun hset hne => by
      obtain ⟨-, -, -, hall, hone, hany, -⟩ := set_frame hset
      cases keyword with
      | allOf => exact hall hne
      | oneOf => exact hone hne
      | anyOf => exact hany hne) h
  rcases hread with ⟨hnone, hstart⟩ | ⟨p, hp, hread⟩
  · rw [Part.ofFields_eq_map, Entries.get?_ofList_map, Option.map_eq_none_iff] at hnone
    refine .inl ⟨hnone, hstart.trans ?_⟩
    cases keyword <;> rfl
  · obtain ⟨v, hv, rfl⟩ := get?_ofFields hp
    exact .inr ⟨v, hv, hread⟩

theorem members_of_ofFields (h : ofFields (Part.ofFields fields) = .ok k) {keyword : Composition}
    {ms : List Node} (hk : k.members keyword = some ms) :
    ∃ vs, (Entries.ofList fields).get? keyword.keyword = some (.array vs) ∧
      ms = vs.map Node.ofValue := by
  rcases members_read h keyword with ⟨-, hnone⟩ | ⟨v, hv, hread⟩
  · rw [hk] at hnone
    cases hnone
  · rw [hk] at hread
    obtain ⟨vs, rfl, hms⟩ := Part.composition_ofValue hread
    exact ⟨vs, hv, hms⟩

/-! ## The parts of a schema -/

inductive Writes (k : Keywords) : List String → Node → Prop
  | property {ps : Entries Schema} {name : String} {schema : Schema}
      (hps : k.properties = some ps) (h : (name, schema) ∈ ps) :
      Writes k ["properties", name] schema.node
  | items {node : Node} (h : k.items = some (.single node)) : Writes k ["items"] node
  | additional {node : Node} (h : k.additional = some (.schema node)) :
      Writes k ["additionalProperties"] node
  | member {keyword : Composition} {ms : List Node} {i : Nat} {node : Node}
      (hms : k.members keyword = some ms) (h : ms[i]? = some node) :
      Writes k [keyword.keyword, toString i] node

/-- The keywords put one constraint at most: there is nothing next to `allOf`, else one of the
structural part, `oneOf` and `anyOf`, and the structural part is of one type. -/
structure Single (k : Keywords) : Prop where
  alone : k.allOf.isSome → k.constraints = []
  one : k.constraints.length ≤ 1
  oneType : ∀ keyword ms, k.structuralKind ≠ some (.composite keyword ms)

/-- These segments address a member that no keyword writes: one beyond those under its keyword. -/
def Made (k : Keywords) (segments : List String) : Prop :=
  ∃ (keyword : Composition) (i : Nat), segments = [keyword.keyword, toString i] ∧
    ∀ ms, k.members keyword = some ms → ms.length ≤ i

def Leaf (kd : Kind Node) : Prop :=
  ∀ doc nullable segments part, ¬ Node.PartAt ⟨kd, doc, nullable⟩ segments part

theorem leaf_ofValues (values : List Value) : Leaf (Kind.ofValues values) := by
  intro doc nullable segments part hp
  unfold Kind.ofValues at hp
  split at hp
  · cases hp
  · split at hp <;> cases hp

theorem typeKind_cases (k : Keywords) (name : String) :
    k.typeKind name = k.arrayKind ∨ k.typeKind name = k.objectKind ∨ Leaf (k.typeKind name) := by
  unfold typeKind
  split
  case h_6 => exact .inl rfl
  case h_7 => exact .inr (.inl rfl)
  all_goals exact .inr (.inr fun _ _ _ _ hp => nomatch hp)

theorem structuralKind_cases {kd : Kind Node} (h : k.structuralKind = some kd) :
    kd = k.arrayKind ∨ kd = k.objectKind ∨ Leaf kd ∨
      ∃ names : List String,
        kd = .composite .anyOf (names.map fun name => .bare (k.typeKind name)) := by
  have htype : ∀ name, kd = k.typeKind name → kd = k.arrayKind ∨ kd = k.objectKind ∨ Leaf kd ∨
      ∃ names : List String,
        kd = .composite .anyOf (names.map fun name => .bare (k.typeKind name)) := by
    rintro name rfl
    rcases typeKind_cases k name with h | h | h
    · exact .inl h
    · exact .inr (.inl h)
    · exact .inr (.inr (.inl h))
  unfold structuralKind at h
  split at h
  · cases h
    exact .inr (.inr (.inl (leaf_ofValues _)))
  · cases h
    exact .inr (.inr (.inl (leaf_ofValues _)))
  · exact htype _ (Option.some.inj h).symm
  · split at h
    · cases h
      exact .inr (.inr (.inl fun _ _ _ _ hp => nomatch hp))
    · exact htype _ (Option.some.inj h).symm
    · cases h
      exact .inr (.inr (.inr ⟨_, rfl⟩))
  · split at h
    · exact .inr (.inl (Option.some.inj h).symm)
    · split at h
      · exact .inl (Option.some.inj h).symm
      · cases h

theorem arrayKind_partAt {doc : Option String} {nullable : Bool} {segments : List String}
    {part : Node} (hp : Node.PartAt ⟨k.arrayKind, doc, nullable⟩ segments part) :
    k.Writes segments part ∨ part = .bare .any := by
  unfold arrayKind at hp
  split at hp
  · cases hp
    exact .inr rfl
  · next hitems =>
    cases hp
    exact .inl (.items hitems)
  · cases hp

theorem objectKind_eq (k : Keywords) : ∃ required others,
    k.objectKind = .object ((k.properties.getD []).map fun p => (p.1, p.2.node)) required others ∧
      ∀ node, others = .typed node → k.additional = some (.schema node) := by
  refine ⟨_, _, rfl, fun node h => ?_⟩
  split at h
  · cases h
  · cases h
  · cases h
  · next hadditional =>
    cases h
    exact hadditional

theorem objectKind_partAt {doc : Option String} {nullable : Bool} {segments : List String}
    {part : Node} (hp : Node.PartAt ⟨k.objectKind, doc, nullable⟩ segments part) :
    k.Writes segments part := by
  obtain ⟨required, others, hkind, hothers⟩ := k.objectKind_eq
  rw [hkind] at hp
  cases hp with
  | property h =>
      obtain ⟨⟨name, schema⟩, hmem, heq⟩ := List.mem_map.mp h
      cases heq
      cases hps : k.properties with
      | none =>
          rw [hps] at hmem
          cases hmem
      | some ps =>
          rw [hps] at hmem
          exact .property hps hmem
  | additional => exact .additional (hothers _ rfl)

theorem mem_constraints {c : Node} (h : c ∈ k.constraints) :
    (∃ kd, k.structuralKind = some kd ∧ c = .bare kd) ∨
      ∃ keyword ms, k.members keyword = some ms ∧ c = .bare (.composite keyword ms) := by
  simp only [constraints, union, List.mem_append, Option.mem_toList, Option.map_eq_some_iff] at h
  rcases h with (⟨kd, hkd, rfl⟩ | ⟨ms, hms, rfl⟩) | ⟨ms, hms, rfl⟩
  · exact .inl ⟨kd, hkd, rfl⟩
  · exact .inr ⟨.oneOf, ms, hms, rfl⟩
  · exact .inr ⟨.anyOf, ms, hms, rfl⟩

/-- The parts of the one constraint are written, or it is a list of types. -/
theorem constraint_partAt {one : Node} (hone : k.constraints = [one]) {doc : Option String}
    {nullable : Bool} {segments : List String} {part : Node}
    (hp : Node.PartAt ⟨one.kind, doc, nullable⟩ segments part) :
    k.Writes segments part ∨ part = .bare .any ∨ (¬ k.Single ∧ k.Made segments) := by
  have hmem : one ∈ k.constraints := hone ▸ List.mem_cons_self
  rcases mem_constraints hmem with ⟨kd, hkd, rfl⟩ | ⟨keyword, ms, hms, rfl⟩
  · replace hp : Node.PartAt ⟨kd, doc, nullable⟩ segments part := hp
    rcases structuralKind_cases hkd with rfl | rfl | hleaf | ⟨names, rfl⟩
    · exact (arrayKind_partAt hp).imp_right .inl
    · exact .inl (objectKind_partAt hp)
    · exact absurd hp (hleaf _ _ _ _)
    · cases hp with
      | @member _ _ _ i _ _ h =>
        refine .inr (.inr ⟨fun hs => hs.oneType _ _ hkd, .anyOf, i, rfl, fun ms hms => ?_⟩)
        have hany : k.anyOf = some ms := hms
        simp [constraints, union, hkd, hany] at hone
  · cases hp with
    | member h => exact .inl (.member hms h)

/-- The parts of a schema are written by its keywords, but for items that are not mentioned and for
the members that several constraints become. -/
theorem partAt_cases {segments : List String} {part : Node} (hp : k.node.PartAt segments part) :
    k.Writes segments part ∨ part = .bare .any ∨ (¬ k.Single ∧ k.Made segments) := by
  unfold node at hp
  split at hp
  · cases hp
  · unfold kind at hp
    split at hp
    · next ms hall =>
      cases hp with
      | @member _ _ _ i _ _ h =>
        by_cases hi : i < ms.length
        · rw [List.getElem?_append_left hi] at h
          exact .inl (.member (show k.members .allOf = _ from hall) h)
        · refine .inr (.inr ⟨fun hs => ?_, .allOf, i, rfl, fun ms' hms => ?_⟩)
          · have halone := hs.alone (by rw [hall]; rfl)
            rw [halone, List.append_nil, List.getElem?_eq_none (Nat.le_of_not_lt hi)] at h
            cases h
          · cases hall.symm.trans hms
            exact Nat.le_of_not_lt hi
    · cases hp
    · next hone => exact constraint_partAt hone hp
    · next hall hnil hone =>
      cases hp with
      | @member _ _ _ i _ _ h =>
        refine .inr (.inr ⟨fun hs => ?_, .allOf, i, rfl, fun ms hms => ?_⟩)
        · have hle := hs.one
          match hcs : k.constraints, hle with
          | [], _ => exact hnil hcs
          | [one], _ => exact hone one hcs
        · cases hall.symm.trans hms

end Keywords

end SwaggerTypes
