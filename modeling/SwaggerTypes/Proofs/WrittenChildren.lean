import SwaggerTypes.Proofs.ChildSchemas
/-!
# Written schemas looked up again

What a document writes under a keyword of a schema is asked for at the same segments of the closed form.
A composition's members are found there whatever stands beside them: the list is the node itself, the
front of an `allOf`, or the last member of one that the search comes to. The parts of an object or of a
list are found as long as there is no composition beside them; else they are in a member of the `allOf`,
and the segments that the document writes lead nowhere.
-/

namespace SwaggerTypes

theorem Entries.get?_map {α β : Type} (f : α → β) (key : String) (map : Entries α) :
    Entries.get? key (map.map fun e => (e.1, f e.2)) = (map.get? key).map f := by
  induction map with
  | nil => rfl
  | cons e rest ih =>
      unfold get? at ih ⊢
      rw [List.map_cons, List.lookup_cons, List.lookup_cons, ih]
      cases key == e.1 <;> rfl

namespace Keywords

variable {k : Keywords} {fields : List (String × Value)} {v : Value}

/-! ## What a keyword is read as -/

/-- A field that one key sets, and no other, is read from the last value under that key. -/
theorem field_read {γ : Type} {field : Keywords → γ} {key : String} (reads : Part → γ → Prop)
    (hset : ∀ {k k' : Keywords} {p}, k.set key p = .ok k' → reads p (field k'))
    (hframe : ∀ {k k' : Keywords} {name p}, k.set name p = .ok k' → name ≠ key → field k' = field k)
    (h : ofFields (Part.ofFields fields) = .ok k) (hv : (Entries.ofList fields).get? key = some v) :
    reads (Part.ofValue v) (field k) := by
  have hpart : (Entries.ofList (Part.ofFields fields)).get? key = some (Part.ofValue v) := by
    rw [Part.ofFields_eq_map, Entries.get?_ofList_map, hv, Option.map_some]
  rcases Entries.field_of_foldlM set field key reads hset hframe h with ⟨hnone, -⟩ | ⟨p, hp, hread⟩
  · rw [hpart] at hnone
    cases hnone
  · cases hpart.symm.trans hp
    exact hread

theorem properties_read {ps : List (String × Value)} (h : ofFields (Part.ofFields fields) = .ok k)
    (hps : (Entries.ofList fields).get? "properties" = some (.object ps)) :
    k.properties = some (Entries.ofList (ps.map fun e => (e.1, Schema.ofValue e.2))) := by
  have hread : (Part.ofValue (.object ps)).properties = .ok k.properties :=
    field_read (fun p found => p.properties = .ok found)
      (fun hset => by
        obtain ⟨_, hread, hk⟩ := bind_eq_ok.mp hset
        cases hk
        exact hread) (fun hset => (set_frame hset).1) h hps
  cases hfound : k.properties with
  | none =>
      rw [hfound] at hread
      cases hread
  | some found =>
      rw [hfound] at hread
      obtain ⟨_, heq, rfl⟩ := Part.properties_ofValue hread
      cases heq
      rfl

theorem items_read (h : ofFields (Part.ofFields fields) = .ok k)
    (hv : (Entries.ofList fields).get? "items" = some v) : k.items = (Part.ofValue v).items :=
  field_read (fun p items => items = p.items)
    (fun hset => by
      cases hset
      rfl) (fun hset => (set_frame hset).2.1) h hv

theorem additional_read (h : ofFields (Part.ofFields fields) = .ok k)
    (hv : (Entries.ofList fields).get? "additionalProperties" = some v) :
    k.additional = (Part.ofValue v).additional :=
  field_read (fun p rule => rule = p.additional)
    (fun hset => by
      cases hset
      rfl) (fun hset => (set_frame hset).2.2.1) h hv

/-! ## The closed form beside compositions -/

/-- A union that is written is the closed form itself, or one of the constraints in it. -/
theorem kind_of_union {keyword : Composition} {ws : List Node} (hne : keyword ≠ .allOf)
    (hws : k.members keyword = some ws) :
    k.kind = .composite keyword ws ∨ k.kind = .composite .allOf (k.allOf.getD [] ++ k.constraints) := by
  have hmem : Node.bare (.composite keyword ws) ∈ k.constraints := by
    cases keyword with
    | allOf => exact absurd rfl hne
    | oneOf =>
        have hone : k.oneOf = some ws := hws
        simp [constraints, union, hone]
    | anyOf =>
        have hany : k.anyOf = some ws := hws
        simp [constraints, union, hany]
  unfold kind
  split
  · next hall =>
    rw [hall]
    exact .inr rfl
  · next hnil =>
    rw [hnil] at hmem
    cases hmem
  · next hone =>
    rw [hone] at hmem
    rw [← List.mem_singleton.mp hmem]
    exact .inl rfl
  · next hall _ _ =>
    rw [hall]
    exact .inr rfl

/-- Beside a composition the structural part is a member of an `allOf`, the first behind those written
there. -/
theorem kind_beside {kd : Kind Node} {keyword : Composition} {ms : List Node}
    (hkd : k.structuralKind = some kd) (hms : k.members keyword = some ms) :
    k.kind = .composite .allOf (k.allOf.getD [] ++ k.constraints) := by
  cases hall : k.allOf with
  | some written =>
      rw [kind, hall]
      rfl
  | none =>
      have hne : keyword ≠ .allOf := by
        rintro rfl
        rw [show k.members .allOf = k.allOf from rfl, hall] at hms
        cases hms
      rcases kind_of_union hne hms with hkind | hkind
      · rw [kind, hall] at hkind
        cases keyword with
        | allOf => exact absurd rfl hne
        | oneOf =>
            have hone : k.oneOf = some ms := hms
            cases hany : k.anyOf <;> simp [constraints, union, hkd, hone, hany] at hkind
        | anyOf =>
            have hany : k.anyOf = some ms := hms
            cases hone : k.oneOf <;> simp [constraints, union, hkd, hone, hany] at hkind
      · rw [hkind, hall]

theorem constraints_head {kd : Kind Node} (hkd : k.structuralKind = some kd) :
    k.constraints[0]? = some (.bare kd) := by
  simp [constraints, hkd]

theorem kind_alone {kd : Kind Node} (hkd : k.structuralKind = some kd)
    (hnone : ∀ keyword, k.members keyword = none) : k.kind = kd := by
  have hall : k.allOf = none := hnone .allOf
  have hone : k.oneOf = none := hnone .oneOf
  have hany : k.anyOf = none := hnone .anyOf
  simp [kind, constraints, union, hall, hone, hany, hkd, Node.bare]

def TypeIs (k : Keywords) (name : String) : Prop := k.type = none ∨ k.type = some (.single name)

theorem structuralKind_object (hconst : k.const = none) (henum : k.enum = none)
    (htype : k.TypeIs "object") (h : k.properties.isSome ∨ k.additional.isSome) :
    k.structuralKind = some k.objectKind := by
  unfold structuralKind
  rcases htype with htype | htype
  · rcases h with h | h <;> simp [hconst, henum, htype, h]
  · simp [hconst, henum, htype, typeKind]

theorem items_of_structuralKind {node found : Node} (h : k.structuralKind = some (.array node))
    (hitems : k.items = some (.single found) ∨ k.items = some .tuple) : node = found := by
  have harray : k.arrayKind = .array node := by
    rcases structuralKind_cases h with heq | heq | hleaf | ⟨names, heq⟩
    · exact heq.symm
    · cases heq
    · exact absurd .items (hleaf none false _ node)
    · cases heq
  rcases hitems with hitems | hitems <;> rw [arrayKind, hitems] at harray <;> cases harray
  rfl

end Keywords

namespace Node

variable {doc : Option String} {nullable : Bool} {segment : String} {next : Option String}

theorem child_of_member? {wanted keyword : Composition} {members : List Node} {position : String}
    {i : Nat} {child : Node} (hposition : Pointer.index? position = some i)
    (h : member? wanted i keyword members = some child) :
    Node.child ⟨.composite keyword members, doc, nullable⟩ wanted.keyword (some position) =
      some (child, 2) := by
  simp [Node.child, Composition.ofKeyword?_keyword, hposition, h]

theorem child_composite_eq_none {keyword : Composition} {members : List Node}
    (h : ∀ wanted : Composition, segment ≠ wanted.keyword) :
    Node.child ⟨.composite keyword members, doc, nullable⟩ segment next = none := by
  cases hchild : Node.child ⟨.composite keyword members, doc, nullable⟩ segment next with
  | none => rfl
  | some found =>
      obtain ⟨wanted, _, _, hsegment, -⟩ := child_composite hchild
      exact absurd hsegment (h wanted)

end Node

namespace Value

variable {v w : Value} {k : Keywords} {segment : String} {next : Option String} {used : Nat}

theorem child_eq (hread : v.keywords = .ok k) (href : k.ref = none) (segment : String)
    (next : Option String) : (Node.ofValue v).child segment next =
      Node.child ⟨k.kind, k.doc, k.isNullable || k.listsNull⟩ segment next := by
  rw [node_eq hread, Keywords.node, href]

/-! ## Members -/

/-- Members of a composition stay addressable whatever is written beside them: the member at a position
of the list under `allOf`, `oneOf` or `anyOf` is found there, by two segments, and it is the schema that
the document writes. Positions are those that can be counted. -/
theorem child_of_member (keyword : Composition) (i : Nat) {vs : List Value}
    (hread : v.keywords = .ok k) (href : k.ref = none)
    (hvs : (Entries.ofList v.keywordValues).get? keyword.keyword = some (.array vs))
    (hcounted : vs.length ≤ 0x10000000000000000) (h : vs[i]? = some w) :
    (Node.ofValue v).child keyword.keyword (some (toString i)) = some (Node.ofValue w, 2) := by
  have hi : i < vs.length := (List.getElem?_eq_some_iff.mp h).1
  have hposition : Pointer.index? (toString i) = some i :=
    Pointer.index?_toString (Nat.lt_of_lt_of_le hi hcounted)
  obtain ⟨ms, _, _, hms, heq, hj, hget⟩ :=
    members_of_subschemaAt hread (.member hvs hposition h) rfl
  cases heq
  cases hposition.symm.trans hj
  rw [child_eq hread href]
  by_cases hne : keyword = .allOf
  · subst hne
    have hall : k.allOf = some ms := hms
    rw [Keywords.kind, hall]
    refine Node.child_of_member? hposition ?_
    rw [Node.member?_own]
    rw [List.getElem?_append_left (List.getElem?_eq_some_iff.mp hget).1, hget]
  · rcases Keywords.kind_of_union hne hms with hkind | hkind
    · rw [hkind]
      refine Node.child_of_member? hposition ?_
      rw [Node.member?_own, hget]
    · rw [hkind]
      exact Node.child_of_member? hposition (Keywords.member?_union hne hms hget _)

/-- A size with all compositions, two types and a property. The members of `allOf` are compositions by the
other two keywords, and the types are one more of them. -/
def mixedSize : Value :=
  .object [
    ("oneOf", .array [.object [("type", .string "integer")], .object [("type", .string "null")]]),
    ("type", .array [.string "string", .string "object"]),
    ("allOf", .array [.object [("oneOf", .array [.object [], .object []])],
      .object [("anyOf", .array [.object [], .object []])]]),
    ("properties", .object [("unit", .object [("type", .string "string")])]),
    ("anyOf", .array [.object [("type", .string "boolean")], .object [("type", .string "number")]])]

/-- The second member is found under each keyword. -/
theorem mixedSize_members : (∃ k, mixedSize.keywords = .ok k ∧ k.ref = none) ∧
    (Node.ofValue mixedSize).child "oneOf" (some "1") = some (.bare (.primitive .null none), 2) ∧
      (Node.ofValue mixedSize).child "anyOf" (some "1") = some (.bare (.primitive .number none), 2) ∧
        (Node.ofValue mixedSize).child "allOf" (some "1") =
          some (.bare (.composite .anyOf [.bare .any, .bare .any]), 2) := by
  have hread : ∃ k, mixedSize.keywords = .ok k ∧ k.ref = none := ⟨_, by rfl, by rfl⟩
  obtain ⟨k, hk, href⟩ := hread
  refine ⟨⟨k, hk, href⟩, ?_, ?_, ?_⟩
  · exact child_of_member .oneOf 1 hk href (by rfl) (by decide) (by rfl)
  · exact child_of_member .anyOf 1 hk href (by rfl) (by decide) (by rfl)
  · exact child_of_member .allOf 1 hk href (by rfl) (by decide) (by rfl)

/-! ## Structural parts -/

/-- A structural keyword of a schema writes another one at a segment, or at a segment and the next, and
how many segments that takes. The schema is of no other type. An absent value and a flag are no schemas,
and items are those of a list only where the schema describes one. -/
inductive StructuralAt (v : Value) (k : Keywords) : String → Option String → Value → Nat → Prop
  | property {ps : List (String × Value)} {name : String} {w : Value} (htype : k.TypeIs "object")
      (hps : (Entries.ofList v.keywordValues).get? "properties" = some (.object ps))
      (h : (Entries.ofList ps).get? name = some w) :
      StructuralAt v k "properties" (some name) w 2
  | additional {next : Option String} {w : Value} (htype : k.TypeIs "object")
      (h : (Entries.ofList v.keywordValues).get? "additionalProperties" = some w)
      (hpresent : w ≠ .null) (hschema : ∀ b, w ≠ .bool b) :
      StructuralAt v k "additionalProperties" next w 1
  | items {next : Option String} {w : Value} {node : Node} (htype : k.TypeIs "array")
      (hlist : k.structuralKind = some (.array node))
      (h : (Entries.ofList v.keywordValues).get? "items" = some w) (hpresent : w ≠ .null) :
      StructuralAt v k "items" next w 1

theorem StructuralAt.segment_ne (h : v.StructuralAt k segment next w used) (keyword : Composition) :
    segment ≠ keyword.keyword := by
  cases h <;> cases keyword <;> decide

/-- What a structural keyword writes is a child of the structural part. -/
theorem StructuralAt.child (hread : v.keywords = .ok k) (hconst : k.const = none)
    (henum : k.enum = none) (h : v.StructuralAt k segment next w used) :
    ∃ kd, k.structuralKind = some kd ∧ ∀ doc nullable,
      Node.child ⟨kd, doc, nullable⟩ segment next = some (Node.ofValue w, used) := by
  have hfields := ofFields_of_keywords hread
  obtain ⟨required, others, hobject, -⟩ := k.objectKind_eq
  cases h with
  | @property ps name _ htype hps h =>
      have hproperties := Keywords.properties_read hfields hps
      refine ⟨_, Keywords.structuralKind_object hconst henum htype (.inl (by rw [hproperties]; rfl)),
        fun doc nullable => ?_⟩
      rw [hobject, hproperties]
      have hget : Entries.get? name ((Entries.ofList (ps.map fun e =>
          (e.1, Schema.ofValue e.2))).map fun p => (p.1, p.2.node)) = some (Node.ofValue w) := by
        rw [Entries.get?_map, Entries.get?_ofList_map, h]
        rfl
      simp [Node.child, hget]
  | additional htype h hpresent hschema =>
      have hadditional : k.additional = some (.schema (Node.ofValue w)) := by
        rw [Keywords.additional_read hfields h]
        cases w with
        | null => exact absurd rfl hpresent
        | bool b => exact absurd rfl (hschema b)
        | _ => rfl
      refine ⟨_, Keywords.structuralKind_object hconst henum htype (.inr (by rw [hadditional]; rfl)),
        fun doc nullable => ?_⟩
      simp [Keywords.objectKind, hadditional, Node.child]
  | @items _ _ node _ hlist h hpresent =>
      refine ⟨_, hlist, fun doc nullable => ?_⟩
      rw [Keywords.items_of_structuralKind hlist ?_]
      · rfl
      · rw [Keywords.items_read hfields h]
        cases w with
        | null => exact absurd rfl hpresent
        | array => exact .inr rfl
        | _ => exact .inl rfl

/-- What a structural keyword writes is found at the segments that the document has for it exactly where
no composition is written beside it, and it is then the schema that the document writes. Beside a
composition these segments lead nowhere, and the schema is a child of the first member behind those that
`allOf` writes. -/
theorem structural_child_iff (hread : v.keywords = .ok k) (href : k.ref = none)
    (hconst : k.const = none) (henum : k.enum = none) (h : v.StructuralAt k segment next w used) :
    ((Node.ofValue v).child segment next = some (Node.ofValue w, used) ↔
        ∀ keyword, k.members keyword = none) ∧
      ∀ keyword ms, k.members keyword = some ms → (Node.ofValue v).child segment next = none ∧
        ∃ part : Node, part.child segment next = some (Node.ofValue w, used) ∧
          ∀ position, Pointer.index? position = some (k.allOf.getD []).length →
            (Node.ofValue v).child "allOf" (some position) = some (part, 2) := by
  obtain ⟨kd, hkd, hchild⟩ := h.child hread hconst henum
  have hbeside : ∀ keyword ms, k.members keyword = some ms →
      (Node.ofValue v).child segment next = none := by
    intro keyword ms hms
    rw [child_eq hread href, Keywords.kind_beside hkd hms]
    exact Node.child_composite_eq_none h.segment_ne
  refine ⟨⟨fun hfound keyword => ?_, fun hnone => ?_⟩,
    fun keyword ms hms => ⟨hbeside keyword ms hms, ?_⟩⟩
  · cases hms : k.members keyword with
    | none => rfl
    | some ms =>
        rw [hbeside keyword ms hms] at hfound
        cases hfound
  · rw [child_eq hread href, Keywords.kind_alone hkd hnone]
    exact hchild _ _
  · refine ⟨.bare kd, hchild none false, fun position hposition => ?_⟩
    rw [child_eq hread href, Keywords.kind_beside hkd hms]
    have hmember : Node.member? .allOf (k.allOf.getD []).length .allOf
        (k.allOf.getD [] ++ k.constraints) = some (.bare kd) := by
      rw [Node.member?_own, List.getElem?_append_right (Nat.le_refl _), Nat.sub_self]
      exact Keywords.constraints_head hkd
    exact Node.child_of_member? hposition hmember

def namedPet : Value :=
  .object [("allOf", .array [.object [("$ref", .string "#/definitions/Base")]]),
    ("properties", .object [("name", .object [("type", .string "string")])])]

def namedPetKeywords : Keywords where
  allOf := some [.bare (.reference "#/definitions/Base")]
  properties := some [("name", ⟨.bare (.primitive .string none), false⟩)]

theorem namedPet_structuralAt : namedPet.StructuralAt namedPetKeywords "properties" (some "name")
    (.object [("type", .string "string")]) 2 :=
  .property (.inl rfl) rfl rfl

/-- The name is a child of the member behind the base. -/
theorem namedPet_name_behind_base : ∃ part : Node,
    part.child "properties" (some "name") = some (.bare (.primitive .string none), 2) ∧
      namedPet.keywords = .ok namedPetKeywords ∧
        (Node.ofValue namedPet).child "allOf" (some "1") = some (part, 2) := by
  have hread : namedPet.keywords = .ok namedPetKeywords := by rfl
  obtain ⟨-, part, hchild, hpart⟩ :=
    (structural_child_iff hread rfl rfl rfl namedPet_structuralAt).2 .allOf _ rfl
  exact ⟨part, hchild, hread, hpart "1" rfl⟩

def FindsStructural (v : Value) : Prop :=
  ∀ k segment next w used, v.keywords = .ok k → k.ref = none → k.const = none → k.enum = none →
    v.StructuralAt k segment next w used →
      (Node.ofValue v).child segment next = some (Node.ofValue w, used)

/-- Beside an `allOf` a property is not found. -/
theorem namedPet_hides_name : ¬ namedPet.FindsStructural := by
  intro h
  have hfound := h _ _ _ _ _ (show namedPet.keywords = .ok namedPetKeywords by rfl) rfl rfl rfl
    namedPet_structuralAt
  have hnone : (Node.ofValue namedPet).child "properties" (some "name") = none := by rfl
  rw [hnone] at hfound
  cases hfound

end Value

end SwaggerTypes
