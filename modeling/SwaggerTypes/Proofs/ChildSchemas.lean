import SwaggerTypes.Proofs.WrittenSchemas
/-!
# Children and the schemas a document writes

The children of a schema are addressed in its closed form. Most of them are schemas that the document
writes at the same segments. Others are there in the closed form only: the items of a list that mentions
none, the constraints that stand behind the members of an `allOf`, and the types of a list of types.
-/

namespace SwaggerTypes

namespace Value

/-! ## Keywords and sub-schemas of a value -/

/-- The values that a schema gives for its keywords: those of a map under their keys, those of a list in
the order of the keywords. -/
def keywordValues : Value → List (String × Value)
  | .object fields => fields
  | .array items => Record.schema.fields.zip items
  | _ => []

def keywords : Value → Except Mismatch Keywords
  | .object fields => Keywords.ofFields (Part.ofFields fields)
  | .array items => Keywords.ofItems (Part.ofItems items)
  | v => .error (.wrongType v (.record .schema))

theorem schema_eq (v : Value) : Schema.ofValue v = .ofKeywords v.keywords := by
  cases v <;> rfl

theorem node_eq {v : Value} {k : Keywords} (h : v.keywords = .ok k) : Node.ofValue v = k.node := by
  rw [Node.ofValue, schema_eq, h]
  rfl

/-- A list of keywords is read as the map that has their names as keys. -/
theorem ofFields_of_keywords {v : Value} {k : Keywords} (h : v.keywords = .ok k) :
    Keywords.ofFields (Part.ofFields v.keywordValues) = .ok k := by
  cases v with
  | object fields => exact h
  | array items => exact Keywords.ofItems_eq_ok h
  | _ => cases h

/-- A schema writes another one at a segment, or at a segment and the next, and how many segments that
takes. Positions in a list are decimal digits, perhaps behind a plus sign. -/
inductive SubschemaAt (v : Value) : String → Option String → Value → Nat → Prop
  | property {ps : List (String × Value)} {name : String} {w : Value}
      (hps : (Entries.ofList v.keywordValues).get? "properties" = some (.object ps))
      (h : (Entries.ofList ps).get? name = some w) :
      SubschemaAt v "properties" (some name) w 2
  | items {next : Option String} {w : Value}
      (h : (Entries.ofList v.keywordValues).get? "items" = some w) : SubschemaAt v "items" next w 1
  | additional {next : Option String} {w : Value}
      (h : (Entries.ofList v.keywordValues).get? "additionalProperties" = some w) :
      SubschemaAt v "additionalProperties" next w 1
  | member {keyword : Composition} {vs : List Value} {position : String} {i : Nat} {w : Value}
      (hvs : (Entries.ofList v.keywordValues).get? keyword.keyword = some (.array vs))
      (hposition : Pointer.index? position = some i) (h : vs[i]? = some w) :
      SubschemaAt v keyword.keyword (some position) w 2

end Value

theorem Composition.keyword_inj {keyword other : Composition} (h : keyword.keyword = other.keyword) :
    keyword = other := by
  rw [← Option.some.injEq, ← ofKeyword?_keyword, ← ofKeyword?_keyword, h]

theorem Composition.keyword_of_ofKeyword? {segment : String} {keyword : Composition}
    (h : ofKeyword? segment = some keyword) : segment = keyword.keyword := by
  unfold ofKeyword? at h
  split at h
  all_goals cases h
  all_goals rfl

namespace Node

/-! ## Looking for a member -/

theorem member?_own (keyword : Composition) (index : Nat) (members : List Node) :
    member? keyword index keyword members = members[index]? := if_pos rfl

/-- What another keyword finds stands in a member that is a composition of that keyword. -/
theorem member?_inner {wanted keyword : Composition} {index : Nat} {members : List Node}
    {child : Node} (hne : keyword ≠ wanted)
    (h : member? wanted index keyword members = some child) :
    ∃ m ∈ members, ∃ inner, m.kind = .composite wanted inner ∧ inner[index]? = some child := by
  rw [member?, if_neg hne] at h
  obtain ⟨m, hm, hfound⟩ := List.exists_of_findSome?_eq_some h
  split at hfound
  · next found inner hkind =>
    split at hfound
    · next heq =>
      subst heq
      exact ⟨m, List.mem_reverse.mp hm, inner, hkind, hfound⟩
    · cases hfound
  · cases hfound

theorem member?_append {wanted keyword : Composition} {index : Nat} (hne : keyword ≠ wanted)
    (members behind : List Node) :
    member? wanted index keyword (members ++ behind) =
      (member? wanted index keyword behind).or (member? wanted index keyword members) := by
  simp only [member?, if_neg hne, List.reverse_append, List.findSome?_append]

theorem member?_isSome {wanted keyword : Composition} {index : Nat} {members inner : List Node}
    {m : Node} (hne : keyword ≠ wanted) (hm : m ∈ members)
    (hkind : m.kind = .composite wanted inner) (h : index < inner.length) :
    (member? wanted index keyword members).isSome := by
  rw [member?, if_neg hne, List.findSome?_isSome_iff]
  exact ⟨m, List.mem_reverse.mpr hm, by simp [hkind, h]⟩

/-- A child that a composition has under some segments is one of its members, or one of theirs. -/
theorem child_composite {keyword : Composition} {members : List Node} {doc : Option String}
    {nullable : Bool} {segment : String} {next : Option String} {child : Node} {used : Nat}
    (h : Node.child ⟨.composite keyword members, doc, nullable⟩ segment next = some (child, used)) :
    ∃ (wanted : Composition) (position : String) (i : Nat), segment = wanted.keyword ∧
      next = some position ∧ Pointer.index? position = some i ∧
      member? wanted i keyword members = some child ∧ used = 2 := by
  simp only [Node.child, Option.bind_eq_bind, Option.bind_eq_some_iff, Option.some.injEq,
    Prod.mk.injEq] at h
  obtain ⟨wanted, hwanted, i, ⟨position, rfl, hposition⟩, found, hfound, rfl, rfl⟩ := h
  exact ⟨wanted, position, i, Composition.keyword_of_ofKeyword? hwanted, rfl, hposition, hfound, rfl⟩

end Node

namespace Keywords

variable {k : Keywords}

/-! ## Compositions in the closed form -/

theorem typeKind_ne_composite (k : Keywords) (name : String) (keyword : Composition)
    (ms : List Node) : k.typeKind name ≠ .composite keyword ms := by
  intro h
  unfold typeKind arrayKind objectKind at h
  split at h
  case h_6 => split at h <;> cases h
  all_goals cases h

/-- Only a list of types makes the structural part a composition. -/
theorem structuralKind_composite {keyword : Composition} {ms : List Node}
    (h : k.structuralKind = some (.composite keyword ms)) :
    keyword = .anyOf ∧ ∃ names, k.type = some (.multiple names) ∧
      ms = (names.filter (· ≠ "null")).map fun name => .bare (k.typeKind name) := by
  have hvalues : ∀ values, Kind.ofValues values ≠ .composite keyword ms := by
    intro values heq
    unfold Kind.ofValues at heq
    split at heq
    · cases heq
    · split at heq <;> cases heq
  unfold structuralKind at h
  split at h
  · exact absurd (Option.some.inj h) (hvalues _)
  · exact absurd (Option.some.inj h) (hvalues _)
  · exact absurd (Option.some.inj h) (k.typeKind_ne_composite _ _ _)
  · next names _ _ htype =>
    split at h
    · cases h
    · exact absurd (Option.some.inj h) (k.typeKind_ne_composite _ _ _)
    · cases h
      exact ⟨rfl, names, htype, rfl⟩
  · split at h
    · cases h
    · split at h
      · have harray := Option.some.inj h
        unfold arrayKind at harray
        split at harray <;> cases harray
      · cases h

/-- A constraint that is a composition is written under a union keyword, or it is a list of types. -/
theorem constraint_composite {c : Node} {keyword : Composition} {ms : List Node}
    (hc : c ∈ k.constraints) (hkind : c.kind = .composite keyword ms) :
    k.members keyword = some ms ∨ k.structuralKind = some (.composite keyword ms) := by
  rcases mem_constraints hc with ⟨kd, hkd, rfl⟩ | ⟨other, found, hfound, rfl⟩
  · exact .inr (hkd.trans (congrArg some hkind))
  · cases hkind
    exact .inl hfound

theorem composite_mem_constraints {keyword : Composition} {ms : List Node}
    (h : keyword ≠ .allOf ∧ k.members keyword = some ms ∨
      k.structuralKind = some (.composite keyword ms)) :
    .bare (.composite keyword ms) ∈ k.constraints := by
  rcases h with ⟨hne, hms⟩ | hkind
  · cases keyword
    · exact absurd rfl hne
    all_goals simp_all [members, constraints, union]
  · simp [constraints, hkind]

/-- The last member that is a composition by a union keyword is the one written under it. -/
theorem member?_union {keyword : Composition} (hne : keyword ≠ .allOf) {ws : List Node} {i : Nat}
    {child : Node} (hws : k.members keyword = some ws) (h : ws[i]? = some child)
    (members : List Node) :
    Node.member? keyword i .allOf (members ++ k.constraints) = some child := by
  rw [Node.member?, if_neg (Ne.symm hne), constraints]
  cases keyword with
  | allOf => exact absurd rfl hne
  | anyOf =>
      have hany : k.anyOf = some ws := hws
      simp [union, hany, Node.bare, h]
  | oneOf =>
      have hone : k.oneOf = some ws := hws
      cases hany : k.anyOf with
      | none => simp [union, hone, Node.bare, h]
      | some others => simp [union, hone, Node.bare, h]

theorem constraints_ne_singleton {keyword other : Composition} {ms others : List Node} {one : Node}
    (hall : k.allOf = none) (hms : k.members keyword = some ms)
    (hothers : k.members other = some others) (hne : keyword ≠ other) : k.constraints ≠ [one] := by
  have hlength : 2 ≤ k.constraints.length := by
    cases keyword <;> cases other
    all_goals simp_all [members, constraints, union]
  intro heq
  simp [heq] at hlength

/-- The closed form allows all, is the one constraint that there is, or has the written members of
`allOf` and all constraints as its members. -/
theorem kind_cases (k : Keywords) :
    k.kind = .any ∨
      (∃ one, k.allOf = none ∧ k.constraints = [one] ∧ k.kind = one.kind) ∨
      k.kind = .composite .allOf (k.allOf.getD [] ++ k.constraints) := by
  unfold kind
  split
  · next ms hall =>
    rw [hall]
    exact .inr (.inr rfl)
  · exact .inl rfl
  · next one hall hone => exact .inr (.inl ⟨one, hall, hone, rfl⟩)
  · next hall _ _ =>
    rw [hall]
    exact .inr (.inr rfl)

theorem Leaf.child_eq_none {kd : Kind Node} (h : Leaf kd) {doc : Option String} {nullable : Bool}
    {segment : String} {next : Option String} :
    Node.child ⟨kd, doc, nullable⟩ segment next = none := by
  cases kd with
  | array items => exact absurd .items (h doc nullable _ items)
  | object ps required additional =>
      cases ps with
      | cons p ps => exact absurd (.property List.mem_cons_self) (h doc nullable _ p.2)
      | nil =>
          cases additional with
          | typed node => exact absurd .additional (h doc nullable _ node)
          | _ => cases next <;> simp [Node.child, Entries.get?]
  | composite keyword ms =>
      cases ms with
      | cons m ms =>
          exact absurd (.member (i := 0) rfl) (h doc nullable _ m)
      | nil =>
          cases hchild : Node.child ⟨.composite keyword [], doc, nullable⟩ segment next with
          | none => rfl
          | some found =>
              obtain ⟨wanted, _, i, -, -, -, hfound, -⟩ := Node.child_composite hchild
              simp [Node.member?] at hfound
  | _ => rfl

/-- What a closed form has at some segments though no keyword writes it there. -/
inductive Adds (k : Keywords) : String → Option String → Node → Nat → Prop
  /-- The items of a list that mentions none. -/
  | items {next : Option String} (h : k.items = none) : Adds k "items" next (.bare .any) 1
  /-- A constraint behind the written members of an `allOf`. -/
  | constraint {position : String} {i : Nat} {c : Node}
      (hposition : Pointer.index? position = some i) (hbehind : (k.allOf.getD []).length ≤ i)
      (h : k.constraints[i - (k.allOf.getD []).length]? = some c) :
      Adds k "allOf" (some position) c 2
  /-- One type of a list of types. -/
  | type {names : List String} {position name : String} {i : Nat}
      (htype : k.type = some (.multiple names)) (hposition : Pointer.index? position = some i)
      (h : (names.filter (· ≠ "null"))[i]? = some name) :
      Adds k "anyOf" (some position) (.bare (k.typeKind name)) 2

theorem Adds.of_types {keyword : Composition} {ms : List Node} {position : String} {i : Nat}
    {child : Node} (hkind : k.structuralKind = some (.composite keyword ms))
    (hposition : Pointer.index? position = some i) (h : ms[i]? = some child) :
    k.Adds keyword.keyword (some position) child 2 := by
  obtain ⟨rfl, names, htype, rfl⟩ := structuralKind_composite hkind
  rw [List.getElem?_map, Option.map_eq_some_iff] at h
  obtain ⟨name, hname, rfl⟩ := h
  exact .type htype hposition hname

/-- A member that is written under a composition keyword is itself a composition by this one, with a
member at the index. -/
def Nests (k : Keywords) (keyword : Composition) (i : Nat) : Prop :=
  ∃ other ms m inner, k.members other = some ms ∧ m ∈ ms ∧ m.kind = .composite keyword inner ∧
    i < inner.length

end Keywords

namespace Value

variable {v : Value} {k : Keywords} {segment : String} {next : Option String} {child : Node}
  {used : Nat} {doc : Option String} {nullable : Bool}

def WritesChild (v : Value) (segment : String) (next : Option String) (child : Node) (used : Nat) :
    Prop :=
  ∃ w, v.SubschemaAt segment next w used ∧ child = Node.ofValue w

section

variable (hread : v.keywords = .ok k)

include hread

/-! ## Children of the parts of a closed form -/

theorem writesChild_member {keyword : Composition} {ms : List Node} {position : String} {i : Nat}
    (hms : k.members keyword = some ms) (hposition : Pointer.index? position = some i)
    (h : ms[i]? = some child) : v.WritesChild keyword.keyword (some position) child 2 := by
  obtain ⟨vs, hvs, rfl⟩ := Keywords.members_of_ofFields (ofFields_of_keywords hread) hms
  rw [List.getElem?_map, Option.map_eq_some_iff] at h
  obtain ⟨w, hw, rfl⟩ := h
  exact ⟨w, .member hvs hposition hw, rfl⟩

theorem members_of_subschemaAt {keyword : Composition} {w : Value}
    (h : v.SubschemaAt segment next w used) (hsegment : segment = keyword.keyword) :
    ∃ ms position i, k.members keyword = some ms ∧ next = some position ∧
      Pointer.index? position = some i ∧ ms[i]? = some (Node.ofValue w) := by
  cases h with
  | @member other vs position i _ hvs hposition hw =>
      obtain rfl := Composition.keyword_inj hsegment
      rcases Keywords.members_read (ofFields_of_keywords hread) other with
        ⟨hnone, -⟩ | ⟨found, hfound, hms⟩
      · rw [hvs] at hnone
        cases hnone
      · cases hvs.symm.trans hfound
        cases hread : k.members other with
        | none =>
            rw [hread] at hms
            cases hms
        | some ms =>
            rw [hread] at hms
            obtain ⟨_, heq, rfl⟩ := Part.composition_ofValue hms
            cases heq
            exact ⟨_, position, i, rfl, rfl, hposition, by rw [List.getElem?_map, hw]; rfl⟩
  | _ => cases keyword <;> exact absurd hsegment (by decide)

theorem child_objectKind (h : Node.child ⟨k.objectKind, doc, nullable⟩ segment next =
    some (child, used)) : v.WritesChild segment next child used := by
  obtain ⟨required, others, hkind, hothers⟩ := k.objectKind_eq
  rw [hkind] at h
  have hfields := ofFields_of_keywords hread
  simp only [Node.child] at h
  split at h
  · next hproperties =>
    subst hproperties
    simp only [Option.bind_eq_bind, Option.bind_eq_some_iff, Option.some.injEq,
      Prod.mk.injEq] at h
    obtain ⟨name, rfl, found, hfound, rfl, rfl⟩ := h
    obtain ⟨⟨_, schema⟩, hmem, heq⟩ := List.mem_map.mp (Entries.mem_of_get? hfound)
    cases heq
    cases hps : k.properties with
    | none =>
        rw [hps] at hmem
        cases hmem
    | some ps =>
        rw [hps] at hmem
        obtain ⟨vs, hvs, rfl⟩ := Keywords.properties_of_ofFields hfields hps
        have hget := Entries.get?_of_mem (Entries.nodup_keys_ofList _) hmem
        rw [Entries.get?_ofList_map, Option.map_eq_some_iff] at hget
        obtain ⟨w, hw, rfl⟩ := hget
        exact ⟨w, .property hvs hw, rfl⟩
  · split at h
    · next hadditional =>
      subst hadditional
      cases others with
      | typed node =>
          cases h
          obtain ⟨w, hw, rfl⟩ := Keywords.additional_of_ofFields hfields (hothers _ rfl)
          exact ⟨w, .additional hw, rfl⟩
      | _ => cases h
    · cases h

theorem child_arrayKind (h : Node.child ⟨k.arrayKind, doc, nullable⟩ segment next =
    some (child, used)) :
    v.WritesChild segment next child used ∨ k.Adds segment next child used := by
  unfold Keywords.arrayKind at h
  split at h
  · next hitems =>
    simp only [Node.child, Option.ite_none_right_eq_some, Option.some.injEq, Prod.mk.injEq] at h
    obtain ⟨rfl, rfl, rfl⟩ := h
    exact .inr (.items hitems)
  · next node hitems =>
    simp only [Node.child, Option.ite_none_right_eq_some, Option.some.injEq, Prod.mk.injEq] at h
    obtain ⟨rfl, rfl, rfl⟩ := h
    obtain ⟨w, hw, rfl⟩ := Keywords.items_of_ofFields (ofFields_of_keywords hread) hitems
    exact .inl ⟨w, .items hw, rfl⟩
  · cases h

/-- The children of the structural part are written, or lowering adds them. -/
theorem child_structuralKind {kd : Kind Node} (hkd : k.structuralKind = some kd)
    (h : Node.child ⟨kd, doc, nullable⟩ segment next = some (child, used)) :
    v.WritesChild segment next child used ∨ k.Adds segment next child used := by
  rcases Keywords.structuralKind_cases hkd with rfl | rfl | hleaf | ⟨names, rfl⟩
  · exact child_arrayKind hread h
  · exact .inl (child_objectKind hread h)
  · rw [hleaf.child_eq_none] at h
    cases h
  · obtain ⟨wanted, position, i, rfl, rfl, hposition, hfound, rfl⟩ := Node.child_composite h
    by_cases hwanted : Composition.anyOf = wanted
    · subst hwanted
      rw [Node.member?_own] at hfound
      exact .inr (.of_types hkd hposition hfound)
    · obtain ⟨m, hm, inner, hkind, -⟩ := Node.member?_inner hwanted hfound
      obtain ⟨name, -, rfl⟩ := List.mem_map.mp hm
      exact absurd hkind (k.typeKind_ne_composite name wanted inner)

/-! ## Children of a closed form -/

omit hread in
/-- A search looks at the intended members: the node is a composition by the keyword, the document writes
what is searched for, its list of types has it, or no written member hides a member at this position. -/
def SearchesOwn (v : Value) (k : Keywords) (keyword : Composition) (next : Option String) : Prop :=
  (∃ ms, k.kind = .composite keyword ms) ∨ (∃ w used, v.SubschemaAt keyword.keyword next w used) ∨
    ∀ position i, next = some position → Pointer.index? position = some i →
      (∃ ms, k.structuralKind = some (.composite keyword ms) ∧ i < ms.length) ∨ ¬ k.Nests keyword i

/-- Where a keyword is not that of the node, a constraint has the member, or no written member has. -/
theorem SearchesOwn.constraint_or {keyword : Composition} {position : String} {i : Nat}
    (hsearch : v.SearchesOwn k keyword (some position)) (hne : keyword ≠ .allOf)
    (hkind : ∀ ms, k.kind ≠ .composite keyword ms) (hposition : Pointer.index? position = some i) :
    (∃ ms, .bare (.composite keyword ms) ∈ k.constraints ∧ i < ms.length) ∨
      ¬ k.Nests keyword i := by
  rcases hsearch with ⟨ms, hms⟩ | ⟨w, used, hw⟩ | hsearch
  · exact absurd hms (hkind ms)
  · obtain ⟨ms, found, j, hms, hfound, hj, hget⟩ := members_of_subschemaAt hread hw rfl
    cases hfound
    cases hposition.symm.trans hj
    exact .inl ⟨ms, Keywords.composite_mem_constraints (.inl ⟨hne, hms⟩),
      (List.getElem?_eq_some_iff.mp hget).1⟩
  · exact (hsearch position i rfl hposition).imp_left fun ⟨ms, hms, hi⟩ =>
      ⟨ms, Keywords.composite_mem_constraints (.inr hms), hi⟩

theorem child_other {keyword : Composition} {position : String} {i : Nat}
    (hne : keyword ≠ .allOf) (hkind : ∀ ms, k.kind ≠ .composite keyword ms)
    (hsearch : v.SearchesOwn k keyword (some position)) (hposition : Pointer.index? position = some i)
    (h : Node.member? keyword i .allOf (k.allOf.getD [] ++ k.constraints) = some child) :
    v.WritesChild keyword.keyword (some position) child 2 ∨
      k.Adds keyword.keyword (some position) child 2 := by
  rw [Node.member?_append (Ne.symm hne)] at h
  cases hconstraint : Node.member? keyword i .allOf k.constraints with
  | some found =>
      rw [hconstraint] at h
      cases h
      obtain ⟨m, hm, inner, hinner, hget⟩ := Node.member?_inner (Ne.symm hne) hconstraint
      rcases Keywords.constraint_composite hm hinner with hms | htypes
      · exact .inl (writesChild_member hread hms hposition hget)
      · exact .inr (.of_types htypes hposition hget)
  | none =>
      rw [hconstraint, Option.none_or] at h
      obtain ⟨m, hm, inner, hinner, hget⟩ := Node.member?_inner (Ne.symm hne) h
      rcases hsearch.constraint_or hread hne hkind hposition with ⟨ms, hms, hi⟩ | hnone
      · have hfound := Node.member?_isSome (Ne.symm hne) hms rfl hi
        rw [hconstraint] at hfound
        cases hfound
      · cases hall : k.allOf with
        | none =>
            rw [hall] at hm
            cases hm
        | some ms =>
            rw [hall] at hm
            exact absurd ⟨.allOf, ms, m, inner, hall, hm, hinner,
              (List.getElem?_eq_some_iff.mp hget).1⟩ hnone

/-- The children of an `allOf` of the written members and all constraints. -/
theorem child_allOf (hkind : k.kind = .composite .allOf (k.allOf.getD [] ++ k.constraints))
    (hsearch : ∀ keyword : Composition, segment = keyword.keyword → v.SearchesOwn k keyword next)
    (h : Node.child ⟨k.kind, doc, nullable⟩ segment next = some (child, used)) :
    v.WritesChild segment next child used ∨ k.Adds segment next child used := by
  rw [hkind] at h
  obtain ⟨wanted, position, i, rfl, rfl, hposition, hfound, rfl⟩ := Node.child_composite h
  by_cases hwanted : wanted = .allOf
  · subst hwanted
    rw [Node.member?_own] at hfound
    rcases Nat.lt_or_ge i (k.allOf.getD []).length with hlt | hge
    · rw [List.getElem?_append_left hlt] at hfound
      cases hall : k.allOf with
      | none =>
          rw [hall] at hlt
          cases hlt
      | some ms =>
          rw [hall] at hfound
          have hms : k.members .allOf = some ms := hall
          exact .inl (writesChild_member hread hms hposition hfound)
    · rw [List.getElem?_append_right hge] at hfound
      exact .inr (.constraint hposition hge hfound)
  · refine child_other hread hwanted (fun ms hms => ?_) (hsearch wanted rfl) hposition hfound
    rw [hkind] at hms
    cases hms
    exact hwanted rfl

theorem child_one {one : Node} (hall : k.allOf = none) (hone : k.constraints = [one])
    (hkind : k.kind = one.kind)
    (hsearch : ∀ keyword : Composition, segment = keyword.keyword → v.SearchesOwn k keyword next)
    (h : Node.child ⟨k.kind, doc, nullable⟩ segment next = some (child, used)) :
    v.WritesChild segment next child used ∨ k.Adds segment next child used := by
  have hmem : one ∈ k.constraints := hone ▸ List.mem_singleton_self one
  rcases Keywords.mem_constraints hmem with ⟨kd, hkd, rfl⟩ | ⟨keyword, ms, hms, rfl⟩
  · rw [hkind] at h
    exact child_structuralKind hread hkd h
  · rw [hkind] at h
    obtain ⟨wanted, position, i, rfl, rfl, hposition, hfound, rfl⟩ := Node.child_composite h
    by_cases hwanted : keyword = wanted
    · subst hwanted
      rw [Node.member?_own] at hfound
      exact .inl (writesChild_member hread hms hposition hfound)
    rcases hsearch wanted rfl with ⟨found, hown⟩ | ⟨w, used, hw⟩ | hsearch
    · cases hkind.symm.trans hown
      exact absurd rfl hwanted
    · obtain ⟨others, -, -, hothers, -⟩ := members_of_subschemaAt hread hw rfl
      exact absurd hone (Keywords.constraints_ne_singleton hall hms hothers hwanted)
    · rcases hsearch position i rfl hposition with ⟨types, htypes, -⟩ | hnone
      · have hconstraint := Keywords.composite_mem_constraints (.inr htypes)
        rw [hone, List.mem_singleton] at hconstraint
        cases hconstraint
        exact absurd rfl hwanted
      · obtain ⟨m, hm, inner, hinner, hget⟩ := Node.member?_inner hwanted hfound
        exact absurd ⟨keyword, ms, m, inner, hms, hm, hinner,
          (List.getElem?_eq_some_iff.mp hget).1⟩ hnone

end

/-- A child of a schema that is no reference is one that the document writes at the same segments, or
one that its closed form adds: the items of a list that mentions none, a constraint behind the written
members of `allOf`, or one type of a list of types. Nothing is said about a search under a composition
keyword that leaves the intended members (`SearchesOwn`). -/
theorem child_written_or_added (hread : v.keywords = .ok k) (href : k.ref = none)
    (hsearch : ∀ keyword : Composition, segment = keyword.keyword → v.SearchesOwn k keyword next)
    (h : (Node.ofValue v).child segment next = some (child, used)) :
    v.WritesChild segment next child used ∨ k.Adds segment next child used := by
  rw [node_eq hread, Keywords.node, href] at h
  rcases k.kind_cases with hkind | ⟨one, hall, hone, hkind⟩ | hkind
  · simp only [hkind, Node.child] at h
    cases h
  · exact child_one hread hall hone hkind hsearch h
  · exact child_allOf hread hkind hsearch h

def taggedSize : Value :=
  .object [
    ("allOf", .array [.object [("oneOf", .array [.object [("type", .string "string")]])]]),
    ("oneOf", .array [.object [("type", .string "integer")], .object [("type", .string "null")]]),
    ("properties", .object [("unit", .object [("type", .string "string")])])]

def taggedSizeKeywords : Keywords where
  allOf := some [.bare (.composite .oneOf [.bare (.primitive .string none)])]
  oneOf := some [.bare (.primitive .integer none), .bare (.primitive .null none)]
  properties := some [("unit", ⟨.bare (.primitive .string none), false⟩)]

/-- The last composition counts, and the property is in a member that stands behind the written ones. -/
theorem taggedSize_children :
    (taggedSize.WritesChild "oneOf" (some "1") (.bare (.primitive .null none)) 2 ∨
      taggedSizeKeywords.Adds "oneOf" (some "1") (.bare (.primitive .null none)) 2) ∧
    (taggedSize.WritesChild "allOf" (some "1") (.bare taggedSizeKeywords.objectKind) 2 ∨
      taggedSizeKeywords.Adds "allOf" (some "1") (.bare taggedSizeKeywords.objectKind) 2) := by
  have hread : taggedSize.keywords = .ok taggedSizeKeywords := by rfl
  refine ⟨child_written_or_added hread rfl (fun keyword hkeyword => ?_) (by rfl),
    child_written_or_added hread rfl (fun keyword hkeyword => ?_) (by rfl)⟩
  · obtain rfl : .oneOf = keyword := Composition.keyword_inj hkeyword
    exact .inr (.inl ⟨_, 2, @SubschemaAt.member _ .oneOf _ _ _ _ (by rfl) (by rfl) (by rfl)⟩)
  · obtain rfl : .allOf = keyword := Composition.keyword_inj hkeyword
    exact .inl ⟨_, by rfl⟩

def listedProperty : Value :=
  .object [("allOf", .array [.object []]), ("properties", .object [("p", .object [])])]

def listedTypes : Value := .object [("type", .array [.string "string", .string "integer"])]

def plainList : Value := .object [("type", .string "array")]

def HasUnwritten (v : Value) (segment : String) (next : Option String) : Prop :=
  ∃ k child used, v.keywords = .ok k ∧ k.ref = none ∧
    (Node.ofValue v).child segment next = some (child, used) ∧ ¬ v.WritesChild segment next child used

/-- The closed form adds a member to a written `allOf`, the types of a list and the items of any list. -/
theorem unwritten_children :
    listedProperty.HasUnwritten "allOf" (some "1") ∧ listedTypes.HasUnwritten "anyOf" (some "0") ∧
      plainList.HasUnwritten "items" none := by
  refine ⟨⟨_, _, _, by rfl, by rfl, by rfl, ?_⟩, ⟨_, _, _, by rfl, by rfl, by rfl, ?_⟩,
    ⟨_, _, _, by rfl, by rfl, by rfl, ?_⟩⟩
  · rintro ⟨w, hw, -⟩
    have hread : listedProperty.keywords =
        .ok { allOf := some [.bare .any], properties := some [("p", ⟨.bare .any, false⟩)] } := by rfl
    obtain ⟨ms, position, i, hms, hposition, hi, hget⟩ :=
      members_of_subschemaAt hread hw (show _ = Composition.allOf.keyword from rfl)
    cases hms
    cases hposition
    cases (show Pointer.index? "1" = some 1 by rfl).symm.trans hi
    cases hget
  · rintro ⟨w, hw, -⟩
    have hread : listedTypes.keywords =
        .ok { type := some (.multiple ["string", "integer"]) } := by rfl
    obtain ⟨ms, -, -, hms, -⟩ :=
      members_of_subschemaAt hread hw (show _ = Composition.anyOf.keyword from rfl)
    cases hms
  · rintro ⟨w, hw, -⟩
    generalize hsegment : "items" = segment at hw
    cases hw with
    | items h => cases h
    | additional => exact absurd hsegment (by decide)

end Value

end SwaggerTypes
