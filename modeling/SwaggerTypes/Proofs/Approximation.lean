import SwaggerTypes.Proofs.Declarations
import SwaggerTypes.Proofs.Membership
/-!
# Types approximate schemas

A value that a schema allows belongs to every type that a run finds for it. The induction is on the
validity of the value, not on the run: a reference back to an open or finished definition is no
smaller run, but what makes the value valid for its target is a smaller piece of evidence. A member of
a composition is followed to the operands it contributes, since an object there is built with the
names that all members require.
-/

namespace SwaggerTypes

theorem PrimitiveType.accepts_base {type : PrimitiveType} {v : Value} (h : type.accepts v = true) :
    type.base.accepts v = true := by
  cases type <;> cases v <;> exact h

namespace Operand.Fits

variable {ds : List Declaration} {v : Value}

theorem single {union : Bool} {t : TypeExpr} (h : Member ds t v) :
    Operand.Fits ds union [.type t] v := by
  cases union with
  | true => exact ⟨t, List.mem_cons_self, h⟩
  | false =>
      intro o ho
      exact List.mem_singleton.mp ho ▸ h

end Operand.Fits

/-- What a composition expects of a value before its members are looked at: the names that its
objects require, if it is an intersection. Only an intersection leaves members out. -/
structure Joining.Suits (joining : Joining) (v : Value) : Prop where
  skips : joining.skipsAny = true → joining.union = false
  required : joining.union = false → ∀ fields, v = .object fields → ∀ name ∈ joining.required,
    ∃ w, Entries.get? name fields = some w

namespace Setting

variable {s : Setting} {model : SchemaModel}

def Finds (s : Setting) (model : SchemaModel) (node : Node) (t : TypeExpr) : Prop :=
  ∃ p st log st', s.Run model p (.schema node) st log (.type t) st'

def Contributes (s : Setting) (model : SchemaModel) (joining : Joining) (lifted : Bool)
    (m : Node) (os : List Operand) : Prop :=
  ∃ p way st log st', s.Run model p (.member joining lifted way m) st log (.operands os) st'

/-! ## Runs taken apart -/

section

variable {p : Place} {st st' : Progress} {log : List Begun}

/-- The properties that are found are those of the schema, in their order. -/
theorem Run.names_properties {required : List String} {ps : List (String × Node)}
    {qs : List (Property TypeExpr)}
    (h : s.Run model p (.properties required ps) st log (.properties qs) st') :
    qs.map Property.name = ps.map Prod.fst := by
  induction ps generalizing st log qs with
  | nil =>
      cases h
      rfl
  | cons e rest ih =>
      cases h with
      | properties first second => rw [List.map_cons, List.map_cons, ih second]

theorem Run.finds_properties {required : List String} {ps : List (String × Node)}
    {qs : List (Property TypeExpr)}
    (h : s.Run model p (.properties required ps) st log (.properties qs) st') :
    ∀ q ∈ qs, q.optional = !required.contains q.name ∧
      ∃ node, (q.name, node) ∈ ps ∧ s.Finds model node q.type := by
  induction ps generalizing st log qs with
  | nil =>
      cases h
      exact fun _ hq => nomatch hq
  | cons e rest ih =>
      cases h with
      | properties first second =>
          intro q hq
          rcases List.mem_cons.mp hq with rfl | hq
          · exact ⟨rfl, _, List.mem_cons_self, _, _, _, _, first⟩
          · obtain ⟨hopt, node, hmem, hfinds⟩ := ih second q hq
            exact ⟨hopt, node, List.mem_cons_of_mem _ hmem, hfinds⟩

theorem Run.contributes_members {joining : Joining} {lifted : Bool} {way : List String} {i : Nat}
    {ms : List Node} {os : List Operand}
    (h : s.Run model p (.members joining lifted way i ms) st log (.operands os) st') :
    (∀ o ∈ os, ∃ m ∈ ms, ∃ part, s.Contributes model joining lifted m part ∧ o ∈ part) ∧
      ∀ m ∈ ms, ∃ part, s.Contributes model joining lifted m part ∧ part ⊆ os := by
  induction ms generalizing st log i os with
  | nil =>
      cases h
      exact ⟨fun _ ho => (nomatch ho), fun _ hm => (nomatch hm)⟩
  | cons m rest ih =>
      cases h with
      | members first second =>
          have hfirst : s.Contributes model joining lifted m _ := ⟨_, _, _, _, _, first⟩
          obtain ⟨hfrom, hto⟩ := ih second
          constructor
          · intro o ho
            rcases List.mem_append.mp ho with ho | ho
            · exact ⟨m, List.mem_cons_self, _, hfirst, ho⟩
            · obtain ⟨m', hm', part, hpart, ho⟩ := hfrom o ho
              exact ⟨m', List.mem_cons_of_mem _ hm', part, hpart, ho⟩
          · intro m' hm'
            rcases List.mem_cons.mp hm' with rfl | hm'
            · exact ⟨_, hfirst, List.subset_append_left _ _⟩
            · obtain ⟨part, hpart, hsub⟩ := hto m' hm'
              exact ⟨part, hpart, List.Subset.trans hsub (List.subset_append_right _ _)⟩

end

/-! ## Objects and members -/

variable {ds : List Declaration} {v : Value}

/-- An object has what its schema declares, given the types of the parts. -/
theorem Run.member_object {p : Place} {st st' : Progress} {log : List Begun} {required : List String}
    {ps : List (String × Node)} {additional : Additional Node} {o : ObjectType TypeExpr}
    {fields : Entries Value}
    (h : s.Run model p (.object required ps additional) st log (.object o) st')
    (present : ∀ name ∈ required, ∃ w, Entries.get? name fields = some w)
    (declared : ∀ name node w, (name, node) ∈ ps → Entries.get? name fields = some w →
      ∀ t, s.Finds model node t → Member ds t w)
    (others : ∀ node name w, additional = .typed node → Entries.get? name fields = some w →
      name ∉ ps.map Prod.fst → ∀ t, s.Finds model node t → Member ds t w) :
    Member ds (.object o) (.object fields) := by
  cases h with
  | object first second =>
      refine Member.arrange (.object ?_ ?_ ?_)
      · intro q hq w hw
        obtain ⟨-, node, hmem, hfinds⟩ := first.finds_properties q hq
        exact declared q.name node w hmem hw _ hfinds
      · intro q hq hopt
        obtain ⟨hq', -⟩ := first.finds_properties q hq
        refine present q.name ?_
        simpa [hopt] using hq'
      · intro t name w hindex hw hname
        rw [first.names_properties] at hname
        cases second with
        | closed => cases hindex
        | unrestricted =>
            cases hindex
            exact .any
        | typed run =>
            cases hindex
            exact others _ name w rfl hw hname _ ⟨_, _, _, _, run⟩

/-- What is to be shown of a schema and a value that it allows: the value belongs to every type
found for the schema, and fits every list of operands that the schema contributes as a member. -/
structure Covered (s : Setting) (model : SchemaModel) (ds : List Declaration) (node : Node)
    (v : Value) : Prop where
  type : ∀ t, s.Finds model node t → Member ds t v
  operands : ∀ joining lifted os, s.Contributes model joining lifted node os → joining.Suits v →
    Operand.Fits ds joining.union os v

/-- A member that is neither lifted, nor merged, nor left out contributes its type. -/
theorem Covered.of_plain {kind : Kind Node} {doc : Option String} {nullable : Bool}
    (plain : ∀ joining lifted, Joining.standsAlone joining lifted ⟨kind, doc, nullable⟩ = true)
    (h : ∀ t, s.Finds model ⟨kind, doc, nullable⟩ t → Member ds t v) :
    s.Covered model ds ⟨kind, doc, nullable⟩ v where
  type := h
  operands := by
    rintro joining lifted os ⟨p, way, st, log, st', run⟩ -
    cases run with
    | plainMember alone run => exact .single (h _ ⟨_, _, _, _, run⟩)
    | skippedMember skips =>
        have h := plain joining lifted
        simp [Joining.standsAlone, skips] at h
    | liftedMember same =>
        have h := plain joining false
        simp [Joining.standsAlone, same] at h
    | objectMember intersection =>
        have h := plain joining lifted
        simp [Joining.standsAlone, intersection] at h

/-- A member without any constraint may be left out of an intersection. -/
theorem Covered.any {doc : Option String} {nullable : Bool} :
    s.Covered model ds ⟨.any, doc, nullable⟩ v := by
  have htype : ∀ t, s.Finds model ⟨.any, doc, nullable⟩ t → Member ds t v := by
    rintro t ⟨p, st, log, st', run⟩
    cases run with
    | any => exact Member.any.orNull
  refine ⟨htype, ?_⟩
  rintro joining lifted os ⟨p, way, st, log, st', run⟩ suits
  cases run with
  | skippedMember skips =>
      rw [suits.skips skips]
      exact fun _ ho => nomatch ho
  | plainMember _ run => exact .single (htype _ ⟨_, _, _, _, run⟩)

/-- An object that is a member of an intersection is built with the names that the whole
intersection requires. -/
theorem Covered.object {ps : List (String × Node)} {required : List String}
    {additional : Additional Node} {doc : Option String} {nullable : Bool} {fields : Entries Value}
    (present : ∀ name ∈ required, ∃ w, Entries.get? name fields = some w)
    (declared : ∀ name node w, (name, node) ∈ ps → Entries.get? name fields = some w →
      ∀ t, s.Finds model node t → Member ds t w)
    (others : ∀ node name w, additional = .typed node → Entries.get? name fields = some w →
      name ∉ ps.map Prod.fst → ∀ t, s.Finds model node t → Member ds t w) :
    s.Covered model ds ⟨.object ps required additional, doc, nullable⟩ (.object fields) := by
  have htype : ∀ t, s.Finds model ⟨.object ps required additional, doc, nullable⟩ t →
      Member ds t (.object fields) := by
    rintro t ⟨p, st, log, st', run⟩
    cases run with
    | objectSchema run => exact .orNull (run.member_object present declared others)
  refine ⟨htype, ?_⟩
  rintro joining lifted os ⟨p, way, st, log, st', run⟩ suits
  cases run with
  | objectMember intersection run =>
      rw [intersection]
      intro o ho
      rw [List.mem_singleton.mp ho]
      exact run.member_object (suits.required intersection _ rfl) declared others
  | plainMember _ run => exact .single (htype _ ⟨_, _, _, _, run⟩)

/-- Members fit when one of a union is covered, or all of an intersection. -/
theorem Run.fits_members {p : Place} {st st' : Progress} {log : List Begun} {joining : Joining}
    {lifted : Bool} {way : List String} {i : Nat} {ms : List Node} {os : List Operand}
    (h : s.Run model p (.members joining lifted way i ms) st log (.operands os) st')
    (suits : joining.Suits v)
    (covered : if joining.union then ∃ m ∈ ms, s.Covered model ds m v
      else ∀ m ∈ ms, s.Covered model ds m v) :
    Operand.Fits ds joining.union os v := by
  obtain ⟨hfrom, hto⟩ := h.contributes_members
  cases hunion : joining.union with
  | true =>
      rw [hunion] at covered
      obtain ⟨m, hm, hcovered⟩ := covered
      obtain ⟨part, hpart, hsub⟩ := hto m hm
      have hfits := hcovered.operands joining lifted part hpart suits
      rw [hunion] at hfits
      obtain ⟨t, ht, hv⟩ := hfits
      exact ⟨t, hsub ht, hv⟩
  | false =>
      rw [hunion] at covered
      intro o ho
      obtain ⟨m, hm, part, hpart, ho⟩ := hfrom o ho
      have hfits := (covered m hm).operands joining lifted part hpart suits
      rw [hunion] at hfits
      exact hfits o ho

/-- A composition is covered when one of its members is, for a union, or all are. -/
theorem Covered.composite {keyword : Composition} {ms : List Node} {doc : Option String}
    {nullable : Bool} (suits : (Joining.of keyword ms).Suits v)
    (covered : if keyword.isUnion then ∃ m ∈ ms, s.Covered model ds m v
      else ∀ m ∈ ms, s.Covered model ds m v) :
    s.Covered model ds ⟨.composite keyword ms, doc, nullable⟩ v := by
  have htype : ∀ t, s.Finds model ⟨.composite keyword ms, doc, nullable⟩ t → Member ds t v := by
    rintro t ⟨p, st, log, st', run⟩
    cases run with
    | composite run => exact .orNull (.combine (run.fits_members suits covered))
  refine ⟨htype, ?_⟩
  rintro joining lifted os ⟨p, way, st, log, st', run⟩ hsuits
  cases run with
  | liftedMember same run =>
      rw [same] at covered
      exact run.fits_members hsuits covered
  | plainMember _ run => exact .single (htype _ ⟨_, _, _, _, run⟩)

end Setting

/-! ## Intersections require what their objects require -/

namespace Node

theorem Accepts.required {table : DefinitionTable} {node : Node} {fields : Entries Value}
    (h : Accepts table node (.object fields)) {ps : List (String × Node)} {required : List String}
    {additional : Additional Node} (hkind : node.kind = .object ps required additional) :
    ∀ name ∈ required, ∃ w, Entries.get? name fields = some w := by
  cases h with
  | object present =>
      cases hkind
      exact present
  | _ => cases hkind

/-- A member after flattening is a member, or a member of a member of the same kind. -/
theorem mem_flatten {keyword : Composition} {ms : List Node} {way : List String} {m : Node}
    (h : (way, m) ∈ flatten keyword ms) :
    m ∈ ms ∨ ∃ inner innerMs doc, ⟨.composite inner innerMs, doc, false⟩ ∈ ms ∧
      inner.isUnion = keyword.isUnion ∧ m ∈ innerMs := by
  obtain ⟨l, hl, hm⟩ := List.mem_flatten.mp h
  obtain ⟨⟨member, i⟩, hi, rfl⟩ := List.mem_map.mp hl
  have hmember := List.fst_mem_of_mem_zipIdx hi
  obtain ⟨kind, doc, nullable⟩ := member
  have hself : (way, m) ∈ [([keyword.keyword, toString i], (⟨kind, doc, nullable⟩ : Node))] →
      m ∈ ms := by
    intro hm
    obtain ⟨-, rfl⟩ := Prod.mk.inj (List.mem_singleton.mp hm)
    exact hmember
  simp only at hm
  split at hm
  · split at hm
    · next inner innerMs same =>
      obtain ⟨⟨m', j⟩, hj, heq⟩ := List.mem_map.mp hm
      obtain ⟨-, rfl⟩ := Prod.mk.inj heq
      exact .inr ⟨inner, innerMs, doc, hmember, same, List.fst_mem_of_mem_zipIdx hj⟩
    · exact .inl (hself hm)
  · exact .inl (hself hm)

end Node

/-- What all objects of an intersection require, every value of it has. -/
theorem suits_allOf {table : DefinitionTable} {ms : List Node} {v : Value}
    (h : ∀ m ∈ ms, Node.Accepts table m v) : (Joining.of .allOf ms).Suits v where
  skips := fun _ => rfl
  required := by
    rintro - fields rfl name hname
    obtain ⟨l, hl, hname⟩ := List.mem_flatten.mp hname
    obtain ⟨⟨way, m⟩, hm, rfl⟩ := List.mem_map.mp hl
    have haccepts : Node.Accepts table m (.object fields) := by
      rcases Node.mem_flatten hm with hm | ⟨inner, innerMs, doc, hin, same, hm⟩
      · exact h m hm
      · cases h _ hin with
        | allOf hall => exact hall m hm
        | union hunion => exact absurd (same.symm.trans hunion) (by simp [Composition.isUnion])
    cases hkind : m.kind with
    | object ps required additional =>
        simp only [hkind] at hname
        exact haccepts.required hkind name hname
    | _ =>
        simp only [hkind] at hname
        cases hname

theorem suits_union {keyword : Composition} {ms : List Node} {v : Value}
    (union : keyword.isUnion = true) : (Joining.of keyword ms).Suits v where
  skips := by
    intro h
    simp [Joining.of, union] at h
  required := by
    intro h
    rw [show (Joining.of keyword ms).union = true from union] at h
    cases h

/-! ## Every value that a schema allows -/

theorem Setting.type_declarationOf (s : Setting) (i : Nat) (d : Definition) (t : TypeExpr) :
    (s.declarationOf i d t).type = t := by
  unfold declarationOf DeclarationBody.ofType Declaration.type
  cases d.root.isInterface <;> cases t <;> rfl

namespace SchemaModel

variable {model : SchemaModel} {sorted withQuery : Bool} {b : Build} {log : List Begun}
  {st : Progress} {queries : List Declaration} {v : Value}

namespace Built

/-- A value belongs to the name of a definition if it belongs to all types found for its root. -/
theorem member_named (h : Built model sorted withQuery b log st queries) {i : Nat} {d : Definition}
    (hd : model.definitions.entries[i]? = some d)
    (hroot : ∀ t, (model.setting sorted).Finds model d.root t → Member b.declarations t v) :
    Member b.declarations (.named ((model.setting sorted).nameOf i)) v := by
  obtain ⟨p, t, st₁, log', st₂, -, -, run, -, hplaced⟩ := h.definition hd
  have hmem := hroot t ⟨_, _, _, _, run⟩
  cases hfind : b.declarations.find? (·.name = (model.setting sorted).nameOf i) with
  | none =>
      have hnone := List.find?_eq_none.mp hfind _ (List.mem_of_getElem? hplaced)
      simp [Setting.declarationOf] at hnone
  | some e =>
      obtain ⟨j, hj, he⟩ := List.getElem_of_mem (List.mem_of_find?_eq_some hfind)
      have hname : e.name = (model.setting sorted).nameOf i := by
        simpa using List.find?_some hfind
      have hej : b.declarations[j]? = some e := by rw [List.getElem?_eq_getElem hj, he]
      obtain rfl := h.position_of_name (List.getElem?_eq_some_iff.mp hd).1 hej hname
      rw [hej, Option.some.injEq] at hplaced
      refine .named hfind ?_
      rw [hplaced, Setting.type_declarationOf]
      exact hmem

/-- What a run finds for a reference takes in the values of its target. -/
theorem member_reference (h : Built model sorted withQuery b log st queries) {pointer : String}
    {target : Target} (resolved : model.definitions.resolve pointer = .ok target)
    (covered : (model.setting sorted).Covered model b.declarations target.node v) {p : Place}
    {st₁ st₂ : Progress} {log' : List Begun} {t : TypeExpr}
    (run : (model.setting sorted).Run model p (.reference pointer) st₁ log' (.type t) st₂) :
    Member b.declarations t v := by
  cases run with
  | recursiveReference => exact .any
  | deepReference resolved' _ _ run =>
      rw [show (model.setting sorted).definitions.resolve pointer = _ from resolved] at resolved'
      cases resolved'
      exact covered.type _ ⟨_, _, _, _, run⟩
  | rootReference resolved' root run =>
      rw [show (model.setting sorted).definitions.resolve pointer = _ from resolved] at resolved'
      cases resolved'
      obtain ⟨d, hd, hroot⟩ := DefinitionTable.resolve_root resolved root
      have hnamed := h.member_named hd fun t ht => covered.type t (hroot ▸ ht)
      cases run with
      | knownDefinition | newDefinition | guardedCycle => exact hnamed
      | aliasCycle => exact .any

/-- Every value that a schema allows is covered, whatever runs find for the schema. -/
theorem covered (h : Built model sorted withQuery b log st queries) {node : Node}
    (hv : Node.Accepts model.definitions node v) :
    (model.setting sorted).Covered model b.declarations node v := by
  induction hv with
  -- the induction hypotheses speak of parts of the value and of targets of references alike
  | null =>
      refine .of_plain (fun _ _ => ?_) ?_
      · rw [Joining.standsAlone] <;> simp
      · rintro t ⟨p, st₁, log', st₂, run⟩
        cases run <;> exact Member.null_orNull
  | any => exact .any
  | unsupported =>
      refine .of_plain (fun _ _ => rfl) ?_
      rintro t ⟨p, st₁, log', st₂, run⟩
      cases run with
      | unsupported => exact Member.any.orNull
  | primitive haccepts =>
      refine .of_plain (fun _ _ => rfl) ?_
      rintro t ⟨p, st₁, log', st₂, run⟩
      cases run with
      | primitive => exact .orNull (.base (PrimitiveType.accepts_base haccepts))
  | enum hl hdenotes =>
      refine .of_plain (fun _ _ => rfl) ?_
      rintro t ⟨p, st₁, log', st₂, run⟩
      cases run with
      | enum => exact .orNull (.ofLiterals hl hdenotes)
  | array _ ih =>
      refine .of_plain (fun _ _ => rfl) ?_
      rintro t ⟨p, st₁, log', st₂, run⟩
      cases run with
      | array run => exact .orNull (.array fun w hw => (ih w hw).type _ ⟨_, _, _, _, run⟩)
  | reference resolved _ ih =>
      refine .of_plain (fun _ _ => rfl) ?_
      rintro t ⟨p, st₁, log', st₂, run⟩
      cases run with
      | referenceSchema run => exact .orNull (h.member_reference resolved ih run)
  | object present _ _ ihDeclared ihOthers =>
      exact .object present (fun name node w hmem hw => (ihDeclared name node w hmem hw).type)
        fun node name w heq hw hnot => (ihOthers node name w heq hw hnot).type
  | allOf haccepts ih => exact .composite (suits_allOf haccepts) ih
  | union hunion hm _ ih =>
      refine .composite (suits_union hunion) ?_
      rw [hunion]
      exact ⟨_, hm, ih⟩

end Built

/-- The types that a build declares take in all that the schemas allow: a value that is valid for the
root of a definition belongs to the declaration of that definition. -/
theorem member_of_accepts (h : model.build sorted withQuery = .ok b) {i : Nat} {d : Definition}
    (hd : model.definitions.entries[i]? = some d)
    (hv : Node.Accepts model.definitions d.root v) :
    ∃ e, b.declarations[i]? = some e ∧ Member b.declarations e.type v := by
  obtain ⟨log, st, queries, hb⟩ := built_of_ok h
  obtain ⟨p, t, st₁, log', st₂, -, -, run, -, hplaced⟩ := hb.definition hd
  refine ⟨_, hplaced, ?_⟩
  rw [Setting.type_declarationOf]
  exact (hb.covered hv).type t ⟨_, _, _, _, run⟩

def linkedEntry : Definition where
  home := .definitions
  name := "Entry"
  root := .bare <| .composite .allOf
    [.bare (.object [("id", .bare (.primitive .integer none))] ["id"] .closed),
      .bare (.object [("next", .bare (.reference "#/definitions/Entry"))] [] .closed)]

def linkedList : SchemaModel where
  definitions := { entries := [linkedEntry] }

theorem linkedList_resolve : ∃ target,
    linkedList.definitions.resolve "#/definitions/Entry" = .ok target ∧
      target.node = linkedEntry.root := by
  have hroot : (linkedList.definitions.resolve "#/definitions/Entry").toOption.map
      (fun target => (target.definition, target.isRoot)) = some (0, true) := by
    decide +kernel
  cases hresolve : linkedList.definitions.resolve "#/definitions/Entry" with
  | error fault =>
      rw [hresolve] at hroot
      cases hroot
  | ok target =>
      rw [hresolve] at hroot
      obtain ⟨hzero, hisRoot⟩ := Prod.mk.inj (Option.some.inj hroot)
      obtain ⟨d, hd, hnode⟩ := DefinitionTable.resolve_root hresolve hisRoot
      rw [hzero] at hd
      cases hd
      exact ⟨target, rfl, hnode.symm⟩

theorem linkedList_accepts (n : Int) (fields : Entries Value)
    (hid : Entries.get? "id" fields = some (.integer n))
    (hnext : ∀ w, Entries.get? "next" fields = some w →
      Node.Accepts linkedList.definitions linkedEntry.root w) :
    Node.Accepts linkedList.definitions linkedEntry.root (.object fields) := by
  obtain ⟨target, resolved, hnode⟩ := linkedList_resolve
  refine .allOf fun m hm => ?_
  simp only [List.mem_cons, List.not_mem_nil, or_false] at hm
  rcases hm with rfl | rfl
  · refine .object (fun name hname => ?_) (fun name node w hmem hw => ?_) fun _ _ _ heq => nomatch heq
    · exact ⟨_, List.mem_singleton.mp hname ▸ hid⟩
    · obtain ⟨rfl, rfl⟩ := Prod.mk.inj (List.mem_singleton.mp hmem)
      rw [hid] at hw
      cases hw
      exact .primitive rfl
  · refine .object (fun _ hname => nomatch hname) (fun name node w hmem hw => ?_)
      fun _ _ _ heq => nomatch heq
    obtain ⟨rfl, rfl⟩ := Prod.mk.inj (List.mem_singleton.mp hmem)
    exact .reference resolved (hnode ▸ hnext w hw)

/-- A list of two entries belongs to the type of the first. -/
theorem linkedList_member : ∃ b e, linkedList.build false false = .ok b ∧
    b.declarations[0]? = some e ∧
      Member b.declarations e.type
        (.object [("id", .integer 1), ("next", .object [("id", .integer 2)])]) := by
  have hok : (linkedList.build false false).toOption.isSome = true := by decide +kernel
  cases hbuild : linkedList.build false false with
  | error fault =>
      rw [hbuild] at hok
      cases hok
  | ok b =>
      have hlast := linkedList_accepts 2 [("id", .integer 2)] rfl fun _ hw => nomatch hw
      have hfirst := linkedList_accepts 1
        [("id", .integer 1), ("next", .object [("id", .integer 2)])] rfl fun w hw => by
          cases hw
          exact hlast
      obtain ⟨e, he, hmem⟩ := member_of_accepts hbuild (i := 0) (d := linkedEntry) rfl hfirst
      exact ⟨b, e, rfl, he, hmem⟩

end SchemaModel

end SwaggerTypes
