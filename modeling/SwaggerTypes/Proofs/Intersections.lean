import SwaggerTypes.Proofs.GivenTypes
import SwaggerTypes.Proofs.MergedObjects
/-!
# Intersections

An intersection in terms of the types that its members have on their own: the objects become one object
in the place of the first of them, and what else is there stays as it is. The names that any object
requires are required in the merged one, also by objects that allow `null` and are not merged for that
reason.
-/

namespace SwaggerTypes

/-! ## Objects among the members -/

namespace Node

/-- The properties that an object schema brings into an intersection. One that allows `null` is a member
of its own and brings none. -/
def declared : Node → List (String × Node)
  | ⟨.object properties _ _, _, false⟩ => properties
  | _ => []

def requiredNames (node : Node) : List String :=
  match node.kind with
  | .object _ required _ => required
  | _ => []

end Node

/-- A property has the name that it is declared by and the description of its schema. -/
structure Property.DeclaredBy (e : String × Node) (q : Property TypeExpr) : Prop where
  name : q.name = e.1
  doc : q.doc = e.2.description

def ObjectType.DeclaredBy (sorted : Bool) (m : Node) (o : ObjectType TypeExpr) : Prop :=
  ∃ raw : ObjectType TypeExpr, o = raw.arrange sorted ∧
    List.Forall₂ Property.DeclaredBy m.declared raw.properties

/-- What is given for an object schema is an object with the properties that it declares. -/
def GivesObjects (sorted : Bool) (given : List (Node × TypeExpr)) : Prop :=
  ∀ g ∈ given, g.1.isInterface = true → ∃ o, g.2 = .object o ∧ o.DeclaredBy sorted g.1

section

variable {sorted : Bool} {follow : Place → String → Synthesis TypeExpr} {p : Place} {m : Node}
  {st st' : Progress}

theorem Node.declaredBy_of_propertyTypes {required : List String} {ps : List (String × Node)}
    {qs : List (Property TypeExpr)}
    (h : (Node.propertyTypes sorted follow p required ps).run st = .ok (qs, st')) :
    List.Forall₂ Property.DeclaredBy ps qs := by
  induction ps generalizing qs st with
  | nil =>
      cases h
      exact .nil
  | cons e ps ih =>
      rw [Node.propertyTypes, StateT.run_bind] at h
      obtain ⟨⟨t, st₁⟩, -, h⟩ := bind_eq_ok.mp h
      rw [StateT.run_bind] at h
      obtain ⟨⟨rest, st₂⟩, hrest, heq⟩ := bind_eq_ok.mp h
      cases heq
      exact .cons ⟨rfl, rfl⟩ (ih hrest)

theorem Node.object_of_type {t : TypeExpr} (hm : m.isInterface = true)
    (h : (m.type sorted follow p).run st = .ok (t, st')) :
    ∃ o, t = .object o ∧ o.DeclaredBy sorted m := by
  obtain ⟨kind, doc, nullable⟩ := m
  cases nullable with
  | true => cases kind <;> cases hm
  | false =>
      cases kind with
      | object ps required additional =>
          rw [Setting.type_eq, Node.kindType, bind_assoc, StateT.run_bind] at h
          obtain ⟨⟨qs, st₁⟩, hproperties, h⟩ := bind_eq_ok.mp h
          rw [bind_assoc, StateT.run_bind] at h
          obtain ⟨⟨index, st₂⟩, -, heq⟩ := bind_eq_ok.mp h
          cases heq
          exact ⟨_, rfl, ⟨qs, index⟩, rfl, Node.declaredBy_of_propertyTypes hproperties⟩
      | _ => cases hm

theorem Node.givesObjects {flat : List (List String × Node)} {given : List (Node × TypeExpr)}
    (h : (Node.givenTypes sorted follow p flat).run st = .ok (given, st')) :
    given.map Prod.fst = flat.map Prod.snd ∧ GivesObjects sorted given := by
  have hall := forall₂_of_mapM h
  clear h
  induction hall with
  | nil => exact ⟨rfl, nofun⟩
  | cons hfirst _ ih =>
      obtain ⟨before, after, hrun⟩ := hfirst
      rw [StateT.run_bind] at hrun
      obtain ⟨⟨t, st₁⟩, htype, heq⟩ := bind_eq_ok.mp hrun
      cases heq
      refine ⟨congrArg _ ih.1, fun g hg hobject => ?_⟩
      rcases List.mem_cons.mp hg with rfl | hg
      · exact Node.object_of_type hobject htype
      · exact ih.2 g hg hobject

end

/-! ## The merged object -/

namespace Given

def objects (given : List (Node × TypeExpr)) : List (ObjectType TypeExpr) := given.filterMap object?

def declarations (given : List (Node × TypeExpr)) : List (String × Node) :=
  given.flatMap fun g => g.1.declared

def required (given : List (Node × TypeExpr)) : List String :=
  given.flatMap fun g => g.1.requiredNames

def sources (name : String) (given : List (Node × TypeExpr)) : List (Property TypeExpr) :=
  ObjectType.row name ((objects given).flatMap (·.properties))

/-- What is known of the merged object from the types that the members have on their own. -/
structure Merges (sorted : Bool) (given : List (Node × TypeExpr)) (o : ObjectType TypeExpr) :
    Prop where
  /-- The properties are those that are declared, each where it is declared first. -/
  written : sorted = false →
    o.properties.map Property.name = ((declarations given).map Prod.fst).eraseDups
  /-- They are the same ones when they are put into the order of their names. -/
  names : (o.properties.map Property.name).Perm ((declarations given).map Prod.fst).eraseDups
  bytes : sorted = true → (o.properties.map Property.name).Pairwise Text.BytesLt
  /-- A property is there always if any object requires it, merged or not. -/
  optional : ∀ q ∈ o.properties, q.optional = false ↔ ∃ g ∈ given, q.name ∈ g.1.requiredNames
  /-- Its type has the conjuncts that it has in the objects. -/
  types : ∀ q ∈ o.properties, TypeExpr.Covers q.type.conjuncts
    ((sources q.name given).flatMap fun p => p.type.conjuncts)
  /-- It is documented by the first schema of its name that has a description. -/
  doc : ∀ q ∈ o.properties, q.doc =
    ((declarations given).filter fun e => e.1 = q.name).findSome? fun e => e.2.description
  indexed : o.index = none ↔ ∀ a ∈ objects given, a.index = none
  index : ∀ t, o.index = some t → TypeExpr.Covers t.conjuncts
    (((objects given).filterMap (·.index)).flatMap TypeExpr.conjuncts)

def DeclaresOnce (given : List (Node × TypeExpr)) : Prop :=
  ∀ g ∈ given, (g.1.declared.map Prod.fst).Nodup

variable {sorted : Bool} {given : List (Node × TypeExpr)} {g : Node × TypeExpr}
  {o : ObjectType TypeExpr} {name : String} {names : List String}

theorem declared_of_not_interface {m : Node} (hm : m.isInterface = false) : m.declared = [] := by
  obtain ⟨kind, doc, nullable⟩ := m
  cases kind <;> cases nullable <;> first | rfl | cases hm

theorem names_eq_of_declaredBy {es : List (String × Node)} {qs : List (Property TypeExpr)}
    (h : List.Forall₂ Property.DeclaredBy es qs) : qs.map Property.name = es.map Prod.fst := by
  induction h with
  | nil => rfl
  | cons hfirst _ ih => rw [List.map_cons, List.map_cons, hfirst.name, ih]

/-- The properties that are merged are those that are declared, name by name in their order. -/
theorem declaredBy_sources (h : GivesObjects sorted given) :
    List.Forall₂ Property.DeclaredBy ((declarations given).filter fun e => e.1 = name)
      (sources name given) := by
  induction given with
  | nil => exact .nil
  | cons g given ih =>
      obtain ⟨hfirst, hrest⟩ := List.forall_mem_cons.mp h
      rw [declarations, List.flatMap_cons, List.filter_append, sources, objects]
      cases hg : g.1.isInterface with
      | true =>
          obtain ⟨o, ho, raw, rfl, hraw⟩ := hfirst hg
          rw [List.filterMap_cons_some (object?_of_interface hg ho), List.flatMap_cons, ObjectType.row,
            List.filter_append]
          refine List.rel_append ?_ (ih hrest)
          show List.Forall₂ _ _ (ObjectType.row name (raw.arrange sorted).properties)
          rw [ObjectType.row_arrange]
          refine List.rel_filter ?_ hraw
          intro e q hq
          simp only [decide_eq_true_eq, hq.name]
      | false =>
          rw [List.filterMap_cons_none (object?_of_not_interface hg), declared_of_not_interface hg]
          exact ih hrest

theorem names_objects (h : GivesObjects sorted given) :
    (((objects given).flatMap (·.properties)).map Property.name).Perm
        ((declarations given).map Prod.fst) ∧
      (sorted = false → ((objects given).flatMap (·.properties)).map Property.name =
        (declarations given).map Prod.fst) := by
  induction given with
  | nil => exact ⟨.refl _, fun _ => rfl⟩
  | cons g given ih =>
      obtain ⟨hfirst, hrest⟩ := List.forall_mem_cons.mp h
      obtain ⟨hperm, heq⟩ := ih hrest
      rw [declarations, List.flatMap_cons, List.map_append, objects]
      cases hg : g.1.isInterface with
      | true =>
          obtain ⟨o, ho, raw, rfl, hraw⟩ := hfirst hg
          rw [List.filterMap_cons_some (object?_of_interface hg ho), List.flatMap_cons,
            List.map_append, ← names_eq_of_declaredBy hraw]
          refine ⟨(ObjectType.perm_arrange.map _).append hperm, ?_⟩
          rintro rfl
          exact congrArg _ (heq rfl)
      | false =>
          rw [List.filterMap_cons_none (object?_of_not_interface hg), declared_of_not_interface hg]
          exact ⟨hperm, heq⟩

theorem row_requiring (ps : List (Property TypeExpr)) :
    ObjectType.row name (ps.map (Property.requiring names)) =
      (ObjectType.row name ps).map (Property.requiring names) :=
  List.filter_map ..

/-- A property of the merged object comes from the sources of its name. -/
theorem exists_sources {q : Property TypeExpr}
    (hq : q ∈ (((objects given).flatMap (·.properties)).map (Property.requiring names)).foldl
      ObjectType.addProperty []) :
    ∃ first rest, sources q.name given = first :: rest ∧
      q = (rest.map (Property.requiring names)).foldl Property.merge (first.requiring names) := by
  obtain ⟨first, rest, hrow, heq⟩ := ObjectType.eq_foldl_merge_of_mem hq
  rw [row_requiring] at hrow
  obtain ⟨first', rest', hsources, rfl, rfl⟩ := List.map_eq_cons_iff.mp hrow
  exact ⟨first', rest', hsources, heq⟩

theorem nodup_of_mem_objects (h : GivesObjects sorted given) (honce : DeclaresOnce given)
    (ho : o ∈ objects given) : (o.properties.map Property.name).Nodup := by
  obtain ⟨g, hg, hobject⟩ := List.mem_filterMap.mp ho
  cases hinterface : g.1.isInterface with
  | false =>
      rw [object?_of_not_interface hinterface] at hobject
      cases hobject
  | true =>
      obtain ⟨a, ha, raw, rfl, hraw⟩ := h g hg hinterface
      rw [object?_of_interface hinterface ha] at hobject
      cases hobject
      rw [(ObjectType.perm_arrange.map Property.name).nodup_iff, names_eq_of_declaredBy hraw]
      exact honce g hg

def merged (given : List (Node × TypeExpr)) (first : ObjectType TypeExpr)
    (rest : List (ObjectType TypeExpr)) : ObjectType TypeExpr :=
  (rest.map (ObjectType.requiring (required given))).foldl ObjectType.merge
    (first.requiring (required given))

variable {first : ObjectType TypeExpr} {rest : List (ObjectType TypeExpr)}

theorem properties_merged (h : GivesObjects sorted given) (honce : DeclaresOnce given)
    (hobjects : objects given = first :: rest) :
    (merged given first rest).properties =
      (((objects given).flatMap (·.properties)).map (Property.requiring (required given))).foldl
        ObjectType.addProperty [] := by
  have hfirst : ((first.requiring (required given)).properties.map Property.name).Nodup := by
    have hnodup := nodup_of_mem_objects h honce (hobjects ▸ List.mem_cons_self)
    rwa [ObjectType.requiring, List.map_map]
  rw [merged, ObjectType.properties_foldl_merge, hobjects, List.flatMap_cons, List.map_append,
    List.foldl_append]
  congr 1
  · exact (ObjectType.foldl_addProperty_of_nodup hfirst).symm
  · rw [List.flatMap_map, List.map_flatMap]
    rfl

theorem findSome?_doc {es : List (String × Node)} {qs : List (Property TypeExpr)}
    (h : List.Forall₂ Property.DeclaredBy es qs) :
    qs.findSome? (·.doc) = es.findSome? fun e => e.2.description := by
  induction h with
  | nil => rfl
  | cons hfirst _ ih => rw [List.findSome?_cons, List.findSome?_cons, hfirst.doc, ih]

theorem optional_foldl_requiring {a : Property TypeExpr} {as : List (Property TypeExpr)}
    (hname : ∀ p ∈ a :: as, p.name = name) :
    ((as.map (Property.requiring names)).foldl Property.merge (a.requiring names)).optional =
      !names.contains name := by
  rw [Property.optional_foldl_merge, ← List.map_cons, List.all_map, Bool.eq_iff_iff, List.all_eq_true]
  constructor
  · exact fun h => hname a List.mem_cons_self ▸ h a List.mem_cons_self
  · intro h p hp
    rw [← hname p hp] at h
    exact h

/-- The merged object has what the policy of intersections says. -/
theorem merges_merged (h : GivesObjects sorted given) (honce : DeclaresOnce given)
    (hobjects : objects given = first :: rest) :
    Merges sorted given ((merged given first rest).arrange sorted) := by
  have hproperties := properties_merged h honce hobjects
  obtain ⟨hperm, hwritten⟩ := names_objects h
  have hnames : (merged given first rest).properties.map Property.name =
      (((objects given).flatMap (·.properties)).map Property.name).eraseDups := by
    rw [hproperties, ObjectType.names_foldl_addProperty_eq, List.map_map]
    rfl
  have hsources : ∀ q ∈ ((merged given first rest).arrange sorted).properties, ∃ a as,
      sources q.name given = a :: as ∧ q = (as.map (Property.requiring (required given))).foldl
        Property.merge (a.requiring (required given)) := by
    intro q hq
    exact exists_sources (hproperties ▸ ObjectType.mem_arrange.mp hq)
  constructor
  case written =>
    rintro rfl
    exact hnames.trans (congrArg _ (hwritten rfl))
  case names => exact (ObjectType.perm_arrange.map _).trans (hnames ▸ perm_eraseDups hperm)
  case bytes =>
    rintro rfl
    have hnodup := hnames ▸ nodup_eraseDups _
    exact (ObjectType.pairwise_sortProperties hnodup).imp Text.bytesLt_of_lt
  case optional =>
    intro q hq
    obtain ⟨a, as, hrow, heq⟩ := hsources q hq
    have hname : ∀ p ∈ a :: as, p.name = q.name := by
      intro p hp
      exact (ObjectType.mem_row.mp (hrow ▸ hp)).2
    have hoptional := (congrArg Property.optional heq).trans (optional_foldl_requiring hname)
    simp [hoptional, required]
  case types =>
    intro q hq
    obtain ⟨a, as, hrow, heq⟩ := hsources q hq
    have hcovers : TypeExpr.Covers q.type.conjuncts
        (((a :: as).map (Property.requiring (required given))).flatMap fun p => p.type.conjuncts) := by
      rw [heq]
      exact Property.covers_foldl_merge
    rw [List.flatMap_map] at hcovers
    rw [hrow]
    exact hcovers
  case doc =>
    intro q hq
    obtain ⟨a, as, hrow, heq⟩ := hsources q hq
    have hdoc : (sources q.name given).findSome? (·.doc) = _ := findSome?_doc (declaredBy_sources h)
    rw [← hdoc, hrow, heq, Property.doc_foldl_merge, ← List.map_cons, List.findSome?_map]
    rfl
  case indexed =>
    rw [ObjectType.index_arrange, merged, ObjectType.index_foldl_merge_eq_none, ← List.map_cons,
      ← hobjects, List.forall_mem_map]
    rfl
  case index =>
    intro t ht
    rw [ObjectType.index_arrange] at ht
    have hcovers := ObjectType.covers_index_foldl_merge ht
    rw [← List.map_cons, ← hobjects, List.filterMap_map] at hcovers
    exact hcovers

/-! ## The operands in their order -/

def others (given : List (Node × TypeExpr)) : List TypeExpr :=
  (given.filter fun g => !g.1.isInterface).map Prod.snd

theorem operand_of_interface (hg : g.1.isInterface = true) (ho : g.2 = .object o) :
    operand names g = .object (o.requiring names) := by
  rw [operand, object?_of_interface hg ho]

theorem operand_of_not_interface (hg : g.1.isInterface = false) : operand names g = .type g.2 := by
  rw [operand, object?_of_not_interface hg]

theorem types_operands (h : GivesObjects sorted given) :
    (given.map (operand names)).filterMap Operand.type? = others given := by
  induction given with
  | nil => rfl
  | cons g given ih =>
      obtain ⟨hfirst, hrest⟩ := List.forall_mem_cons.mp h
      rw [others, List.map_cons]
      cases hg : g.1.isInterface with
      | true =>
          obtain ⟨o, ho, -⟩ := hfirst hg
          rw [List.filter_cons_of_neg (by simp [hg]), operand_of_interface hg ho]
          exact ih hrest
      | false =>
          rw [List.filter_cons_of_pos (by simp [hg]), operand_of_not_interface hg, List.map_cons]
          exact congrArg _ (ih hrest)

theorem objects_operands :
    (given.map (operand names)).filterMap Operand.object? =
      (objects given).map (ObjectType.requiring names) := by
  rw [List.filterMap_map, objects, List.map_filterMap]
  congr 1
  funext g
  show (operand names g).object? = _
  rw [operand]
  cases object? g <;> rfl

def considered (given : List (Node × TypeExpr)) : List (Node × TypeExpr) :=
  given.filter fun g => !g.1.isUnconstrained

theorem objects_considered : objects (considered given) = objects given := by
  rw [objects, considered, List.filterMap_filter, objects]
  congr 1
  funext g
  cases hg : g.1.isInterface with
  | true => rw [Node.isUnconstrained_of_isInterface hg]; rfl
  | false => rw [object?_of_not_interface hg, ite_self]

/-- Unconstrained members contribute nothing where they are left out, and all others are an operand. -/
theorem contributions_eq {joining : Joining}
    (h : ∀ g ∈ given, g.1.isUnconstrained = true → joining.skipsAny = true) :
    given.flatMap joining.contribution = (considered given).map (operand joining.required) := by
  induction given with
  | nil => rfl
  | cons g given ih =>
      obtain ⟨hfirst, hrest⟩ := List.forall_mem_cons.mp h
      rw [List.flatMap_cons, ih hrest, Joining.contribution]
      unfold considered
      cases hg : g.1.isUnconstrained with
      | true =>
          rw [hfirst hg, List.filter_cons_of_neg (by simp [hg])]
          rfl
      | false =>
          rw [List.filter_cons_of_pos (by simp [hg]), Bool.and_false]
          rfl

theorem objects_of_not_interface (h : ∀ g ∈ given, g.1.isInterface = false) : objects given = [] :=
  List.filterMap_eq_nil_iff.mpr fun g hg => object?_of_not_interface (h g hg)

def kept (given : List (Node × TypeExpr)) (o : ObjectType TypeExpr) : List TypeExpr :=
  if o.isEmpty && !(others (considered given)).isEmpty then [] else [.object o]

/-- The intersection of the members in their order, with the merged object in the place of the first
object. -/
theorem intersection_operands {before after : List (Node × TypeExpr)} (h : GivesObjects sorted given)
    (honce : DeclaresOnce given) (hsplit : considered given = before ++ g :: after)
    (hbefore : ∀ b ∈ before, b.1.isInterface = false) (hg : g.1.isInterface = true) :
    ∃ o, Merges sorted given o ∧
      Operand.intersection sorted ((considered given).map (operand (required given))) =
        .intersectionOf (others before ++ kept given o ++ others after) := by
  have hconsidered : GivesObjects sorted (considered given) := fun g hg =>
    h g (List.mem_of_mem_filter hg)
  have hall := hsplit ▸ hconsidered
  obtain ⟨hfront, hback⟩ := List.forall_mem_append.mp hall
  obtain ⟨hhead, hafter⟩ := List.forall_mem_cons.mp hback
  obtain ⟨first, hfirst, -⟩ := hhead hg
  have hobjects : objects given = first :: objects after := by
    rw [← objects_considered, hsplit, objects, List.filterMap_append,
      List.filterMap_cons_some (object?_of_interface hg hfirst)]
    exact congrArg (· ++ _) (objects_of_not_interface hbefore)
  refine ⟨(merged given first (objects after)).arrange sorted, merges_merged h honce hobjects, ?_⟩
  have hmerged : Operand.mergedObject? ((considered given).map (operand (required given))) =
      some (merged given first (objects after)) := by
    rw [Operand.mergedObject?, objects_operands, objects_considered, hobjects]
    rfl
  have hkept : Operand.merged sorted ((considered given).map (operand (required given))) =
      kept given ((merged given first (objects after)).arrange sorted) := by
    rw [Operand.merged, hmerged, types_operands hconsidered, kept, ObjectType.isEmpty_arrange]
  have hnone : (before.map (operand (required given))).filterMap Operand.object? = [] := by
    rw [objects_operands, objects_of_not_interface hbefore, List.map_nil]
  rw [Operand.intersection_eq, hkept, hsplit, List.map_append, List.map_cons,
    operand_of_interface hg hfirst, Operand.place_append hnone, types_operands hfront,
    types_operands hafter]

end Given

/-! ## Intersections -/

section

variable {sorted : Bool} {follow : Place → String → Synthesis TypeExpr} {p : Place} {ms : List Node}
  {st st' : Progress} {t : TypeExpr}

theorem Joining.skipsAny_of_interface {m m' : List String × Node}
    (hm : m ∈ Node.flatten .allOf ms) (hobject : m.2.isInterface = true)
    (hm' : m' ∈ Node.flatten .allOf ms) (hany : m'.2.isUnconstrained = true) :
    (Joining.of .allOf ms).skipsAny = true := by
  have hne : m ≠ m' := by
    rintro rfl
    rw [Node.isUnconstrained_of_isInterface hobject] at hany
    cases hany
  have htwo : 1 < (Node.flatten .allOf ms).length := by
    by_contra hone
    obtain ⟨only, honly⟩ := List.length_eq_one_iff.mp
      (Nat.le_antisymm (Nat.le_of_not_lt hone) (List.length_pos_of_mem hm))
    rw [honly, List.mem_singleton] at hm hm'
    exact hne (hm.trans hm'.symm)
  exact decide_eq_true htwo

theorem Joining.required_eq {given : List (Node × TypeExpr)}
    (h : given.map Prod.fst = (Node.flatten .allOf ms).map Prod.snd) :
    (Joining.of .allOf ms).required = Given.required given := by
  have hflat : (Joining.of .allOf ms).required =
      ((Node.flatten .allOf ms).map Prod.snd).flatMap Node.requiredNames := by
    rw [List.flatMap_map]
    rfl
  rw [hflat, ← h, List.flatMap_map]
  rfl

/-- The policy of intersections, for objects that declare no property twice: the objects among the members
become one, which stands in the place of the first of them unless it says nothing next to other members;
the others keep their order, and those that constrain nothing are left out. -/
theorem Node.kindType_allOf_merges (hobject : ∃ m ∈ Node.flatten .allOf ms, m.2.isInterface = true)
    (hnames : ∀ m ∈ Node.flatten .allOf ms, (m.2.declared.map Prod.fst).Nodup)
    (h : (Node.kindType sorted follow p (.composite .allOf ms)).run st = .ok (t, st')) :
    ∃ given before first after o,
      (Node.givenTypes sorted follow p (Node.flatten .allOf ms)).run st = .ok (given, st') ∧
      GivesObjects sorted given ∧
      Given.considered given = before ++ first :: after ∧
      (∀ g ∈ before, g.1.isInterface = false) ∧ first.1.isInterface = true ∧
      Given.Merges sorted given o ∧
      t = .intersectionOf (Given.others before ++ Given.kept given o ++ Given.others after) := by
  rw [Node.kindType_allOf, StateT.run_bind] at h
  obtain ⟨⟨given, st₁⟩, hgiven, heq⟩ := bind_eq_ok.mp h
  obtain ⟨hnodes, hobjects⟩ := Node.givesObjects hgiven
  have hmem : ∀ g ∈ given, ∃ m ∈ Node.flatten .allOf ms, m.2 = g.1 := by
    intro g hg
    exact List.mem_map.mp (hnodes ▸ List.mem_map_of_mem hg)
  have hskips : ∀ g ∈ given, g.1.isUnconstrained = true →
      (Joining.of .allOf ms).skipsAny = true := by
    intro g hg hany
    obtain ⟨m, hm, hinterface⟩ := hobject
    obtain ⟨m', hm', hnode⟩ := hmem g hg
    exact Joining.skipsAny_of_interface hm hinterface hm' (hnode ▸ hany)
  have honce : Given.DeclaresOnce given := by
    intro g hg
    obtain ⟨m, hm, hnode⟩ := hmem g hg
    exact hnode ▸ hnames m hm
  obtain ⟨first, hfirst⟩ : ∃ first,
      (Given.considered given).find? (fun g => g.1.isInterface) = some first := by
    obtain ⟨m, hm, hinterface⟩ := hobject
    obtain ⟨g, hg, hnode⟩ := List.mem_map.mp (hnodes ▸ List.mem_map_of_mem hm)
    have hinterface : g.1.isInterface = true := hnode ▸ hinterface
    have hconsidered : g ∈ Given.considered given :=
      List.mem_filter.mpr ⟨hg, by simp [Node.isUnconstrained_of_isInterface hinterface]⟩
    exact Option.isSome_iff_exists.mp (List.find?_isSome.mpr ⟨g, hconsidered, hinterface⟩)
  obtain ⟨hinterface, before, after, hsplit, hbefore⟩ := List.find?_eq_some_iff_append.mp hfirst
  have hbefore : ∀ g ∈ before, g.1.isInterface = false := by
    intro g hg
    simpa using hbefore g hg
  obtain ⟨o, hmerges, hintersection⟩ :=
    Given.intersection_operands hobjects honce hsplit hbefore hinterface
  refine ⟨given, before, first, after, o, ?_, hobjects, hsplit, hbefore, hinterface, hmerges, ?_⟩
  · cases heq
    exact hgiven
  · cases heq
    rw [Given.contributions_eq hskips, Joining.required_eq hnodes, hintersection]

def petBase : Node := .bare (.reference "#/definitions/Base")

def petName : Node := .bare (.object [("name", .bare (.primitive .string none))] [] .closed)

def requiredName : Node := ⟨.object [] ["name"] .closed, none, true⟩

def petLabel : Node :=
  .bare (.object [("tag", .bare (.primitive .string none)), ("name", .bare (.primitive .integer none))]
    [] .closed)

/-- The members of a labelled pet, two of them together in another `allOf`. -/
def labelledPet : List Node :=
  [.bare .any, .bare (.composite .allOf [petBase, petName]), requiredName, petLabel]

def labelledTypes : List (Node × TypeExpr) :=
  [(.bare .any, .any), (petBase, .named "Base"),
    (petName, .object { properties := [⟨"name", .base .string, true, none, none⟩] }),
    (requiredName, .union [.object {}, .null]),
    (petLabel, .object { properties :=
      [⟨"tag", .base .string, true, none, none⟩, ⟨"name", .base .number, true, none, none⟩] })]

/-- The base stays in front of the merged object and the nullable object behind it; the name is required
by the latter. -/
theorem labelledPet_merges :
    (∃ m ∈ Node.flatten .allOf labelledPet, m.2.isInterface = true) ∧
    (∀ m ∈ Node.flatten .allOf labelledPet, (m.2.declared.map Prod.fst).Nodup) ∧
    ∃ o, (Node.kindType false (fun _ _ => return .named "Base") {} (.composite .allOf labelledPet)).run
        { slots := [] } =
          .ok (.intersection [.named "Base", .object o, .union [.object {}, .null]], { slots := [] }) ∧
      o.properties.map Property.name = ["name", "tag"] ∧
      ∀ q ∈ o.properties, q.optional = false ↔ q.name = "name" := by
  have hobject : ∃ m ∈ Node.flatten .allOf labelledPet, m.2.isInterface = true :=
    ⟨_, List.mem_cons_of_mem _ (List.mem_cons_of_mem _ List.mem_cons_self), rfl⟩
  have hdistinct : ∀ m ∈ Node.flatten .allOf labelledPet, (m.2.declared.map Prod.fst).Nodup := by
    simp [labelledPet, petBase, petName, requiredName, petLabel, Node.flatten, Node.bare,
      Node.declared, Composition.isUnion]
  obtain ⟨t, hrun⟩ : ∃ t, (Node.kindType false (fun _ _ => return .named "Base") {}
      (.composite .allOf labelledPet)).run { slots := [] } = .ok (t, { slots := [] }) := ⟨_, by rfl⟩
  obtain ⟨given, before, first, after, o, hgiven, -, hsplit, hbefore, hfirst, hmerges, rfl⟩ :=
    Node.kindType_allOf_merges hobject hdistinct hrun
  have htypes : (Node.givenTypes false (fun _ _ => return .named "Base") {}
      (Node.flatten .allOf labelledPet)).run { slots := [] } =
        .ok (labelledTypes, { slots := [] }) := by rfl
  obtain rfl : given = labelledTypes := congrArg Prod.fst (Except.ok.inj (hgiven.symm.trans htypes))
  have hnames : o.properties.map Property.name = ["name", "tag"] := hmerges.written rfl
  have hoptional : ∀ q ∈ o.properties, q.optional = false ↔ q.name = "name" := by
    intro q hq
    rw [hmerges.optional q hq]
    simp [labelledTypes, Node.requiredNames, petBase, petName, requiredName, petLabel, Node.bare]
  have hkept : Given.kept labelledTypes o = [.object o] := by
    obtain ⟨_, _, hproperties, -⟩ := List.map_eq_cons_iff.mp hnames
    rw [Given.kept, ObjectType.isEmpty, hproperties]
    rfl
  refine ⟨hobject, hdistinct, o, ?_, hnames, hoptional⟩
  rcases before with _ | ⟨b, _ | ⟨c, rest⟩⟩
  · cases hsplit
    cases hfirst
  · obtain ⟨rfl, htail⟩ := List.cons.inj hsplit
    obtain ⟨rfl, rfl⟩ := List.cons.inj htail
    rw [hrun, hkept]
    rfl
  · obtain ⟨-, htail⟩ := List.cons.inj hsplit
    obtain ⟨rfl, -⟩ := List.cons.inj htail
    cases hbefore _ (List.mem_cons_of_mem _ List.mem_cons_self)

end

end SwaggerTypes
