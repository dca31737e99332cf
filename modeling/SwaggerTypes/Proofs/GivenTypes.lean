import SwaggerTypes.Proofs.WellFormed
/-!
# Types of the members of a composition

The members of a composition, those of a member of the same kind taken one level up, all have types of
their own. A union is made of these. In an intersection a member contributes what its type says: an object
differs from its own type only in the properties that are optional, because names that others require are
required of it as well.
-/

namespace SwaggerTypes

/-! ## Required names -/

def Property.requiring (names : List String) (p : Property TypeExpr) : Property TypeExpr :=
  { p with optional := !names.contains p.name }

namespace ObjectType

def requiring (names : List String) (o : ObjectType TypeExpr) : ObjectType TypeExpr :=
  { o with properties := o.properties.map (Property.requiring names) }

variable {names : List String} {o : ObjectType TypeExpr} {sorted : Bool}

theorem requiring_arrange : (o.arrange sorted).requiring names = (o.requiring names).arrange sorted := by
  cases sorted with
  | false => rfl
  | true =>
      have hsort : (o.properties.mergeSort fun a b => a.name ≤ b.name).map (Property.requiring names) =
          (o.properties.map (Property.requiring names)).mergeSort fun a b => a.name ≤ b.name :=
        List.map_mergeSort fun _ _ _ _ => rfl
      exact congrArg (ObjectType.mk · o.index) hsort

theorem isEmpty_arrange : (o.arrange sorted).isEmpty = o.isEmpty := by
  rw [isEmpty, isEmpty, perm_arrange.isEmpty_eq, index_arrange]

theorem row_arrange {name : String} :
    row name (o.arrange sorted).properties = row name o.properties := by
  cases sorted with
  | false => rfl
  | true => exact row_sortProperties o

end ObjectType

/-! ## Types of the members -/

section

variable (sorted : Bool) (follow : Place → String → Synthesis TypeExpr)

/-- The members of a composition, each with the type that it has on its own. -/
def Node.givenTypes (p : Place) (flat : List (List String × Node)) :
    Synthesis (List (Node × TypeExpr)) :=
  flat.mapM fun m => do return (m.2, ← m.2.type sorted follow (p.below m.1 false))

end

/-- Whether a schema constrains nothing and has no more to allow. -/
def Node.isUnconstrained : Node → Bool
  | ⟨.any, _, false⟩ => true
  | _ => false

namespace Given

def object? (g : Node × TypeExpr) : Option (ObjectType TypeExpr) :=
  match g.1.isInterface, g.2 with
  | true, .object o => some o
  | _, _ => none

def operand (names : List String) (g : Node × TypeExpr) : Operand :=
  match object? g with
  | some o => .object (o.requiring names)
  | none => .type g.2

theorem object?_of_interface {g : Node × TypeExpr} {o : ObjectType TypeExpr}
    (hg : g.1.isInterface = true) (ho : g.2 = .object o) : object? g = some o := by
  rw [object?, hg, ho]

theorem object?_of_not_interface {g : Node × TypeExpr} (hg : g.1.isInterface = false) :
    object? g = none := by
  rw [object?, hg]

end Given

/-- What a member contributes to an intersection, with the type that it has on its own. -/
def Joining.contribution (joining : Joining) (g : Node × TypeExpr) : List Operand :=
  if joining.skipsAny && g.1.isUnconstrained then [] else [Given.operand joining.required g]

section

variable {sorted : Bool} {follow : Place → String → Synthesis TypeExpr} {p : Place}
  {joining : Joining} {lifted : Bool} {way : List String} {m : Node}

theorem Node.propertyTypes_requiring (names required : List String) (ps : List (String × Node)) :
    Node.propertyTypes sorted follow p names ps = do
      return (← Node.propertyTypes sorted follow p required ps).map (Property.requiring names) := by
  induction ps with
  | nil => simp [Node.propertyTypes]
  | cons e ps ih =>
      obtain ⟨name, node⟩ := e
      simp only [Node.propertyTypes, ih, bind_assoc, pure_bind, List.map_cons]
      rfl

theorem Joining.contribution_of_standsAlone (hunion : joining.union = false)
    (h : joining.standsAlone lifted m = true) (t : TypeExpr) :
    joining.contribution (m, t) = [.type t] := by
  obtain ⟨hinterface, hskipped⟩ : m.isInterface = false ∧
      (joining.skipsAny && m.isUnconstrained) = false := by
    obtain ⟨kind, doc, nullable⟩ := m
    cases kind <;> cases nullable <;>
      simp_all [standsAlone, Node.isInterface, Node.isUnconstrained]
  have hnone : Given.object? (m, t) = none := Given.object?_of_not_interface hinterface
  simp [contribution, hskipped, Given.operand, hnone]

theorem Node.isUnconstrained_of_isInterface (hm : m.isInterface = true) :
    m.isUnconstrained = false := by
  obtain ⟨kind, doc, nullable⟩ := m
  cases kind <;> first | rfl | cases nullable <;> cases hm

theorem Joining.contribution_of_interface (hm : m.isInterface = true) (o : ObjectType TypeExpr) :
    joining.contribution (m, .object o) = [.object (o.requiring joining.required)] := by
  have hsome : Given.object? (m, .object o) = some o := Given.object?_of_interface hm rfl
  simp [contribution, Node.isUnconstrained_of_isInterface hm, Given.operand, hsome]

theorem Node.operand_eq_contribution (hunion : joining.union = false) :
    Node.operand sorted follow p joining true way m = do
      return joining.contribution (m, ← m.type sorted follow (p.below way false)) := by
  by_cases h : joining.standsAlone true m = true
  · rw [Setting.operand_of_standsAlone h]
    simp only [Joining.contribution_of_standsAlone hunion h]
  · obtain ⟨kind, doc, nullable⟩ := m
    cases nullable with
    | true => cases kind <;> exact absurd rfl h
    | false =>
        cases kind with
        | object ps required additional =>
            have hown : ∀ o,
                joining.contribution (⟨.object ps required additional, doc, false⟩, .object o) =
                  [.object (o.requiring joining.required)] := Joining.contribution_of_interface rfl
            simp only [Node.operand, hunion, Bool.false_eq_true, if_false, Node.type, Node.kindType,
              Node.propertyTypes_requiring joining.required required, bind_assoc, pure_bind, hown,
              ObjectType.requiring_arrange]
            rfl
        | any =>
            have hs : joining.skipsAny = true := by simpa [Joining.standsAlone] using h
            simp [Node.operand, Node.type, Node.kindType, Joining.contribution,
              Node.isUnconstrained, hs]
        | _ => exact absurd rfl h

theorem mapM_map {α β γ : Type} (k : α → Synthesis β) (f : β → γ) (l : List α) :
    (l.mapM fun a => do return f (← k a)) = do return (← l.mapM k).map f := by
  induction l with
  | nil => simp
  | cons a l ih => simp only [List.mapM_cons, ih, bind_assoc, pure_bind, List.map_cons]

theorem Node.operands_eq_mapM (ms : List Node) (i : Nat) :
    Node.operands sorted follow p joining lifted way i ms = do
      return (← ((ms.zipIdx i).map fun (m, j) => (way ++ [toString j], m)).mapM
        fun (way, m) => Node.operand sorted follow p joining lifted way m).flatten := by
  induction ms generalizing i with
  | nil => simp [Node.operands]
  | cons m ms ih => simp [Node.operands, ih (i + 1)]

/-- The members that stand at a position of a composition: a member, or the members of one that are taken
one level up. -/
def Node.membersAt (keyword : Composition) (m : Node) (i : Nat) : List (List String × Node) :=
  match m.kind, m.nullable with
  | .composite inner innerMembers, false =>
    if inner.isUnion = keyword.isUnion then
      innerMembers.zipIdx.map fun (m, j) =>
        ([keyword.keyword, toString i] ++ [inner.keyword, toString j], m)
    else [([keyword.keyword, toString i], m)]
  | _, _ => [([keyword.keyword, toString i], m)]

/-- A member contributes what the members do that stand at its position. -/
theorem Node.operand_eq_mapM {keyword : Composition} (hunion : joining.union = keyword.isUnion)
    (i : Nat) :
    Node.operand sorted follow p joining false [keyword.keyword, toString i] m = do
      return (← (membersAt keyword m i).mapM
        fun (way, m) => Node.operand sorted follow p joining true way m).flatten := by
  have hself : membersAt keyword m i = [([keyword.keyword, toString i], m)] →
      Node.operand sorted follow p joining false [keyword.keyword, toString i] m =
        Node.operand sorted follow p joining true [keyword.keyword, toString i] m →
      Node.operand sorted follow p joining false [keyword.keyword, toString i] m = (do
        return (← (membersAt keyword m i).mapM
          fun (way, m) => Node.operand sorted follow p joining true way m).flatten) := by
    intro hmembers hoperand
    simp only [hmembers, List.mapM_cons, List.mapM_nil, pure_bind, bind_assoc, List.flatten_cons,
      List.flatten_nil, List.append_nil, bind_pure, hoperand]
  obtain ⟨kind, doc, nullable⟩ := m
  cases nullable with
  | true => cases kind <;> exact hself rfl rfl
  | false =>
      cases kind with
      | composite inner ms =>
          by_cases same : inner.isUnion = keyword.isUnion
          · simp only [membersAt, same, if_true, Node.operand, hunion, Bool.not_false, Bool.true_and,
              decide_true, operands_eq_mapM]
            simp
          · refine hself (if_neg same) ?_
            simp [Node.operand, hunion, same]
      | _ => exact hself rfl rfl

/-- What the members of a composition contribute comes from the flattened members. -/
theorem Node.operands_flatten {keyword : Composition} (hunion : joining.union = keyword.isUnion)
    (ms : List Node) :
    Node.operands sorted follow p joining false [keyword.keyword] 0 ms = do
      return (← (Node.flatten keyword ms).mapM
        fun (way, m) => Node.operand sorted follow p joining true way m).flatten := by
  have hlist : ∀ i, Node.operands sorted follow p joining false [keyword.keyword] i ms = do
      return (← ((ms.zipIdx i).map fun (m, i) => membersAt keyword m i).flatten.mapM
        fun (way, m) => Node.operand sorted follow p joining true way m).flatten := by
    induction ms with
    | nil => simp [Node.operands]
    | cons m ms ih =>
        intro i
        have hfirst : Node.operand sorted follow p joining false [keyword.keyword, toString i] m = _ :=
          operand_eq_mapM hunion i
        simp only [Node.operands, List.cons_append, List.nil_append, hfirst, ih (i + 1),
          List.zipIdx_cons, List.map_cons, List.flatten_cons, List.mapM_append, bind_assoc, pure_bind,
          List.flatten_append]
  exact hlist 0

/-- The type of an `allOf` is made from the types that its members have on their own. -/
theorem Node.kindType_allOf (ms : List Node) :
    Node.kindType sorted follow p (.composite .allOf ms) = do
      return Operand.intersection sorted ((← Node.givenTypes sorted follow p
        (Node.flatten .allOf ms)).flatMap (Joining.of .allOf ms).contribution) := by
  have hoperand : ∀ way m, Node.operand sorted follow p (Joining.of .allOf ms) true way m =
      (do return (Joining.of .allOf ms).contribution (m, ← m.type sorted follow (p.below way false))) :=
    fun _ _ => Node.operand_eq_contribution rfl
  have hgiven := mapM_map (fun m : List String × Node =>
    (do return (m.2, ← m.2.type sorted follow (p.below m.1 false)) : Synthesis (Node × TypeExpr)))
    (Joining.of .allOf ms).contribution (Node.flatten .allOf ms)
  simp only [bind_assoc, pure_bind] at hgiven
  have hjoining : (Joining.of .allOf ms).union = Composition.isUnion .allOf := rfl
  simp only [Node.kindType, Node.operands_flatten hjoining, hoperand, hgiven, Node.givenTypes,
    List.flatMap, bind_assoc, pure_bind]
  rfl

/-- The type of a union is made from the types that its members have on their own. -/
theorem Node.kindType_union {keyword : Composition} (hunion : keyword.isUnion = true) (ms : List Node) :
    Node.kindType sorted follow p (.composite keyword ms) = do
      return TypeExpr.unionOf (← (Node.flatten keyword ms).mapM
        fun (way, m) => m.type sorted follow (p.below way false)) := by
  have hjoining : (Joining.of keyword ms).union = keyword.isUnion := rfl
  have hskips : (Joining.of keyword ms).skipsAny = false := by simp [Joining.of, hunion]
  have hoperand : ∀ way m, Node.operand sorted follow p (Joining.of keyword ms) true way m =
      (do return [Operand.type (← m.type sorted follow (p.below way false))]) := by
    intro way m
    refine Setting.operand_of_standsAlone ?_
    obtain ⟨kind, doc, nullable⟩ := m
    cases kind <;> cases nullable <;> simp [Joining.standsAlone, hjoining, hunion, hskips]
  have htypes : ∀ ts : List TypeExpr,
      (ts.map fun t => [Operand.type t]).flatten.filterMap Operand.type? = ts := by
    intro ts
    induction ts with
    | nil => rfl
    | cons t ts ih => simpa [Operand.type?] using ih
  have hgiven := mapM_map (fun m : List String × Node => m.2.type sorted follow (p.below m.1 false))
    (fun t => [Operand.type t]) (Node.flatten keyword ms)
  simp only [Node.kindType, Node.operands_flatten hjoining, hoperand, hgiven, Operand.combine,
    hjoining, hunion, if_true, bind_assoc, pure_bind, htypes]

end

end SwaggerTypes
