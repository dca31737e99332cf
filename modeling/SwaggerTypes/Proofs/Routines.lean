import SwaggerTypes.Proofs.Resolution
import SwaggerTypes.Proofs.Run
/-!
# Routines

A synthesis passes the place where it stands down to every call. Here the place is part of the state: a
routine moves it ahead of a call and puts it back behind, whether the call has answered or failed, by
cutting the location off where it ended before, by counting the depth down again, and by closing the
reference that was opened. The state is there after a fault too, and it keeps a history of what it was
when a routine was entered and when one had answered.
-/

namespace SwaggerTypes

namespace Text

def front : Nat → List Char → List Char
  | _, [] => []
  | bytes, c :: cs => if c.utf8Size ≤ bytes then c :: front (bytes - c.utf8Size) cs else []

def truncate (text : String) (bytes : Nat) : String := String.ofList (front bytes text.toList)

theorem front_append (cs ds : List Char) :
    front (String.ofList cs).utf8ByteSize (cs ++ ds) = cs := by
  induction cs with
  | nil =>
      cases ds with
      | nil => rfl
      | cons d ds => exact if_neg (Nat.not_le.mpr d.utf8Size_pos)
  | cons c cs ih =>
      have hsize : (String.ofList (c :: cs)).utf8ByteSize =
          c.utf8Size + (String.ofList cs).utf8ByteSize := by
        rw [← String.utf8ByteSize_singleton, ← String.utf8ByteSize_append]
        congr 1
        simp
      rw [hsize, List.cons_append, front, if_pos (Nat.le_add_right ..), Nat.add_sub_cancel_left, ih]

theorem truncate_append (text more : String) :
    truncate (text ++ more) text.utf8ByteSize = text := by
  have h := front_append text.toList more.toList
  rw [String.ofList_toList] at h
  rw [truncate, String.toList_append, h, String.ofList_toList]

end Text

/-- The state of a synthesis that stands somewhere. -/
structure Synthesizer extends Place, Progress where
  /-- What the state was when a routine was entered, and when one had answered. -/
  history : List (Place × Progress) := []

/-- What a synthesizer does. There is a state afterwards in any case. -/
abbrev Routine := ExceptT Fault (StateM Synthesizer)

namespace Routine

variable {α β : Type}

/-- What comes of a routine, and the state it leaves. -/
def outcome (x : Routine α) (m : Synthesizer) : Outcome α × Synthesizer := x.run m

def ofOutcome (r : Outcome α) : Routine α := ExceptT.mk (pure r)

/-- What comes of a routine, for something to be done before the fault goes on. -/
def attempt (x : Routine α) : Routine (Outcome α) := ExceptT.lift x.run

def step (f : Place → Synthesis α) : Routine α := fun m =>
  match (f m.toPlace).run m.toProgress with
  | .ok (a, st) => (.ok a, { m with toProgress := st })
  | .error fault => (.error fault, m)

def observe : Routine Unit :=
  modify fun m => { m with history := m.history ++ [(m.toPlace, m.toProgress)] }

def observed (x : Routine α) : Routine α := do
  observe
  let a ← x
  observe
  return a

def descend (segments : List String) (part : Bool) (x : Routine α) : Routine α := do
  let length := (← get).location.utf8ByteSize
  modify fun m => { m with toPlace := m.toPlace.below segments part }
  let result ← attempt x
  modify fun m =>
    { m with
      location := Text.truncate m.location length
      depth := if part then m.depth - 1 else m.depth }
  ofOutcome result

def relocate (location : String) (x : Routine α) : Routine α := do
  let saved := (← get).location
  modify fun m => { m with location }
  let result ← attempt x
  modify fun m => { m with location := saved }
  ofOutcome result

def enter (pointer : String) : Routine Visit := fun m =>
  match m.chain.enter pointer m.depth with
  | .entered chain => (.ok (.entered chain), { m with chain })
  | .cycle guarded => (.ok (.cycle guarded), m)

def leaving (x : Routine α) : Routine α := do
  let result ← attempt x
  modify fun m => { m with chain := m.chain.leave }
  ofOutcome result

def visit (pointer : String) (inside : Routine α) (again : (guarded : Bool) → Routine α) :
    Routine α := do
  match ← enter pointer with
  | .entered _ => leaving inside
  | .cycle guarded => again guarded

/-! ## Outcomes -/

section

variable {m : Synthesizer} {x : Routine α} {f : α → Routine β}

theorem outcome_bind : (x >>= f).outcome m =
    match x.outcome m with
    | (.ok a, m') => (f a).outcome m'
    | (.error fault, m') => (.error fault, m') := by
  have hbind : (x >>= f).outcome m = ExceptT.bindCont f (x.outcome m).1 (x.outcome m).2 := rfl
  rw [hbind]
  rcases x.outcome m with ⟨fault | a, m'⟩ <;> rfl

/-- A routine behind another one is run from the state that the first leaves, unless that has failed. -/
theorem bind_cases (x : Routine α) (f : α → Routine β) (m : Synthesizer) :
    (∃ fault, (x.outcome m).1 = .error fault ∧
        (x >>= f).outcome m = (.error fault, (x.outcome m).2)) ∨
      ∃ a, (x.outcome m).1 = .ok a ∧ (x >>= f).outcome m = (f a).outcome (x.outcome m).2 := by
  rw [outcome_bind]
  rcases x.outcome m with ⟨fault | a, m'⟩
  · exact .inl ⟨fault, rfl, rfl⟩
  · exact .inr ⟨a, rfl, rfl⟩

theorem outcome_map {g : α → β} : (do return g (← x) : Routine β).outcome m =
    ((x.outcome m).1.map g, (x.outcome m).2) := by
  refine (outcome_bind (f := fun a => pure (g a))).trans ?_
  rcases x.outcome m with ⟨fault | a, m'⟩ <;> rfl

theorem outcome_descend {segments : List String} {part : Bool}
    (hplace : (x.outcome { m with toPlace := m.toPlace.below segments part }).2.toPlace =
      m.toPlace.below segments part) :
    (descend segments part x).outcome m =
      let r := x.outcome { m with toPlace := m.toPlace.below segments part }
      (r.1, { r.2 with toPlace := m.toPlace }) := by
  have houtcome : (descend segments part x).outcome m =
      let r := x.outcome { m with toPlace := m.toPlace.below segments part }
      (r.1, { r.2 with
        location := Text.truncate r.2.location m.location.utf8ByteSize
        depth := if part then r.2.depth - 1 else r.2.depth }) := rfl
  revert hplace houtcome
  rcases x.outcome { m with toPlace := m.toPlace.below segments part } with ⟨r, m'⟩
  intro (hplace : m'.toPlace = _) houtcome
  rw [houtcome]
  simp only [hplace, Place.below, Text.truncate_append]
  cases part <;> rfl

theorem outcome_relocate {location : String}
    (hplace : (x.outcome { m with location }).2.toPlace = { m.toPlace with location }) :
    (relocate location x).outcome m =
      let r := x.outcome { m with location }
      (r.1, { r.2 with toPlace := m.toPlace }) := by
  have houtcome : (relocate location x).outcome m =
      let r := x.outcome { m with location }
      (r.1, { r.2 with location := m.location }) := rfl
  revert hplace houtcome
  rcases x.outcome { m with location } with ⟨r, m'⟩
  intro (hplace : m'.toPlace = _) houtcome
  rw [houtcome]
  simp only [hplace]

theorem outcome_visit {pointer : String} {again : Bool → Routine α} :
    (visit pointer x again).outcome m =
      match m.chain.enter pointer m.depth with
      | .entered chain =>
        let r := x.outcome { m with chain }
        (r.1, { r.2 with chain := r.2.chain.leave })
      | .cycle guarded => (again guarded).outcome m := by
  have henter : (enter pointer).outcome m =
      match m.chain.enter pointer m.depth with
      | .entered chain => (.ok (.entered chain), { m with chain })
      | .cycle guarded => (.ok (.cycle guarded), m) := rfl
  rw [visit, outcome_bind, henter]
  cases m.chain.enter pointer m.depth <;> rfl

theorem outcome_visit_entered {pointer : String} {again : Bool → Routine α} {chain : Chain}
    (entered : m.chain.enter pointer m.depth = .entered chain)
    (hplace : (x.outcome { m with chain }).2.toPlace = { m.toPlace with chain }) :
    (visit pointer x again).outcome m =
      let r := x.outcome { m with chain }
      (r.1, { r.2 with toPlace := m.toPlace }) := by
  have houtcome : (visit pointer x again).outcome m = _ := outcome_visit
  rw [entered] at houtcome
  dsimp only at houtcome
  revert hplace houtcome
  rcases x.outcome { m with chain } with ⟨r, m'⟩
  intro (hplace : m'.toPlace = _) houtcome
  rw [houtcome]
  obtain ⟨-, rfl⟩ := Chain.enter_entered entered
  simp only [hplace]
  rfl

theorem outcome_step {g : Place → Synthesis α} :
    (step g).outcome m =
      match (g m.toPlace).run m.toProgress with
      | .ok (a, st) => (.ok a, { m with toProgress := st })
      | .error fault => (.error fault, m) := by
  rfl

theorem outcome_observed :
    (observed x).outcome m =
      let r := x.outcome { m with history := m.history ++ [(m.toPlace, m.toProgress)] }
      (r.1, match r.1 with
        | .ok _ => { r.2 with history := r.2.history ++ [(r.2.toPlace, r.2.toProgress)] }
        | .error _ => r.2) := by
  have hx := outcome_bind (m := { m with history := m.history ++ [(m.toPlace, m.toProgress)] })
    (x := x) (f := fun a => do observe; return a)
  refine Eq.trans hx ?_
  simp only
  rcases x.outcome _ with ⟨fault | a, m'⟩ <;> rfl

end

end Routine

/-! ## The routines of a synthesis -/

namespace Setting

variable (s : Setting) (mapType : Node → Routine TypeExpr)

def mapProperty (required : List String) (name : String) (node : Node) :
    Routine (Property TypeExpr) := do
  let type ← Routine.descend ["properties", name] true (mapType node)
  return { name, type, optional := !required.contains name, doc := node.description,
           format := node.format }

def mapIndex : Additional Node → Routine (Option TypeExpr)
  | .closed => return none
  | .unrestricted => return some .any
  | .typed node => do
    return some (← Routine.descend ["additionalProperties"] true (mapType node))

def mapObject (required : List String) (properties : List (String × Node))
    (additional : Additional Node) : Routine (ObjectType TypeExpr) := .observed do
  let properties ← properties.mapM fun (name, node) => mapProperty mapType required name node
  let index ← mapIndex mapType additional
  return .arrange s.sorted ⟨properties, index⟩

def mapOperand (joining : Joining) (way : List String) (member : Node) :
    Routine (List Operand) :=
  match member.kind, member.nullable with
  | .any, false =>
    if joining.skipsAny then return []
    else do return [.type (← Routine.descend way false (mapType member))]
  | .object properties _ additional, false => do
    return [.object (← Routine.descend way false
      (s.mapObject mapType joining.required properties additional))]
  | _, _ => do return [.type (← Routine.descend way false (mapType member))]

def mapComposite (keyword : Composition) (members : List Node) : Routine TypeExpr := .observed do
  let joining := Joining.of keyword members
  let flat := Node.flatten keyword members
  if joining.union then
    return .unionOf (← flat.mapM fun (way, member) =>
      Routine.descend way false (mapType member))
  else
    return Operand.intersection s.sorted (← flat.mapM fun (way, member) =>
      s.mapOperand mapType joining way member).flatten

def mapBody (root : Node) : Routine DeclarationBody :=
  match root.kind, root.nullable with
  | .object properties required additional, false => do
    return .interface (← s.mapObject mapType required properties additional)
  | _, _ => do return .synonym (← mapType root)

def synthesize (index : Nat) (d : Definition) : Routine Unit := do
  Routine.step fun _ => Synthesis.setSlot index .inProgress
  let body ← Routine.relocate d.pointer (s.mapBody mapType d.root)
  Routine.step fun _ => Synthesis.setSlot index
    (.done { name := s.nameOf index, doc := d.root.description, body })

def referenceDefinition (index : Nat) : Routine TypeExpr := .observed do
  let name := s.nameOf index
  match ← Routine.step fun _ => Synthesis.slot? index, s.definitions.entries[index]? with
  | some (.done _), _ | _, none => return .named name
  | _, some d =>
    let declared : Routine TypeExpr := do
      s.synthesize mapType index d
      return .named name
    Routine.visit d.pointer declared fun guarded =>
      if guarded then return .named name
      else do
        Routine.step fun p => Synthesis.warn p .circularAlias
          ("reference to `" ++ name ++ "` closes a cycle of type aliases; using `any`")
        return .any

def mapReference (pointer : String) : Routine TypeExpr := do
  let target ← Routine.ofOutcome (s.definitions.resolve pointer)
  if target.isRoot then s.referenceDefinition mapType target.definition
  else
    let inlined := Routine.relocate target.pointer (mapType target.node)
    Routine.visit target.pointer inlined fun _ => do
      Routine.step fun p => Synthesis.warn p .unsupportedConstruct
        ("recursive reference `" ++ pointer ++ "` into an unnamed schema; using `any`")
      return .any

def mapKind : Kind Node → Routine TypeExpr
  | .any => return .any
  | .primitive type _ => return .base type.base
  | .enum values => return .ofLiterals values
  | .array items => do return .array (← Routine.descend ["items"] true (mapType items))
  | .object properties required additional => do
    return .object (← s.mapObject mapType required properties additional)
  | .reference pointer => s.mapReference mapType pointer
  | .composite keyword members => s.mapComposite mapType keyword members
  | .unsupported construct => do
    Routine.step fun p => Synthesis.warn p .unsupportedConstruct
      (construct ++ " cannot be expressed; using `any`")
    return .any

end Setting

/-- The type of a schema, when no more than `calls` schemas may be at hand at once. -/
def Setting.mapType (s : Setting) : (calls : Nat) → Node → Routine TypeExpr
  | 0, _ => throw .exhausted
  | calls + 1, node => .observed do
    let t ← s.mapKind (s.mapType calls) node.kind
    return if node.nullable then t.nullable else t

namespace Setting

variable (s : Setting) (calls : Nat)

def mapParameter (placed : PlacedParameter) : Routine (Property TypeExpr) := do
  let segments := if placed.parameter.nested then ["schema"] else []
  let type ← Routine.relocate placed.pointer
    (Routine.descend segments true (s.mapType calls placed.parameter.schema))
  return placed.property type

def mapOperation (model : SchemaModel) (op : Operation) : Routine (Option Declaration) := do
  let parameters ← Routine.ofOutcome (model.effectiveParameters op)
  let query := PlacedParameter.ofQuery parameters
  if query.isEmpty then return none
  let properties ← query.mapM (s.mapParameter calls)
  let object := ObjectType.arrange s.sorted { properties }
  let name ← Routine.step fun _ => Synthesis.takeName op.queryName op.pointer
  return some { name, body := .interface object }

def mapAll (model : SchemaModel) (withQuery : Bool) : Routine (List Declaration) := do
  (List.range s.definitions.entries.length).forM fun index => do
    let _ ← s.referenceDefinition (s.mapType calls) index
  if withQuery then
    match model.operations with
    | none => throw (.malformed .noPaths)
    | some operations => do
      return (← operations.mapM (s.mapOperation calls model)).filterMap id
  else return []

end Setting

def SchemaModel.synthesizer (model : SchemaModel) : Synthesizer := { toProgress := model.start }

end SwaggerTypes
