import SwaggerTypes.Proofs.SortedBuilds
/-!
# What does not depend on the place of a schema

Where a schema stands is only told in warnings. Its type, the declarations that are begun on the way
and the faults are the same wherever it stands, as long as the same references are open and as many
parts of values lie above it.
-/

namespace SwaggerTypes

def Warning.saying (w : Warning) : WarningKind × String := (w.kind, w.message)

structure Progress.Matches (st st' : Progress) : Prop where
  slots : st'.slots = st.slots
  taken : st'.taken = st.taken
  warnings : st'.warnings.map Warning.saying = st.warnings.map Warning.saying

namespace Synthesis

/-- Two steps that differ at most in the pointers of warnings: from matching progress both fail in
the same way, or find the same and leave matching progress behind. -/
def Agree {α : Type} (x y : Synthesis α) : Prop :=
  ∀ st st' : Progress, st.Matches st' →
    SameOutcome (fun a b => a.1 = b.1 ∧ a.2.Matches b.2) (x.run st) (y.run st')

variable {α β : Type} {x y : Synthesis α}

theorem Agree.pure (a : α) : Agree (Pure.pure a) (Pure.pure a) := fun _ _ hst => .ok ⟨rfl, hst⟩

theorem Agree.throw (fault : Fault) :
    Agree (throw fault : Synthesis α) (throw fault : Synthesis α) := fun _ _ _ => .error

theorem Agree.bind {f g : α → Synthesis β} (h : Agree x y) (hfg : ∀ a, Agree (f a) (g a)) :
    Agree (x >>= f) (y >>= g) := by
  intro st st' hst
  rw [StateT.run_bind, StateT.run_bind]
  refine (h st st' hst).bind ?_
  rintro ⟨a, after⟩ ⟨b, after'⟩ ⟨rfl, hafter⟩
  exact hfg a after after' hafter

theorem Agree.map (f : α → β) (h : Agree x y) : Agree (do return f (← x)) (do return f (← y)) :=
  h.bind fun a => .pure (f a)

theorem Agree.lift (x : Outcome α) : Agree (liftM x : Synthesis α) (liftM x : Synthesis α) := by
  intro st st' hst
  cases x with
  | ok a => exact .ok ⟨rfl, hst⟩
  | error fault => exact .error

theorem Agree.warn (p p' : Place) (kind : WarningKind) (message : String) :
    Agree (warn p kind message) (warn p' kind message) := by
  refine fun st st' hst => .ok ⟨rfl, hst.slots, hst.taken, ?_⟩
  rw [List.map_append, List.map_append, hst.warnings]
  rfl

theorem Agree.slot? (index : Nat) : Agree (slot? index) (slot? index) :=
  fun _ _ hst => .ok ⟨by rw [hst.slots], hst⟩

theorem Agree.setSlot (index : Nat) (slot : Slot) :
    Agree (setSlot index slot) (setSlot index slot) :=
  fun _ _ hst => .ok ⟨rfl, congrArg (·.set index slot) hst.slots, hst.taken, hst.warnings⟩

end Synthesis

open Synthesis

def Place.moved (p : Place) (location : String) : Place := { p with location }

def FollowAgrees (follow : Place → String → Synthesis TypeExpr) : Prop :=
  ∀ (p : Place) (location pointer : String),
    Agree (follow p pointer) (follow (p.moved location) pointer)

/-! ## Schemas -/

section

variable {sorted : Bool} {follow : Place → String → Synthesis TypeExpr}

mutual

theorem agree_type (hf : FollowAgrees follow) : ∀ (node : Node) (p : Place) (location : String),
    Agree (node.type sorted follow p) (node.type sorted follow (p.moved location))
  | ⟨kind, doc, nullable⟩, p, location => by
      rw [Node.type, Node.type]
      exact (agree_kindType hf kind p location).map _
termination_by structural node => node

theorem agree_kindType (hf : FollowAgrees follow) :
    ∀ (kind : Kind Node) (p : Place) (location : String),
      Agree (Node.kindType sorted follow p kind)
        (Node.kindType sorted follow (p.moved location) kind)
  | .any, p, location | .primitive .., p, location | .enum _, p, location => by
      rw [Node.kindType, Node.kindType]
      exact .pure _
  | .unsupported construct, p, location => by
      rw [Node.kindType, Node.kindType]
      exact (Agree.warn p (p.moved location) _ _).bind fun _ => .pure _
  | .array items, p, location => by
      rw [Node.kindType, Node.kindType]
      exact (agree_type hf items (p.below ["items"] true) _).map _
  | .object properties required additional, p, location => by
      rw [Node.kindType, Node.kindType]
      refine (agree_propertyTypes hf properties p location required).bind fun _ => ?_
      exact (agree_indexType hf additional p location).map _
  | .reference pointer, p, location => by
      rw [Node.kindType, Node.kindType]
      exact hf p location pointer
  | .composite keyword members, p, location => by
      rw [Node.kindType, Node.kindType]
      exact (agree_operands hf members p location _ _ _ _).map _
termination_by structural kind => kind

theorem agree_propertyTypes (hf : FollowAgrees follow) :
    ∀ (properties : List (String × Node)) (p : Place) (location : String) (required : List String),
      Agree (Node.propertyTypes sorted follow p required properties)
        (Node.propertyTypes sorted follow (p.moved location) required properties)
  | [], p, location, required => by
      rw [Node.propertyTypes, Node.propertyTypes]
      exact .pure _
  | (name, node) :: rest, p, location, required => by
      rw [Node.propertyTypes, Node.propertyTypes]
      refine (agree_type hf node (p.below ["properties", name] true) _).bind fun t => ?_
      exact (agree_propertyTypes hf rest p location required).map _
termination_by structural properties => properties

theorem agree_indexType (hf : FollowAgrees follow) :
    ∀ (additional : Additional Node) (p : Place) (location : String),
      Agree (Node.indexType sorted follow p additional)
        (Node.indexType sorted follow (p.moved location) additional)
  | .closed, p, location | .unrestricted, p, location => by
      rw [Node.indexType, Node.indexType]
      exact .pure _
  | .typed node, p, location => by
      rw [Node.indexType, Node.indexType]
      exact (agree_type hf node (p.below ["additionalProperties"] true) _).map _
termination_by structural additional => additional

theorem agree_operands (hf : FollowAgrees follow) :
    ∀ (members : List Node) (p : Place) (location : String) (joining : Joining) (lifted : Bool)
      (way : List String) (i : Nat),
      Agree (Node.operands sorted follow p joining lifted way i members)
        (Node.operands sorted follow (p.moved location) joining lifted way i members)
  | [], p, location, joining, lifted, way, i => by
      rw [Node.operands, Node.operands]
      exact .pure _
  | member :: rest, p, location, joining, lifted, way, i => by
      rw [Node.operands, Node.operands]
      refine (agree_operand hf member p location joining lifted _).bind fun first => ?_
      exact (agree_operands hf rest p location joining lifted way (i + 1)).map _
termination_by structural members => members

theorem agree_operand (hf : FollowAgrees follow) :
    ∀ (member : Node) (p : Place) (location : String) (joining : Joining) (lifted : Bool)
      (way : List String),
      Agree (Node.operand sorted follow p joining lifted way member)
        (Node.operand sorted follow (p.moved location) joining lifted way member)
  | ⟨kind, doc, nullable⟩, p, location, joining, lifted, way => by
      by_cases h : joining.standsAlone lifted ⟨kind, doc, nullable⟩ = true
      · rw [Setting.operand_of_standsAlone h, Setting.operand_of_standsAlone h, Node.type, Node.type]
        exact ((agree_kindType hf kind (p.below way false) _).map _).map _
      · match kind, nullable, h with
        | .composite inner members, false, h =>
            obtain ⟨rfl, same⟩ : lifted = false ∧ inner.isUnion = joining.union := by
              simpa [Joining.standsAlone] using h
            have hx := agree_operands hf members p location joining true (way ++ [inner.keyword]) 0
            simpa [Node.operand, same] using hx
        | .object properties required additional, false, h =>
            have hu : joining.union = false := by simpa [Joining.standsAlone] using h
            simp only [Node.operand, hu, Bool.false_eq_true, if_false]
            refine (agree_propertyTypes hf properties (p.below way false) _ _).bind fun _ => ?_
            exact (agree_indexType hf additional (p.below way false) _).map _
        | .any, false, h =>
            have hs : joining.skipsAny = true := by simpa [Joining.standsAlone] using h
            simp only [Node.operand, hs]
            exact .pure _
        | .primitive .., _, h | .enum _, _, h | .array _, _, h | .reference _, _, h
        | .unsupported _, _, h | .any, true, h | .object .., true, h
        | .composite .., true, h => exact absurd rfl h
termination_by structural member => member

end

end

namespace Setting

variable {s : Setting}

/-! ## References -/

variable {follow : Place → String → Synthesis TypeExpr}

theorem agree_declare (hf : FollowAgrees follow) (p : Place) (location : String) (index : Nat)
    (d : Definition) :
    Agree (s.declare follow p index d) (s.declare follow (p.moved location) index d) := by
  unfold declare
  refine (Agree.setSlot index .inProgress).bind fun _ => ?_
  exact (agree_type hf d.root p location).bind fun t => .setSlot index _

theorem agree_definitionType (hf : FollowAgrees follow) (p : Place) (location : String)
    (index : Nat) :
    Agree (s.definitionType follow p index) (s.definitionType follow (p.moved location) index) := by
  have hnamed : Agree (return TypeExpr.named (s.nameOf index))
      (return TypeExpr.named (s.nameOf index)) := .pure _
  unfold definitionType
  refine (Agree.slot? index).bind fun slot => ?_
  simp only [Place.moved]
  cases s.definitions.entries[index]? with
  | none => rcases slot with _ | _ | _ | _ <;> exact hnamed
  | some d =>
      rcases slot with _ | _ | _ | _
      case some.done => exact hnamed
      all_goals
        dsimp only
        cases p.chain.enter d.pointer p.depth with
        | entered chain =>
            exact (agree_declare hf (p.into d.pointer chain) d.pointer index d).bind fun _ => hnamed
        | cycle guarded =>
            cases guarded with
            | true => exact hnamed
            | false => exact (Agree.warn p (p.moved location) _ _).bind fun _ => .pure _

theorem agree_referenceType (hf : FollowAgrees follow) (p : Place) (location pointer : String) :
    Agree (s.referenceType follow p pointer) (s.referenceType follow (p.moved location) pointer) := by
  unfold referenceType
  refine (Agree.lift (s.definitions.resolve pointer)).bind fun target => ?_
  split
  · exact agree_definitionType hf p location target.definition
  · simp only [Place.moved]
    cases p.chain.enter target.pointer p.depth with
    | entered chain => exact agree_type hf target.node (p.into target.pointer chain) target.pointer
    | cycle guarded => exact (Agree.warn p (p.moved location) _ _).bind fun _ => .pure _

theorem agree_within (s : Setting) (budget : Nat) : FollowAgrees (s.within budget) := by
  induction budget with
  | zero => exact fun _ _ _ => .throw .exhausted
  | succ budget ih => exact fun p location pointer => agree_referenceType ih p location pointer

/-- The type of a schema is the same at whichever pointer the schema stands. -/
theorem agree_typeOf (s : Setting) (p : Place) (location : String) (node : Node) :
    Agree (s.typeOf p node) (s.typeOf (p.moved location) node) :=
  agree_type (s.agree_within _) node p location

/-- So are the properties of two parameters that say the same of their values. -/
theorem agree_queryProperty (s : Setting) {placed placed' : PlacedParameter}
    (hname : placed'.parameter.name = placed.parameter.name)
    (hrequired : placed'.parameter.required = placed.parameter.required)
    (hdoc : placed'.parameter.description = placed.parameter.description)
    (hschema : placed'.parameter.schema = placed.parameter.schema) :
    Agree (s.queryProperty placed) (s.queryProperty placed') := by
  unfold queryProperty
  simp only [hname, hrequired, hdoc, hschema]
  exact (s.agree_typeOf placed.place placed'.place.location placed.parameter.schema).map _

end Setting

end SwaggerTypes
