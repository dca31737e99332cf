import SwaggerTypes.Proofs.Adequacy
import SwaggerTypes.Proofs.Reach
import SwaggerTypes.Proofs.ReorderedTypes
/-!
# Builds with sorted properties

A build that sorts properties goes step by step like one that does not: it meets the same schemas in
the same order, with the same declarations finished, so it warns of the same and fails in the same
way. What it finds differs in the order of properties, and where merging compares types that are only
the same once they are sorted.
-/

namespace SwaggerTypes

/-! ## Steps side by side -/

inductive SameOutcome {α β : Type} (R : α → β → Prop) : Outcome α → Outcome β → Prop
  | ok {a : α} {b : β} (h : R a b) : SameOutcome R (.ok a) (.ok b)
  | error {fault : Fault} : SameOutcome R (.error fault) (.error fault)

namespace SameOutcome

variable {α β γ δ : Type} {R : α → β → Prop} {S : γ → δ → Prop} {x : Outcome α} {y : Outcome β}

theorem bind {f : α → Outcome γ} {g : β → Outcome δ} (h : SameOutcome R x y)
    (hfg : ∀ {a b}, R a b → SameOutcome S (f a) (g b)) : SameOutcome S (x >>= f) (y >>= g) := by
  cases h with
  | ok hab => exact hfg hab
  | error => exact .error

theorem exists_ok {a : α} (h : SameOutcome R x y) (hx : x = .ok a) : ∃ b, y = .ok b := by
  cases h with
  | ok => exact ⟨_, rfl⟩
  | error => cases hx

end SameOutcome

def Declaration.reduced : Declaration → Declaration := mapType TypeExpr.reduced

def Declaration.Steady (d : Declaration) : Prop :=
  match d.body with
  | .interface o => (TypeExpr.object o).Steady
  | .synonym t => t.Steady

/-- A declaration built with sorted properties, next to the same built without. They reduce to the
same declaration once both are ordered, and a steady declaration is only ordered. -/
structure Declaration.Reordered (d d' : Declaration) : Prop where
  reduced : d'.reduced = d.ordered.reduced
  eq : d.Steady → d' = d.ordered

inductive Slot.Alike : Slot → Slot → Prop
  | pending : Alike .pending .pending
  | inProgress : Alike .inProgress .inProgress
  | done {d d' : Declaration} (h : d.Reordered d') : Alike (.done d) (.done d')

structure Progress.Alike (st st' : Progress) : Prop where
  slots : List.Forall₂ Slot.Alike st.slots st'.slots
  warnings : st'.warnings = st.warnings
  taken : st'.taken = st.taken

section

variable {α β : Type} {R : α → β → Prop} {as : List α} {bs : List β}

theorem rel_getElem? (h : List.Forall₂ R as bs) (i : Nat) : Option.Rel R as[i]? bs[i]? := by
  induction h generalizing i with
  | nil => exact .none
  | cons hab _ ih =>
      cases i with
      | zero => exact .some hab
      | succ i => exact ih i

theorem forall₂_set {a : α} {b : β} (h : List.Forall₂ R as bs) (i : Nat) (hab : R a b) :
    List.Forall₂ R (as.set i a) (bs.set i b) := by
  induction h generalizing i with
  | nil => exact .nil
  | cons hhead htail ih =>
      cases i with
      | zero => exact .cons hab htail
      | succ i => exact .cons hhead (ih i)

end

namespace Synthesis

/-- Two steps that go side by side: from alike progress both fail in the same way, or find what `R`
relates and leave alike progress behind. -/
def Parallel {α β : Type} (R : α → β → Prop) (x : Synthesis α) (y : Synthesis β) : Prop :=
  ∀ st st' : Progress, st.Alike st' →
    SameOutcome (fun a b => R a.1 b.1 ∧ a.2.Alike b.2) (x.run st) (y.run st')

variable {α β γ δ : Type} {R : α → β → Prop} {S : γ → δ → Prop} {x : Synthesis α} {y : Synthesis β}

theorem Parallel.pure {a : α} {b : β} (h : R a b) : Parallel R (Pure.pure a) (Pure.pure b) :=
  fun _ _ hst => .ok ⟨h, hst⟩

theorem Parallel.throw {fault : Fault} :
    Parallel R (throw fault : Synthesis α) (throw fault : Synthesis β) := fun _ _ _ => .error

theorem Parallel.bind {f : α → Synthesis γ} {g : β → Synthesis δ} (h : Parallel R x y)
    (hfg : ∀ {a b}, R a b → Parallel S (f a) (g b)) : Parallel S (x >>= f) (y >>= g) := by
  intro st st' hst
  rw [StateT.run_bind, StateT.run_bind]
  exact (h st st' hst).bind fun hab => hfg hab.1 _ _ hab.2

theorem Parallel.map {f : α → γ} {g : β → δ} (h : Parallel R x y)
    (hfg : ∀ {a b}, R a b → S (f a) (g b)) :
    Parallel S (do return f (← x)) (do return g (← y)) :=
  h.bind fun hab => .pure (hfg hab)

theorem Parallel.lift (x : Outcome α) :
    Parallel Eq (liftM x : Synthesis α) (liftM x : Synthesis α) := by
  intro st st' hst
  cases x with
  | ok a => exact .ok ⟨rfl, hst⟩
  | error fault => exact .error

theorem Parallel.warn (p : Place) (kind : WarningKind) (message : String) :
    Parallel Eq (warn p kind message) (warn p kind message) :=
  fun _ _ hst => .ok ⟨rfl, hst.slots, congrArg (· ++ _) hst.warnings, hst.taken⟩

theorem Parallel.slot? (index : Nat) :
    Parallel (Option.Rel Slot.Alike) (slot? index) (slot? index) :=
  fun _ _ hst => .ok ⟨rel_getElem? hst.slots index, hst⟩

theorem Parallel.setSlot {slot slot' : Slot} (index : Nat) (h : slot.Alike slot') :
    Parallel Eq (setSlot index slot) (setSlot index slot') :=
  fun _ _ hst => .ok ⟨rfl, forall₂_set hst.slots index h, hst.warnings, hst.taken⟩

theorem Parallel.takeName (base pointer : String) :
    Parallel Eq (takeName base pointer) (takeName base pointer) := by
  intro st st' hst
  obtain ⟨slots, warnings, taken⟩ := st
  obtain ⟨slots', warnings', taken'⟩ := st'
  obtain ⟨hslots, rfl, rfl⟩ := hst
  exact .ok ⟨rfl, hslots, rfl, rfl⟩

theorem Parallel.mapM {f : α → Synthesis γ} {g : α → Synthesis δ}
    (h : ∀ a, Parallel S (f a) (g a)) (as : List α) :
    Parallel (List.Forall₂ S) (as.mapM f) (as.mapM g) := by
  induction as with
  | nil => exact .pure .nil
  | cons a as ih =>
      rw [List.mapM_cons, List.mapM_cons]
      exact (h a).bind fun ha => ih.bind fun has => .pure (.cons ha has)

theorem Parallel.forM {f g : α → Synthesis PUnit}
    (h : ∀ a, Parallel Eq (f a) (g a)) (as : List α) :
    Parallel Eq (as.forM f) (as.forM g) := by
  induction as with
  | nil => exact .pure rfl
  | cons a as ih =>
      show Parallel Eq (f a >>= fun _ => as.forM f) (g a >>= fun _ => as.forM g)
      exact (h a).bind fun _ => ih

end Synthesis

/-! ## Schemas -/

open Synthesis

section

variable {follow follow' : Place → String → Synthesis TypeExpr}

def FollowParallel (follow follow' : Place → String → Synthesis TypeExpr) : Prop :=
  ∀ p pointer, Parallel TypeExpr.Aligned (follow p pointer) (follow' p pointer)

mutual

theorem parallel_type (hf : FollowParallel follow follow') :
    ∀ (node : Node) (p : Place),
      Parallel TypeExpr.Aligned (node.type false follow p) (node.type true follow' p)
  | ⟨kind, doc, nullable⟩, p => by
      rw [Node.type, Node.type]
      exact (parallel_kindType hf kind p).map fun h => h.orNull nullable
termination_by structural node => node

theorem parallel_kindType (hf : FollowParallel follow follow') :
    ∀ (kind : Kind Node) (p : Place),
      Parallel TypeExpr.Aligned (Node.kindType false follow p kind) (Node.kindType true follow' p kind)
  | .any, p => by
      rw [Node.kindType, Node.kindType]
      exact .pure .base
  | .primitive type format, p => by
      rw [Node.kindType, Node.kindType]
      exact .pure .base
  | .enum values, p => by
      rw [Node.kindType, Node.kindType]
      exact .pure (.ofLiterals values)
  | .unsupported construct, p => by
      rw [Node.kindType, Node.kindType]
      exact (Parallel.warn _ _ _).bind fun _ => .pure .base
  | .array items, p => by
      rw [Node.kindType, Node.kindType]
      exact (parallel_type hf items _).map .array
  | .object properties required additional, p => by
      rw [Node.kindType, Node.kindType]
      refine (parallel_propertyTypes hf properties p required).bind fun hproperties => ?_
      exact (parallel_indexType hf additional p).map fun hindex =>
        (ObjectType.Related.reordered ⟨hproperties, hindex⟩).aligned
  | .reference pointer, p => by
      rw [Node.kindType, Node.kindType]
      exact hf p pointer
  | .composite keyword members, p => by
      rw [Node.kindType, Node.kindType]
      exact (parallel_operands hf members p _ _ _ _).map fun h => Operand.aligned_combine _ h
termination_by structural kind => kind

theorem parallel_propertyTypes (hf : FollowParallel follow follow') :
    ∀ (properties : List (String × Node)) (p : Place) (required : List String),
      Parallel (List.Forall₂ (Property.Related TypeExpr.Reordered))
        (Node.propertyTypes false follow p required properties)
        (Node.propertyTypes true follow' p required properties)
  | [], p, required => by
      rw [Node.propertyTypes, Node.propertyTypes]
      exact .pure .nil
  | (name, node) :: rest, p, required => by
      rw [Node.propertyTypes, Node.propertyTypes]
      refine (parallel_type hf node _).bind fun ht => ?_
      exact (parallel_propertyTypes hf rest p required).map fun hrest =>
        .cons ⟨rfl, ht.toReordered, rfl, rfl, rfl⟩ hrest
termination_by structural properties => properties

theorem parallel_indexType (hf : FollowParallel follow follow') :
    ∀ (additional : Additional Node) (p : Place),
      Parallel (Option.Rel TypeExpr.Reordered) (Node.indexType false follow p additional)
        (Node.indexType true follow' p additional)
  | .closed, p => by
      rw [Node.indexType, Node.indexType]
      exact .pure .none
  | .unrestricted, p => by
      rw [Node.indexType, Node.indexType]
      exact .pure (.some TypeExpr.Aligned.base.toReordered)
  | .typed node, p => by
      rw [Node.indexType, Node.indexType]
      exact (parallel_type hf node _).map fun h => .some h.toReordered
termination_by structural additional => additional

theorem parallel_operands (hf : FollowParallel follow follow') :
    ∀ (members : List Node) (p : Place) (joining : Joining) (lifted : Bool) (way : List String)
      (i : Nat),
      Parallel (List.Forall₂ Operand.Reordered)
        (Node.operands false follow p joining lifted way i members)
        (Node.operands true follow' p joining lifted way i members)
  | [], p, joining, lifted, way, i => by
      rw [Node.operands, Node.operands]
      exact .pure .nil
  | member :: rest, p, joining, lifted, way, i => by
      rw [Node.operands, Node.operands]
      refine (parallel_operand hf member p joining lifted _).bind fun hfirst => ?_
      exact (parallel_operands hf rest p joining lifted way (i + 1)).map fun hrest =>
        List.rel_append hfirst hrest
termination_by structural members => members

theorem parallel_operand (hf : FollowParallel follow follow') :
    ∀ (member : Node) (p : Place) (joining : Joining) (lifted : Bool) (way : List String),
      Parallel (List.Forall₂ Operand.Reordered)
        (Node.operand false follow p joining lifted way member)
        (Node.operand true follow' p joining lifted way member)
  | ⟨kind, doc, nullable⟩, p, joining, lifted, way => by
      by_cases h : joining.standsAlone lifted ⟨kind, doc, nullable⟩ = true
      · rw [Setting.operand_of_standsAlone h, Setting.operand_of_standsAlone h, Node.type, Node.type]
        exact ((parallel_kindType hf kind _).map fun h => h.orNull nullable).map fun h =>
          .cons (.type h) .nil
      · match kind, nullable, h with
        | .composite inner members, false, h =>
            obtain ⟨rfl, same⟩ : lifted = false ∧ inner.isUnion = joining.union := by
              simpa [Joining.standsAlone] using h
            have hx := parallel_operands hf members p joining true (way ++ [inner.keyword]) 0
            simpa [Node.operand, same] using hx
        | .object properties required additional, false, h =>
            have hu : joining.union = false := by simpa [Joining.standsAlone] using h
            simp only [Node.operand, hu, Bool.false_eq_true, if_false]
            refine (parallel_propertyTypes hf properties _ _).bind fun hproperties => ?_
            refine (parallel_indexType hf additional _).map fun hindex => ?_
            exact .cons (.object (ObjectType.Related.reordered ⟨hproperties, hindex⟩).arrange) .nil
        | .any, false, h =>
            have hs : joining.skipsAny = true := by simpa [Joining.standsAlone] using h
            simp only [Node.operand, hs]
            exact .pure .nil
        | .primitive .., _, h | .enum _, _, h | .array _, _, h | .reference _, _, h
        | .unsupported _, _, h | .any, true, h | .object .., true, h
        | .composite .., true, h => exact absurd rfl h
termination_by structural member => member

end

end

/-! ## Declarations -/

namespace Declaration

variable {t t' : TypeExpr} (name : String) (exported : Bool) (doc : Option String)

theorem ordered_interface (o : ObjectType TypeExpr) :
    ordered ⟨name, exported, doc, .interface o⟩ =
      ⟨name, exported, doc, .interface (o.map TypeExpr.ordered).sortProperties⟩ := by
  show (⟨name, exported, doc, .ofType true (TypeExpr.object o).ordered⟩ : Declaration) = _
  rw [TypeExpr.ordered_object]
  rfl

theorem reordered_synonym (h : t.Reordered t') :
    Reordered ⟨name, exported, doc, .synonym t⟩ ⟨name, exported, doc, .synonym t'⟩ where
  reduced := congrArg (fun u => (⟨name, exported, doc, .synonym u⟩ : Declaration)) h.reduced
  eq := fun hs => congrArg (fun u => (⟨name, exported, doc, .synonym u⟩ : Declaration)) (h.eq hs)

theorem reordered_interface {o o' : ObjectType TypeExpr}
    (h : (TypeExpr.object o).Reordered (.object o')) :
    Reordered ⟨name, exported, doc, .interface o⟩ ⟨name, exported, doc, .interface o'⟩ where
  reduced := by
    have hreduced := h.reduced
    rw [TypeExpr.ordered_object] at hreduced
    rw [ordered_interface]
    exact congrArg (fun u => (⟨name, exported, doc, .ofType true u⟩ : Declaration)) hreduced
  eq := by
    intro hs
    have heq := h.eq hs
    rw [TypeExpr.ordered_object] at heq
    rw [ordered_interface, TypeExpr.object.inj heq]

theorem reordered_ofType (isInterface : Bool) (h : t.Aligned t') :
    Reordered ⟨name, exported, doc, .ofType isInterface t⟩
      ⟨name, exported, doc, .ofType isInterface t'⟩ := by
  by_cases hobject : isInterface = true ∧ t.frame = .object
  · obtain ⟨rfl, hframe⟩ := hobject
    obtain ⟨o, rfl⟩ := TypeExpr.frame_eq_object.mp hframe
    obtain ⟨o', rfl⟩ := TypeExpr.frame_eq_object.mp (h.frame.trans hframe)
    exact reordered_interface name exported doc h.toReordered
  · have hsynonym : ∀ u : TypeExpr, u.frame = t.frame →
        DeclarationBody.ofType isInterface u = .synonym u := by
      intro u hu
      cases isInterface with
      | false => rfl
      | true =>
          cases u with
          | object o => exact absurd ⟨rfl, hu.symm⟩ hobject
          | _ => rfl
    rw [hsynonym t rfl, hsynonym t' h.frame]
    exact reordered_synonym name exported doc h.toReordered

end Declaration

namespace Setting

def arranged (s : Setting) (sorted : Bool) : Setting := { s with sorted }

variable {s : Setting} {follow follow' : Place → String → Synthesis TypeExpr}

theorem parallel_declare (hf : FollowParallel follow follow') (p : Place) (index : Nat)
    (d : Definition) :
    Parallel Eq ((s.arranged false).declare follow p index d)
      ((s.arranged true).declare follow' p index d) := by
  unfold declare
  refine (Parallel.setSlot index .inProgress).bind fun _ => ?_
  refine (parallel_type hf d.root p).bind fun ht => ?_
  exact .setSlot index (.done (Declaration.reordered_ofType _ _ _ _ ht))

theorem parallel_definitionType (hf : FollowParallel follow follow') (p : Place) (index : Nat) :
    Parallel TypeExpr.Aligned ((s.arranged false).definitionType follow p index)
      ((s.arranged true).definitionType follow' p index) := by
  have hnamed : Parallel TypeExpr.Aligned (return .named (s.nameOf index))
      (return .named (s.nameOf index)) := .pure (.of_ordered rfl)
  unfold definitionType
  refine (Parallel.slot? index).bind fun hslot => ?_
  simp only [arranged]
  cases s.definitions.entries[index]? with
  | none =>
      rcases hslot with (_ | _ | _) | _
      all_goals exact hnamed
  | some d =>
      rcases hslot with (_ | _ | _) | _
      case some.done => exact hnamed
      all_goals
        dsimp only
        cases p.chain.enter d.pointer p.depth with
        | entered chain => exact (parallel_declare hf _ index d).bind fun _ => hnamed
        | cycle guarded =>
            cases guarded with
            | true => exact hnamed
            | false => exact (Parallel.warn _ _ _).bind fun _ => .pure .base

theorem parallel_referenceType (hf : FollowParallel follow follow') (p : Place) (pointer : String) :
    Parallel TypeExpr.Aligned ((s.arranged false).referenceType follow p pointer)
      ((s.arranged true).referenceType follow' p pointer) := by
  unfold referenceType
  refine (Parallel.lift (s.definitions.resolve pointer)).bind fun {target target'} heq => ?_
  subst heq
  split
  · exact parallel_definitionType hf p target.definition
  · cases p.chain.enter target.pointer p.depth with
    | entered chain => exact parallel_type hf target.node _
    | cycle guarded => exact (Parallel.warn _ _ _).bind fun _ => .pure .base

theorem parallel_within (budget : Nat) :
    FollowParallel ((s.arranged false).within budget) ((s.arranged true).within budget) := by
  induction budget with
  | zero => exact fun _ _ => .throw
  | succ budget ih => exact fun p pointer => parallel_referenceType ih p pointer

theorem parallel_declareAll :
    Parallel Eq (s.arranged false).declareAll (s.arranged true).declareAll := by
  refine .forM (fun index => ?_) _
  exact (parallel_definitionType (parallel_within _) {} index).bind fun _ => .pure rfl

/-! ## Query interfaces -/

variable {model : SchemaModel}

theorem parallel_queryProperty (placed : PlacedParameter) :
    Parallel (Property.Related TypeExpr.Reordered) ((s.arranged false).queryProperty placed)
      ((s.arranged true).queryProperty placed) :=
  (parallel_type (parallel_within _) placed.parameter.schema _).map fun ht =>
    ⟨rfl, ht.toReordered, rfl, rfl, rfl⟩

theorem parallel_queryDeclaration (op : Operation) :
    Parallel (Option.Rel Declaration.Reordered) ((s.arranged false).queryDeclaration model op)
      ((s.arranged true).queryDeclaration model op) := by
  unfold queryDeclaration
  refine (Parallel.lift (model.effectiveParameters op)).bind fun {list list'} heq => ?_
  subst heq
  dsimp only
  split
  · exact .pure .none
  · refine (Parallel.mapM parallel_queryProperty _).bind fun {ps ps'} hproperties => ?_
    refine (Parallel.takeName op.queryName op.pointer).bind fun {name name'} heq => ?_
    subst heq
    have hobject : ObjectType.Related TypeExpr.Reordered ⟨ps, none⟩ ⟨ps', none⟩ :=
      ⟨hproperties, .none⟩
    exact .pure (.some (Declaration.reordered_interface _ _ _ hobject.reordered.aligned.toReordered))

theorem parallel_queryDeclarations :
    Parallel (List.Forall₂ Declaration.Reordered) ((s.arranged false).queryDeclarations model)
      ((s.arranged true).queryDeclarations model) := by
  unfold queryDeclarations
  split
  · exact .throw
  · refine (Parallel.mapM parallel_queryDeclaration _).map fun h => ?_
    exact List.rel_filterMap (fun _ _ h => h) h

end Setting

/-! ## Builds -/

/-- Builds with the same warnings and with declarations that differ in the order of properties. -/
structure Build.Reordered (b b' : Build) : Prop where
  declarations : List.Forall₂ Declaration.Reordered b.declarations b'.declarations
  warnings : b'.warnings = b.warnings

namespace SchemaModel

theorem forall₂_finished {slots slots' : List Slot} (h : List.Forall₂ Slot.Alike slots slots') :
    List.Forall₂ Declaration.Reordered (finished slots) (finished slots') := by
  refine List.rel_filterMap ?_ h
  intro slot slot' h
  cases h with
  | pending | inProgress => exact .none
  | done h => exact .some h

theorem start_alike (model : SchemaModel) : model.start.Alike model.start := by
  refine ⟨?_, rfl, rfl⟩
  rw [start_slots, List.forall₂_map_left_iff, List.forall₂_map_right_iff]
  exact List.forall₂_same.mpr fun _ _ => .pending

def synthesis (model : SchemaModel) (sorted withQuery : Bool) : Synthesis (List Declaration) := do
  (model.setting sorted).declareAll
  if withQuery then (model.setting sorted).queryDeclarations model else return []

theorem build_eq (model : SchemaModel) (sorted withQuery : Bool) :
    model.build sorted withQuery =
      (do
        let r ← (model.synthesis sorted withQuery).run model.start
        return ⟨finished r.2.slots ++ r.1, r.2.warnings⟩) := rfl

theorem parallel_synthesis (model : SchemaModel) (withQuery : Bool) :
    Parallel (List.Forall₂ Declaration.Reordered) (model.synthesis false withQuery)
      (model.synthesis true withQuery) := by
  refine (Setting.parallel_declareAll (s := model.setting false)).bind fun _ => ?_
  split
  · exact Setting.parallel_queryDeclarations (s := model.setting false)
  · exact .pure .nil

/-- Where a build without sorted properties succeeds, the one with them does. -/
theorem exists_build_sorted {model : SchemaModel} {withQuery : Bool} {b : Build}
    (h : model.build false withQuery = .ok b) : ∃ b', model.build true withQuery = .ok b' := by
  have hrun := model.parallel_synthesis withQuery _ _ model.start_alike
  have hbuild : SameOutcome (fun _ _ => True) (model.build false withQuery)
      (model.build true withQuery) := by
    rw [build_eq, build_eq]
    exact hrun.bind fun _ => .ok trivial
  exact hbuild.exists_ok h

/-- A build with sorted properties succeeds exactly when the build without does, or fails with the same
fault. It raises the same warnings, and its declarations are those of the other build with the
properties of all objects ordered by name: exactly, where ordering makes no member of an intersection
repeat those before it, and up to members that repeat in any case. -/
theorem build_sorted (model : SchemaModel) (withQuery : Bool) :
    SameOutcome Build.Reordered (model.build false withQuery) (model.build true withQuery) := by
  have hrun := model.parallel_synthesis withQuery _ _ model.start_alike
  rw [build_eq, build_eq]
  exact hrun.bind fun h =>
    .ok ⟨List.rel_append (forall₂_finished h.2.slots) h.1, h.2.warnings⟩

def pair (first second : String) : Node :=
  .bare (.object [(first, .bare .any), (second, .bare .any)] [] .closed)

def twice : SchemaModel where
  definitions :=
    { entries :=
        [⟨.definitions, "A", .bare <| .composite .allOf
            [.bare (.object [("v", pair "a" "b")] [] .closed),
              .bare (.object [("v", pair "b" "a")] [] .closed)]⟩]
      nodup := by decide }

def plainProperty (name : String) (t : TypeExpr) : Property TypeExpr := ⟨name, t, true, none, none⟩

def plainPair (first second : String) : ObjectType TypeExpr :=
  ⟨[plainProperty first .any, plainProperty second .any], none⟩

def twiceOperand (sorted : Bool) (first second : String) : Operand :=
  .object <| .arrange sorted
    ⟨[plainProperty "v" (.object (.arrange sorted (plainPair first second)))], none⟩

def twiceType (sorted : Bool) : TypeExpr :=
  Operand.combine sorted false [twiceOperand sorted "a" "b", twiceOperand sorted "b" "a"]

theorem twice_build (sorted : Bool) : twice.build sorted false =
    .ok ⟨[⟨Text.sanitize "A", true, none, .synonym (twiceType sorted)⟩], []⟩ := rfl

/-- In whichever order the two properties come, they are sorted in the same one. -/
theorem plainPair_sorted : (plainPair "a" "b").sortProperties = plainPair "a" "b" ∧
    (plainPair "b" "a").sortProperties = plainPair "a" "b" := by
  constructor <;>
    simp [plainPair, plainProperty, ObjectType.sortProperties, List.mergeSort,
      List.MergeSort.Internal.splitInTwo]

theorem twiceOperand_sorted {first second : String}
    (h : (plainPair first second).sortProperties = plainPair "a" "b") :
    twiceOperand true first second =
      .object ⟨[plainProperty "v" (.object (plainPair "a" "b"))], none⟩ := by
  rw [twiceOperand, ObjectType.arrange, if_pos rfl, ObjectType.arrange, if_pos rfl, h,
    ObjectType.sortProperties_singleton]

theorem twiceType_sorted :
    twiceType true = .object ⟨[plainProperty "v" (.object (plainPair "a" "b"))], none⟩ := by
  obtain ⟨hab, hba⟩ := plainPair_sorted
  rw [twiceType, twiceOperand_sorted hab, twiceOperand_sorted hba]
  exact congrArg TypeExpr.object (ObjectType.sortProperties_singleton _ _)

theorem twiceType_plain : twiceType false = .object ⟨[plainProperty "v" (.intersection
    [.object (plainPair "a" "b"), .object (plainPair "b" "a")])], none⟩ := rfl

theorem ordered_plainPair {first second : String}
    (h : (plainPair first second).sortProperties = plainPair "a" "b") :
    (TypeExpr.object (plainPair first second)).ordered = .object (plainPair "a" "b") := by
  rw [TypeExpr.ordered_object, ← h]
  rfl

theorem ordered_plainProperty (name : String) (t : TypeExpr) :
    (TypeExpr.object ⟨[plainProperty name t], none⟩).ordered =
      .object ⟨[plainProperty name t.ordered], none⟩ := by
  rw [TypeExpr.ordered_object]
  exact congrArg TypeExpr.object (ObjectType.sortProperties_singleton _ _)

theorem twiceType_ordered : (twiceType false).ordered = .object ⟨[plainProperty "v" (.intersection
    [.object (plainPair "a" "b"), .object (plainPair "a" "b")])], none⟩ := by
  obtain ⟨hab, hba⟩ := plainPair_sorted
  rw [twiceType_plain, ordered_plainProperty, TypeExpr.ordered_intersection, List.map_cons,
    List.map_cons, List.map_nil, ordered_plainPair hab, ordered_plainPair hba]

/-- The two types of `v` are the same once they are sorted, and then they are not intersected. -/
theorem twice_not_only_ordered : ∃ b b', twice.build false false = .ok b ∧
    twice.build true false = .ok b' ∧
      b'.declarations ≠ b.declarations.map Declaration.ordered := by
  refine ⟨_, _, twice_build false, twice_build true, fun heq => ?_⟩
  have htype : twiceType true = (twiceType false).ordered :=
    DeclarationBody.synonym.inj (congrArg Declaration.body (List.head_eq_of_cons_eq heq))
  rw [twiceType_sorted, twiceType_ordered] at htype
  cases htype

end SchemaModel

end SwaggerTypes
