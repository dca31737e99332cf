import SwaggerTypes.Proofs.Approximation
import SwaggerTypes.Proofs.DanglingReferences
import SwaggerTypes.Proofs.GivenTypes
import SwaggerTypes.Proofs.Routines
import SwaggerTypes.Proofs.Termination
/-!
# Routines answer as the synthesis does

A routine that may call itself often enough comes to what the synthesis of the same thing comes to, with
the same progress, and it is back where it began. How many calls are enough is bounded by the budget of
references and by the sizes of the schemas: a call goes to a smaller schema or to the target of a
reference.
-/

namespace SwaggerTypes

namespace Routine

variable {α β : Type}

def result (x : Routine α) (m : Synthesizer) : Outcome (α × Progress) :=
  (x.outcome m).1.map fun a => (a, (x.outcome m).2.toProgress)

/-- At a place a routine answers as a synthesis does and is back at the place then, unless that runs out
of its budget. -/
structure Answers (x : Routine α) (p : Place) (y : Synthesis α) : Prop where
  agrees : ∀ m, m.toPlace = p → y.run m.toProgress ≠ .error .exhausted →
    (x.outcome m).2.toPlace = p ∧ x.result m = y.run m.toProgress

namespace Answers

variable {x : Routine α} {y : Synthesis α} {f : α → Routine β} {g : α → Synthesis β} {p : Place}

theorem ofOutcome (r : Outcome α) : (ofOutcome r).Answers p (liftM r) := by
  refine ⟨fun m hm _ => ⟨hm, ?_⟩⟩
  cases r <;> rfl

theorem pure (a : α) : (Pure.pure a : Routine α).Answers p (Pure.pure a) :=
  ⟨fun _ hm _ => ⟨hm, rfl⟩⟩

theorem exhausted : x.Answers p (throw .exhausted) := ⟨fun _ _ h => absurd rfl h⟩

theorem bind (hx : x.Answers p y) (hf : ∀ a, (f a).Answers p (g a)) :
    (x >>= f).Answers p (y >>= g) := by
  refine ⟨fun m hm hb => ?_⟩
  have hy : y.run m.toProgress ≠ .error .exhausted := by
    intro h
    rw [StateT.run_bind, h] at hb
    exact hb rfl
  obtain ⟨hplace, hxy⟩ := hx.agrees m hm hy
  rcases bind_cases x f m with ⟨fault, hfault, houtcome⟩ | ⟨a, ha, houtcome⟩
  · have hresult : x.result m = .error fault := by
      rw [result, hfault]
      rfl
    rw [StateT.run_bind, ← hxy, hresult, result, houtcome]
    exact ⟨hplace, rfl⟩
  · have hresult : x.result m = .ok (a, (x.outcome m).2.toProgress) := by
      rw [result, ha]
      rfl
    rw [StateT.run_bind, ← hxy, hresult] at hb ⊢
    have hfg := (hf a).agrees _ hplace hb
    rw [result] at hfg ⊢
    rw [houtcome]
    exact hfg

theorem mapM {k : α → Routine β} {k' : α → Synthesis β} {l : List α}
    (h : ∀ a ∈ l, (k a).Answers p (k' a)) : (l.mapM k).Answers p (l.mapM k') := by
  induction l with
  | nil =>
      rw [List.mapM_nil, List.mapM_nil]
      exact .pure []
  | cons a l ih =>
      rw [List.mapM_cons, List.mapM_cons]
      have hrest := ih fun b hb => h b (List.mem_cons_of_mem _ hb)
      exact (h a List.mem_cons_self).bind fun b => hrest.bind fun bs => .pure (b :: bs)

theorem forM {k : α → Routine PUnit} {k' : α → Synthesis PUnit} {l : List α}
    (h : ∀ a ∈ l, (k a).Answers p (k' a)) : (l.forM k).Answers p (l.forM k') := by
  induction l with
  | nil => exact .pure ()
  | cons a l ih =>
      have hrest := ih fun b hb => h b (List.mem_cons_of_mem _ hb)
      exact (h a List.mem_cons_self).bind fun _ => hrest

theorem step (k : Place → Synthesis α) : (Routine.step k).Answers p (k p) := by
  refine ⟨fun m hm _ => ?_⟩
  subst hm
  rw [result, outcome_step]
  rcases (k m.toPlace).run m.toProgress with fault | ⟨a, st⟩ <;> exact ⟨rfl, rfl⟩

theorem observed (h : x.Answers p y) : (Routine.observed x).Answers p y := by
  refine ⟨fun m hm hb => ?_⟩
  have houtcome := outcome_observed (m := m) (x := x)
  simp only at houtcome
  have hx := h.agrees { m with history := m.history ++ [(m.toPlace, m.toProgress)] } hm hb
  rw [result] at hx ⊢
  rw [houtcome]
  revert hx
  rcases x.outcome _ with ⟨fault | a, m'⟩ <;> exact id

theorem moved {x' : Routine α} {q : Place} (h : x.Answers q y)
    (houtcome : ∀ m : Synthesizer, m.toPlace = p →
      (x.outcome { m with toPlace := q }).2.toPlace = q →
      x'.outcome m =
        let r := x.outcome { m with toPlace := q }
        (r.1, { r.2 with toPlace := m.toPlace })) : x'.Answers p y := by
  refine ⟨fun m hm hb => ?_⟩
  obtain ⟨hplace, hxy⟩ := h.agrees { m with toPlace := q } rfl hb
  rw [result, houtcome m hm hplace]
  exact ⟨hm, hxy⟩

theorem descend {segments : List String} {part : Bool} (h : x.Answers (p.below segments part) y) :
    (Routine.descend segments part x).Answers p y := by
  refine h.moved fun m hm hplace => ?_
  subst hm
  exact outcome_descend hplace

theorem relocate {location : String} (h : x.Answers { p with location } y) :
    (Routine.relocate location x).Answers p y := by
  refine h.moved fun m hm hplace => ?_
  subst hm
  exact outcome_relocate hplace

theorem visit {pointer : String} {again : Bool → Routine α}
    (hx : ∀ chain, p.chain.enter pointer p.depth = .entered chain →
      x.Answers { p with chain } y)
    (hagain : ∀ guarded, p.chain.enter pointer p.depth = .cycle guarded →
      (again guarded).Answers p y) : (Routine.visit pointer x again).Answers p y := by
  cases hvisit : p.chain.enter pointer p.depth with
  | entered chain =>
      refine (hx chain hvisit).moved fun m hm hplace => ?_
      subst hm
      exact outcome_visit_entered hvisit hplace
  | cycle guarded =>
      refine ⟨fun m hm hb => ?_⟩
      have houtcome : (Routine.visit pointer x again).outcome m = (again guarded).outcome m := by
        subst hm
        rw [outcome_visit, hvisit]
      rw [result, houtcome]
      exact (hagain guarded hvisit).agrees m hm hb

end Answers

end Routine

/-! ## Parts of schemas -/

namespace Node

theorem sizeOf_pos (node : Node) : 0 < sizeOf node := by
  cases node
  simp only [mk.sizeOf_spec]
  omega

theorem sizeOf_lt_of_mem_flatten {keyword : Composition} {ms : List Node} {way : List String}
    {m : Node} {doc : Option String} {nullable : Bool} (h : (way, m) ∈ flatten keyword ms) :
    sizeOf m < sizeOf (Node.mk (.composite keyword ms) doc nullable) := by
  rcases mem_flatten h with hm | ⟨inner, innerMs, doc', hinner, -, hm⟩
  · exact (PartOf.member hm).sizeOf_lt
  · exact Nat.lt_trans (PartOf.member hm).sizeOf_lt (PartOf.member hinner).sizeOf_lt

theorem Below.sizeOf_le {root node : Node} (h : Below root node) : sizeOf node ≤ sizeOf root := by
  induction h with
  | refl => exact Nat.le_refl _
  | part _ hp ih => exact Nat.le_trans (Nat.le_of_lt hp.sizeOf_lt) ih

theorem propertyTypes_eq_mapM {sorted : Bool} {follow : Place → String → Synthesis TypeExpr}
    {p : Place} (required : List String) (ps : List (String × Node)) :
    Node.propertyTypes sorted follow p required ps = ps.mapM fun (name, node) => do
      let type ← node.type sorted follow (p.below ["properties", name] true)
      return { name, type, optional := !required.contains name, doc := node.description,
               format := node.format } := by
  induction ps with
  | nil => simp [Node.propertyTypes]
  | cons e ps ih =>
      obtain ⟨name, node⟩ := e
      simp [Node.propertyTypes, ih]

end Node

theorem Definition.sizeOf_root_lt (d : Definition) : sizeOf d.root < sizeOf d := by
  cases d
  simp only [mk.sizeOf_spec]
  omega

/-! ## The routines of a synthesis -/

namespace Setting

open Routine (Answers)

variable {s : Setting} {mapType : Node → Routine TypeExpr}
  {follow : Place → String → Synthesis TypeExpr}

def AnswersBelow (s : Setting) (mapType : Node → Routine TypeExpr)
    (follow : Place → String → Synthesis TypeExpr) (size : Nat) : Prop :=
  ∀ (node : Node) (p : Place), sizeOf node < size →
    (mapType node).Answers p (node.type s.sorted follow p)

variable {size : Nat} (h : s.AnswersBelow mapType follow size)
include h

theorem answers_mapIndex {p : Place} {additional : Additional Node}
    (hsize : ∀ node, additional = .typed node → sizeOf node < size) :
    (mapIndex mapType additional).Answers p (Node.indexType s.sorted follow p additional) := by
  rw [Node.indexType.eq_def]
  cases additional with
  | closed | unrestricted => exact .pure _
  | typed node => exact (h node _ (hsize node rfl)).descend.bind fun _ => .pure _

theorem answers_mapObject {p : Place} {properties : List (String × Node)} {required : List String}
    {additional : Additional Node} {doc : Option String} {nullable : Bool}
    (hsize : sizeOf (Node.mk (.object properties required additional) doc nullable) ≤ size)
    (names : List String) :
    (s.mapObject mapType names properties additional).Answers p (do
      let properties ← Node.propertyTypes s.sorted follow p names properties
      let index ← Node.indexType s.sorted follow p additional
      return .arrange s.sorted ⟨properties, index⟩) := by
  refine .observed ?_
  rw [Node.propertyTypes_eq_mapM]
  refine .bind (.mapM fun (name, node) hmem => ?_) fun _ => ?_
  · have hlt : sizeOf node < sizeOf (Node.mk (.object properties required additional) doc nullable) :=
      (Node.PartOf.property hmem).sizeOf_lt
    exact (h node _ (Nat.lt_of_lt_of_le hlt hsize)).descend.bind fun _ => .pure _
  · refine (answers_mapIndex h fun node htyped => ?_).bind fun _ => .pure _
    subst htyped
    exact Nat.lt_of_lt_of_le Node.PartOf.additional.sizeOf_lt hsize

theorem answers_mapOperand {p : Place} {joining : Joining} (hunion : joining.union = false)
    (way : List String) {member : Node} (hsize : sizeOf member < size) :
    (s.mapOperand mapType joining way member).Answers p
      (Node.operand s.sorted follow p joining true way member) := by
  have hplain : joining.standsAlone true member = true →
      (do return [Operand.type (← Routine.descend way false (mapType member))] :
        Routine (List Operand)).Answers p
          (Node.operand s.sorted follow p joining true way member) := by
    intro halone
    rw [operand_of_standsAlone halone]
    exact (h member _ hsize).descend.bind fun _ => .pure _
  obtain ⟨kind, doc, nullable⟩ := member
  cases nullable with
  | true => cases kind <;> exact hplain rfl
  | false =>
      cases kind with
      | any =>
          cases hskips : joining.skipsAny with
          | true =>
              simp only [mapOperand, Node.operand, hskips, if_true]
              exact .pure _
          | false =>
              have hx := hplain (by simp [Joining.standsAlone, hskips])
              simpa only [mapOperand, hskips, Bool.false_eq_true, if_false] using hx
      | object properties required additional =>
          have hx := answers_mapObject (p := p.below way false) h (Nat.le_of_lt hsize) joining.required
          have hobject := hx.descend.bind fun o => Answers.pure [Operand.object o]
          simpa only [mapOperand, Node.operand, hunion, Bool.false_eq_true, if_false, bind_assoc,
            pure_bind] using hobject
      | composite => exact hplain (by simp [Joining.standsAlone])
      | _ => exact hplain rfl

theorem answers_mapComposite {p : Place} {keyword : Composition} {members : List Node}
    {doc : Option String} {nullable : Bool}
    (hsize : sizeOf (Node.mk (.composite keyword members) doc nullable) ≤ size) :
    (s.mapComposite mapType keyword members).Answers p
      (Node.kindType s.sorted follow p (.composite keyword members)) := by
  have hlt : ∀ {way : List String} {m : Node}, (way, m) ∈ Node.flatten keyword members →
      sizeOf m < size :=
    fun hm => Nat.lt_of_lt_of_le (Node.sizeOf_lt_of_mem_flatten hm) hsize
  have hjoining : (Joining.of keyword members).union = keyword.isUnion := rfl
  refine .observed ?_
  dsimp only
  rw [hjoining]
  cases hunion : keyword.isUnion with
  | true =>
      rw [Node.kindType_union hunion]
      refine .bind (.mapM fun (way, m) hm => ?_) fun _ => .pure _
      exact (h m _ (hlt hm)).descend
  | false =>
      rw [hunion] at hjoining
      rw [Node.kindType, Node.operands_flatten (hjoining.trans hunion.symm), bind_assoc]
      simp only [pure_bind, Operand.combine, hjoining, Bool.false_eq_true, if_false]
      refine .bind (.mapM fun (way, m) hm => ?_) fun _ => .pure _
      exact answers_mapOperand h hjoining way (hlt hm)

theorem answers_mapBody {p : Place} {root : Node} (hsize : sizeOf root < size) :
    (s.mapBody mapType root).Answers p (do
      return .ofType root.isInterface (← root.type s.sorted follow p)) := by
  have hplain : root.isInterface = false →
      (do return DeclarationBody.synonym (← mapType root) : Routine DeclarationBody).Answers p (do
        return .ofType root.isInterface (← root.type s.sorted follow p)) := by
    intro hroot
    rw [hroot]
    exact (h root p hsize).bind fun t => .pure _
  obtain ⟨kind, doc, nullable⟩ := root
  cases nullable with
  | true => cases kind <;> exact hplain rfl
  | false =>
      cases kind with
      | object properties required additional =>
          have hx := answers_mapObject (p := p) h (Nat.le_of_lt hsize) required
          have hbody := hx.bind fun o => Answers.pure (DeclarationBody.interface o)
          simpa only [mapBody, Node.isInterface, Node.type, Node.kindType, bind_assoc, pure_bind,
            Bool.false_eq_true, if_false, DeclarationBody.ofType] using hbody
      | _ => exact hplain rfl

theorem answers_synthesize {p : Place} {i : Nat} {d : Definition} (hsize : sizeOf d.root < size) :
    (s.synthesize mapType i d).Answers p (s.declare follow { p with location := d.pointer } i d) := by
  refine .bind (.step _) fun _ => ?_
  have hbody := Answers.relocate (answers_mapBody (p := { p with location := d.pointer }) h hsize)
  have hdeclared := hbody.bind fun body => Answers.step fun _ => Synthesis.setSlot i
    (.done { name := s.nameOf i, doc := d.root.description, body })
  simpa only [bind_assoc, pure_bind] using hdeclared

theorem answers_referenceDefinition {p : Place} {i : Nat}
    (hsize : ∀ d, s.definitions.entries[i]? = some d → sizeOf d.root < size) :
    (s.referenceDefinition mapType i).Answers p (s.definitionType follow p i) := by
  have hnamed : ∀ {q : Place}, (return TypeExpr.named (s.nameOf i) : Routine TypeExpr).Answers q
      (return TypeExpr.named (s.nameOf i)) := .pure _
  refine .observed (.bind (.step _) fun slot => ?_)
  cases entry : s.definitions.entries[i]? with
  | none => rcases slot with _ | _ | _ | _ <;> exact hnamed
  | some d =>
      rcases slot with _ | _ | _ | _
      case some.done => exact hnamed
      all_goals
        refine .visit (fun chain hvisit => ?_) fun guarded hvisit => ?_ <;> simp only [hvisit]
        · exact (answers_synthesize h (hsize d entry)).bind fun _ => hnamed
        · cases guarded with
          | true => exact hnamed
          | false => exact (Answers.step _).bind fun _ => .pure _

theorem answers_mapReference {p : Place} {pointer : String}
    (hroots : ∀ d ∈ s.definitions.entries, sizeOf d.root < size) :
    (s.mapReference mapType pointer).Answers p (s.referenceType follow p pointer) := by
  unfold mapReference referenceType
  cases resolved : s.definitions.resolve pointer with
  | error fault => exact .ofOutcome (.error fault)
  | ok target =>
      show Answers (if target.isRoot then _ else _) p (if target.isRoot then _ else _)
      split
      · exact answers_referenceDefinition h fun d entry => hroots d (List.mem_of_getElem? entry)
      · obtain ⟨d, way, entry, hwalk, -⟩ := DefinitionTable.resolve_ok resolved
        have hsize := (Node.walk_below hwalk).sizeOf_le
        have hroot := hroots d (List.mem_of_getElem? entry)
        refine .visit (fun chain hvisit => ?_) fun guarded hvisit => ?_ <;> simp only [hvisit]
        · exact (h target.node _ (Nat.lt_of_le_of_lt hsize hroot)).relocate
        · exact (Answers.step _).bind fun _ => .pure _

theorem answers_mapKind {p : Place} {node : Node} (hsize : sizeOf node ≤ size)
    (hreference : ∀ pointer, node.kind = .reference pointer →
      (s.mapReference mapType pointer).Answers p (follow p pointer)) :
    (s.mapKind mapType node.kind).Answers p (Node.kindType s.sorted follow p node.kind) := by
  obtain ⟨kind, doc, nullable⟩ := node
  cases kind with
  | any | primitive | enum =>
      rw [Node.kindType]
      exact .pure _
  | unsupported construct =>
      rw [Node.kindType]
      exact (Answers.step _).bind fun _ => .pure _
  | array items =>
      rw [Node.kindType]
      have hitems := Nat.lt_of_lt_of_le (Node.PartOf.items.sizeOf_lt) hsize
      exact (h items _ hitems).descend.bind fun _ => .pure _
  | object properties required additional =>
      rw [Node.kindType]
      have hx := (answers_mapObject (p := p) h hsize required).bind fun o =>
        Answers.pure (TypeExpr.object o)
      simpa only [mapKind, bind_assoc, pure_bind] using hx
  | reference pointer =>
      rw [Node.kindType]
      exact hreference pointer rfl
  | composite keyword members => exact answers_mapComposite h hsize

omit h

/-- Enough calls are those that the references within the budget may need, and those into the schema at
hand. The induction is on the number of calls. -/
theorem answers_mapType (s : Setting) (calls : Nat) {budget : Nat} {node : Node} {p : Place}
    (hcalls : budget * sizeOf s.definitions.entries + sizeOf node ≤ calls) :
    (s.mapType calls node).Answers p (node.type s.sorted (s.within budget) p) := by
  induction calls generalizing budget node p with
  | zero =>
      have hpos := node.sizeOf_pos
      omega
  | succ calls ih =>
      have hbelow : s.AnswersBelow (s.mapType calls) (s.within budget) (sizeOf node) :=
        fun _ _ hlt => ih (by omega)
      have hkind : (s.mapKind (s.mapType calls) node.kind).Answers p
          (Node.kindType s.sorted (s.within budget) p node.kind) := by
        refine answers_mapKind hbelow (Nat.le_refl _) fun pointer hpointer => ?_
        cases budget with
        | zero => exact .exhausted
        | succ budget =>
            have hpos := node.sizeOf_pos
            have htargets : s.AnswersBelow (s.mapType calls) (s.within budget)
                (sizeOf s.definitions.entries) := by
              intro _ _ hlt
              refine ih ?_
              rw [Nat.succ_mul] at hcalls
              omega
            refine answers_mapReference htargets fun d hd => ?_
            exact Nat.lt_trans d.sizeOf_root_lt (List.sizeOf_lt_of_mem hd)
      obtain ⟨kind, doc, nullable⟩ := node
      rw [Node.type]
      exact .observed (hkind.bind fun t => .pure _)

end Setting

/-! ## Builds -/

theorem PlacedParameter.sizeOf_le_weight {list : List PlacedParameter} {placed : PlacedParameter}
    (h : placed ∈ list) : sizeOf placed.parameter.schema ≤ weight list := by
  induction list with
  | nil => cases h
  | cons first rest ih =>
      rw [weight]
      rcases List.mem_cons.mp h with rfl | h
      · omega
      · have hle := ih h
        omega

theorem SchemaModel.operationWeight_le {model : SchemaModel} {operations : List Operation}
    {op : Operation} (h : op ∈ operations) :
    model.operationWeight op ≤ model.operationsWeight operations := by
  induction operations with
  | nil => cases h
  | cons first rest ih =>
      rw [operationsWeight]
      rcases List.mem_cons.mp h with rfl | h
      · omega
      · have hle := ih h
        omega

/-- Calls that are enough for all declarations of a model. -/
noncomputable def SchemaModel.calls (model : SchemaModel) : Nat :=
  model.definitions.budget * sizeOf model.definitions.entries +
    (sizeOf model.definitions.entries + model.operationsWeight (model.operations.getD []))

namespace Setting

open Routine (Answers)

variable {s : Setting} {model : SchemaModel} {calls : Nat}

theorem answers_mapParameter {placed : PlacedParameter}
    (hcalls : s.definitions.budget * sizeOf s.definitions.entries + sizeOf placed.parameter.schema
      ≤ calls) : (s.mapParameter calls placed).Answers {} (s.queryProperty placed) :=
  (answers_mapType s calls hcalls).descend.relocate.bind fun _ => .pure _

theorem answers_mapOperation {op : Operation}
    (hcalls : s.definitions.budget * sizeOf s.definitions.entries + model.operationWeight op ≤ calls) :
    (s.mapOperation calls model op).Answers {} (s.queryDeclaration model op) := by
  unfold mapOperation queryDeclaration
  cases effective : model.effectiveParameters op with
  | error fault => exact .ofOutcome (.error fault)
  | ok list =>
      have hweight : model.operationWeight op =
          PlacedParameter.weight (PlacedParameter.ofQuery list) + 1 := by
        rw [SchemaModel.operationWeight, effective]
      show Answers (if (PlacedParameter.ofQuery list).isEmpty then _ else _) _
        (if (PlacedParameter.ofQuery list).isEmpty then _ else _)
      split
      · exact .pure _
      · refine .bind (.mapM fun placed hplaced => answers_mapParameter ?_) fun _ => ?_
        · have hle := PlacedParameter.sizeOf_le_weight hplaced
          omega
        · exact (Answers.step _).bind fun _ => .pure _

theorem answers_mapAll (hs : s.definitions = model.definitions) (hcalls : model.calls ≤ calls)
    (withQuery : Bool) :
    (s.mapAll calls model withQuery).Answers {} (do
      s.declareAll
      if withQuery then s.queryDeclarations model else return []) := by
  rw [SchemaModel.calls, ← hs] at hcalls
  have hbelow : s.AnswersBelow (s.mapType calls) (s.within s.definitions.budget)
      (sizeOf s.definitions.entries) := fun _ _ hlt => answers_mapType s calls (by omega)
  refine .bind (.forM fun i _ => ?_) fun _ => ?_
  · refine (answers_referenceDefinition hbelow fun d entry => ?_).bind fun _ => .pure _
    exact Nat.lt_trans d.sizeOf_root_lt (List.sizeOf_lt_of_mem (List.mem_of_getElem? entry))
  · unfold queryDeclarations
    cases withQuery with
    | false => exact .pure _
    | true =>
        cases paths : model.operations with
        | none => exact .ofOutcome (.error _)
        | some operations =>
            rw [paths, Option.getD_some] at hcalls
            refine .bind (.mapM fun op hop => answers_mapOperation ?_) fun _ => .pure _
            have hle := model.operationWeight_le hop
            omega

end Setting

namespace SchemaModel

variable (model : SchemaModel) (sorted withQuery : Bool)

/-- No build runs out of its budget. -/
theorem build_ne_exhausted : model.build sorted withQuery ≠ .error .exhausted := by
  intro h
  have hends := (model.build_terminates sorted withQuery).1
  rw [h] at hends
  exact hends.1 rfl

/-- With enough calls the routine for all declarations makes those that the model is built to, with the
same warnings, or it fails with the same fault. -/
theorem mapAll_eq_build {calls : Nat} (hcalls : model.calls ≤ calls) :
    (((model.setting sorted).mapAll calls model withQuery).result model.synthesizer).map
        (fun r => Build.mk (finished r.2.slots ++ r.1) r.2.warnings) =
      model.build sorted withQuery := by
  have hanswers := Setting.answers_mapAll (s := model.setting sorted) rfl hcalls withQuery
  have hends := model.build_ne_exhausted sorted withQuery
  have hbuild : model.build sorted withQuery =
      (do
        let r ← (do
          (model.setting sorted).declareAll
          if withQuery then (model.setting sorted).queryDeclarations model else return []
            : Synthesis (List Declaration)).run model.start
        return ⟨finished r.2.slots ++ r.1, r.2.warnings⟩) := rfl
  have hresult := hanswers.agrees model.synthesizer rfl fun hrun => hends <| by
    rw [hbuild]
    exact congrArg (· >>= _) hrun
  rw [hbuild, hresult.2]
  rfl

end SchemaModel

end SwaggerTypes
