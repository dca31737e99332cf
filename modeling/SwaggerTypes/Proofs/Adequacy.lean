import SwaggerTypes.Proofs.Resolution
import SwaggerTypes.Proofs.Run
/-!
# Runs and the functions that perform them

The functions of a synthesis do what the relation says: each ends as a `Run` tells, or with the
fault of a `Stuck` call that it reaches. For references this holds whenever `follow` does it, so the
budget is the only thing left to account for.
-/

namespace SwaggerTypes

namespace Setting

variable (s : Setting) (model : SchemaModel)

/-- What is left of a call's work, `x`, does its part: from the progress `st`, with the declarations
in `log` begun, it completes a run of the call or ends where the call gets stuck. -/
def Resumes {α : Type} (x : Synthesis α) (c : Call) (log : List Begun) (st : Progress)
    (wrap : α → Finding) : Prop :=
  match x.run st with
  | .ok (a, st') => ∃ log', s.Run model c.place c.task c.progress (log ++ log') (wrap a) st'
  | .error fault => ∃ log' d, s.Reaches model c log' d ∧ s.Stuck model d fault

def Performs {α : Type} (x : Synthesis α) (c : Call) (wrap : α → Finding) : Prop :=
  s.Resumes model x c [] c.progress wrap

variable {s model} {α β : Type} {x : Synthesis α} {c : Call} {log : List Begun} {st : Progress}
  {wrap : α → Finding} {wrap' : β → Finding}

theorem Reaches.trans {c d e : Call} {log log' : List Begun} (h : s.Reaches model c log d)
    (h' : s.Reaches model d log' e) : s.Reaches model c (log ++ log') e := by
  induction h' with
  | refl => simpa using h
  | tail before call ih =>
      rw [← List.append_assoc]
      exact ih.tail call

theorem Reaches.head {c d e : Call} {log log' : List Begun} (h : s.Calls model c log d)
    (h' : s.Reaches model d log' e) : s.Reaches model c (log ++ log') e :=
  Reaches.trans (by simpa using Reaches.refl.tail h) h'

theorem Resumes.pure {a : α} (h : s.Run model c.place c.task c.progress log (wrap a) st) :
    s.Resumes model (Pure.pure a) c log st wrap :=
  ⟨[], by simpa using h⟩

theorem Resumes.weaken (log more : List Begun) (h : s.Resumes model x c (log ++ more) st wrap) :
    s.Resumes model x c log st wrap := by
  unfold Resumes at h ⊢
  split at h
  · obtain ⟨log', run⟩ := h
    exact ⟨more ++ log', by simpa using run⟩
  · exact h

theorem Resumes.slot {index : Nat} {f : Option Slot → Synthesis α}
    (h : s.Resumes model (f st.slots[index]?) c log st wrap) :
    s.Resumes model (Synthesis.slot? index >>= f) c log st wrap := h

theorem Resumes.setSlot {index : Nat} {slot : Slot} {f : Unit → Synthesis α}
    (h : s.Resumes model (f ()) c log (st.setSlot index slot) wrap) :
    s.Resumes model (Synthesis.setSlot index slot >>= f) c log st wrap := h

theorem Resumes.takeName {base pointer : String} {f : String → Synthesis α}
    (h : s.Resumes model (f (nextName st.taken base pointer).1) c log (st.takeName base pointer)
      wrap) :
    s.Resumes model (Synthesis.takeName base pointer >>= f) c log st wrap := h

/-- A call made with the right log, and the rest of the work after it. -/
theorem Resumes.bind {f : α → Synthesis β} {p : Place} {task : Task}
    (hc : s.Calls model c log ⟨p, task, st⟩) (hx : s.Performs model x ⟨p, task, st⟩ wrap)
    (hf : ∀ a log' st', s.Run model p task st log' (wrap a) st' →
      s.Resumes model (f a) c (log ++ log') st' wrap') :
    s.Resumes model (x >>= f) c log st wrap' := by
  unfold Resumes
  rw [StateT.run_bind]
  unfold Performs Resumes at hx
  cases hrun : x.run st with
  | error fault =>
      rw [hrun] at hx
      obtain ⟨log', d, reached, stuck⟩ := hx
      exact ⟨_, d, reached.head hc, stuck⟩
  | ok r =>
      rw [hrun] at hx
      obtain ⟨log', run⟩ := hx
      exact (hf r.1 log' r.2 run).weaken log log'

theorem Resumes.answer {p : Place} {task : Task} {wrap' : α → Finding}
    (hx : s.Performs model x ⟨p, task, st⟩ wrap) (hc : s.Calls model c log ⟨p, task, st⟩)
    (hf : ∀ a log' st', s.Run model p task st log' (wrap a) st' →
      s.Run model c.place c.task c.progress (log ++ log') (wrap' a) st') :
    s.Resumes model x c log st wrap' := by
  have h := Resumes.bind (f := Pure.pure) hc hx fun a log' st' run => Resumes.pure (hf a log' st' run)
  rwa [bind_pure] at h

theorem Performs.answer {p : Place} {task : Task} {wrap' : α → Finding}
    (hx : s.Performs model x ⟨p, task, c.progress⟩ wrap)
    (hc : s.Calls model c [] ⟨p, task, c.progress⟩)
    (hf : ∀ a log' st', s.Run model p task c.progress log' (wrap a) st' →
      s.Run model c.place c.task c.progress log' (wrap' a) st') :
    s.Performs model x c wrap' :=
  Resumes.answer hx hc hf

theorem Performs.of_call {p : Place} {task : Task} {f : α → β}
    (hc : s.Calls model c [] ⟨p, task, c.progress⟩)
    (hx : s.Performs model x ⟨p, task, c.progress⟩ wrap)
    (hf : ∀ a log' st', s.Run model p task c.progress log' (wrap a) st' →
      s.Run model c.place c.task c.progress log' (wrap' (f a)) st') :
    s.Performs model (do return f (← x)) c wrap' :=
  Resumes.bind hc hx fun a log' st' run => Resumes.pure (hf a log' st' run)

/-! ## Schemas -/

variable {follow : Place → String → Synthesis TypeExpr} {chain : Chain} {pointers : List String}

/-- `follow` performs references to some pointers from places with a certain chain. -/
def FollowsAll (s : Setting) (model : SchemaModel) (follow : Place → String → Synthesis TypeExpr)
    (chain : Chain) (pointers : List String) : Prop :=
  ∀ (q : Place) (pointer : String) (st : Progress), q.chain = chain → pointer ∈ pointers →
    s.Performs model (follow q pointer) ⟨q, .reference pointer, st⟩ .type

theorem type_eq {sorted : Bool} {p : Place} {kind : Kind Node} {doc : Option String}
    {nullable : Bool} :
    Node.type sorted follow p ⟨kind, doc, nullable⟩ =
      (do return TypeExpr.orNull nullable (← Node.kindType sorted follow p kind)) := by
  rw [Node.type]
  rfl

theorem operand_of_standsAlone {sorted : Bool} {p : Place} {joining : Joining} {lifted : Bool}
    {way : List String} {m : Node} (h : joining.standsAlone lifted m = true) :
    Node.operand sorted follow p joining lifted way m =
      (do return [Operand.type (← m.type sorted follow (p.below way false))]) := by
  obtain ⟨kind, doc, nullable⟩ := m
  cases nullable with
  | true => cases kind <;> simp [Node.operand, Node.type]
  | false =>
      cases kind with
      | composite keyword members =>
          have hl : (!lifted && decide (keyword.isUnion = joining.union)) = false := by
            simp only [Joining.standsAlone, Bool.or_eq_true, bne_iff_ne] at h
            rcases h with h | h <;> simp [h]
          simp [Node.operand, Node.type, Node.kindType, hl]
      | object properties required additional =>
          have hu : joining.union = true := h
          simp [Node.operand, Node.type, Node.kindType, hu]
      | any =>
          have hs : joining.skipsAny = false := by simpa [Joining.standsAlone] using h
          simp [Node.operand, Node.type, Node.kindType, hs]
      | _ => simp [Node.operand, Node.type]

theorem performs_plainMember {p : Place} {st : Progress} {joining : Joining} {lifted : Bool}
    {way : List String} {m : Node} (h : joining.standsAlone lifted m = true)
    (hm : s.Performs model (m.type s.sorted follow (p.below way false))
      ⟨p.below way false, .schema m, st⟩ .type) :
    s.Performs model (Node.operand s.sorted follow p joining lifted way m)
      ⟨p, .member joining lifted way m, st⟩ .operands := by
  rw [operand_of_standsAlone h]
  exact .of_call (.plainMember h) hm fun _ _ _ => .plainMember h

/-- An object is performed when its properties and then the other ones are. -/
theorem performs_object {p : Place} {st : Progress} {required : List String}
    {properties : List (String × Node)} {additional : Additional Node}
    (hp : s.Performs model (Node.propertyTypes s.sorted follow p required properties)
      ⟨p, .properties required properties, st⟩ .properties)
    (ha : ∀ st', s.Performs model (Node.indexType s.sorted follow p additional)
      ⟨p, .others additional, st'⟩ .others) :
    s.Performs model
      (do
        let properties ← Node.propertyTypes s.sorted follow p required properties
        let index ← Node.indexType s.sorted follow p additional
        return ObjectType.arrange s.sorted ⟨properties, index⟩)
      ⟨p, .object required properties additional, st⟩ .object := by
  refine .bind .objectProperties hp fun qs log₁ st₁ run₁ => ?_
  refine .bind (.objectOthers run₁) (ha st₁) fun index log₂ st₂ run₂ => ?_
  exact .pure (.object run₁ run₂)

mutual

theorem performs_type (hf : FollowsAll s model follow chain pointers) :
    ∀ (node : Node) (p : Place) (st : Progress), p.chain = chain → node.references ⊆ pointers →
      s.Performs model (node.type s.sorted follow p) ⟨p, .schema node, st⟩ .type
  | ⟨kind, doc, nullable⟩, p, st, hp, hr => by
      rw [Node.type]
      exact performs_kindType hf kind p st doc nullable hp (by simpa [Node.references] using hr)
termination_by structural node => node

theorem performs_kindType (hf : FollowsAll s model follow chain pointers) :
    ∀ (kind : Kind Node) (p : Place) (st : Progress) (doc : Option String) (nullable : Bool),
      p.chain = chain → Node.kindReferences kind ⊆ pointers →
      s.Performs model (do return TypeExpr.orNull nullable (← Node.kindType s.sorted follow p kind))
        ⟨p, .schema ⟨kind, doc, nullable⟩, st⟩ .type
  | .any, p, st, doc, nullable, _, _ => by
      simp only [Node.kindType, pure_bind]
      exact Resumes.pure .any
  | .primitive type format, p, st, doc, nullable, _, _ => by
      simp only [Node.kindType, pure_bind]
      exact Resumes.pure .primitive
  | .enum values, p, st, doc, nullable, _, _ => by
      simp only [Node.kindType, pure_bind]
      exact Resumes.pure .enum
  | .unsupported construct, p, st, doc, nullable, _, _ => by
      exact ⟨[], .unsupported⟩
  | .array items, p, st, doc, nullable, hp, hr => by
      simp only [Node.kindType, bind_assoc, pure_bind]
      exact .of_call .array (performs_type hf items _ st hp hr) fun _ _ _ => .array
  | .object properties required additional, p, st, doc, nullable, hp, hr => by
      simp only [Node.kindReferences, List.append_subset] at hr
      have h := performs_object (performs_propertyTypes hf properties p st required hp hr.1)
        fun st' => performs_indexType hf additional p st' hp hr.2
      simpa only [Node.kindType, bind_assoc, pure_bind] using
        Performs.of_call .objectSchema h fun _ _ _ => .objectSchema
  | .reference pointer, p, st, doc, nullable, hp, hr => by
      rw [Node.kindType]
      exact .of_call .referenceSchema (hf p pointer st hp (hr (by simp [Node.kindReferences])))
        fun _ _ _ => .referenceSchema
  | .composite keyword members, p, st, doc, nullable, hp, hr => by
      simp only [Node.kindType, bind_assoc, pure_bind]
      exact .of_call .composite (performs_operands hf members p st _ _ _ _ hp hr)
        fun _ _ _ => .composite
termination_by structural kind => kind

theorem performs_propertyTypes (hf : FollowsAll s model follow chain pointers) :
    ∀ (properties : List (String × Node)) (p : Place) (st : Progress) (required : List String),
      p.chain = chain → Node.propertyReferences properties ⊆ pointers →
      s.Performs model (Node.propertyTypes s.sorted follow p required properties)
        ⟨p, .properties required properties, st⟩ .properties
  | [], p, st, required, _, _ => by
      rw [Node.propertyTypes]
      exact Resumes.pure .noProperties
  | (name, node) :: rest, p, st, required, hp, hr => by
      simp only [Node.propertyReferences, List.append_subset] at hr
      rw [Node.propertyTypes]
      refine .bind .firstProperty (performs_type hf node _ st hp hr.1) fun t log₁ st₁ run₁ => ?_
      refine .bind (.restProperties run₁) (performs_propertyTypes hf rest p st₁ required hp hr.2)
        fun qs log₂ st₂ run₂ => ?_
      exact .pure (.properties run₁ run₂)
termination_by structural properties => properties

theorem performs_indexType (hf : FollowsAll s model follow chain pointers) :
    ∀ (additional : Additional Node) (p : Place) (st : Progress), p.chain = chain →
      Node.additionalReferences additional ⊆ pointers →
      s.Performs model (Node.indexType s.sorted follow p additional)
        ⟨p, .others additional, st⟩ .others
  | .closed, p, st, _, _ => by
      rw [Node.indexType]
      exact Resumes.pure .closed
  | .unrestricted, p, st, _, _ => by
      rw [Node.indexType]
      exact Resumes.pure .unrestricted
  | .typed node, p, st, hp, hr => by
      rw [Node.indexType]
      exact .of_call .typed (performs_type hf node _ st hp hr) fun _ _ _ => .typed
termination_by structural additional => additional

theorem performs_operands (hf : FollowsAll s model follow chain pointers) :
    ∀ (members : List Node) (p : Place) (st : Progress) (joining : Joining) (lifted : Bool)
      (way : List String) (i : Nat), p.chain = chain → Node.memberReferences members ⊆ pointers →
      s.Performs model (Node.operands s.sorted follow p joining lifted way i members)
        ⟨p, .members joining lifted way i members, st⟩ .operands
  | [], p, st, joining, lifted, way, i, _, _ => by
      rw [Node.operands]
      exact Resumes.pure .noMembers
  | member :: rest, p, st, joining, lifted, way, i, hp, hr => by
      simp only [Node.memberReferences, List.append_subset] at hr
      rw [Node.operands]
      refine .bind .firstMember (performs_operand hf member p st joining lifted _ hp hr.1)
        fun os₁ log₁ st₁ run₁ => ?_
      refine .bind (.restMembers run₁)
        (performs_operands hf rest p st₁ joining lifted way (i + 1) hp hr.2)
        fun os₂ log₂ st₂ run₂ => ?_
      exact .pure (.members run₁ run₂)
termination_by structural members => members

theorem performs_operand (hf : FollowsAll s model follow chain pointers) :
    ∀ (member : Node) (p : Place) (st : Progress) (joining : Joining) (lifted : Bool)
      (way : List String), p.chain = chain → member.references ⊆ pointers →
      s.Performs model (Node.operand s.sorted follow p joining lifted way member)
        ⟨p, .member joining lifted way member, st⟩ .operands
  | ⟨kind, doc, nullable⟩, p, st, joining, lifted, way, hp, hr => by
      by_cases h : joining.standsAlone lifted ⟨kind, doc, nullable⟩ = true
      · refine performs_plainMember h ?_
        rw [type_eq]
        exact performs_kindType hf kind _ st doc nullable hp hr
      · match kind, nullable, h, hr with
        | .composite inner members, false, h, hr =>
            obtain ⟨rfl, same⟩ : lifted = false ∧ inner.isUnion = joining.union := by
              simpa [Joining.standsAlone] using h
            have hx := performs_operands hf members p st joining true (way ++ [inner.keyword]) 0 hp hr
            simpa [Node.operand, same] using
              hx.answer (.liftedMember same) fun _ _ _ => .liftedMember same
        | .object properties required additional, false, h, hr =>
            have hu : joining.union = false := by simpa [Joining.standsAlone] using h
            simp only [Node.references, Node.kindReferences, List.append_subset] at hr
            have ho := performs_object
              (performs_propertyTypes hf properties (p.below way false) st joining.required hp hr.1)
              fun st' => performs_indexType hf additional (p.below way false) st' hp hr.2
            simpa [Node.operand, hu] using
              Performs.of_call (.objectMember hu) ho fun _ _ _ => .objectMember hu
        | .any, false, h, _ =>
            have hs : joining.skipsAny = true := by simpa [Joining.standsAlone] using h
            simp only [Node.operand, hs]
            exact Resumes.pure (.skippedMember hs)
        | .primitive .., _, h, _ | .enum _, _, h, _ | .array _, _, h, _ | .reference _, _, h, _
        | .unsupported _, _, h, _ | .any, true, h, _ | .object .., true, h, _
        | .composite .., true, h, _ => exact absurd rfl h
termination_by structural member => member

end

/-! ## Definitions and references -/

theorem performs_definitionType {p : Place} {i : Nat}
    (h : ∀ d chain, s.definitions.entries[i]? = some d →
      p.chain.enter d.pointer p.depth = .entered chain →
      s.Performs model (d.root.type s.sorted follow (p.into d.pointer chain))
        ⟨p.into d.pointer chain, .schema d.root, st.setSlot i .inProgress⟩ .type) :
    s.Performs model (s.definitionType follow p i) ⟨p, .definition i, st⟩ .type := by
  unfold Performs definitionType
  refine Resumes.slot ?_
  split
  · next declaration hdone => exact Resumes.pure (.knownDefinition (.inl ⟨declaration, hdone⟩))
  · next hnone _ => exact Resumes.pure (.knownDefinition (.inr hnone))
  · next d entry hnot =>
    have unfinished : ¬ st.IsDone i := fun ⟨declaration, hdone⟩ => hnot declaration hdone
    split
    · next chain entered =>
      unfold declare
      simp only [bind_assoc]
      -- the slot is marked first, so the definition counts as begun from here on
      refine Resumes.setSlot (Resumes.weaken [] [⟨i, p.into d.pointer chain⟩] ?_)
      refine .bind (.newDefinition unfinished entry entered) (h d chain entry entered)
        fun t log' st' run => ?_
      exact Resumes.setSlot (.pure (.newDefinition unfinished entry entered run))
    · next cycle => exact Resumes.pure (.guardedCycle unfinished entry cycle)
    · next cycle => exact ⟨[], .aliasCycle unfinished entry cycle⟩

theorem performs_referenceType {p : Place} {pointer : String}
    (hroot : ∀ target, s.definitions.resolve pointer = .ok target → target.isRoot = true →
      s.Performs model (s.definitionType follow p target.definition)
        ⟨p, .definition target.definition, st⟩ .type)
    (hdeep : ∀ target chain, s.definitions.resolve pointer = .ok target →
      p.chain.enter target.pointer p.depth = .entered chain →
      s.Performs model (target.node.type s.sorted follow (p.into target.pointer chain))
        ⟨p.into target.pointer chain, .schema target.node, st⟩ .type) :
    s.Performs model (s.referenceType follow p pointer) ⟨p, .reference pointer, st⟩ .type := by
  unfold Performs referenceType
  cases resolved : s.definitions.resolve pointer with
  | error fault => exact ⟨[], _, .refl, .dangling resolved⟩
  | ok target =>
      show s.Resumes model (if target.isRoot = true then _ else _) _ _ _ _
      split
      · next root =>
        exact (hroot target resolved root).answer (.rootReference resolved root)
          fun _ _ _ => .rootReference resolved root
      · next hnot =>
        have deep : target.isRoot = false := by simpa using hnot
        split
        · next chain entered =>
          exact (hdeep target chain resolved entered).answer (.deepReference resolved deep entered)
            fun _ _ _ => .deepReference resolved deep entered
        · next cycle => exact ⟨[], .recursiveReference resolved deep cycle⟩

end Setting

end SwaggerTypes
