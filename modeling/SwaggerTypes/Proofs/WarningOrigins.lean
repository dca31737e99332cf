import SwaggerTypes.Proofs.Addresses
/-!
# Where warnings come from

Every warning of a run was raised by a call that the run came to. What such a call is busy with
stands at a pointer: either the call opens a reference, or it stays with the schema of its caller or
with a part of it.
-/

namespace SwaggerTypes

namespace Warning

def unsupported (pointer construct : String) : Warning :=
  ⟨.unsupportedConstruct, pointer, construct ++ " cannot be expressed; using `any`"⟩

def recursive (pointer r : String) : Warning :=
  ⟨.unsupportedConstruct, pointer,
    "recursive reference `" ++ r ++ "` into an unnamed schema; using `any`"⟩

def circular (pointer name : String) : Warning :=
  ⟨.circularAlias, pointer,
    "reference to `" ++ name ++ "` closes a cycle of type aliases; using `any`"⟩

end Warning

namespace Setting

variable (s : Setting) (model : SchemaModel)

inductive Raises : Call → Warning → Prop
  | unsupported {p construct doc nullable st} :
      Raises ⟨p, .schema ⟨.unsupported construct, doc, nullable⟩, st⟩
        (.unsupported p.location construct)
  | recursiveReference {p pointer target guarded st}
      (resolved : s.definitions.resolve pointer = .ok target) (deep : target.isRoot = false)
      (cycle : p.chain.enter target.pointer p.depth = .cycle guarded) :
      Raises ⟨p, .reference pointer, st⟩ (.recursive p.location pointer)
  | aliasCycle {p i d st}
      (unfinished : ¬ st.IsDone i) (entry : s.definitions.entries[i]? = some d)
      (cycle : p.chain.enter d.pointer p.depth = .cycle false) :
      Raises ⟨p, .definition i, st⟩ (.circular p.location (s.nameOf i))
  | duplicateName {op list rest st log qs st₁ w}
      (effective : model.effectiveParameters op = .ok list)
      (query : PlacedParameter.ofQuery list ≠ [])
      (first : s.Run model {} (.parameters (PlacedParameter.ofQuery list)) st log
        (.properties qs) st₁)
      (renamed : (nextName st₁.taken op.queryName op.pointer).2 = some w) :
      Raises ⟨{}, .operations (op :: rest), st⟩ w

def Origin (c : Call) (log : List Begun) (w : Warning) : Prop :=
  ∃ begun d, begun <+: log ∧ s.Reaches model c begun d ∧ s.Raises model d w

variable {s model} {c d : Call} {log log₀ full : List Begun} {w : Warning}

theorem Raises.origin (h : s.Raises model c w) : s.Origin model c log w :=
  ⟨[], c, List.nil_prefix, .refl, h⟩

theorem Origin.call (h : s.Origin model d log w) (hc : s.Calls model c log₀ d)
    (hlog : log₀ ++ log <+: full) : s.Origin model c full w := by
  obtain ⟨begun, e, hbegun, reached, raised⟩ := h
  refine ⟨log₀ ++ begun, e, ?_, reached.head hc, raised⟩
  exact ((List.prefix_append_right_inj log₀).mpr hbegun).trans hlog

theorem origin_of_call {old : List Warning} (hc : s.Calls model c [] d)
    (h : w ∈ old ∨ s.Origin model d log w) : w ∈ old ∨ s.Origin model c log w :=
  h.imp_right fun ho => ho.call hc List.prefix_rfl

/-- A warning after a task has made two calls, the second when the first was answered. -/
theorem origin_of_calls {d' : Call} {old new : List Warning} {log' : List Begun}
    (hc : s.Calls model c [] d) (hc' : s.Calls model c log d')
    (h : ∀ w ∈ new, w ∈ old ∨ s.Origin model d log w)
    (h' : w ∈ new ∨ s.Origin model d' log' w) :
    w ∈ old ∨ s.Origin model c (log ++ log') w := by
  rcases h' with hnew | ho
  · exact (h w hnew).imp_right fun ho => ho.call hc (List.prefix_append _ _)
  · exact .inr (ho.call hc' List.prefix_rfl)

theorem origin_of_warn {st : Progress} {p : Place} {kind : WarningKind} {message : String}
    (hw : w ∈ (st.warn p kind message).warnings)
    (h : s.Raises model c ⟨kind, p.location, message⟩) :
    w ∈ st.warnings ∨ s.Origin model c log w := by
  rcases List.mem_append.mp hw with hw | hw
  · exact .inl hw
  · obtain rfl := List.mem_singleton.mp hw
    exact .inr h.origin

/-- A warning that is there after a run was there before or has its origin in the run. -/
theorem Run.origin {p : Place} {task : Task} {st st' : Progress} {finding : Finding}
    (h : s.Run model p task st log finding st') :
    ∀ w ∈ st'.warnings, w ∈ st.warnings ∨ s.Origin model ⟨p, task, st⟩ log w := by
  induction h with
  | any | primitive | enum | noProperties | closed | unrestricted | noMembers | skippedMember
  | knownDefinition | guardedCycle | noDefinitions | noParameters | noOperations =>
      exact fun w hw => .inl hw
  | unsupported => exact fun w hw => origin_of_warn hw .unsupported
  | recursiveReference resolved deep cycle =>
      exact fun w hw => origin_of_warn hw (.recursiveReference resolved deep cycle)
  | aliasCycle unfinished entry cycle =>
      exact fun w hw => origin_of_warn hw (.aliasCycle unfinished entry cycle)
  | array _ ih => exact fun w hw => origin_of_call .array (ih w hw)
  | objectSchema _ ih => exact fun w hw => origin_of_call .objectSchema (ih w hw)
  | referenceSchema _ ih => exact fun w hw => origin_of_call .referenceSchema (ih w hw)
  | composite _ ih => exact fun w hw => origin_of_call .composite (ih w hw)
  | typed _ ih => exact fun w hw => origin_of_call .typed (ih w hw)
  | liftedMember same _ ih => exact fun w hw => origin_of_call (.liftedMember same) (ih w hw)
  | objectMember meets _ ih => exact fun w hw => origin_of_call (.objectMember meets) (ih w hw)
  | plainMember alone _ ih => exact fun w hw => origin_of_call (.plainMember alone) (ih w hw)
  | rootReference resolved root _ ih =>
      exact fun w hw => origin_of_call (.rootReference resolved root) (ih w hw)
  | deepReference resolved deep entered _ ih =>
      exact fun w hw => origin_of_call (.deepReference resolved deep entered) (ih w hw)
  | build _ ih => exact fun w hw => origin_of_call .build (ih w hw)
  | newDefinition unfinished entry entered _ ih =>
      exact fun w hw => (ih w hw).imp_right fun ho =>
        ho.call (.newDefinition unfinished entry entered) List.prefix_rfl
  | object first _ ih₁ ih₂ =>
      exact fun w hw => origin_of_calls .objectProperties (.objectOthers first) ih₁ (ih₂ w hw)
  | properties first _ ih₁ ih₂ =>
      exact fun w hw => origin_of_calls .firstProperty (.restProperties first) ih₁ (ih₂ w hw)
  | members first _ ih₁ ih₂ =>
      exact fun w hw => origin_of_calls .firstMember (.restMembers first) ih₁ (ih₂ w hw)
  | definitions first _ ih₁ ih₂ =>
      exact fun w hw => origin_of_calls .firstDefinition (.restDefinitions first) ih₁ (ih₂ w hw)
  | parameters first _ ih₁ ih₂ =>
      exact fun w hw => origin_of_calls .firstParameter (.restParameters first) ih₁ (ih₂ w hw)
  | plainOperation effective plain _ ih =>
      exact fun w hw => origin_of_call (.afterPlainOperation effective plain) (ih w hw)
  | queryOperation effective query first _ ih₁ ih₂ =>
      intro w hw
      rcases ih₂ w hw with hnew | ho
      · rcases List.mem_append.mp hnew with hnew | hrenamed
        · exact (ih₁ w hnew).imp_right fun ho =>
            ho.call (.operation effective query) (List.prefix_append _ _)
        · exact .inr (Raises.origin (.duplicateName effective query first
            (Option.mem_toList.mp hrenamed)))
      · exact .inr (ho.call (.afterOperation effective query first) List.prefix_rfl)
  | queryBuild paths first _ ih₁ ih₂ =>
      exact fun w hw => origin_of_calls .build (.query paths first) ih₁ (ih₂ w hw)

/-! ## What a call is busy with -/

/-- At a place, a task is busy with the schema at a pointer: with all of it, with some of its
properties or members, or with where it refers to. -/
inductive Concerns (s : Setting) : Place → Task → String → Node → Prop
  | schema {p node} : Concerns s p (.schema node) p.location node
  | object {p names ps required additional doc nullable} :
      Concerns s p (.object names ps additional) p.location
        ⟨.object ps required additional, doc, nullable⟩
  | properties {p names ps required additional doc nullable} (before : List (String × Node)) :
      Concerns s p (.properties names ps) p.location
        ⟨.object (before ++ ps) required additional, doc, nullable⟩
  | others {p ps required additional doc nullable} :
      Concerns s p (.others additional) p.location ⟨.object ps required additional, doc, nullable⟩
  | members {p joining lifted i ms doc nullable} (above : List String) (keyword : Composition)
      (before : List Node) (passed : before.length = i) :
      Concerns s p (.members joining lifted (above ++ [keyword.keyword]) i ms)
        (Pointer.extend p.location above) ⟨.composite keyword (before ++ ms), doc, nullable⟩
  | member {p joining lifted way node} :
      Concerns s p (.member joining lifted way node) (Pointer.extend p.location way) node
  | reference {p r doc nullable} :
      Concerns s p (.reference r) p.location ⟨.reference r, doc, nullable⟩
  | definition {p r target doc nullable} (resolved : s.definitions.resolve r = .ok target)
      (root : target.isRoot = true) :
      Concerns s p (.definition target.definition) p.location ⟨.reference r, doc, nullable⟩

inductive Opens (s : Setting) : Call → List Begun → Call → Prop
  | target {p r target chain st}
      (resolved : s.definitions.resolve r = .ok target) (deep : target.isRoot = false)
      (entered : p.chain.enter target.pointer p.depth = .entered chain) :
      Opens s ⟨p, .reference r, st⟩ [] ⟨p.into target.pointer chain, .schema target.node, st⟩
  | definition {p i d chain st}
      (unfinished : ¬ st.IsDone i) (entry : s.definitions.entries[i]? = some d)
      (entered : p.chain.enter d.pointer p.depth = .entered chain) :
      Opens s ⟨p, .definition i, st⟩ [⟨i, p.into d.pointer chain⟩]
        ⟨p.into d.pointer chain, .schema d.root, st.setSlot i .inProgress⟩

/-- A call opens a reference or leaves the chain as it is. -/
theorem Calls.opens_or_keeps (h : s.Calls model c log d) :
    s.Opens c log d ∨ d.place.chain = c.place.chain := by
  cases h with
  | deepReference resolved deep entered => exact .inl (.target resolved deep entered)
  | newDefinition unfinished entry entered => exact .inl (.definition unfinished entry entered)
  | _ => exact .inr rfl

/-- From the schema at a pointer a step leads to the same schema or to a part of it. The number tells
how many parts of values it enters: the members of a composition describe the same value. -/
inductive Descends (pointer : String) (node : Node) : Nat → String → Node → Prop
  | same : Descends pointer node 0 pointer node
  | member {segments keyword ms part} (composition : node.kind = .composite keyword ms)
      (h : node.PartAt segments part) :
      Descends pointer node 0 (Pointer.extend pointer segments) part
  | part {segments part} (h : node.PartAt segments part) :
      Descends pointer node 1 (Pointer.extend pointer segments) part

/-- A call that opens no reference goes on with the schema at hand or with a part of it, as deep as
the step to that leads. -/
theorem Calls.concerns {pointer : String} {node : Node} (h : s.Calls model c log d)
    (hc : s.Concerns c.place c.task pointer node) :
    s.Opens c log d ∨ d.place.chain = c.place.chain ∧ ∃ parts pointer' node',
      s.Concerns d.place d.task pointer' node' ∧ Descends pointer node parts pointer' node' ∧
        d.place.depth = c.place.depth + parts := by
  cases h with
  | deepReference resolved deep entered => exact .inl (.target resolved deep entered)
  | newDefinition unfinished entry entered => exact .inl (.definition unfinished entry entered)
  | array =>
      cases hc
      exact .inr ⟨rfl, _, _, _, .schema, .part .items, rfl⟩
  | objectSchema =>
      cases hc
      exact .inr ⟨rfl, _, _, _, .object, .same, rfl⟩
  | referenceSchema =>
      cases hc
      exact .inr ⟨rfl, _, _, _, .reference, .same, rfl⟩
  | @composite p keyword ms doc nullable st =>
      cases hc
      have hmembers : Concerns s p (.members (.of keyword ms) false ([] ++ [keyword.keyword]) 0 ms)
          (Pointer.extend p.location []) ⟨.composite keyword ([] ++ ms), doc, nullable⟩ :=
        .members [] keyword [] rfl
      rw [Pointer.extend_nil] at hmembers
      exact .inr ⟨rfl, _, _, _, hmembers, .same, rfl⟩
  | objectProperties =>
      cases hc
      exact .inr ⟨rfl, _, _, _, .properties [], .same, rfl⟩
  | objectOthers =>
      cases hc
      exact .inr ⟨rfl, _, _, _, .others, .same, rfl⟩
  | firstProperty =>
      cases hc
      exact .inr ⟨rfl, _, _, _, .schema, .part (.property (by simp)), rfl⟩
  | @restProperties p required name node rest =>
      cases hc with
      | properties before =>
        rw [List.append_cons before (name, node) rest]
        exact .inr ⟨rfl, _, _, _, .properties _, .same, rfl⟩
  | typed =>
      cases hc
      exact .inr ⟨rfl, _, _, _, .schema, .part .additional, rfl⟩
  | @firstMember p joining lifted way i m rest =>
      cases hc with
      | members above keyword before passed =>
        subst passed
        have hway : Pointer.extend (Pointer.extend p.location above)
            [keyword.keyword, toString before.length] =
              Pointer.extend p.location (above ++ [keyword.keyword] ++ [toString before.length]) := by
          rw [← Pointer.extend_append, List.append_assoc]
          rfl
        refine .inr ⟨rfl, 0, _, _, .member, ?_, rfl⟩
        rw [← hway]
        exact .member rfl (.member (by simp))
  | @restMembers p joining lifted way i m rest =>
      cases hc with
      | members above keyword before passed =>
        rw [List.append_cons before m rest]
        exact .inr ⟨rfl, _, _, _, .members _ _ _ (by simp [passed]), .same, rfl⟩
  | liftedMember =>
      cases hc
      exact .inr ⟨rfl, _, _, _, .members _ _ [] rfl, .same, rfl⟩
  | objectMember =>
      cases hc
      exact .inr ⟨rfl, _, _, _, .object, .same, rfl⟩
  | plainMember =>
      cases hc
      exact .inr ⟨rfl, _, _, _, .schema, .same, rfl⟩
  | rootReference resolved root =>
      cases hc
      exact .inr ⟨rfl, _, _, _, .definition resolved root, .same, rfl⟩
  | _ => cases hc

end Setting

/-! ## Where warnings are raised -/

def Task.Outer : Task → Prop
  | .definition _ | .definitions _ | .build _ => True
  | _ => False

namespace Setting

/-- Something that holds of the definitions with their pointers holds of all that is met from there:
of parts, and of what references into the middle of definitions lead to. -/
structure Holds (s : Setting) (Q : String → Node → Prop) : Prop where
  root : ∀ {i : Nat} {d : Definition}, s.definitions.entries[i]? = some d → Q d.pointer d.root
  part : ∀ {pointer segments node part}, Q pointer node → Node.PartAt node segments part →
    Q (Pointer.extend pointer segments) part
  target : ∀ {pointer r doc nullable target}, Q pointer ⟨.reference r, doc, nullable⟩ →
    s.definitions.resolve r = .ok target → target.isRoot = false → Q target.pointer target.node

/-- It holds of what a call is busy with, unless the call stands outside of everything. -/
def Placed (s : Setting) (Q : String → Node → Prop) (c : Call) : Prop :=
  (∃ pointer node, s.Concerns c.place c.task pointer node ∧ Q pointer node) ∨
    (c.task.Outer ∧ c.place.chain = [])

variable {s : Setting} {model : SchemaModel} {c d : Call} {log : List Begun} {w : Warning}
  {Q : String → Node → Prop}

theorem Opens.placed (h : s.Opens c log d) (hQ : s.Holds Q) (hc : s.Placed Q c) :
    s.Placed Q d := by
  cases h with
  | definition _ entry => exact .inl ⟨_, _, .schema, hQ.root entry⟩
  | target resolved deep =>
      rcases hc with ⟨pointer, node, concerns, holds⟩ | ⟨outer, -⟩
      · cases concerns
        exact .inl ⟨_, _, .schema, hQ.target holds resolved deep⟩
      · cases outer

theorem Calls.placed (h : s.Calls model c log d) (hQ : s.Holds Q) (hs : OfSchemas c.task)
    (hc : s.Placed Q c) : s.Placed Q d := by
  rcases hc with ⟨pointer, node, concerns, holds⟩ | ⟨outer, hchain⟩
  · rcases h.concerns concerns with opened | ⟨-, _, pointer', node', concerns', descends, -⟩
    · exact opened.placed hQ (.inl ⟨pointer, node, concerns, holds⟩)
    · refine .inl ⟨pointer', node', concerns', ?_⟩
      cases descends with
      | same => exact holds
      | member _ hp | part hp => exact hQ.part holds hp
  · cases h with
    | newDefinition unfinished entry entered =>
        exact (Opens.definition unfinished entry entered).placed hQ (.inr ⟨outer, hchain⟩)
    | firstDefinition | restDefinitions | build => exact .inr ⟨trivial, rfl⟩
    | query => cases hs
    | _ => cases outer

theorem Reaches.placed (h : s.Reaches model c log d) (hQ : s.Holds Q) (hs : OfSchemas c.task)
    (hc : s.Placed Q c) : s.Placed Q d := by
  induction h with
  | refl => exact hc
  | tail before call ih => exact call.placed hQ (before.ofSchemas hs) ih

/-- A warning tells of a schema: of a construct that cannot be expressed, or of a reference that
closes a cycle through schemas without a name or through aliases. -/
inductive TellsOf (s : Setting) : Warning → Node → Prop
  | construct {pointer construct doc nullable} :
      TellsOf s (.unsupported pointer construct) ⟨.unsupported construct, doc, nullable⟩
  | recursive {pointer r doc nullable target} (resolved : s.definitions.resolve r = .ok target)
      (deep : target.isRoot = false) :
      TellsOf s (.recursive pointer r) ⟨.reference r, doc, nullable⟩
  | circular {pointer r doc nullable target} (resolved : s.definitions.resolve r = .ok target)
      (root : target.isRoot = true) :
      TellsOf s (.circular pointer (s.nameOf target.definition)) ⟨.reference r, doc, nullable⟩

/-- The schema that raises a warning is the one that the call is busy with. -/
theorem Raises.holds (h : s.Raises model c w) (hs : OfSchemas c.task) (hc : s.Placed Q c) :
    ∃ node, Q w.pointer node ∧ s.TellsOf w node := by
  rcases hc with ⟨pointer, node, concerns, holds⟩ | ⟨outer, hchain⟩
  · cases h with
    | unsupported =>
        cases concerns
        exact ⟨_, holds, .construct⟩
    | recursiveReference resolved deep =>
        cases concerns
        exact ⟨_, holds, .recursive resolved deep⟩
    | aliasCycle =>
        cases concerns with
        | definition resolved root => exact ⟨_, holds, .circular resolved root⟩
    | duplicateName => cases concerns
  · cases h with
    | aliasCycle _ _ cycle =>
        obtain ⟨frame, hframe, -⟩ := Chain.enter_cycle cycle
        rw [show _ = [] from hchain] at hframe
        cases hframe
    | duplicateName => cases hs
    | _ => cases outer

end Setting

/-- A warning of a build without query interfaces is about the name of a definition, or it tells of a
schema met from the definitions. -/
theorem SchemaModel.Built.warning_cases {model : SchemaModel} {sorted : Bool} {b : Build}
    {log : List Begun} {st : Progress} {queries : List Declaration} {Q : String → Node → Prop}
    (h : Built model sorted false b log st queries) (hQ : (model.setting sorted).Holds Q) :
    ∀ w ∈ b.warnings,
      (w.kind = .duplicateName ∧ ∃ d ∈ model.definitions.entries, w.pointer = d.pointer) ∨
        ∃ node, Q w.pointer node ∧ (model.setting sorted).TellsOf w node := by
  intro w hw
  rw [h.result] at hw
  rcases h.run.origin w hw with hstart | ⟨begun, c, -, reached, raised⟩
  · exact .inl (takeNames_warnings hstart)
  · have hplaced := reached.placed hQ rfl (.inr ⟨trivial, rfl⟩)
    exact .inr (raised.holds (reached.ofSchemas rfl) hplaced)

end SwaggerTypes
