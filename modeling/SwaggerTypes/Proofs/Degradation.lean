import SwaggerTypes.Proofs.DanglingReferences
import SwaggerTypes.Proofs.WarningOrigins
/-!
# Degradation to `any`

A schema that cannot be expressed becomes `any`, and a warning says so with the address of that
schema: the definition, whatever the synthesis was inside of when it met it, and the way down. Nothing
else is warned about but references that close cycles, and the pointer of a warning resolves to what
the warning is about without following a reference.
-/

namespace SwaggerTypes

/-! ## Every construct is reported -/

/-- Warnings tell of all that cannot be expressed in a schema that stands at a pointer. -/
def Node.Reported (ws : List Warning) (pointer : String) (root : Node) : Prop :=
  ∀ way construct doc nullable, root.At way ⟨.unsupported construct, doc, nullable⟩ →
    Warning.unsupported (Pointer.extend pointer way) construct ∈ ws

namespace Node.Reported

variable {ws ws' : List Warning} {pointer : String} {root : Node}

theorem mono (h : root.Reported ws pointer) (hws : ws ⊆ ws') : root.Reported ws' pointer :=
  fun way construct doc nullable hat => hws (h way construct doc nullable hat)

theorem of_parts (hroot : ∀ construct, root.kind ≠ .unsupported construct)
    (hparts : ∀ segments part, root.PartAt segments part →
      part.Reported ws (Pointer.extend pointer segments)) : root.Reported ws pointer := by
  intro way construct doc nullable hat
  rcases hat.cases_head with ⟨-, rfl⟩ | ⟨segments, part, rest, hp, rfl, hrest⟩
  · exact absurd rfl (hroot construct)
  · rw [Pointer.extend_append]
    exact hparts segments part hp rest construct doc nullable hrest

theorem unsupported {construct : String} {doc : Option String} {nullable : Bool}
    (h : Warning.unsupported pointer construct ∈ ws) :
    Node.Reported ws pointer ⟨.unsupported construct, doc, nullable⟩ := by
  intro way other doc nullable hat
  rcases hat.cases_head with ⟨rfl, heq⟩ | ⟨_, _, _, hp, -, -⟩
  · cases heq
    rwa [Pointer.extend_nil]
  · cases hp

variable {doc : Option String} {nullable : Bool}

theorem object {ps : List (String × Node)} {required : List String} {additional : Additional Node}
    (hps : ∀ e ∈ ps, e.2.Reported ws (Pointer.extend pointer ["properties", e.1]))
    (hothers : ∀ node, additional = .typed node →
      node.Reported ws (Pointer.extend pointer ["additionalProperties"])) :
    Node.Reported ws pointer ⟨.object ps required additional, doc, nullable⟩ := by
  refine of_parts (fun _ heq => nomatch heq) fun segments part hp => ?_
  cases hp with
  | @property name _ _ _ _ _ _ h => exact hps (name, part) h
  | additional => exact hothers part rfl

theorem composite {keyword : Composition} {ms : List Node}
    (hms : ∀ (j : Nat) (m : Node), ms[j]? = some m →
      m.Reported ws (Pointer.extend pointer [keyword.keyword, toString j])) :
    Node.Reported ws pointer ⟨.composite keyword ms, doc, nullable⟩ := by
  refine of_parts (fun _ heq => nomatch heq) fun segments part hp => ?_
  cases hp with
  | @member _ _ _ j _ _ h => exact hms j part h

end Node.Reported

/-- Warnings tell of all that cannot be expressed in what a task reads before it comes to another
definition. -/
def Task.Reported (ws : List Warning) (p : Place) : Task → Prop
  | .schema node => node.Reported ws p.location
  | .object _ ps additional =>
      (∀ e ∈ ps, e.2.Reported ws (Pointer.extend p.location ["properties", e.1])) ∧
        ∀ node, additional = .typed node →
          node.Reported ws (Pointer.extend p.location ["additionalProperties"])
  | .properties _ ps => ∀ e ∈ ps, e.2.Reported ws (Pointer.extend p.location ["properties", e.1])
  | .others additional => ∀ node, additional = .typed node →
      node.Reported ws (Pointer.extend p.location ["additionalProperties"])
  | .members _ _ way i ms => ∀ (j : Nat) (m : Node), ms[j]? = some m →
      m.Reported ws (Pointer.extend p.location (way ++ [toString (i + j)]))
  | .member _ _ way node => node.Reported ws (Pointer.extend p.location way)
  | _ => True

namespace Setting

variable {s : Setting} {model : SchemaModel} {p : Place} {task : Task} {st st' : Progress}
  {log : List Begun} {finding : Finding}

/-- Warnings are only added, behind those that are there. -/
theorem Run.warnings_prefix (h : s.Run model p task st log finding st') :
    st.warnings <+: st'.warnings := by
  induction h with
  | any | primitive | enum | noProperties | closed | unrestricted | noMembers
  | skippedMember | knownDefinition | guardedCycle | noDefinitions | noParameters
  | noOperations => exact List.prefix_rfl
  | unsupported | recursiveReference | aliasCycle => exact List.prefix_append _ _
  | array _ ih | objectSchema _ ih | referenceSchema _ ih | composite _ ih | typed _ ih
  | liftedMember _ _ ih | objectMember _ _ ih | plainMember _ _ ih | rootReference _ _ _ ih
  | deepReference _ _ _ _ ih | newDefinition _ _ _ _ ih | build _ ih
  | plainOperation _ _ _ ih => exact ih
  | object _ _ ih₁ ih₂ | properties _ _ ih₁ ih₂ | members _ _ ih₁ ih₂ | definitions _ _ ih₁ ih₂
  | parameters _ _ ih₁ ih₂ | queryBuild _ _ _ ih₁ ih₂ => exact ih₁.trans ih₂
  | queryOperation _ _ _ _ ih₁ ih₂ => exact ih₁.trans ((List.prefix_append _ _).trans ih₂)

theorem Run.warnings_subset (h : s.Run model p task st log finding st') :
    st.warnings ⊆ st'.warnings :=
  h.warnings_prefix.subset

/-- A run reports what its task reads. -/
theorem Run.reported (h : s.Run model p task st log finding st') :
    task.Reported st'.warnings p := by
  induction h with
  | unsupported => exact Node.Reported.unsupported (List.mem_append_right _ List.mem_cons_self)
  | any | primitive | enum | referenceSchema | skippedMember =>
      exact Node.Reported.of_parts (fun _ heq => nomatch heq) fun _ _ hp => nomatch hp
  | array _ ih =>
      refine Node.Reported.of_parts (fun _ heq => nomatch heq) fun segments part hp => ?_
      cases hp with
      | items => exact ih
  | objectSchema _ ih | objectMember _ _ ih => exact Node.Reported.object ih.1 ih.2
  | composite _ ih =>
      refine Node.Reported.composite fun j m hm => ?_
      simpa only [Nat.zero_add, List.cons_append, List.nil_append] using ih j m hm
  | liftedMember _ _ ih =>
      refine Node.Reported.composite fun j m hm => ?_
      rw [← Pointer.extend_append]
      simpa only [Nat.zero_add, List.append_assoc, List.cons_append, List.nil_append] using ih j m hm
  | plainMember _ _ ih => exact ih
  | object _ second ih₁ ih₂ => exact ⟨fun e he => (ih₁ e he).mono second.warnings_subset, ih₂⟩
  | noProperties => exact fun _ he => nomatch he
  | properties _ second ih₁ ih₂ =>
      intro e he
      rcases List.mem_cons.mp he with rfl | he
      · exact Node.Reported.mono ih₁ second.warnings_subset
      · exact ih₂ e he
  | closed | unrestricted => exact fun _ heq => nomatch heq
  | typed _ ih =>
      rintro _ ⟨⟩
      exact ih
  | noMembers => exact fun _ _ hm => nomatch hm
  | members _ second ih₁ ih₂ =>
      intro j m hm
      cases j with
      | zero =>
          cases hm
          exact Node.Reported.mono ih₁ second.warnings_subset
      | succ j =>
          have hrest := ih₂ j m hm
          rwa [Nat.add_right_comm] at hrest
  | _ => trivial

/-- It also reports what stands in the definitions that it begins. -/
theorem Run.reported_begun (h : s.Run model p task st log finding st') :
    ∀ b ∈ log, ∀ d, s.definitions.entries[b.index]? = some d →
      d.root.Reported st'.warnings d.pointer := by
  induction h with
  | newDefinition unfinished entry entered run ih =>
      intro b hb d hd
      rcases List.mem_cons.mp hb with rfl | hb
      · cases entry.symm.trans hd
        exact run.reported
      · exact ih b hb d hd
  | array _ ih | objectSchema _ ih | referenceSchema _ ih | composite _ ih | typed _ ih
  | liftedMember _ _ ih | objectMember _ _ ih | plainMember _ _ ih | rootReference _ _ _ ih
  | deepReference _ _ _ _ ih | build _ ih | plainOperation _ _ _ ih => exact ih
  | object _ second ih₁ ih₂ | properties _ second ih₁ ih₂ | members _ second ih₁ ih₂
  | definitions _ second ih₁ ih₂ | parameters _ second ih₁ ih₂ | queryBuild _ _ second ih₁ ih₂ =>
      intro b hb d hd
      rcases List.mem_append.mp hb with hb | hb
      · exact (ih₁ b hb d hd).mono second.warnings_subset
      · exact ih₂ b hb d hd
  | queryOperation _ _ _ second ih₁ ih₂ =>
      intro b hb d hd
      rcases List.mem_append.mp hb with hb | hb
      · refine (ih₁ b hb d hd).mono ?_
        exact List.Subset.trans (List.subset_append_left _ _) second.warnings_subset
      · exact ih₂ b hb d hd
  | _ => exact fun b hb => nomatch hb

end Setting

/-! ## Everything reported stands where the warning says -/

/-- Segments tell apart all that stands in the definitions. -/
def DefinitionTable.Addressable (table : DefinitionTable) : Prop :=
  ∀ d ∈ table.entries, d.root.Addressable

theorem DefinitionTable.Stands.distinct {table : DefinitionTable} {pointer : String} {node : Node}
    (h : table.Stands pointer node) (ha : table.Addressable) : node.Distinct := by
  obtain ⟨i, d, way, entry, -, hwalk⟩ := h
  exact ha d (List.mem_of_getElem? entry) node (Node.walk_below hwalk)

theorem Setting.stands_holds {s : Setting} (ha : s.definitions.Addressable) :
    s.Holds s.definitions.Stands where
  root entry := .root entry
  part h hp := h.part hp (h.distinct ha)
  target _ resolved _ := .target resolved

namespace SchemaModel

variable {model : SchemaModel} {sorted : Bool} {b : Build}

/-- Degradation to `any` is never silent and is reported where it happens, in every build without
query interfaces. Each construct that cannot be expressed, anywhere in a definition, has a warning
with its address. And each warning but those about names has a pointer whose way, walked from its
definition, ends at once at the schema the warning tells of: the pointer resolves to that schema, and
no reference is followed. For the second part addresses must be addresses: the properties of an
object have different names, as in all that is read from a document, and members can be counted. -/
theorem degradation_reported (h : model.build sorted false = .ok b) :
    (∀ d ∈ model.definitions.entries, ∀ way construct doc nullable,
      d.root.At way ⟨.unsupported construct, doc, nullable⟩ →
        Warning.unsupported (Pointer.render (d.home.segments ++ d.name :: way)) construct ∈
          b.warnings) ∧
      (model.definitions.Addressable → ∀ w ∈ b.warnings, w.kind ≠ .duplicateName →
        ∃ (i : Nat) (d : Definition) (way : List String) (node : Node),
          model.definitions.entries[i]? = some d ∧
            w.pointer = Pointer.render (d.home.segments ++ d.name :: way) ∧
            d.root.walk [] way = .done node ∧
            model.definitions.resolve w.pointer = .ok ⟨i, w.pointer, node, way.isEmpty⟩ ∧
            (model.setting sorted).TellsOf w node) := by
  obtain ⟨log, st, queries, hb⟩ := built_of_ok h
  refine ⟨?_, ?_⟩
  · intro d hd way construct doc nullable hat
    obtain ⟨i, hi, rfl⟩ := List.getElem_of_mem hd
    obtain ⟨p, hbegun⟩ := hb.begun hi
    have hreported := hb.run.reported_begun _ hbegun _ (List.getElem?_eq_getElem hi)
    have hw := hreported way construct doc nullable hat
    rw [Definition.pointer, ← Pointer.render_append, List.append_assoc] at hw
    rw [hb.result]
    exact hw
  · intro ha w hw hkind
    rcases hb.warning_cases (Setting.stands_holds ha) w hw with ⟨hduplicate, -⟩ | hstands
    · exact absurd hduplicate hkind
    · obtain ⟨node, ⟨i, d, way, entry, hpointer, hwalk⟩, tells⟩ := hstands
      refine ⟨i, d, way, node, entry, hpointer, hwalk, ?_, tells⟩
      rw [hpointer]
      exact DefinitionTable.resolve_render entry hwalk

def strayTypes : SchemaModel where
  definitions :=
    { entries :=
        [⟨.definitions, "Tree", .bare <| .object
            [("at/of", .bare (.unsupported "tuple `items`")),
              ("kids", .bare (.array (.bare (.reference "#/definitions/Tree/properties/kids"))))]
            [] .closed⟩,
          ⟨.definitions, "Loop", .bare (.reference "#/definitions/Loop")⟩]
      nodup := by decide }

theorem strayTypes_addressable : strayTypes.definitions.Addressable := by
  have hleaf : ∀ {kind : Kind Node}, (Node.bare kind).Distinct →
      (∀ part, ¬ Node.PartOf part (.bare kind)) → (Node.bare kind).Addressable :=
    fun hd hnone => .of_parts hd fun part hp => absurd hp (hnone part)
  intro d hd
  simp only [strayTypes, List.mem_cons, List.not_mem_nil, or_false] at hd
  rcases hd with rfl | rfl
  · have hnames : ["at/of", "kids"].Nodup := by decide
    refine .of_parts hnames fun part hp => ?_
    cases hp with
    | property h =>
        simp only [List.mem_cons, List.not_mem_nil, or_false, Prod.mk.injEq] at h
        rcases h with ⟨-, rfl⟩ | ⟨-, rfl⟩
        · exact hleaf trivial fun _ hp => nomatch hp
        · refine .of_parts trivial fun part hp => ?_
          cases hp
          exact hleaf trivial fun _ hp => nomatch hp
  · exact hleaf trivial fun _ hp => nomatch hp

theorem strayTypes_warnings :
    (strayTypes.build false false).toOption.map Build.warnings = some
      [.unsupported "#/definitions/Tree/properties/at~1of" "tuple `items`",
        .recursive "#/definitions/Tree/properties/kids/items"
          "#/definitions/Tree/properties/kids",
        .circular "#/definitions/Loop" "Loop"] := by
  decide +kernel

theorem strayTypes_reported : ∃ b, strayTypes.build false false = .ok b ∧
    b.warnings.length = 3 ∧
    Warning.unsupported "#/definitions/Tree/properties/at~1of" "tuple `items`" ∈ b.warnings ∧
    ∀ w ∈ b.warnings, w.kind ≠ .duplicateName →
      ∃ node, strayTypes.definitions.Stands w.pointer node ∧
        (strayTypes.setting false).TellsOf w node := by
  obtain ⟨b, hbuild, hwarnings⟩ := eq_ok_of_toOption_map strayTypes_warnings
  obtain ⟨hall, hsound⟩ := degradation_reported hbuild
  refine ⟨b, hbuild, congrArg List.length hwarnings, ?_, fun w hw hkind => ?_⟩
  · have hroot := hall _ List.mem_cons_self
    exact hroot _ _ _ _ (.part .refl (.property List.mem_cons_self))
  · obtain ⟨i, d, way, node, entry, hpointer, hwalk, -, tells⟩ :=
      hsound strayTypes_addressable w hw hkind
    exact ⟨node, ⟨i, d, way, entry, hpointer, hwalk⟩, tells⟩

end SchemaModel

end SwaggerTypes
