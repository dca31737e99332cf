import SwaggerTypes.Conversion
import SwaggerTypes.Proofs.Degradation
import SwaggerTypes.Proofs.DeclaredNames
import SwaggerTypes.Proofs.DocumentPointers
import SwaggerTypes.Proofs.SortedBuilds
/-!
# Query interfaces are added to a build

A build with query interfaces begins like the one without: the definitions are declared first, and by
then their slots are done, so what comes behind can only add interfaces and warnings. A build without
them does not even look at paths and parameters, whatever stands there.
-/

namespace SwaggerTypes

def Build.ofDocument (document : Value) (options : Options) : Outcome Build := do
  let model ← SchemaModel.ofDocument document options.withQuery
  model.build options.sortProps options.withQuery

/-! ## What a build does first -/

namespace Setting

variable {s : Setting} {model : SchemaModel} {st st' : Progress} {log : List Begun}

/-- What performs a call and succeeds is a run of it. -/
theorem Performs.run {α : Type} {x : Synthesis α} {c : Call} {wrap : α → Finding} {a : α}
    (h : s.Performs model x c wrap) (hx : x.run c.progress = .ok (a, st')) :
    ∃ log, s.Run model c.place c.task c.progress log (wrap a) st' := by
  unfold Performs Resumes at h
  rw [hx] at h
  simpa using h

theorem Run.slots_eq {p : Place} {task : Task} {finding : Finding}
    (h : s.Run model p task st log finding st') (ho : s.Orderly p.chain st)
    (hdone : ∀ i < s.definitions.entries.length, st.IsDone i) : st'.slots = st.slots := by
  refine List.ext_getElem? fun i => ?_
  rcases (h.finishes ho).advances i with heq | ⟨hpending, -⟩
  · exact heq
  · have hi : i < s.definitions.entries.length :=
      ho.length ▸ (List.getElem?_eq_some_iff.mp hpending).1
    exact absurd (hdone i hi) (Progress.not_isDone_of_eq hpending (by simp))

end Setting

namespace SchemaModel

variable {model : SchemaModel} {sorted : Bool} {b : Build}

/-- A build with query interfaces is the one without, with interfaces and warnings added. -/
theorem build_extends (h : model.build sorted true = .ok b) :
    ∃ plain queries, model.build sorted false = .ok plain ∧
      b.declarations = plain.declarations ++ queries ∧ plain.warnings <+: b.warnings ∧
      List.Forall₂ (model.IsQueryInterface sorted) (model.queryOperations true) queries := by
  rw [build_eq] at h
  obtain ⟨⟨queries, st⟩, hrun, heq⟩ := bind_eq_ok.mp h
  cases heq
  rw [synthesis, StateT.run_bind] at hrun
  obtain ⟨⟨⟨⟩, st₁⟩, hfirst, hsecond⟩ := bind_eq_ok.mp hrun
  have ho := model.start_orderly sorted
  obtain ⟨log₁, first⟩ : ∃ log₁, (model.setting sorted).Run model {}
      (.definitions (List.range model.definitions.entries.length)) model.start log₁ .nothing st₁ :=
    (Setting.performs_definitions _ model.start).run hfirst
  have h₁ := ho.advance (first.finishes ho).advances
  have hdone : ∀ i < model.definitions.entries.length, st₁.IsDone i := fun i hi =>
    first.definitions_done ho i (List.mem_range.mpr hi) hi
  obtain ⟨operations, paths, log₂, second⟩ : ∃ operations, model.operations = some operations ∧
      ∃ log₂, (model.setting sorted).Run model {} (.operations operations) st₁ log₂
        (.declarations queries) st := by
    rw [if_pos rfl, Setting.queryDeclarations] at hsecond
    split at hsecond
    · cases hsecond
    · next operations paths =>
      exact ⟨operations, paths, (Setting.performs_operations operations st₁).run hsecond⟩
  refine ⟨⟨finished st₁.slots, st₁.warnings⟩, queries, ?_, ?_, second.warnings_prefix, ?_⟩
  · have hplain : (model.synthesis sorted false).run model.start = .ok ([], st₁) := by
      rw [synthesis, StateT.run_bind, hfirst]
      rfl
    rw [build_eq, hplain]
    show Except.ok (Build.mk (finished st₁.slots ++ []) st₁.warnings) = _
    rw [List.append_nil]
  · rw [second.slots_eq h₁ hdone]
  · rw [queryOperations, if_pos rfl, paths]
    exact second.interfaces_of_operations

theorem ofDocument_plain {document : Value} (h : ofDocument document true = .ok model) :
    ofDocument document false = .ok { definitions := model.definitions } := by
  obtain ⟨fields, s, rfl, hs, hdefinitions⟩ := sections_of_document h
  rw [ofDocument, hs, hdefinitions]
  rfl

end SchemaModel

/-! ## Documents without operations -/

namespace Value

def withoutParameters : Value → Value
  | .object fields => .object (fields.filter fun f => f.1 ≠ "parameters")
  | .array (schemas :: _ :: rest) => .array (schemas :: .null :: rest)
  | v => v

def withoutOperations : Value → Value
  | .object fields =>
    .object ((fields.filter fun f => f.1 ≠ "paths" && f.1 ≠ "parameters").map fun f =>
      if f.1 = "components" then (f.1, f.2.withoutParameters) else f)
  | v => v

end Value

/-- Two readings that look the same through `view` go on alike if their continuations do. -/
theorem map_bind_congr {σ τ ε : Type} {view : σ → τ} {x y : Except ε σ} {f g : σ → Except ε σ}
    (h : x.map view = y.map view)
    (hnext : ∀ s s', view s = view s' → (f s).map view = (g s').map view) :
    (x >>= f).map view = (y >>= g).map view := by
  cases x with
  | error e =>
      cases y with
      | error e' => exact congrArg Except.error (Except.error.inj h)
      | ok s' => cases h
  | ok s =>
      cases y with
      | error e' => cases h
      | ok s' => exact hnext s s' (Except.ok.inj h)

/-- A reading seen through `view`: fields that are passed over do not show, and the others may be
changed as long as that does not show either. -/
theorem map_foldlM_filter {σ τ β ε : Type} (view : σ → τ) (step : σ → β → Except ε σ)
    (keep : β → Bool) (change : β → β)
    (hkeep : ∀ s s' b, keep b = true → view s = view s' →
      (step s b).map view = (step s' (change b)).map view)
    (hskip : ∀ s b, keep b = false → (step s b).map view = .ok (view s)) (bs : List β) :
    ∀ s s', view s = view s' →
      (bs.foldlM step s).map view = (((bs.filter keep).map change).foldlM step s').map view := by
  induction bs with
  | nil => exact fun s s' h => congrArg Except.ok h
  | cons b bs ih =>
      intro s s' h
      rw [List.foldlM_cons]
      cases hb : keep b with
      | false =>
          have hstep : (step s b).map view = (Except.ok s').map view :=
            (hskip s b hb).trans (congrArg Except.ok h)
          rw [List.filter_cons_of_neg (by simp [hb])]
          exact map_bind_congr (y := .ok s') hstep ih
      | true =>
          rw [List.filter_cons_of_pos hb, List.map_cons, List.foldlM_cons]
          exact map_bind_congr (hkeep s s' b hb h) ih

theorem map_readSection {α β : Type} (f : α → β) (name : String) (r : Reading α) :
    (readSection name r).map f = readSection name (r.map f) := by
  cases r <;> rfl

theorem Reading.map_under {α β : Type} (f : α → β) (step : Step) (r : Reading α) :
    (Reading.under step r).map f = Reading.under step (r.map f) := by
  cases r <;> rfl

namespace Components

def plain (c : Components) : Components := { c with parameters := none }

theorem map_set_plain {c c' : Components} (h : c.plain = c'.plain) (name : String) (v : Value) :
    (c.set name v).map plain = (c'.set name v).map plain := by
  have hset : ∀ c : Components, (c.set name v).map plain = (c.plain.set name v).map plain := by
    intro c
    unfold set
    split
    · cases Schema.mapOf v <;> rfl
    · rfl
    · rfl
  rw [hset c, h, ← hset c']

theorem read_items (schemas parameters : Value) (rest : List Value) :
    Record.components.read set {} (.array (schemas :: parameters :: rest)) =
      (Reading.under (.index 0) (Schema.mapOf schemas) >>= fun found =>
        match Record.components.lengthMismatch (rest.length + 2) with
        | some cause => .error { cause }
        | none => .ok { schemas := found, parameters := parameters.present? }) := by
  unfold Record.read
  simp only [Record.fields, List.zip_cons_cons, List.zip_nil_left, List.zipIdx_cons,
    List.zipIdx_nil, List.foldlM_cons, List.foldlM_nil, set]
  cases Schema.mapOf schemas <;> rfl

theorem map_read_plain (v : Value) :
    (Record.components.read set {} v).map plain =
      (Record.components.read set {} v.withoutParameters).map plain := by
  cases v with
  | object fields =>
      have hfold := map_foldlM_filter plain
        (fun (c : Components) (f : String × Value) => Reading.under (.key f.1) (c.set f.1 f.2))
        (fun f => f.1 ≠ "parameters") id ?_ ?_ fields {} {} rfl
      · rwa [List.map_id] at hfold
      · intro c c' f _ h
        rw [Reading.map_under, Reading.map_under, map_set_plain h]
        rfl
      · rintro c ⟨name, v⟩ hskip
        obtain rfl : name = "parameters" := by simpa using hskip
        rfl
  | array items =>
      match items with
      | [] | [_] => rfl
      | schemas :: parameters :: rest =>
          rw [Value.withoutParameters, read_items, read_items]
          cases Schema.mapOf schemas with
          | error m => rfl
          | ok found =>
              show (match Record.components.lengthMismatch (rest.length + 2) with
                | some cause => Except.error { cause }
                | none => Except.ok _ : Reading Components).map plain = _
              cases Record.components.lengthMismatch (rest.length + 2) <;> rfl
  | _ => rfl

theorem map_ofValue_plain (v : Value) :
    (Components.ofValue v).map (Option.map plain) =
      (Components.ofValue v.withoutParameters).map (Option.map plain) := by
  have hsome : ∀ r : Reading Components,
      (r.map some).map (Option.map plain) = (r.map plain).map some := fun r => by cases r <;> rfl
  have hread := map_read_plain v
  cases v with
  | object fields =>
      show Except.map _ (Except.map some _) = Except.map _ (Except.map some _)
      rw [hsome, hsome, hread]
  | array items =>
      show Except.map _ (Except.map some _) = _
      rw [hsome, hread]
      match items with
      | [] | [_] | _ :: _ :: _ => exact (hsome _).symm
  | _ => rfl

end Components

namespace Sections

def plain (s : Sections) : Sections :=
  { definitions := s.definitions, components := s.components.map Components.plain }

theorem definitionTable_plain (s : Sections) : s.plain.definitionTable = s.definitionTable := by
  unfold definitionTable plain
  cases s.components <;> rfl

/-- Components are read from their own value, whatever was read before. -/
theorem map_set_components {s s' : Sections} (h : s.plain = s'.plain) (v : Value) :
    (s.set "components" v).map plain = (s'.set "components" v.withoutParameters).map plain := by
  have hset : ∀ (s : Sections) (v : Value), (s.set "components" v).map plain =
      ((Components.ofValue v).map (Option.map Components.plain)).map
        fun c => { s.plain with components := c } := by
    intro s v
    show Except.map _ (Components.ofValue v >>= _) = _
    cases Components.ofValue v <;> rfl
  rw [hset, hset, h, Components.map_ofValue_plain]

theorem map_set_plain {s s' : Sections} (h : s.plain = s'.plain) {name : String} (v : Value)
    (hname : name ≠ "components") : (s.set name v).map plain = (s'.set name v).map plain := by
  have hset : ∀ s : Sections, (s.set name v).map plain = (s.plain.set name v).map plain := by
    rintro ⟨definitions, parameters, components, paths⟩
    unfold set
    split
    · cases Schema.mapOf v <;> cases components <;> rfl
    · cases components <;> rfl
    · contradiction
    · cases components <;> rfl
    · cases components <;> rfl
  rw [hset s, h, ← hset s']

theorem map_ofDocument_plain (document : Value) :
    (ofDocument document).map plain = (ofDocument document.withoutOperations).map plain := by
  cases document with
  | object fields =>
      have hfold := map_foldlM_filter plain
        (fun (s : Sections) (f : String × Value) => Reading.under (.key f.1) (s.set f.1 f.2))
        (fun f => f.1 ≠ "paths" && f.1 ≠ "parameters")
        (fun f => if f.1 = "components" then (f.1, f.2.withoutParameters) else f)
        ?_ ?_ fields {} {} rfl
      · unfold ofDocument Value.withoutOperations
        simp only
        rw [map_readSection, map_readSection, hfold]
      · rintro s s' ⟨name, v⟩ _ h
        rw [Reading.map_under, Reading.map_under]
        by_cases hname : name = "components"
        · subst hname
          rw [if_pos rfl, map_set_components h]
        · rw [if_neg hname, map_set_plain h _ hname]
      · rintro s ⟨name, v⟩ hskip
        obtain rfl | rfl : name = "paths" ∨ name = "parameters" := by
          simpa [or_iff_not_imp_left] using hskip
        all_goals rfl
  | _ => rfl

end Sections

theorem SchemaModel.ofDocument_withoutOperations (document : Value) :
    ofDocument document false = ofDocument document.withoutOperations false := by
  have h : ∀ document : Value, ofDocument document false =
      ((Sections.ofDocument document).map Sections.plain).map
        fun s => { definitions := s.definitionTable } := by
    intro document
    unfold ofDocument
    cases Sections.ofDocument document with
    | error e => rfl
    | ok s =>
        have htable := s.definitionTable_plain
        show (Except.ok { definitions := s.definitionTable } : Outcome SchemaModel) =
          .ok { definitions := s.plain.definitionTable }
        rw [htable]
  rw [h, h, Sections.map_ofDocument_plain]

/-- Query interfaces are added to a build and change nothing else: the build without them succeeds as
well, and its declarations and its warnings come first. The build without them is the same for
documents that differ in paths and parameters only. -/
theorem build_adds_queries (document : Value) (options : Options) :
    (∀ b, Build.ofDocument document { options with withQuery := true } = .ok b →
      ∃ model plain queries, SchemaModel.ofDocument document true = .ok model ∧
        Build.ofDocument document { options with withQuery := false } = .ok plain ∧
        b.declarations = plain.declarations ++ queries ∧ plain.warnings <+: b.warnings ∧
        List.Forall₂ (model.IsQueryInterface options.sortProps) (model.queryOperations true)
          queries) ∧
    ∀ document', document.withoutOperations = document'.withoutOperations →
      Build.ofDocument document { options with withQuery := false } =
        Build.ofDocument document' { options with withQuery := false } := by
  constructor
  · intro b hb
    obtain ⟨model, hmodel, hbuild⟩ := bind_eq_ok.mp hb
    obtain ⟨plain, queries, hplain, hdeclarations, hwarnings, hqueries⟩ :=
      SchemaModel.build_extends hbuild
    refine ⟨model, plain, queries, hmodel, ?_, hdeclarations, hwarnings, hqueries⟩
    show (SchemaModel.ofDocument document false >>= fun model => model.build _ _) = _
    rw [SchemaModel.ofDocument_plain hmodel]
    exact hplain
  · intro document' h
    show (SchemaModel.ofDocument document false >>= _) = (SchemaModel.ofDocument document' false >>= _)
    rw [SchemaModel.ofDocument_withoutOperations document, h,
      ← SchemaModel.ofDocument_withoutOperations document']

def petFilter : Value :=
  .object
    [("definitions", .object [("Pet", .object [("type", .string "string")])]),
      ("components", .object
        [("parameters", .object
          [("Tag", .object
            [("name", .string "tag"), ("in", .string "query"), ("type", .string "string")])])]),
      ("paths", .object
        [("/pets", .object
          [("get", .object
            [("parameters", .array
              [.object [("$ref", .string "#/components/parameters/Tag")]])])])])]

def spoiltFilter : Value :=
  .object
    [("definitions", .object [("Pet", .object [("type", .string "string")])]),
      ("parameters", .string "none"),
      ("components", .object [("parameters", .bool true)]),
      ("paths", .array [.null])]

theorem petFilter_names :
    (Build.ofDocument petFilter { withQuery := true }).toOption.map
      (fun b => b.declarations.map Declaration.name) = some ["Pet", "GetPetsQuery"] := by
  decide +kernel

theorem petFilter_adds_queries : ∃ b plain queries,
    Build.ofDocument petFilter { withQuery := true } = .ok b ∧
    Build.ofDocument petFilter {} = .ok plain ∧
    Build.ofDocument spoiltFilter {} = .ok plain ∧
    b.declarations = plain.declarations ++ queries ∧
    b.declarations.map Declaration.name = ["Pet", "GetPetsQuery"] := by
  obtain ⟨hadds, hsame⟩ := build_adds_queries petFilter {}
  obtain ⟨b, hb, hnames⟩ := eq_ok_of_toOption_map petFilter_names
  obtain ⟨_, plain, queries, -, hplain, hdeclarations, -, -⟩ := hadds b hb
  exact ⟨b, plain, queries, hb, hplain, (hsame spoiltFilter rfl).symm.trans hplain, hdeclarations,
    hnames⟩

end SwaggerTypes
