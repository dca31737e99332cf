import Mathlib.Data.List.Forall2
import SwaggerTypes.Proofs.DeclaredNames
import SwaggerTypes.Proofs.SanitizedNames
/-!
# Renamed declarations

What is declared asks for a name, the definitions first and then the operations with query parameters,
and is given its base name or one with a number behind it. The warnings about names tell exactly which
declarations were given another name than they asked for.
-/

namespace SwaggerTypes

open Text (IsName)

structure NameRequest where
  base : String
  pointer : String

def Definition.request (d : Definition) : NameRequest := ⟨Text.sanitize d.name, d.pointer⟩

def Operation.request (op : Operation) : NameRequest := ⟨op.queryName, op.pointer⟩

def SchemaModel.nameRequests (model : SchemaModel) (withQuery : Bool) : List NameRequest :=
  model.definitions.entries.map Definition.request
    ++ (model.queryOperations withQuery).map Operation.request

def NameRequest.renamed (r : NameRequest) (name : String) : Warning :=
  ⟨.duplicateName, r.pointer,
    "`" ++ r.base ++ "` is already declared; using `" ++ name ++ "`"⟩

/-- The warnings due when requests are given these names: one for each that is not the base name. -/
def renamings (rs : List NameRequest) (names : List String) : List Warning :=
  ((rs.zip names).filter fun (r, name) => name ≠ r.base).map fun (r, name) => r.renamed name

def aboutNames (ws : List Warning) : List Warning := ws.filter fun w => w.kind = .duplicateName

def NameRequest.Given (r : NameRequest) (name : String) : Prop :=
  ∃ taken, name = (nextName taken r.base r.pointer).1

/-! ## One name -/

/-- Where the base name is taken, the name that is given is another one. -/
theorem nextName_ne_base {taken : List String} {base : String} (pointer : String)
    (h : base ∈ taken) : (nextName taken base pointer).1 ≠ base := by
  intro heq
  have hfree := nextName_not_mem taken base pointer
  rw [heq] at hfree
  exact hfree h

theorem nextName_of_not_mem {taken : List String} {base : String} (pointer : String)
    (h : base ∉ taken) : nextName taken base pointer = (base, none) := by
  rw [nextName, if_neg h]

theorem nextName_renamings (taken : List String) (r : NameRequest) :
    (nextName taken r.base r.pointer).2.toList =
      renamings [r] [(nextName taken r.base r.pointer).1] := by
  by_cases h : r.base ∈ taken
  · have hne := nextName_ne_base r.pointer h
    have hwarning : (nextName taken r.base r.pointer).2 =
        some (r.renamed (nextName taken r.base r.pointer).1) := by
      rw [nextName, if_pos h]
      rfl
    simp [renamings, hne, hwarning]
  · rw [nextName_of_not_mem r.pointer h]
    simp [renamings]

theorem aboutNames_nextName (taken : List String) (r : NameRequest) :
    aboutNames (nextName taken r.base r.pointer).2.toList =
      renamings [r] [(nextName taken r.base r.pointer).1] := by
  rw [← nextName_renamings]
  refine List.filter_eq_self.mpr fun w hw => ?_
  exact decide_eq_true (nextName_warning (Option.mem_toList.mp hw)).1

/-- A name that is given is the base name or the base name with a number behind it. -/
theorem NameRequest.Given.base_or_numbered {r : NameRequest} {name : String} (h : r.Given name) :
    name = r.base ∨ ∃ n : Nat, name = r.base ++ toString n := by
  obtain ⟨taken, rfl⟩ := h
  by_cases hmem : r.base ∈ taken
  · have hfresh : (nextName taken r.base r.pointer).1 = freshName taken r.base := by
      rw [nextName, if_pos hmem]
    rw [hfresh, freshName]
    cases hfind : ((List.range' 2 (taken.length + 1)).map fun n => r.base ++ toString n).find?
        (· ∉ taken) with
    | none => exact .inl rfl
    | some name =>
        obtain ⟨n, -, rfl⟩ := List.mem_map.mp (List.mem_of_find?_eq_some hfind)
        exact .inr ⟨n, rfl⟩
  · rw [nextName_of_not_mem r.pointer hmem]
    exact .inl rfl

theorem NameRequest.Given.isName {r : NameRequest} {name : String} (h : r.Given name)
    (hbase : IsName r.base) : IsName name := by
  rcases h.base_or_numbered with rfl | ⟨n, rfl⟩
  · exact hbase
  · exact hbase.numbered n

theorem renamings_append {rs : List NameRequest} {names : List String}
    (h : rs.length = names.length) (rs' : List NameRequest) (names' : List String) :
    renamings (rs ++ rs') (names ++ names') = renamings rs names ++ renamings rs' names' := by
  simp only [renamings, List.zip_append h, List.filter_append, List.map_append]

/-! ## The names of the definitions -/

namespace SchemaModel

theorem takeNames_given (ds : List Definition) :
    List.Forall₂ NameRequest.Given (ds.map Definition.request) (takeNames ds).1 := by
  induction ds using List.reverseRecOn with
  | nil => exact .nil
  | append_singleton ds d ih =>
      rw [takeNames_concat, List.map_append]
      exact List.rel_append ih (.cons ⟨_, rfl⟩ .nil)

theorem takeNames_renamings (ds : List Definition) :
    aboutNames (takeNames ds).2.warnings =
      renamings (ds.map Definition.request) (takeNames ds).1 := by
  induction ds using List.reverseRecOn with
  | nil => rfl
  | append_singleton ds d ih =>
      have hlength := (takeNames_given ds).length_eq
      have hnext := aboutNames_nextName (takeNames ds).2.taken d.request
      rw [takeNames_concat, List.map_append, renamings_append hlength, ← ih]
      exact (List.filter_append ..).trans (congrArg _ hnext)

end SchemaModel

/-! ## The names of query interfaces -/

def Task.nameRequests (model : SchemaModel) : Task → List NameRequest
  | .operations ops =>
    (ops.filter fun op => !(model.queryParameters op).isEmpty).map Operation.request
  | .build withQuery => (model.queryOperations withQuery).map Operation.request
  | _ => []

theorem aboutNames_warn {kind : WarningKind} (h : kind ≠ .duplicateName) (st : Progress) (p : Place)
    (message : String) :
    aboutNames (st.warn p kind message).warnings = aboutNames st.warnings := by
  simp [aboutNames, Progress.warn, h]

theorem aboutNames_takeName (st : Progress) (r : NameRequest) :
    aboutNames (st.takeName r.base r.pointer).warnings =
      aboutNames st.warnings ++ renamings [r] [(nextName st.taken r.base r.pointer).1] := by
  have hnext := aboutNames_nextName st.taken r
  exact (List.filter_append ..).trans (congrArg _ hnext)

/-- A run raises the warnings about names that are due for what it declares, and no others. -/
theorem Setting.Run.renamings {s : Setting} {model : SchemaModel} {p : Place} {task : Task}
    {st st' : Progress} {log : List Begun} {finding : Finding}
    (h : s.Run model p task st log finding st') :
    aboutNames st'.warnings = aboutNames st.warnings ++
      renamings (task.nameRequests model) (finding.declared.map Declaration.name) := by
  induction h with
  | any | primitive | enum | noProperties | closed | unrestricted | noMembers | skippedMember
  | knownDefinition | guardedCycle | noDefinitions | noParameters | noOperations =>
      exact (List.append_nil _).symm
  | unsupported | recursiveReference | aliasCycle =>
      exact (aboutNames_warn (by decide) _ _ _).trans (List.append_nil _).symm
  | array _ ih | objectSchema _ ih | referenceSchema _ ih | composite _ ih | typed _ ih
  | liftedMember _ _ ih | objectMember _ _ ih | plainMember _ _ ih | rootReference _ _ _ ih
  | deepReference _ _ _ _ ih | newDefinition _ _ _ _ ih | build _ ih => exact ih
  | object _ _ ih₁ ih₂ | properties _ _ ih₁ ih₂ | members _ _ ih₁ ih₂ | definitions _ _ ih₁ ih₂
  | parameters _ _ ih₁ ih₂ =>
      rw [ih₂, ih₁]
      exact List.append_nil _
  | plainOperation effective plain _ ih =>
      have hq := (SchemaModel.queryParameters_of_ok effective).trans plain
      rw [ih, Task.nameRequests, Task.nameRequests, List.filter_cons_of_neg (by simp [hq])]
  | @queryOperation op list rest st log₁ qs st₁ log₂ ds st₂ effective query _ _ ih₁ ih₂ =>
      have hq := SchemaModel.queryParameters_of_ok effective
      have hquiet : aboutNames st₁.warnings = aboutNames st.warnings :=
        ih₁.trans (List.append_nil _)
      have hname := aboutNames_takeName st₁ op.request
      rw [ih₂, Task.nameRequests, Task.nameRequests,
        List.filter_cons_of_pos (by simpa [hq] using query), ← hquiet, List.map_cons]
      rw [show (st₁.takeName op.queryName op.pointer).warnings = _ from rfl]
      refine (congrArg (· ++ _) hname).trans ?_
      rw [List.append_assoc, ← renamings_append rfl]
      rfl
  | queryBuild paths _ _ ih₁ ih₂ =>
      have hquiet := ih₁.trans (List.append_nil _)
      rw [ih₂, hquiet, Task.nameRequests, Task.nameRequests, SchemaModel.queryOperations,
        if_pos rfl, paths]
      rfl

/-! ## The names of a build -/

namespace SchemaModel

variable {model : SchemaModel} {sorted withQuery : Bool} {b : Build} {log : List Begun}
  {st : Progress} {queries : List Declaration}

theorem isName_of_mem_nameRequests {r : NameRequest} (h : r ∈ model.nameRequests withQuery) :
    IsName r.base := by
  rcases List.mem_append.mp h with h | h
  · obtain ⟨d, -, rfl⟩ := List.mem_map.mp h
    exact Text.isName_sanitize d.name
  · obtain ⟨op, -, rfl⟩ := List.mem_map.mp h
    exact op.isName_queryName

namespace Built

theorem given (h : Built model sorted withQuery b log st queries) :
    List.Forall₂ NameRequest.Given (model.nameRequests withQuery)
      (b.declarations.map Declaration.name) := by
  rw [h.declarations_eq, List.map_append, h.names_eq]
  refine List.rel_append (takeNames_given _) ?_
  rw [List.forall₂_map_left_iff, List.forall₂_map_right_iff]
  exact h.interfaces.imp fun _ _ hd => hd.1

theorem isName (h : Built model sorted withQuery b log st queries) {d : Declaration}
    (hd : d ∈ b.declarations) : IsName d.name := by
  obtain ⟨hlength, hgiven⟩ := List.forall₂_iff_zip.mp (List.forall₂_map_right_iff.mp h.given)
  obtain ⟨r, hr⟩ : ∃ r, (r, d) ∈ (model.nameRequests withQuery).zip b.declarations := by
    obtain ⟨i, hi, rfl⟩ := List.mem_iff_getElem.mp hd
    exact ⟨_, List.mem_iff_getElem.mpr ⟨i, by simpa [hlength] using hi, List.getElem_zip⟩⟩
  exact (hgiven hr).isName (isName_of_mem_nameRequests (List.of_mem_zip hr).1)

theorem isName_of_mem_names (h : Built model sorted withQuery b log st queries) {d : Declaration}
    (hd : d ∈ b.declarations) {name : String} (hn : name ∈ d.names) : IsName name := by
  obtain ⟨i, ⟨-, hi⟩, -⟩ := h.existsUnique_of_defines (h.defines_of_mem_names hd hn)
  obtain ⟨e, he, rfl⟩ := Option.map_eq_some_iff.mp hi
  exact h.isName (List.mem_of_getElem? he)

/-- The warnings about names are those due for the declarations. -/
theorem renamings (h : Built model sorted withQuery b log st queries) :
    aboutNames b.warnings =
      renamings (model.nameRequests withQuery) (b.declarations.map Declaration.name) := by
  -- the definitions take their names before the synthesis starts, the interfaces while it runs
  have hstart := takeNames_renamings model.definitions.entries
  have hlength := (takeNames_given model.definitions.entries).length_eq
  have hsplit := renamings_append hlength
    ((model.queryOperations withQuery).map Operation.request) (queries.map Declaration.name)
  rw [← hstart] at hsplit
  rw [h.declarations_eq, List.map_append, h.names_eq, h.result]
  exact h.run.renamings.trans hsplit.symm

end Built

/-- The names of declarations: no two are the same, none is empty, a word that the language uses
itself, or begins with a digit. Each is the base name of what is declared or has a number behind it,
and there is one warning about names for each that is not the base name, in the order of the
declarations. -/
theorem names_of_build (h : model.build sorted withQuery = .ok b) :
    (b.declarations.map Declaration.name).Nodup ∧
      (∀ d ∈ b.declarations, d.name ≠ "" ∧ Text.isReserved d.name = false ∧
        ∀ c ∈ d.name.toList.head?, c.isDigit = false) ∧
      List.Forall₂ (fun r d => d.name = r.base ∨ ∃ n : Nat, d.name = r.base ++ toString n)
        (model.nameRequests withQuery) b.declarations ∧
      b.warnings.filter (fun w => w.kind = .duplicateName) =
        (((model.nameRequests withQuery).zip b.declarations).filter
          fun (r, d) => d.name ≠ r.base).map fun (r, d) => r.renamed d.name := by
  obtain ⟨log, st, queries, hb⟩ := built_of_ok h
  refine ⟨hb.nodup_names, ?_, ?_, ?_⟩
  · intro d hd
    have hname := hb.isName hd
    obtain ⟨c, cs, heq, hc⟩ := hname.start
    refine ⟨hname.ne_empty, hname.unreserved, fun c' hc' => ?_⟩
    obtain rfl : c = c' := by simpa [heq] using hc'
    exact hc
  · have hgiven := List.forall₂_map_right_iff.mp hb.given
    exact hgiven.imp fun _ _ hg => hg.base_or_numbered
  · have hrenamings := hb.renamings
    rw [SwaggerTypes.renamings, List.zip_map_right, List.filter_map, List.map_map] at hrenamings
    exact hrenamings

def petNames : SchemaModel where
  definitions :=
    { entries :=
        ["Pet", "Pet!", "Pet2", "type", "1st"].map fun name => ⟨.definitions, name, .bare .any⟩
      nodup := by decide }
  operations := some <|
    ["list-pets", "list pets"].map fun id =>
      { path := "/pets"
        method := "get"
        operationId := some id
        itemPointer := "#/paths/~1pets"
        pathParameters := []
        parameters := [.inline ⟨"of", .query, false, none, .bare .any, true⟩] }

theorem petNames_names :
    (petNames.build false true).toOption.map (fun b => b.declarations.map Declaration.name) =
      some ["Pet", "Pet2", "Pet22", "_type", "_1st", "ListPetsQuery", "ListPetsQuery2"] := by
  decide +kernel

theorem petNames_distinct : ∃ b, petNames.build false true = .ok b ∧
    b.declarations.map Declaration.name =
      ["Pet", "Pet2", "Pet22", "_type", "_1st", "ListPetsQuery", "ListPetsQuery2"] ∧
    (b.declarations.map Declaration.name).Nodup ∧
    (∀ d ∈ b.declarations, Text.isReserved d.name = false) ∧
    b.warnings.filter (fun w => w.kind = .duplicateName) =
      (((petNames.nameRequests true).zip b.declarations).filter
        fun (r, d) => d.name ≠ r.base).map fun (r, d) => r.renamed d.name := by
  obtain ⟨b, hbuild, hnames⟩ := eq_ok_of_toOption_map petNames_names
  obtain ⟨hnodup, hfree, -, hwarnings⟩ := names_of_build hbuild
  exact ⟨b, hbuild, hnames, hnodup, fun d hd => (hfree d hd).2.1, hwarnings⟩

end SchemaModel

end SwaggerTypes
