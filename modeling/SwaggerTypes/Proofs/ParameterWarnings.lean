import SwaggerTypes.Proofs.ChildSchemas
import SwaggerTypes.Proofs.ParameterSources
import SwaggerTypes.Proofs.QueryInterfaces
import SwaggerTypes.Proofs.WarningPointers
/-!
# Warnings about parameters

While a parameter is mapped, warnings are written at its pointer, at parts of its schema below that,
and in definitions that its schema refers to. What stands in the parameter is found there as long as
the pointer is that of the parameter itself and each schema puts one constraint.
-/

namespace SwaggerTypes

namespace Value

variable {document v w : Value} {table : DefinitionTable} {pointer : String}
  {segments references : List String}

/-- A parameter is written as a map, and in its schema, or in that of its items if it describes its
value itself, all schemas put one constraint at most. Itself it has no list of types. -/
def PlainParameter (v : Value) : Prop :=
  ∃ fields, v = .object fields ∧ (under fields "schema").Plain ∧
    (under fields "schema" = .null →
      (under fields "items").Plain ∧ ∀ names, under fields "type" ≠ .array names)

/-- The pointer strays, or it is below the target of one of these references, which uses no address.
-/
inductive Astray (document : Value) (table : DefinitionTable) (references : List String) :
    String → Prop
  | strays {pointer : String} (h : document.Strays table pointer) :
      Astray document table references pointer
  | indirect {r : String} {target : Target} {below : List String} (hr : r ∈ references)
      (resolved : table.resolve r = .ok target)
      (h : ∀ d way, table.entries[target.definition]? = some d → d.root.At way target.node →
        target.pointer ≠ Pointer.extend d.pointer way) :
      Astray document table references (Pointer.extend target.pointer below)

theorem Astray.extend (h : document.Astray table references pointer) :
    document.Astray table references (Pointer.extend pointer segments) := by
  cases h with
  | strays h => exact .strays h.extend
  | indirect hr resolved h =>
      rw [← Pointer.extend_append]
      exact .indirect hr resolved h

theorem Plain.part (h : v.Plain) (hw : v.SchemaAt segments w) : w.Plain := by
  intro keys u hu
  have hbelow : v.SchemaWithin (segments ++ keys) u := by
    induction hu with
    | refl =>
        rw [List.append_nil]
        exact SchemaWithin.part .refl hw
    | part _ hu ih =>
        rw [← List.append_assoc]
        exact ih.part hu
  exact h _ u hbelow

end Value

/-! ## Schemas met from a parameter -/

namespace Keywords

variable {k : Keywords} {segments : List String} {part : Node}

/-- Keywords of a value without a list of types put one constraint at most. -/
theorem DescribesValue.single (hk : k.DescribesValue)
    (htype : ∀ names, k.type ≠ some (.multiple names)) : k.Single := by
  have hcomposite : ∀ keyword ms, k.structuralKind ≠ some (.composite keyword ms) := by
    intro keyword ms h
    obtain ⟨-, names, hnames, -⟩ := structuralKind_composite h
    exact htype names hnames
  obtain ⟨type, format, items, enum, xNullable, rfl⟩ := hk
  refine ⟨nofun, ?_, hcomposite⟩
  unfold constraints
  cases structuralKind { type, format, items, enum, xNullable } <;> simp [union]

theorem DescribesValue.partAt_cases (hk : k.DescribesValue)
    (htype : ∀ names, k.type ≠ some (.multiple names)) (hp : k.node.PartAt segments part) :
    segments = ["items"] ∧ k.items = some (.single part) ∨ part = .bare .any := by
  rcases k.partAt_cases hp with hw | hany | ⟨hseveral, -⟩
  · obtain ⟨type, format, items, enum, xNullable, rfl⟩ := hk
    cases hw with
    | items h => exact .inl ⟨rfl, h⟩
    | property h | additional h => cases h
    | @member keyword _ _ _ hms => cases keyword <;> cases hms
  · exact .inr hany
  · exact absurd (hk.single htype) hseveral

end Keywords

namespace ParameterFields

variable {fields : List (String × Value)} {p : ParameterFields}

theorem writtenSchema_eq_some {v : Value} {node : Node} (h : writtenSchema v = some node) :
    v ≠ .null ∧ node = Node.ofValue v := by
  cases v with
  | null => cases h
  | _ =>
      cases h
      exact ⟨nofun, rfl⟩

theorem locate_under {key : String} (h : Value.under fields key ≠ .null) :
    (Value.object fields).locate [key] = some (Value.under fields key) := by
  unfold Value.under at h ⊢
  rw [Value.locate, Value.field?]
  cases hget : (Entries.ofList fields).get? key with
  | none => exact absurd (by rw [hget]; rfl) h
  | some v => rfl

theorem ReadFrom.type_ne_multiple (hp : ReadFrom fields p)
    (htype : ∀ names, Value.under fields "type" ≠ .array names) :
    ∀ names, p.type ≠ some (.multiple names) := by
  intro names hnames
  have hread := hp.type
  rw [hnames] at hread
  cases hv : Value.under fields "type" with
  | array items => exact htype items hv
  | null =>
      rw [hv] at hread
      cases hread
  | _ =>
      rw [hv] at hread
      cases hread

end ParameterFields

namespace Value

variable {document : Value} {table : DefinitionTable} {pointer origin : String}
  {parameter : Parameter} {node : Node}

/-- A schema that is met, at its pointer, while a parameter is mapped that stands at the origin. -/
inductive Meets (document : Value) (table : DefinitionTable) (origin : String)
    (references : List String) : String → Node → Prop
  /-- One that is written there, in the parameter. -/
  | written {pointer : String} {v : Value} (h : document.at? pointer = some v) (hv : v.Plain) :
      Meets document table origin references pointer (Node.ofValue v)
  /-- The one that the parameter describes by keywords of its own. -/
  | described {fields : List (String × Value)} {p : ParameterFields}
      (h : document.at? origin = some (.object fields)) (hp : ParameterFields.ReadFrom fields p)
      (hitems : (under fields "items").Plain)
      (htype : ∀ names, under fields "type" ≠ .array names) :
      Meets document table origin references origin p.keywords.node
  /-- The one for items that are not mentioned. -/
  | unmentioned {pointer : String} : Meets document table origin references pointer (.bare .any)
  /-- One of a definition. -/
  | defined {pointer : String} {node : Node} (h : document.Writes table pointer node) :
      Meets document table origin references pointer node
  | astray {pointer : String} {node : Node} (h : document.Astray table references pointer) :
      Meets document table origin references pointer node

variable {references : List String}

theorem Meets.part {segments : List String} {part : Node}
    (h : document.Meets table origin references pointer node) (hp : node.PartAt segments part) :
    document.Meets table origin references (Pointer.extend pointer segments) part := by
  cases h with
  | written h hv =>
      rcases partAt_ofValue hp with ⟨w, hw, rfl⟩ | rfl | ⟨hseveral, -⟩
      · refine .written ?_ (hv.part hw)
        rw [at?_extend h, hw.locate]
      · exact .unmentioned
      · exact absurd (hv [] _ .refl) hseveral
  | @described fields p h hread hitems htype =>
      rcases p.keywords_describe.partAt_cases (hread.type_ne_multiple htype) hp with
        ⟨rfl, heq⟩ | rfl
      · obtain ⟨schema, hschema, hsingle⟩ := Option.map_eq_some_iff.mp heq
        cases hsingle
        rw [hread.items] at hschema
        obtain ⟨hnull, rfl⟩ := ParameterFields.writtenSchema_eq_some hschema
        refine .written ?_ hitems
        rw [at?_extend h, ParameterFields.locate_under hnull]
      · exact .unmentioned
  | unmentioned => cases hp
  | defined h => exact .defined (h.part hp)
  | astray h => exact .astray h.extend

/-- What is told of such a schema is told at a pointer that something stands at, or that leads
astray. -/
theorem Meets.at?_of_tells {s : Setting} {w : Warning}
    (h : document.Meets table origin references w.pointer node) (tells : s.TellsOf w node) :
    (document.at? w.pointer).isSome = true ∨ document.Astray table references w.pointer := by
  generalize hpointer : w.pointer = pointer at h ⊢
  cases h with
  | written h => exact .inl (by rw [h]; rfl)
  | described h => exact .inl (by rw [h]; rfl)
  | unmentioned => cases tells
  | defined h =>
      rcases h with ⟨home, name, root, way, v, hroot, hv, rfl, -⟩ | rfl | hstrays
      · refine .inl ?_
        rw [at?_render (by simp), List.append_cons, locate_append, hroot, Option.bind_some,
          hv.locate]
        rfl
      · cases tells
      · exact .inr (.strays hstrays)
  | astray h => exact .inr h

/-- The schema of a plain parameter is met first. -/
theorem Meets.of_parameter {v : Value} (hv : document.at? origin = some v)
    (hwrites : v.WritesParameter parameter) (hplain : v.PlainParameter) :
    document.Meets table origin references
      (Pointer.extend origin (if parameter.nested then ["schema"] else [])) parameter.schema := by
  obtain ⟨fields, rfl, hschema, hown⟩ := hplain
  obtain ⟨p, place, hp, hslot⟩ := hwrites
  have hread := ParameterFields.readFrom hp
  obtain ⟨-, -, -, -, hschemaOf, hnested⟩ := ParameterFields.slot_inline hslot
  rw [hnested, hschemaOf, ParameterFields.valueSchema]
  cases hnode : p.schema with
  | some node =>
      rw [hread.schema] at hnode
      obtain ⟨hnull, rfl⟩ := ParameterFields.writtenSchema_eq_some hnode
      refine .written ?_ hschema
      rw [at?_extend hv]
      exact ParameterFields.locate_under hnull
  | none =>
      have hnull : under fields "schema" = .null := by
        cases hunder : under fields "schema" with
        | null => rfl
        | _ =>
            rw [hread.schema, hunder] at hnode
            cases hnode
      obtain ⟨hitems, htype⟩ := hown hnull
      have hextend : Pointer.extend origin
          (if (none : Option Node).isSome then ["schema"] else []) = origin :=
        Pointer.extend_nil origin
      rw [hextend]
      exact .described hv hread hitems htype

end Value

namespace SchemaModel

variable {document : Value} {model : SchemaModel}

/-- All schemas met from a parameter, and from the definitions, are met in these ways. -/
theorem meets_holds (h : ofDocument document true = .ok model) (sorted : Bool) (origin : String)
    (references : List String) :
    (model.setting sorted).Holds fun pointer node =>
      node.references ⊆ references ++ model.definitions.references ∧
        document.Meets model.definitions origin references pointer node where
  root := by
    intro i d entry
    have hd : d ∈ model.definitions.entries := List.mem_of_getElem? entry
    constructor
    · intro r hr
      exact List.mem_append_right _ (DefinitionTable.mem_references hd hr)
    · exact .defined (writes_definition (ofDocument_plain h) hd)
  part := by
    rintro pointer segments node part ⟨hreferences, hmeets⟩ hp
    exact ⟨List.Subset.trans hp.partOf.references hreferences, hmeets.part hp⟩
  target := by
    rintro pointer r doc nullable target ⟨hreferences, -⟩ resolved deep
    have htarget := DefinitionTable.target_references resolved
    refine ⟨fun q hq => List.mem_append_right _ (htarget hq), ?_⟩
    by_cases hdirect : ∃ d way, model.definitions.entries[target.definition]? = some d ∧
        d.root.At way target.node ∧ target.pointer = Pointer.extend d.pointer way
    · obtain ⟨d, way, entry, hat, hpointer⟩ := hdirect
      rw [hpointer]
      exact .defined
        ((writes_definition (ofDocument_plain h) (List.mem_of_getElem? entry)).at hat)
    · have hindirect : ∀ d way, model.definitions.entries[target.definition]? = some d →
          d.root.At way target.node → target.pointer ≠ Pointer.extend d.pointer way :=
        fun d way entry hat hpointer => hdirect ⟨d, way, entry, hat, hpointer⟩
      have hastray :
          document.Astray model.definitions references (Pointer.extend target.pointer []) := by
        rcases List.mem_append.mp (hreferences (List.mem_cons_self : r ∈ [r])) with hr | hr
        · exact .indirect hr resolved hindirect
        · exact .strays (.indirect hr resolved hindirect)
      rw [Pointer.extend_nil] at hastray
      exact .astray hastray

/-- The pointer that comes with a parameter is that of the parameter itself exactly if no more than
one reference leads to it, and the pointer goes through no list. A warning about a plain parameter
at such a pointer is told where something stands in the document, unless it leads astray from a
definition that the schema refers to. -/
theorem parameter_pointers {ops : List Operation} {op : Operation} {list : List PlacedParameter}
    {placed : PlacedParameter} (hkeys : document.hasDistinctKeys = true)
    (h : ofDocument document true = .ok model) (hops : model.operations = some ops)
    (hop : op ∈ ops) (heffective : model.effectiveParameters op = .ok list)
    (hplaced : placed ∈ list) :
    ∃ slot keys, model.ComesFrom op placed slot keys ∧
      (document.HasParameter placed.pointer placed.parameter ↔
        keys.length ≤ 1 ∧ ¬ document.ThroughList placed.pointer) ∧
      ∀ v, document.at? placed.pointer = some v → v.WritesParameter placed.parameter →
        v.PlainParameter → ∀ sorted st r st',
          ((model.setting sorted).queryProperty placed).run st = .ok (r, st') →
          ∀ w ∈ st'.warnings, w ∈ st.warnings ∨ (document.at? w.pointer).isSome = true ∨
            document.Astray model.definitions placed.parameter.schema.references w.pointer := by
  have hmodel := placedIn_of_document hkeys h
  obtain ⟨slot, keys, hfrom⟩ := exists_comesFrom heffective hplaced
  refine ⟨slot, keys, hfrom, hfrom.hasParameter_iff hmodel (hmodel.operations ops hops op hop), ?_⟩
  intro v hv hwrites hplain sorted st r st' hrun w hw
  let references := placed.parameter.schema.references
  obtain ⟨⟨type, st₁⟩, htype, hrest⟩ := bind_eq_ok.mp hrun
  cases hrest
  have performs : (model.setting sorted).Performs model
      ((model.setting sorted).typeOf placed.place placed.parameter.schema)
      ⟨placed.place, .schema placed.parameter.schema, st⟩ .type := Setting.performs_typeOf rfl
  obtain ⟨log, run⟩ := performs.run htype
  rcases run.origin w hw with hold | ⟨begun, d, -, reached, raised⟩
  · exact .inl hold
  · have hmeets : document.Meets model.definitions placed.pointer references
        placed.place.location placed.parameter.schema := .of_parameter hv hwrites hplain
    have hstart : (model.setting sorted).Placed (fun pointer node =>
        node.references ⊆ references ++ model.definitions.references ∧
          document.Meets model.definitions placed.pointer references pointer node)
        ⟨placed.place, .schema placed.parameter.schema, st⟩ :=
      .inl ⟨_, _, .schema, List.subset_append_left _ _, hmeets⟩
    have hreached := reached.placed (meets_holds h sorted placed.pointer references) trivial hstart
    obtain ⟨node, ⟨-, hnode⟩, tells⟩ := raised.holds (reached.ofSchemas trivial) hreached
    exact .inr (hnode.at?_of_tells tells)

end SchemaModel

/-! ## Parameters for uploads -/

def uploadParameter : Value :=
  .object [("name", .string "upload"), ("in", .string "query"), ("schema", fileType)]

def referenceTo (pointer : String) : Value := .object [("$ref", .string pointer)]

def uploadDocument (parameters : List (String × Value)) (pointer : String) : Value :=
  .object [("parameters", .object parameters),
    ("paths", .object [("/files", .object [("get", .object
      [("parameters", .array [referenceTo pointer])])])])]

def directUpload : Value := uploadDocument [("upload", uploadParameter)] "#/parameters/upload"

def upload : Parameter where
  name := "upload"
  location := .query
  required := false
  description := none
  schema := Node.ofValue fileType
  nested := true

def uploadOperation : Operation where
  path := "/files"
  method := "get"
  operationId := none
  itemPointer := "#/paths/~1files"
  pathParameters := []
  parameters := [.reference "#/parameters/upload"]

def uploadModel : SchemaModel where
  definitions := .ofList []
  parameters := [("#/parameters/upload", .inline upload)]
  operations := some [uploadOperation]

theorem uploadModel_resolve :
    uploadModel.resolveParameter (.reference "#/parameters/upload") = .ok upload := by
  have hrefers : ParameterSlot.Refers uploadModel.parameters (.reference "#/parameters/upload")
      (Pointer.render ["parameters", "upload"]) (.inline upload) := .step rfl rfl
  rw [SchemaModel.resolveParameter, hrefers.follow_eq List.not_mem_nil, ParameterSlot.follow]

theorem uploadModel_effective : uploadModel.effectiveParameters uploadOperation =
    .ok [⟨"#/parameters/upload", upload⟩] := by
  have hown : uploadModel.Leads uploadOperation.pointer uploadOperation.parameters
      [⟨"#/parameters/upload", upload⟩] := .cons ⟨uploadModel_resolve, rfl⟩ .nil
  have hshared : uploadModel.Leads uploadOperation.itemPointer uploadOperation.pathParameters [] :=
    .nil
  exact SchemaModel.effectiveParameters_eq hshared hown List.Pairwise.nil
    (List.pairwise_singleton _ _)

/-- The pointer is that of the upload, and what is told of it is told where something stands. -/
theorem directUpload_pointers :
    SchemaModel.ofDocument directUpload true = .ok uploadModel ∧
    directUpload.HasParameter "#/parameters/upload" upload ∧
    ∃ slot keys, uploadModel.ComesFrom uploadOperation ⟨"#/parameters/upload", upload⟩ slot keys ∧
      keys.length ≤ 1 ∧ ∀ sorted st r st',
        ((uploadModel.setting sorted).queryProperty ⟨"#/parameters/upload", upload⟩).run st =
          .ok (r, st') →
        ∀ w ∈ st'.warnings, w ∈ st.warnings ∨ (directUpload.at? w.pointer).isSome = true ∨
          directUpload.Astray uploadModel.definitions [] w.pointer := by
  have hread : SchemaModel.ofDocument directUpload true = .ok uploadModel := rfl
  have hwrites : uploadParameter.WritesParameter upload := ⟨_, "#", rfl, rfl⟩
  have hplain : uploadParameter.PlainParameter :=
    ⟨_, rfl, fileType_plain, fun h => nomatch h⟩
  have hhas : directUpload.HasParameter "#/parameters/upload" upload :=
    ⟨uploadParameter, rfl, hwrites⟩
  obtain ⟨slot, keys, hfrom, hiff, hwarnings⟩ := SchemaModel.parameter_pointers (by decide) hread
    rfl List.mem_cons_self uploadModel_effective List.mem_cons_self
  exact ⟨hread, hhas, slot, keys, hfrom, (hiff.mp hhas).1,
    hwarnings uploadParameter rfl hwrites hplain⟩

def renamedUpload : Value :=
  uploadDocument [("old", referenceTo "#/parameters/upload"), ("upload", uploadParameter)]
    "#/parameters/old"

theorem renamedUpload_warnings :
    (convert renamedUpload { withQuery := true }).toOption.map Conversion.warnings =
      some [.unsupported "#/parameters/old/schema" "type `file`"] := by
  decide +kernel

/-- The warning is told below the reference, where nothing stands. -/
theorem renamedUpload_not_found : ∃ conversion w,
    convert renamedUpload { withQuery := true } = .ok conversion ∧ w ∈ conversion.warnings ∧
      renamedUpload.at? w.pointer = none ∧ ¬ renamedUpload.Addresses w.pointer := by
  obtain ⟨conversion, hconvert, hwarnings⟩ := eq_ok_of_toOption_map renamedUpload_warnings
  have hw : _ ∈ conversion.warnings := hwarnings ▸ List.mem_cons_self
  exact ⟨conversion, _, hconvert, hw, rfl, by decide +kernel⟩

end SwaggerTypes
