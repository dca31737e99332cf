import SwaggerTypes.Proofs.DocumentPointers
import SwaggerTypes.Proofs.WarningOrigins
/-!
# Warnings point into the document

The address of a schema is a pointer into the document as long as reading keeps the shape of what is
written: each schema is a map that puts one constraint, and references into the middle of definitions
use addresses. Where a schema puts several constraints, reading makes them members of an `allOf` that
the document does not have, and addresses below them lead nowhere.
-/

namespace SwaggerTypes

namespace Value

inductive SchemaWithin (root : Value) : List String → Value → Prop
  | refl : SchemaWithin root [] root
  | part {keys more : List String} {v w : Value} (h : SchemaWithin root keys v)
      (hw : v.SchemaAt more w) : SchemaWithin root (keys ++ more) w

theorem SchemaWithin.locate {root v : Value} {keys : List String} (h : root.SchemaWithin keys v) :
    root.locate keys = some v := by
  induction h with
  | refl => rfl
  | part _ hw ih => rw [locate_append, ih, Option.bind_some, hw.locate]

theorem SchemaWithin.cases_head {root v : Value} {keys : List String}
    (h : root.SchemaWithin keys v) :
    v = root ∨ ∃ more part rest, root.SchemaAt more part ∧ part.SchemaWithin rest v := by
  induction h with
  | refl => exact .inl rfl
  | part _ hw ih =>
      rcases ih with rfl | ⟨more, part, rest, hfirst, hrest⟩
      · exact .inr ⟨_, _, [], hw, .refl⟩
      · exact .inr ⟨more, part, _, hfirst, hrest.part hw⟩

def Plain (root : Value) : Prop := ∀ keys v, root.SchemaWithin keys v → v.SaysOne

theorem Plain.of_parts {root : Value} (hroot : root.SaysOne)
    (hparts : ∀ keys part, root.SchemaAt keys part → part.Plain) : root.Plain := by
  intro keys v h
  rcases h.cases_head with rfl | ⟨more, part, rest, hfirst, hrest⟩
  · exact hroot
  · exact hparts more part hfirst rest v hrest

/-- The ways in which the pointer of a schema may lead nowhere in the document. -/
inductive Strays (document : Value) (table : DefinitionTable) : String → Prop
  /-- A percent sign begins an escape in a fragment. -/
  | percent {pointer : String} (h : '%' ∈ pointer.toList) : Strays document table pointer
  /-- The schemas stand in a list, not under keys. -/
  | listed {items : List Value} {below : List String}
      (h : document.locate ["components"] = some (.array items)) :
      Strays document table (Pointer.render ("components" :: below))
  /-- A schema above is a list or puts several constraints, and the pointer goes on to a part that
  the value does not have. -/
  | made {home : Home} {name : String} {root v : Value} {above segments below : List String}
      {part : Node} (hroot : document.locate (home.segments ++ [name]) = some root)
      (h : root.SchemaWithin above v) (hv : ¬ v.SaysOne)
      (hpart : (Node.ofValue v).PartAt segments part) (hnone : v.locate segments = none) :
      Strays document table
        (Pointer.render (home.segments ++ name :: (above ++ (segments ++ below))))
  /-- A reference leads into a definition by something else than an address. -/
  | indirect {r : String} {target : Target} {below : List String} (hr : r ∈ table.references)
      (resolved : table.resolve r = .ok target)
      (h : ∀ d way, table.entries[target.definition]? = some d → d.root.At way target.node →
        target.pointer ≠ Pointer.extend d.pointer way) :
      Strays document table (Pointer.extend target.pointer below)

variable {document : Value} {table : DefinitionTable} {pointer : String} {segments : List String}

/-- A pointer that goes on to such a part addresses nothing. -/
theorem not_addresses_of_made {home : Home} {name : String} {root v : Value}
    {above segments below : List String}
    (hroot : document.locate (home.segments ++ [name]) = some root) (h : root.SchemaWithin above v)
    (hnone : v.locate segments = none)
    (hpercent : '%' ∉ (Pointer.render
      (home.segments ++ name :: (above ++ (segments ++ below)))).toList) :
    ¬ document.Addresses
      (Pointer.render (home.segments ++ name :: (above ++ (segments ++ below)))) := by
  have hlocate :
      document.locate (home.segments ++ name :: (above ++ (segments ++ below))) = none := by
    rw [List.append_cons, locate_append, hroot, Option.bind_some, locate_append, h.locate,
      Option.bind_some, locate_append, hnone, Option.bind_none]
  rw [Addresses, Pointer.fragment?_render hpercent, Option.bind_some, hlocate]
  exact Bool.false_ne_true

theorem not_strays (hlisted : ∀ items, document.locate ["components"] ≠ some (.array items))
    (hplain : ∀ (home : Home) name root,
      document.locate (home.segments ++ [name]) = some root → root.Plain)
    (hreferences : table.references = []) (hpercent : '%' ∉ pointer.toList) :
    ¬ document.Strays table pointer := by
  intro h
  cases h with
  | percent h => exact hpercent h
  | listed h => exact hlisted _ h
  | made hroot h hv => exact hv (hplain _ _ _ hroot _ _ h)
  | indirect hr =>
      rw [hreferences] at hr
      cases hr

theorem Strays.extend (h : document.Strays table pointer) :
    document.Strays table (Pointer.extend pointer segments) := by
  cases h with
  | percent h =>
      refine .percent ?_
      rw [Pointer.toList_extend]
      exact List.mem_append_left _ h
  | listed h =>
      rw [← Pointer.render_append]
      exact .listed h
  | made hroot h hv hpart hnone =>
      rw [← Pointer.render_append, List.append_assoc, List.cons_append, List.append_assoc,
        List.append_assoc]
      exact .made hroot h hv hpart hnone
  | indirect hr resolved h =>
      rw [← Pointer.extend_append]
      exact .indirect hr resolved h

/-- A schema is read from a value that stands at its pointer. -/
def Written (document : Value) (pointer : String) (node : Node) : Prop :=
  ∃ (home : Home) (name : String) (root : Value) (way : List String) (v : Value),
    document.locate (home.segments ++ [name]) = some root ∧ root.SchemaWithin way v ∧
      pointer = Pointer.render (home.segments ++ name :: way) ∧ node = Node.ofValue v

theorem Written.addresses {node : Node} (h : document.Written pointer node)
    (hpercent : '%' ∉ pointer.toList) : document.Addresses pointer := by
  obtain ⟨home, name, root, way, v, hroot, hv, rfl, -⟩ := h
  refine addresses_render (v := v) ?_ hpercent
  rw [List.append_cons, locate_append, hroot, Option.bind_some, hv.locate]

/-- A schema is written at its pointer, unless it is the one for items that are not mentioned or its
pointer strays. -/
def Writes (document : Value) (table : DefinitionTable) (pointer : String) (node : Node) : Prop :=
  document.Written pointer node ∨ node = .bare .any ∨ document.Strays table pointer

theorem Writes.part {node part : Node} (h : document.Writes table pointer node)
    (hp : node.PartAt segments part) :
    document.Writes table (Pointer.extend pointer segments) part := by
  rcases h with ⟨home, name, root, way, v, hroot, hv, rfl, rfl⟩ | rfl | hstrays
  · rw [← Pointer.render_append, List.append_assoc, List.cons_append]
    rcases partAt_ofValue hp with ⟨w, hw, rfl⟩ | hany | ⟨hseveral, hnone⟩
    · exact .inl ⟨home, name, root, _, w, hroot, hv.part hw, rfl, rfl⟩
    · exact .inr (.inl hany)
    · have hstrays : document.Strays table
          (Pointer.render (home.segments ++ name :: (way ++ (segments ++ [])))) :=
        .made hroot hv hseveral hp hnone
      rw [List.append_nil] at hstrays
      exact .inr (.inr hstrays)
  · cases hp
  · exact .inr (.inr hstrays.extend)

theorem Writes.at {root node : Node} {way : List String} (h : document.Writes table pointer root)
    (hat : root.At way node) : document.Writes table (Pointer.extend pointer way) node := by
  induction hat with
  | refl =>
      rw [Pointer.extend_nil]
      exact h
  | part _ hp ih =>
      rw [Pointer.extend_append]
      exact ih.part hp

end Value

namespace SchemaModel

variable {document : Value} {model : SchemaModel}

theorem written_definition (h : ofDocument document false = .ok model) {d : Definition}
    (hd : d ∈ model.definitions.entries) :
    document.Written d.pointer d.root ∨ document.Strays model.definitions d.pointer := by
  by_cases hlisted : d.home = .components ∧
      ∃ items, document.locate ["components"] = some (.array items)
  · obtain ⟨hhome, items, hitems⟩ := hlisted
    have hpointer : d.pointer = Pointer.render ("components" :: ["schemas", d.name]) := by
      rw [Definition.pointer, hhome]
      rfl
    rw [hpointer]
    exact .inr (.listed hitems)
  · obtain ⟨v, hlocate, hroot⟩ := definition_of_document h hd fun hhome items hitems =>
      hlisted ⟨hhome, items, hitems⟩
    exact .inl ⟨d.home, d.name, v, [], v, hlocate, .refl, rfl, hroot⟩

theorem writes_definition (h : ofDocument document false = .ok model) {d : Definition}
    (hd : d ∈ model.definitions.entries) :
    document.Writes model.definitions d.pointer d.root :=
  (written_definition h hd).imp_right .inr

/-- All schemas met from the definitions are written where their pointers say, or these stray. -/
theorem writes_holds (h : ofDocument document false = .ok model) (sorted : Bool) :
    (model.setting sorted).Holds fun pointer node =>
      node.references ⊆ model.definitions.references ∧
        document.Writes model.definitions pointer node where
  root entry :=
    ⟨fun _ hr => DefinitionTable.mem_references (List.mem_of_getElem? entry) hr,
      writes_definition h (List.mem_of_getElem? entry)⟩
  part hq hp := ⟨List.Subset.trans hp.partOf.references hq.1, hq.2.part hp⟩
  target := by
    intro pointer r doc nullable target hq resolved deep
    refine ⟨DefinitionTable.target_references resolved, ?_⟩
    by_cases hdirect : ∃ d way, model.definitions.entries[target.definition]? = some d ∧
        d.root.At way target.node ∧ target.pointer = Pointer.extend d.pointer way
    · obtain ⟨d, way, entry, hat, hpointer⟩ := hdirect
      rw [hpointer]
      exact (writes_definition h (List.mem_of_getElem? entry)).at hat
    · have hstrays : document.Strays model.definitions (Pointer.extend target.pointer []) :=
        .indirect (hq.1 List.mem_cons_self) resolved fun d way entry hat hpointer =>
          hdirect ⟨d, way, entry, hat, hpointer⟩
      rw [Pointer.extend_nil] at hstrays
      exact .inr (.inr hstrays)

end SchemaModel

/-- The pointer of a warning, evaluated as a fragment against the document itself, addresses a value,
or it strays: it has a percent sign, or goes through a list of components, through a part that a
schema with several constraints does not have in the document, or through the target of a reference
that uses no address. -/
theorem warnings_address_values {document : Value} {options : Options} {conversion : Conversion}
    (hquery : options.withQuery = false) (h : convert document options = .ok conversion) :
    ∃ model, SchemaModel.ofDocument document false = .ok model ∧
      ∀ w ∈ conversion.warnings,
        document.Addresses w.pointer ∨ document.Strays model.definitions w.pointer := by
  obtain ⟨model, hmodel, hrest⟩ := bind_eq_ok.mp h
  obtain ⟨build, hbuild, hrest⟩ := bind_eq_ok.mp hrest
  obtain ⟨file, -, hrest⟩ := bind_eq_ok.mp hrest
  cases hrest
  rw [hquery] at hmodel hbuild
  obtain ⟨log, st, queries, hb⟩ := SchemaModel.built_of_ok hbuild
  refine ⟨model, hmodel, fun w hw => ?_⟩
  have hwrites : (∃ node, document.Written w.pointer node) ∨
      document.Strays model.definitions w.pointer := by
    rcases hb.warning_cases (SchemaModel.writes_holds hmodel options.sortProps) w hw with
      ⟨-, d, hd, hpointer⟩ | ⟨node, ⟨-, hwritten | hany | hstrays⟩, tells⟩
    · rw [hpointer]
      exact (SchemaModel.written_definition hmodel hd).imp_left fun hwritten => ⟨_, hwritten⟩
    · exact .inl ⟨node, hwritten⟩
    · subst hany
      cases tells
    · exact .inr hstrays
  by_cases hpercent : '%' ∈ w.pointer.toList
  · exact .inr (.percent hpercent)
  · exact hwrites.imp_left fun ⟨node, hwritten⟩ => hwritten.addresses hpercent

def fileType : Value := .object [("type", .string "file")]

def uploadType : Value := .object [("properties", .object [("at/of", fileType)])]

def plainUpload : Value := .object [("definitions", .object [("Upload", uploadType)])]

theorem fileType_plain : fileType.Plain := by
  refine .of_parts ⟨fun _ h => (nomatch h), ?_⟩ fun keys w hw => ?_
  · rintro _ k ⟨⟩ hread -
    cases hread
    exact ⟨fun h => (nomatch h), Nat.le_refl 1, fun _ _ h => nomatch h⟩
  · cases hw with
    | property hps => cases hps
    | items h | additional h => cases h
    | @member _ keyword _ _ _ hvs => cases keyword <;> cases hvs

theorem uploadType_plain : uploadType.Plain := by
  refine .of_parts ⟨fun _ h => (nomatch h), ?_⟩ fun keys w hw => ?_
  · rintro _ k ⟨⟩ hread -
    cases hread
    exact ⟨fun h => (nomatch h), Nat.le_refl 1, fun _ _ h => nomatch h⟩
  · cases hw with
    | property hps h =>
        cases hps
        cases List.mem_singleton.mp (Entries.mem_of_get? h)
        exact fileType_plain
    | items h | additional h => cases h
    | @member _ keyword _ _ _ hvs => cases keyword <;> cases hvs

theorem plainUpload_plain (home : Home) (name : String) (root : Value)
    (h : plainUpload.locate (home.segments ++ [name]) = some root) : root.Plain := by
  cases home with
  | definitions =>
      have hsection : plainUpload.locate Home.definitions.segments =
          some (.object [("Upload", uploadType)]) := rfl
      rw [Value.locate_append, hsection, Option.bind_some] at h
      have hfound : Entries.get? name [("Upload", uploadType)] = some root := by
        simpa [Value.locate, Value.field?, Entries.ofList] using h
      cases List.mem_singleton.mp (Entries.mem_of_get? hfound)
      exact uploadType_plain
  | components => cases h

theorem plainUpload_warnings :
    (convert plainUpload {}).toOption.map Conversion.warnings =
      some [.unsupported "#/definitions/Upload/properties/at~1of" "type `file`"] := by
  decide +kernel

theorem plainUpload_references :
    (SchemaModel.ofDocument plainUpload false).toOption.map (fun m => m.definitions.references) =
      some [] := by
  decide +kernel

theorem plainUpload_addressed : ∃ conversion, convert plainUpload {} = .ok conversion ∧
    conversion.warnings = [.unsupported "#/definitions/Upload/properties/at~1of" "type `file`"] ∧
    ∀ w ∈ conversion.warnings, plainUpload.Addresses w.pointer := by
  obtain ⟨conversion, hconvert, hwarnings⟩ := eq_ok_of_toOption_map plainUpload_warnings
  refine ⟨conversion, hconvert, hwarnings, fun w hw => ?_⟩
  obtain ⟨model, hmodel, hpointers⟩ := warnings_address_values rfl hconvert
  have hreferences := plainUpload_references
  rw [hmodel] at hreferences
  have hlisted : ∀ items, plainUpload.locate ["components"] ≠ some (.array items) :=
    fun _ h => nomatch h
  refine (hpointers w hw).resolve_right ?_
  apply Value.not_strays hlisted plainUpload_plain (Option.some.inj hreferences)
  rw [hwarnings, List.mem_singleton] at hw
  subst hw
  decide +kernel

/-- Two constraints in one schema: it is an object, and one of its members holds. -/
def fileUnion : Value :=
  .object [("definitions", .object [("A", .object
    [("type", .string "object"), ("oneOf", .array [.object [("type", .string "file")]])])])]

theorem fileUnion_warnings :
    (convert fileUnion {}).toOption.map Conversion.warnings =
      some [.unsupported "#/definitions/A/allOf/1/oneOf/0" "type `file`"] := by
  decide +kernel

/-- The address goes through an `allOf` that the document does not have. -/
theorem fileUnion_not_addressed : ∃ conversion w, convert fileUnion {} = .ok conversion ∧
    w ∈ conversion.warnings ∧ ¬ fileUnion.Addresses w.pointer := by
  obtain ⟨conversion, hconvert, hwarnings⟩ := eq_ok_of_toOption_map fileUnion_warnings
  have hw : _ ∈ conversion.warnings := hwarnings ▸ List.mem_cons_self
  refine ⟨conversion, _, hconvert, hw, ?_⟩
  decide +kernel

end SwaggerTypes
