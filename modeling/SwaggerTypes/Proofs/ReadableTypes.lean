import SwaggerTypes.Proofs.ListedValues
import SwaggerTypes.Proofs.RenamedDeclarations
import SwaggerTypes.Proofs.TypeReading
import SwaggerTypes.Proofs.WellFormed
/-!
# Unambiguous types

The text of a type tells which type it is. That holds of every type in a declaration, at any depth: its
unions and intersections have two members at least, its names can be declared, and its numbers are
those of the document.
-/

namespace SwaggerTypes

open Text (IsName)

inductive TypeExpr.Inside (t : TypeExpr) : TypeExpr → Prop
  | self : Inside t t
  | array {u} (h : Inside t u) : Inside t (.array u)
  | union {ms u} (hm : u ∈ ms) (h : Inside t u) : Inside t (.union ms)
  | intersection {ms u} (hm : u ∈ ms) (h : Inside t u) : Inside t (.intersection ms)
  | property {o : ObjectType TypeExpr} {p} (hp : p ∈ o.properties) (h : Inside t p.type) :
      Inside t (.object o)
  | index {o : ObjectType TypeExpr} {u} (hu : o.index = some u) (h : Inside t u) :
      Inside t (.object o)

def Declaration.Contains (d : Declaration) (t : TypeExpr) : Prop :=
  match d.body with
  | .interface o => t.Inside (.object o)
  | .synonym u => t.Inside u

namespace TypeExpr

theorem Readable.inside {t u : TypeExpr} (h : u.Readable) (ht : t.Inside u) : t.Readable := by
  induction ht with
  | self => exact h
  | array _ ih =>
      cases h with
      | array of => exact ih of
  | union hm _ ih =>
      cases h with
      | union _ members => exact ih (members _ hm)
  | intersection hm _ ih =>
      cases h with
      | intersection _ members => exact ih (members _ hm)
  | property hp _ ih =>
      cases h with
      | object properties _ => exact ih (properties _ hp)
  | index hu _ ih =>
      cases h with
      | object _ index => exact ih (index _ hu)

theorem hereditary_finite :
    Hereditary fun t => ∀ value, (literal value).Inside t → value.isFinite = true := by
  refine ⟨⟨?base, ?union, ?intersection⟩, ?array, ?object⟩
  case base => exact fun _ _ hin => nomatch hin
  case union =>
    intro ms
    constructor
    · exact fun h t ht value hin => h value (.union ht hin)
    · intro h value hin
      cases hin with
      | union hm hin => exact h _ hm value hin
  case intersection =>
    intro ms
    constructor
    · exact fun h t ht value hin => h value (.intersection ht hin)
    · intro h value hin
      cases hin with
      | intersection hm hin => exact h _ hm value hin
  case array =>
    intro t h value hin
    cases hin with
    | array hin => exact h value hin
  case object =>
    intro o
    constructor
    · intro h
      exact ⟨fun p hp value hin => h value (.property hp hin),
        fun t ht value hin => h value (.index ht hin)⟩
    · rintro ⟨hproperties, hindex⟩ value hin
      cases hin with
      | property hp hin => exact hproperties _ hp value hin
      | index hu hin => exact hindex _ hu value hin

/-- A well-formed type with declarable names and finite numbers is readable. -/
theorem WellFormed.readable {sorted : Bool} {t : TypeExpr} (h : t.WellFormed sorted)
    (hnames : ∀ name ∈ t.names, IsName name)
    (hfinite : ∀ value, (TypeExpr.literal value).Inside t → value.isFinite = true) :
    t.Readable := by
  induction h with
  | base => exact .base
  | literal => exact .literal (hfinite _ .self)
  | named => exact .named (hnames _ List.mem_cons_self)
  | array _ ih => exact .array (ih hnames fun value hin => hfinite value (.array hin))
  | union two _ ih =>
      refine .union two fun t ht => ih t ht (fun name hn => ?_) fun value hin => ?_
      · exact hnames name (mem_memberNames.mpr ⟨t, ht, hn⟩)
      · exact hfinite value (.union ht hin)
  | intersection two _ ih =>
      refine .intersection two fun t ht => ih t ht (fun name hn => ?_) fun value hin => ?_
      · exact hnames name (mem_memberNames.mpr ⟨t, ht, hn⟩)
      · exact hfinite value (.intersection ht hin)
  | object _ _ _ ihproperties ihindex =>
      replace hnames := fun name hn => hnames name (ObjectType.mem_names.mpr hn)
      refine .object (fun p hp => ?_) fun t ht => ?_
      · exact ihproperties p hp (fun name hn => hnames name (.inl ⟨p, hp, hn⟩))
          fun value hin => hfinite value (.property hp hin)
      · exact ihindex t ht (fun name hn => hnames name (.inr ⟨t, ht, hn⟩))
          fun value hin => hfinite value (.index ht hin)

end TypeExpr

namespace SchemaModel

variable {document : Value} {withOperations sorted withQuery : Bool} {model : SchemaModel}
  {b : Build}

/-- All values that are listed in declarations are finite. -/
theorem finite_of_document (hnumbers : document.hasJsonNumbers = true)
    (hmodel : ofDocument document withOperations = .ok model)
    (h : model.build sorted withQuery = .ok b) :
    ∀ d ∈ b.declarations,
      d.All fun t => ∀ value, (TypeExpr.literal value).Inside t → value.isFinite = true := by
  have hall := allBelow_of_document (Value.grants_finite hnumbers) hmodel
  obtain ⟨log, st, queries, hb⟩ := built_of_ok h
  refine hb.all_of_hereditary TypeExpr.hereditary_finite (fun _ _ _ hin => nomatch hin) ?_
    hall.definitions fun ops hops op hop => hall.parametersBelow (hall.operations ops hops op hop)
  intro value hvalue other hin
  cases hin with
  | self => exact hvalue

/-- The text of a type is unambiguous: for each type that stands in a declaration built from a document
with numbers of JSON, at any depth, the reader takes the whole text and gives back the type, up to the
grouping of unions and intersections, the two ways to say `null`, numbers that are written alike, and
the comments of properties. -/
theorem read_text_of_build (hnumbers : document.hasJsonNumbers = true)
    (hmodel : ofDocument document withOperations = .ok model)
    (h : model.build sorted withQuery = .ok b) :
    ∀ d ∈ b.declarations, ∀ t, d.Contains t → Reader.read t.text = some t.written := by
  obtain ⟨log, st, queries, hb⟩ := built_of_ok h
  intro d hd t ht
  have hwellFormed := declarations_wellFormed hmodel h d hd
  have hnames := fun name (hn : name ∈ d.names) => hb.isName_of_mem_names hd hn
  have hfinite := finite_of_document hnumbers hmodel h d hd
  unfold Declaration.WellFormed at hwellFormed
  unfold Declaration.names at hnames
  unfold Declaration.All at hfinite
  unfold Declaration.Contains at ht
  refine TypeExpr.Readable.read_text ?_
  cases hbody : d.body with
  | interface o =>
      rw [hbody] at hwellFormed hnames hfinite ht
      exact (hwellFormed.readable hnames hfinite).inside ht
  | synonym u =>
      rw [hbody] at hwellFormed hnames hfinite ht
      exact (hwellFormed.readable hnames hfinite).inside ht

def petSizes : Value :=
  .object
    [("definitions", .object
      [("Pet", .object
          [("properties", .object
            [("first name", .object [("type", .string "string"), ("x-nullable", .bool true)]),
              ("steps", .object
                [("type", .string "array"), ("items", .object [("enum", .array [.integer (-1)])])]),
              ("marks", .object
                [("type", .string "array"),
                  ("items", .object
                    [("enum", .array
                      [.string "a | b", .null, .integer 0x8000000000000000])])])])]),
        ("Kept", .object
          [("allOf", .array
            [.object [("$ref", .string "#/definitions/Pet")],
              .object
                [("oneOf", .array
                  [.object [("$ref", .string "#/definitions/Pet")],
                    .object [("type", .string "object"), ("additionalProperties", .bool true)]])]])])])]

theorem petSizes_texts :
    (ofDocument petSizes false >>= fun model => model.build false false).toOption.map
      (fun b => b.declarations.map Declaration.text) =
        some [
          "export interface Pet \x7b\n" ++
            "  \"first name\"?: string | null;\n" ++
            "  steps?: (-1)[];\n" ++
            "  marks?: (\"a | b\" | null | 9223372036854776000)[];\n\x7d\n",
          "export type Kept = Pet & (Pet | \x7b [key: string]: any \x7d);\n"] := by
  decide +kernel

/-- Unions and negative numbers in arrays, and a union in an intersection, are read back. -/
theorem petSizes_read : ∃ model b, ofDocument petSizes false = .ok model ∧
    model.build false false = .ok b ∧
      (b.declarations.map Declaration.text) = [
        "export interface Pet \x7b\n" ++
          "  \"first name\"?: string | null;\n" ++
          "  steps?: (-1)[];\n" ++
          "  marks?: (\"a | b\" | null | 9223372036854776000)[];\n\x7d\n",
        "export type Kept = Pet & (Pet | \x7b [key: string]: any \x7d);\n"] ∧
      ∀ d ∈ b.declarations, ∀ t, d.Contains t → Reader.read t.text = some t.written := by
  obtain ⟨b, hbind, htexts⟩ := eq_ok_of_toOption_map petSizes_texts
  obtain ⟨model, hmodel, hbuild⟩ := bind_eq_ok.mp hbind
  exact ⟨model, b, hmodel, hbuild, htexts, read_text_of_build (by decide +kernel) hmodel hbuild⟩

end SchemaModel

end SwaggerTypes
