import Mathlib
import SwaggerTypes.Proofs.ListedValues
import SwaggerTypes.Proofs.ReadableTypes
import SwaggerTypes.Proofs.ShortestDecimals
import SwaggerTypes.Proofs.TypeSameness
/-!
# Listed alternatives

A type made of listed values has each of them as one alternative, where it is listed first, and `null`
behind them when the schema adds it. Two alternatives are written alike in two cases only: `null` is
listed and added as well, or an integer is listed together with a floating point number of its value.
-/

namespace SwaggerTypes

/-! ## First occurrences -/

namespace Literal

variable {values : List Literal} {value : Literal}

/-- The values of a list that are not the same as an earlier one, in their order. -/
def firsts (values : List Literal) : List Literal :=
  (values.zipIdx.filter fun indexed => !(values.take indexed.2).any (·.same indexed.1)).map Prod.fst

theorem firsts_concat (values : List Literal) (value : Literal) :
    firsts (values ++ [value]) =
      firsts values ++ if values.any (·.same value) then [] else [value] := by
  have hbefore : (values.zipIdx.filter fun indexed =>
        !((values ++ [value]).take indexed.2).any (·.same indexed.1)) =
      values.zipIdx.filter fun indexed => !(values.take indexed.2).any (·.same indexed.1) := by
    refine List.filter_congr fun indexed hindexed => ?_
    rw [List.take_append_of_le_length (Nat.le_of_lt (List.snd_lt_of_mem_zipIdx hindexed))]
  unfold firsts
  rw [List.zipIdx_append, List.filter_append, List.map_append, hbefore]
  cases hany : values.any (·.same value) <;> simp [hany]

theorem distinct_concat (values : List Literal) (value : Literal) :
    distinct (values ++ [value]) =
      if (distinct values).any (·.same value) then distinct values else distinct values ++ [value] :=
  List.foldl_append ..

/-- What is the same as a listed value is the same as one of those that are kept. -/
theorem any_same_distinct (values : List Literal) (value : Literal) :
    (distinct values).any (·.same value) = values.any (·.same value) := by
  induction values using List.reverseRecOn generalizing value with
  | nil => rfl
  | append_singleton values last ih =>
      rw [distinct_concat, List.any_append, ← ih value]
      split
      · next hrepeated =>
        rw [List.any_cons, List.any_nil, Bool.or_false]
        cases hlast : last.same value with
        | false => rw [Bool.or_false]
        | true =>
            obtain ⟨k, hk, hsame⟩ := List.any_eq_true.mp hrepeated
            rw [Bool.or_true, List.any_eq_true]
            exact ⟨k, hk, same_trans hsame hlast⟩
      · rw [List.any_append]

theorem distinct_eq_firsts (values : List Literal) : distinct values = firsts values := by
  induction values using List.reverseRecOn with
  | nil => rfl
  | append_singleton values last ih =>
      rw [distinct_concat, firsts_concat, any_same_distinct, ih]
      split <;> simp

theorem pairwise_firsts (values : List Literal) :
    (firsts values).Pairwise fun k l => k.same l = false := by
  induction values using List.reverseRecOn with
  | nil => exact .nil
  | append_singleton values last ih =>
      rw [firsts_concat]
      split
      · rwa [List.append_nil]
      · next hnew =>
        rw [← any_same_distinct, distinct_eq_firsts, List.any_eq_true] at hnew
        refine List.pairwise_append.mpr ⟨ih, List.pairwise_singleton .., fun k hk l hl => ?_⟩
        rw [List.mem_singleton.mp hl, Bool.eq_false_iff]
        exact fun hsame => hnew ⟨k, hk, hsame⟩

theorem mem_of_mem_firsts (h : value ∈ firsts values) : value ∈ values :=
  mem_of_mem_distinct (distinct_eq_firsts values ▸ h)

theorem null_mem_firsts : null ∈ firsts values ↔ null ∈ values := by
  refine ⟨mem_of_mem_firsts, fun h => ?_⟩
  have hany : values.any (·.same null) = true := List.any_eq_true.mpr ⟨_, h, rfl⟩
  rw [← any_same_distinct, distinct_eq_firsts, List.any_eq_true] at hany
  obtain ⟨k, hk, hsame⟩ := hany
  cases k <;> first | exact hk | cases hsame

/-! ## Texts of values -/

theorem same_self (h : value.isFinite = true) : value.same value = true := by
  cases value with
  | float d => simp [same, Decimal.Double.same, Decimal.Double.isNaN_of_isFinite h]
  | _ => simp [same]

theorem ofNumeral_eq (text : String) :
    ∃ negative digits, WrittenType.ofNumeral text = .number negative digits := by
  unfold WrittenType.ofNumeral
  split
  · exact ⟨_, _, rfl⟩
  · exact ⟨_, _, rfl⟩

def isNumber : Literal → Bool
  | integer _ | float _ => true
  | string _ | bool _ | null => false

theorem written_of_isNumber (h : value.isNumber = true) :
    ∃ negative digits, value.written = .number negative digits := by
  cases value with
  | integer | float => exact ofNumeral_eq _
  | _ => cases h

theorem eq_of_written_eq {k l : Literal} (hnumber : k.isNumber = false)
    (h : k.written = l.written) : k = l := by
  cases hl : l.isNumber with
  | true =>
      obtain ⟨negative, digits, hnumeral⟩ := written_of_isNumber hl
      rw [hnumeral] at h
      cases k <;> simp [written, isNumber] at h hnumber
  | false =>
      cases k <;> cases l <;> simp [written, isNumber] at h hnumber hl ⊢ <;> exact h

/-- Values that are written alike are equal, or an integer and a floating point number. -/
theorem eq_or_mixed_of_text_eq {k l : Literal} (hk : k.isFinite = true) (hl : l.isFinite = true)
    (h : k.text = l.text) :
    k = l ∨ (∃ n d, k = integer n ∧ l = float d) ∨ ∃ n d, k = float d ∧ l = integer n := by
  have hwritten : k.written = l.written := by
    have hread := TypeExpr.Readable.read_text (.literal hk)
    have hread' := TypeExpr.Readable.read_text (.literal hl)
    have htext : (TypeExpr.literal k).text = (TypeExpr.literal l).text := h
    rw [htext, hread'] at hread
    exact (Option.some.inj hread).symm
  cases k with
  | integer n =>
      cases l with
      | integer m => exact .inl (congrArg integer (Int.repr_inj.mp h))
      | float d => exact .inr (.inl ⟨n, d, rfl, rfl⟩)
      | _ => exact .inl (eq_of_written_eq rfl hwritten.symm).symm
  | float d =>
      cases l with
      | integer n => exact .inr (.inr ⟨n, d, rfl, rfl⟩)
      | float d' => exact .inl (congrArg float (Decimal.Double.eq_of_plainText_eq hk hl h))
      | _ => exact .inl (eq_of_written_eq rfl hwritten.symm).symm
  | _ => exact .inl (eq_of_written_eq rfl hwritten)

end Literal

/-! ## Alternatives of a type -/

namespace TypeExpr

def alternatives : TypeExpr → List TypeExpr
  | union members => members
  | t => [t]

theorem alternatives_ofLiterals (values : List Literal) :
    (ofLiterals values).alternatives = (Literal.firsts values).map literal := by
  unfold ofLiterals
  rw [Literal.distinct_eq_firsts]
  split
  · next one hone =>
    rw [hone]
    obtain ⟨value, -, rfl⟩ := List.mem_map.mp (hone ▸ List.mem_singleton_self one)
    rfl
  · rfl

theorem alternatives_nullable {t : TypeExpr} (h : ∀ u ∈ t.alternatives, ∃ value, u = literal value) :
    t.nullable.alternatives = t.alternatives ++ [null] := by
  cases t with
  | base type =>
      obtain ⟨value, hvalue⟩ := h _ List.mem_cons_self
      cases hvalue
  | union members =>
      have hnone : members.any isNull = false := by
        rw [List.any_eq_false]
        intro u hu
        obtain ⟨value, rfl⟩ := h u hu
        exact Bool.false_ne_true
      rw [nullable, hnone]
      rfl
  | _ => rfl

/-- The alternatives of the type of listed values: each value where it is listed first, and `null` behind
them if it is added. Their texts are different unless `null` is listed and added, or an integer and a
floating point number are listed that are written alike. -/
structure Lists (values : List Literal) (nullable : Bool) (t : TypeExpr) : Prop where
  alternatives : t.alternatives =
    (Literal.firsts values).map literal ++ if nullable then [null] else []
  distinct_iff : (t.alternatives.map text).Nodup ↔
    ¬(nullable = true ∧ Literal.null ∈ values) ∧
      ∀ n d, .integer n ∈ Literal.firsts values → .float d ∈ Literal.firsts values →
        toString n ≠ d.plainText

end TypeExpr

namespace Literal

/-- Finite values are written differently unless an integer and a floating point number are alike. -/
theorem nodup_texts_iff {values : List Literal} (h : ∀ value ∈ values, value.isFinite = true) :
    ((firsts values).map text).Nodup ↔
      ∀ n d, .integer n ∈ firsts values → .float d ∈ firsts values → toString n ≠ d.plainText := by
  constructor
  · intro hnodup n d hn hd htext
    have heq := List.inj_on_of_nodup_map hnodup hn hd htext
    cases heq
  · intro hmixed
    rw [List.Nodup, List.pairwise_map]
    refine (pairwise_firsts values).imp_of_mem fun {k l} hk hl hsame htext => ?_
    have hfinite := h k (mem_of_mem_firsts hk)
    rcases eq_or_mixed_of_text_eq hfinite (h l (mem_of_mem_firsts hl)) htext with
      rfl | ⟨n, d, rfl, rfl⟩ | ⟨n, d, rfl, rfl⟩
    · rw [same_self hfinite] at hsame
      cases hsame
    · exact hmixed n d hk hl htext
    · exact hmixed n d hl hk htext.symm

theorem text_null_mem_iff {values : List Literal} (h : ∀ value ∈ values, value.isFinite = true) :
    null.text ∈ (firsts values).map text ↔ null ∈ values := by
  rw [List.mem_map, ← null_mem_firsts]
  refine ⟨fun ⟨value, hvalue, htext⟩ => ?_, fun hnull => ⟨null, hnull, rfl⟩⟩
  rcases eq_or_mixed_of_text_eq (h value (mem_of_mem_firsts hvalue)) (rfl : null.isFinite = true)
    htext with rfl | ⟨n, d, -, hcontra⟩ | ⟨n, d, -, hcontra⟩
  · exact hvalue
  · cases hcontra
  · cases hcontra

end Literal

theorem TypeExpr.lists_of_finite {values : List Literal}
    (h : ∀ value ∈ values, value.isFinite = true) (nullable : Bool) :
    ((ofLiterals values).orNull nullable).Lists values nullable := by
  have halternatives : ((ofLiterals values).orNull nullable).alternatives =
      (Literal.firsts values).map literal ++ if nullable then [null] else [] := by
    cases nullable with
    | false => exact (alternatives_ofLiterals values).trans (List.append_nil _).symm
    | true =>
        have hliterals : ∀ u ∈ (ofLiterals values).alternatives, ∃ value, u = literal value := by
          intro u hu
          rw [alternatives_ofLiterals] at hu
          obtain ⟨value, -, rfl⟩ := List.mem_map.mp hu
          exact ⟨value, rfl⟩
        exact (alternatives_nullable hliterals).trans (by rw [alternatives_ofLiterals]; rfl)
  refine ⟨halternatives, ?_⟩
  have htexts : ((Literal.firsts values).map literal).map text =
      (Literal.firsts values).map Literal.text := List.map_map
  rw [halternatives, List.map_append, htexts, ← Literal.nodup_texts_iff h]
  cases nullable with
  | false => simp
  | true =>
      have hnull : text null = Literal.null.text := rfl
      rw [if_pos rfl, List.map_singleton, hnull, List.nodup_append_comm, List.singleton_append,
        List.nodup_cons, Literal.text_null_mem_iff h]
      simp

/-! ## Documents -/

theorem Node.type_enum (sorted : Bool) (follow : Place → String → Synthesis TypeExpr) (p : Place)
    (values : List Literal) (doc : Option String) (nullable : Bool) :
    Node.type sorted follow p ⟨.enum values, doc, nullable⟩ =
      pure ((TypeExpr.ofLiterals values).orNull nullable) := rfl

/-- A schema that lists values lists what stands in a document, in that order, and its type has these
alternatives wherever it is asked for. -/
def Node.ListsAlternatives (document : Value) (node : Node) : Prop :=
  ∀ values, node.kind = .enum values →
    (∃ listed : List Value, (∀ v ∈ listed, document.Contains v) ∧
      listed.mapM Literal.ofValue? = some values) ∧
    ∀ sorted follow p, ∃ t, Node.type sorted follow p node = pure t ∧ t.Lists values node.nullable

theorem Value.grants_listsAlternatives {v : Value} (hv : v.hasJsonNumbers = true) :
    v.Grants (Node.ListsAlternatives v) where
  object := nofun
  values := by
    intro listed values doc nullable hlisted hread found hfound
    cases hfound
    have hfinite : ∀ value ∈ values, value.isFinite = true := by
      intro value hvalue
      obtain ⟨w, hw, hliteral⟩ := Kind.mem_ofValues hread value hvalue
      exact isFinite_literal ((hlisted w hw).hasJsonNumbers hv) hliteral
    refine ⟨⟨listed, hlisted, ?_⟩, fun sorted follow p =>
      ⟨_, Node.type_enum sorted follow p values doc nullable, TypeExpr.lists_of_finite hfinite _⟩⟩
    unfold Kind.ofValues at hread
    split at hread
    · cases hread
    · split at hread
      · next hmap =>
        cases hread
        exact hmap
      · cases hread
  other := fun _ henum found hfound => absurd hfound (henum found)

namespace SchemaModel

/-- Each schema with listed values in a document gets one alternative for each of them, where it stands
first, and `null` behind them if it is nullable. No two are written alike, unless `null` is both listed
and added, or an integer and a floating point number with the same text are listed. -/
theorem listed_alternatives {document : Value} {withOperations : Bool} {model : SchemaModel}
    (hnumbers : document.hasJsonNumbers = true)
    (hmodel : ofDocument document withOperations = .ok model) :
    model.AllBelow (Node.ListsAlternatives document) :=
  allBelow_of_document (Value.grants_listsAlternatives hnumbers) hmodel

def petMarks : Value :=
  .object
    [("definitions", .object
      [("Mark", .object
        [("enum", .array [.string "a", .bool true, .string "a", .integer 1,
            .float (.ofDecimal false 15 (-1))]),
          ("nullable", .bool true)])])]

def petMark : Node where
  kind := .enum [.string "a", .bool true, .string "a", .integer 1, .float (.ofDecimal false 15 (-1))]
  nullable := true

/-- The mark that is listed again is left out, and `null` is the last alternative. -/
theorem petMarks_alternatives : ∃ model,
    petMarks.hasJsonNumbers = true ∧ ofDocument petMarks false = .ok model ∧
    model.definitions.entries.map Definition.root = [petMark] ∧
    ∀ sorted follow p, ∃ t, Node.type sorted follow p petMark = pure t ∧
      t.alternatives.map TypeExpr.text = ["\"a\"", "true", "1", "1.5", "null"] ∧
      (t.alternatives.map TypeExpr.text).Nodup := by
  have hroots : (ofDocument petMarks false).toOption.map
      (fun model => model.definitions.entries.map Definition.root) = some [petMark] := rfl
  obtain ⟨model, hmodel, hroot⟩ := eq_ok_of_toOption_map hroots
  refine ⟨model, by decide +kernel, hmodel, hroot, fun sorted follow p => ?_⟩
  obtain ⟨d, hd, hpetMark⟩ := List.mem_map.mp (hroot ▸ List.mem_singleton_self petMark)
  obtain ⟨-, halternatives⟩ :=
    (listed_alternatives (by decide +kernel) hmodel).definitions d hd petMark (hpetMark ▸ .refl) _ rfl
  obtain ⟨t, htype, hlists⟩ := halternatives sorted follow p
  refine ⟨t, htype, ?_, ?_⟩
  · rw [hlists.alternatives]
    decide +kernel
  · rw [hlists.alternatives]
    decide +kernel

/-- A mark that is listed as `null` and nullable, and a size that is listed as an integer and as a
floating point number. -/
def nullMarks : Value :=
  .object
    [("definitions", .object
      [("Mark", .object [("enum", .array [.string "a", .null]), ("nullable", .bool true)]),
        ("Size", .object [("enum", .array [.integer 1, .float (.ofInt 1)])])])]

def nullMark : Node where
  kind := .enum [.string "a", .null]
  nullable := true

def wholeSize : Node := .bare (.enum [.integer 1, .float (.ofInt 1)])

/-- Each of the two types has an alternative twice. -/
theorem nullMarks_repeat : ∃ model, ofDocument nullMarks false = .ok model ∧
    model.definitions.entries.map Definition.root = [nullMark, wholeSize] ∧
    (∀ sorted follow p, ∃ t, Node.type sorted follow p nullMark = pure t ∧
      t.alternatives.map TypeExpr.text = ["\"a\"", "null", "null"]) ∧
    ∀ sorted follow p, ∃ t, Node.type sorted follow p wholeSize = pure t ∧
      t.alternatives.map TypeExpr.text = ["1", "1"] := by
  have hroots : (ofDocument nullMarks false).toOption.map
      (fun model => model.definitions.entries.map Definition.root) = some [nullMark, wholeSize] := rfl
  obtain ⟨model, hmodel, hroot⟩ := eq_ok_of_toOption_map hroots
  refine ⟨model, hmodel, hroot, fun sorted follow p => ?_, fun sorted follow p => ?_⟩
  · exact ⟨_, Node.type_enum .., by decide +kernel⟩
  · exact ⟨_, Node.type_enum .., by decide +kernel⟩

end SchemaModel

end SwaggerTypes
