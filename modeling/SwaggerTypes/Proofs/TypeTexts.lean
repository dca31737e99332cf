import SwaggerTypes.Proofs.DeclaredNames
import SwaggerTypes.Proofs.Lines
import SwaggerTypes.Proofs.Numerals
import SwaggerTypes.Proofs.SanitizedNames
import SwaggerTypes.Proofs.TypeSameness
import SwaggerTypes.Types.Printer
/-!
# Texts of types

The text of a type is put together from the texts of its parts. Whatever text of the document gets into
it, a key or a listed value, is escaped or a plain name, so a type stands on one line.
-/

namespace SwaggerTypes

namespace TypeExpr

theorem texts_eq (ts : List TypeExpr) : texts ts = ts.map text := by
  induction ts with
  | nil => rfl
  | cons t ts ih => rw [texts, ih, List.map_cons]

def operandText (t : TypeExpr) : String := if t.isUnion then "(" ++ t.text ++ ")" else t.text

theorem operandTexts_eq (ts : List TypeExpr) : operandTexts ts = ts.map operandText := by
  induction ts with
  | nil => rfl
  | cons t ts ih => rw [operandTexts, ih, List.map_cons, operandText]

theorem propertyTexts_eq (ps : List (Property TypeExpr)) :
    propertyTexts ps = ps.map Property.text := by
  induction ps with
  | nil => rfl
  | cons p ps ih => rw [propertyTexts, ih, List.map_cons, Property.text]

end TypeExpr

def ObjectType.parts (o : ObjectType TypeExpr) : List String :=
  o.properties.map Property.text ++ (o.index.map indexText).toList

theorem ObjectType.text_eq (o : ObjectType TypeExpr) :
    (TypeExpr.object o).text =
      if o.parts = [] then "\x7b\x7d" else "\x7b " ++ Text.join "; " o.parts ++ " \x7d" := by
  obtain ⟨properties, index⟩ := o
  cases index with
  | some t =>
      rw [TypeExpr.text, TypeExpr.propertyTexts_eq, if_neg (by simp [parts])]
      rfl
  | none =>
      have hparts : parts ⟨properties, none⟩ = properties.map Property.text := List.append_nil _
      rw [hparts]
      cases properties with
      | nil => rfl
      | cons p ps =>
          rw [List.map_cons, if_neg (List.cons_ne_nil _ _), TypeExpr.text,
            TypeExpr.propertyTexts_eq, List.map_cons]
          exact List.cons_ne_nil _ _

/-! ## One line -/

namespace Text

theorem flat_of_name {name : String} (h : ∀ c ∈ name.toList, isNameChar c = true) : Flat name := by
  intro c hc
  have hname := h c hc
  refine ⟨?_, ?_⟩ <;> rintro rfl <;> exact absurd hname (by decide)

theorem flat_of_isNumeralChar {c : Char} (h : Decimal.isNumeralChar c = true) :
    c ≠ '\n' ∧ c ≠ '\r' := by
  refine ⟨?_, ?_⟩ <;> rintro rfl <;> exact absurd h (by decide)

theorem flat_of_mem_hexDigits {width n : Nat} {c : Char} (h : c ∈ hexDigits width n) :
    c ≠ '\n' ∧ c ≠ '\r' := by
  induction width generalizing n with
  | zero => cases h
  | succ width ih =>
      rcases List.mem_append.mp h with h | h
      · exact ih h
      · have hdigit : ∀ d < 16, hexDigit d ≠ '\n' ∧ hexDigit d ≠ '\r' := by decide
        exact List.mem_singleton.mp h ▸ hdigit _ (Nat.mod_lt _ (by decide))

theorem flat_of_mem_escapeChar {c d : Char} (h : d ∈ escapeChar c) : d ≠ '\n' ∧ d ≠ '\r' := by
  unfold escapeChar at h
  split at h
  case h_6 hfeed hreturn _ =>
    split at h
    · rcases List.mem_cons.mp h with rfl | h
      · decide
      · rcases List.mem_cons.mp h with rfl | h
        · decide
        · exact flat_of_mem_hexDigits h
    · rw [List.mem_singleton.mp h]
      exact ⟨hfeed, hreturn⟩
  all_goals
    simp only [List.mem_cons, List.not_mem_nil, or_false] at h
    rcases h with rfl | rfl <;> decide

theorem flat_quote (s : String) : Flat (quote s) := by
  have hescape : Flat (escape s) := by
    intro d hd
    rw [escape, String.toList_ofList] at hd
    obtain ⟨c, -, hd⟩ := List.mem_flatMap.mp hd
    exact flat_of_mem_escapeChar hd
  exact (Flat.append (by decide) hescape).append (by decide)

theorem isNameChar_of_isPlain {name : String} (h : isPlain name = true) :
    ∀ c ∈ name.toList, isNameChar c = true := by
  intro c hc
  unfold isPlain at h
  split at h
  · cases h
  · next heq =>
    rw [heq] at hc
    have hplain := List.all_eq_true.mp (Bool.and_eq_true_iff.mp h).2 c hc
    exact Bool.or_eq_true_iff.mpr (.inl hplain)

theorem flat_key (name : String) : Flat (key name) := by
  unfold key
  split
  · next hplain => exact flat_of_name (isNameChar_of_isPlain hplain)
  · exact flat_quote name

end Text

open Text (Flat)

theorem Decimal.Double.flat_sign (d : Decimal.Double) : Flat d.sign := by
  unfold sign
  split <;> decide

theorem Decimal.Double.flat_plainText (d : Decimal.Double) : Flat d.plainText := by
  by_cases h : d.isFinite = true
  · obtain ⟨cs, hcs, heq⟩ := plainText_of_isFinite h
    intro c hc
    rw [heq] at hc
    rcases List.mem_append.mp hc with hc | hc
    · exact d.flat_sign c hc
    · exact Text.flat_of_isNumeralChar (hcs.chars c hc)
  · unfold plainText
    split
    · decide
    · split
      · exact d.flat_sign.append (by decide)
      · next hnan hinfinite =>
        simp only [isFinite, isNaN, isInfinite, decide_eq_true_eq] at h hnan hinfinite
        omega

theorem Literal.flat_text (value : Literal) : Flat value.text := by
  cases value with
  | string s => exact Text.flat_quote s
  | integer n =>
      obtain ⟨cs, hcs, heq⟩ := Decimal.toList_toString_int n
      intro c hc
      rw [text, heq] at hc
      rcases List.mem_append.mp hc with hc | hc
      · split at hc
        · exact List.mem_singleton.mp hc ▸ by decide
        · cases hc
      · exact Text.flat_of_isNumeralChar (hcs.chars c hc)
  | float d => exact d.flat_plainText
  | bool b => cases b <;> decide
  | null => decide

theorem Property.flat_text {p : Property TypeExpr} (h : Flat p.type.text) : Flat p.text := by
  have hmark : Flat (if p.optional then "?" else "") := by split <;> decide
  exact (((Text.flat_key p.name).append hmark).append (by decide)).append h

theorem flat_indexText {t : TypeExpr} (h : Flat t.text) : Flat (indexText t) :=
  Flat.append (by decide) h

theorem ObjectType.flat_text {o : ObjectType TypeExpr}
    (properties : ∀ p ∈ o.properties, Flat p.type.text) (index : ∀ t ∈ o.index, Flat t.text) :
    Flat (TypeExpr.object o).text := by
  have hparts : ∀ part ∈ o.parts, Flat part := by
    intro part hpart
    rcases List.mem_append.mp hpart with hpart | hpart
    · obtain ⟨p, hp, rfl⟩ := List.mem_map.mp hpart
      exact Property.flat_text (properties p hp)
    · obtain ⟨t, ht, rfl⟩ := Option.map_eq_some_iff.mp (Option.mem_toList.mp hpart)
      exact flat_indexText (index t ht)
  rw [ObjectType.text_eq]
  split
  · decide
  · exact (Flat.append (by decide) (Text.flat_join (by decide) hparts)).append (by decide)

/-- A type stands on one line when the names in it do. -/
theorem TypeExpr.flat_text (t : TypeExpr) (h : ∀ name ∈ t.names, Flat name) : Flat t.text := by
  induction t using TypeExpr.induction with
  | base type => cases type <;> decide
  | literal value => exact value.flat_text
  | named name => exact h name List.mem_cons_self
  | array t ih =>
      rw [text]
      split
      · exact (Flat.append (by decide) (ih h)).append (by decide)
      · exact (ih h).append (by decide)
  | union ts ih =>
      rw [text, texts_eq]
      refine Text.flat_join (by decide) fun s hs => ?_
      obtain ⟨t, ht, rfl⟩ := List.mem_map.mp hs
      exact ih t ht fun name hname => h name (mem_memberNames.mpr ⟨t, ht, hname⟩)
  | intersection ts ih =>
      rw [text, operandTexts_eq]
      refine Text.flat_join (by decide) fun s hs => ?_
      obtain ⟨t, ht, rfl⟩ := List.mem_map.mp hs
      have hflat := ih t ht fun name hname => h name (mem_memberNames.mpr ⟨t, ht, hname⟩)
      unfold operandText
      split
      · exact (Flat.append (by decide) hflat).append (by decide)
      · exact hflat
  | object o properties index =>
      have hnames := fun name hname => h name (ObjectType.mem_names.mpr hname)
      refine ObjectType.flat_text (fun p hp => properties p hp ?_) fun t ht => index t ht ?_
      · exact fun name hname => hnames name (.inl ⟨p, hp, hname⟩)
      · exact fun name hname => hnames name (.inr ⟨t, ht, hname⟩)

end SwaggerTypes
