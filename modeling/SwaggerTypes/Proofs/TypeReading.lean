import SwaggerTypes.Proofs.TypeScanning
/-!
# Types read back

What is written for a type is read as that type again. Blanks and marks keep its parts apart, and the
parentheses that are left out are those that the grammar does not need.
-/

namespace SwaggerTypes

open Text (IsName)

/-! ## What is written for a type -/

def WrittenType.ofNumeral (text : String) : WrittenType :=
  match text.toList with
  | '-' :: digits => .number true (String.ofList digits)
  | digits => .number false (String.ofList digits)

def Literal.written : Literal → WrittenType
  | string s => .string s
  | integer n => .ofNumeral (toString n)
  | float d => .ofNumeral d.plainText
  | bool b => .bool b
  | null => .base .null

namespace TypeExpr

mutual

/-- A type as it is written: groups of members become one list, and properties lose their comments. -/
def written : TypeExpr → WrittenType
  | base type => .base type
  | array of => .array of.written
  | union members => .union (writtenAlternatives members)
  | intersection members => .intersection (writtenFactors members)
  | object ⟨properties, none⟩ => .object (writtenProperties properties) none
  | object ⟨properties, some index⟩ => .object (writtenProperties properties) (some index.written)
  | literal value => value.written
  | named name => .named name
termination_by structural t => t

def writtenAlternatives : List TypeExpr → List WrittenType
  | [] => []
  | t :: ts => t.written.alternatives ++ writtenAlternatives ts
termination_by structural ts => ts

def writtenFactors : List TypeExpr → List WrittenType
  | [] => []
  | t :: ts => t.written.factors ++ writtenFactors ts
termination_by structural ts => ts

def writtenProperties : List (Property TypeExpr) → List (WrittenProperty WrittenType)
  | [] => []
  | ⟨name, type, optional, _, _⟩ :: ps => ⟨name, optional, type.written⟩ :: writtenProperties ps
termination_by structural ps => ps

end

theorem writtenAlternatives_eq (ts : List TypeExpr) :
    writtenAlternatives ts = ts.flatMap fun t => t.written.alternatives := by
  induction ts with
  | nil => rfl
  | cons t ts ih => rw [writtenAlternatives, ih, List.flatMap_cons]

theorem writtenFactors_eq (ts : List TypeExpr) :
    writtenFactors ts = ts.flatMap fun t => t.written.factors := by
  induction ts with
  | nil => rfl
  | cons t ts ih => rw [writtenFactors, ih, List.flatMap_cons]

/-- A type whose text tells what it is: unions and intersections have two members at least, numbers
are finite, and names can be declared. -/
inductive Readable : TypeExpr → Prop
  | base {type} : Readable (.base type)
  | literal {value} (finite : value.isFinite = true) : Readable (.literal value)
  | named {name} (free : IsName name) : Readable (.named name)
  | array {t} (of : Readable t) : Readable (.array t)
  | union {ts} (two : 2 ≤ ts.length) (members : ∀ t ∈ ts, Readable t) : Readable (.union ts)
  | intersection {ts} (two : 2 ≤ ts.length) (members : ∀ t ∈ ts, Readable t) :
      Readable (.intersection ts)
  | object {o} (properties : ∀ p ∈ o.properties, Readable p.type)
      (index : ∀ t, o.index = some t → Readable t) : Readable (.object o)

end TypeExpr

/-! ## Spelling -/

namespace Reader

/-- A text spells a phrase: it is scanned into tokens that the phrase is derived from. -/
def Spells (cs : List Char) (phrase : Phrase) : Prop :=
  ∃ ts, Scans cs ts ∧ Derives phrase ts

section

variable {cs cs' : List Char} {t : WrittenType} {us us' : List WrittenType}

theorem Spells.array (h : Spells cs (.operand t)) :
    Spells (cs ++ ['[', ']']) (.operand (.array t)) := by
  obtain ⟨ts, hscans, hderives⟩ := h
  have hsuffix : Scans ['[', ']'] [.mark '[', .mark ']'] := .mark rfl (.mark rfl .nil)
  exact ⟨_, hscans.append (goesOn_of_mem (by decide)) hsuffix, .array hderives⟩

theorem Spells.parentheses (h : Spells cs (.alternatives us)) :
    Spells ('(' :: (cs ++ [')'])) (.operand (.ofAlternatives us)) := by
  obtain ⟨ts, hscans, hderives⟩ := h
  have hclose : Scans [')'] [.mark ')'] := .mark rfl .nil
  exact ⟨_, .mark rfl (hscans.append (goesOn_of_mem (by decide)) hclose),
    .parentheses hderives⟩

theorem Spells.beside {phrase : List WrittenType → Phrase} {c : Char}
    (hmark : begin? c = (.between, [.mark c]))
    (hphrase : ∀ us us' ts ts', Derives (phrase us) ts → Derives (phrase us') ts' →
      Derives (phrase (us ++ us')) (ts ++ .mark c :: ts'))
    (h : Spells cs (phrase us)) (h' : Spells cs' (phrase us')) :
    Spells (cs ++ ' ' :: c :: ' ' :: cs') (phrase (us ++ us')) := by
  obtain ⟨ts, hscans, hderives⟩ := h
  obtain ⟨ts', hscans', hderives'⟩ := h'
  have hbehind : Scans (' ' :: c :: ' ' :: cs') (.mark c :: ts') :=
    .blank (.mark hmark (.blank hscans'))
  exact ⟨_, hscans.append (goesOn_of_mem (by decide)) hbehind, hphrase _ _ _ _ hderives hderives'⟩

theorem Spells.joined {phrase : List WrittenType → Phrase} {c : Char} {separator : String}
    (hseparator : separator.toList = [' ', c, ' ']) (hmark : begin? c = (.between, [.mark c]))
    (hphrase : ∀ us us' ts ts', Derives (phrase us) ts → Derives (phrase us') ts' →
      Derives (phrase (us ++ us')) (ts ++ .mark c :: ts'))
    {text : TypeExpr → String} {parts : TypeExpr → List WrittenType} {ts : List TypeExpr}
    (hne : ts ≠ []) (h : ∀ t ∈ ts, Spells (text t).toList (phrase (parts t))) :
    Spells (Text.join separator (ts.map text)).toList (phrase (ts.flatMap parts)) := by
  unfold Text.join
  induction ts with
  | nil => exact absurd rfl hne
  | cons t ts ih =>
      obtain ⟨ht, hts⟩ := List.forall_mem_cons.mp h
      cases ts with
      | nil =>
          rw [List.flatMap_cons, List.flatMap_nil, List.append_nil]
          exact ht
      | cons t' ts =>
          have hjoined := ht.beside hmark hphrase (ih (List.cons_ne_nil _ _) hts)
          rw [List.flatMap_cons, List.map_cons, List.map_cons, String.intercalate_cons_cons,
            String.toList_append, String.toList_append, hseparator, List.append_assoc]
          exact hjoined

end

end Reader

namespace WrittenType

def phrase : WrittenType → Reader.Phrase
  | union members => .alternatives members
  | intersection members => .factors members
  | t => .operand t

def Plural : WrittenType → Prop
  | union members | intersection members => 2 ≤ members.length
  | _ => True

theorem Plural.of_operand {t : WrittenType} (h : t.phrase = .operand t) : t.Plural := by
  cases t with
  | union | intersection => cases h
  | _ => trivial

theorem Plural.alternatives_ne_nil {t : WrittenType} (h : t.Plural) : t.alternatives ≠ [] := by
  cases t with
  | union members => exact List.ne_nil_of_length_pos (Nat.lt_of_lt_of_le (by decide) h)
  | _ => exact List.cons_ne_nil _ _

theorem Plural.factors_ne_nil {t : WrittenType} (h : t.Plural) : t.factors ≠ [] := by
  cases t with
  | intersection members => exact List.ne_nil_of_length_pos (Nat.lt_of_lt_of_le (by decide) h)
  | _ => exact List.cons_ne_nil _ _

theorem ofAlternatives_alternatives {t : WrittenType} (h : t.Plural) :
    ofAlternatives t.alternatives = t := by
  cases t with
  | union members =>
      obtain ⟨a, b, rest, rfl⟩ : ∃ a b rest, members = a :: b :: rest := by
        match members, h with
        | a :: b :: rest, _ => exact ⟨a, b, rest, rfl⟩
      rfl
  | _ => rfl

theorem ofFactors_factors {t : WrittenType} (h : t.Plural) : ofFactors t.factors = t := by
  cases t with
  | intersection members =>
      obtain ⟨a, b, rest, rfl⟩ : ∃ a b rest, members = a :: b :: rest := by
        match members, h with
        | a :: b :: rest, _ => exact ⟨a, b, rest, rfl⟩
      rfl
  | _ => rfl

end WrittenType

namespace Reader

section

variable {cs : List Char} {t : WrittenType}

/-- A type that is no union is the factors that it has. -/
theorem Spells.factors (h : Spells cs t.phrase) (hunion : ∀ members, t ≠ .union members) :
    Spells cs (.factors t.factors) := by
  obtain ⟨ts, hscans, hderives⟩ := h
  cases t with
  | union members => exact absurd rfl (hunion members)
  | intersection members => exact ⟨ts, hscans, hderives⟩
  | _ => exact ⟨ts, hscans, .factor hderives⟩

/-- Every type is the alternatives that it has. -/
theorem Spells.alternatives (h : Spells cs t.phrase) (hplural : t.Plural) :
    Spells cs (.alternatives t.alternatives) := by
  by_cases hunion : ∃ members, t = .union members
  · obtain ⟨members, rfl⟩ := hunion
    exact h
  · have hsingle : t.alternatives = [t] := by
      unfold WrittenType.alternatives
      split
      · next members => exact absurd ⟨members, rfl⟩ hunion
      · rfl
    obtain ⟨ts, hscans, hderives⟩ := h.factors fun members heq => hunion ⟨members, heq⟩
    have halternative := hderives.alternative
    rw [WrittenType.ofFactors_factors hplural, ← hsingle] at halternative
    exact ⟨ts, hscans, halternative⟩

theorem Spells.closed (h : Spells cs t.phrase) (hplural : t.Plural) :
    Spells ('(' :: (cs ++ [')'])) (.operand t) := by
  have hparentheses := (h.alternatives hplural).parentheses
  rwa [WrittenType.ofAlternatives_alternatives hplural] at hparentheses

end

end Reader

open Reader (Spells)

/-! ### Listed values and names -/

theorem spells_ofNumeral {text : String} {cs : List Char} (hcs : Decimal.IsNumeral cs)
    (signed : Bool) (h : text.toList = (if signed then ['-'] else []) ++ cs) :
    Spells text.toList (WrittenType.ofNumeral text).phrase := by
  have hscans := Reader.scans_numeral hcs
  cases signed with
  | true =>
      rw [if_pos rfl] at h
      rw [WrittenType.ofNumeral, h]
      exact ⟨_, .mark rfl hscans, .negative⟩
  | false =>
      rw [if_neg Bool.false_ne_true, List.nil_append] at h
      obtain ⟨c, hhead, hdigit⟩ := hcs.start
      obtain ⟨w, rfl⟩ : ∃ w, cs = c :: w := List.head?_eq_some_iff.mp hhead
      have hwritten : WrittenType.ofNumeral text = .number false (String.ofList (c :: w)) := by
        unfold WrittenType.ofNumeral
        rw [h]
        split
        · next heq =>
          obtain ⟨rfl, -⟩ := List.cons.inj heq
          exact absurd hdigit (by decide)
        · rfl
      rw [hwritten, h]
      exact ⟨_, hscans, @Reader.Derives.word .numeral _⟩

theorem phrase_ofNumeral (text : String) :
    (WrittenType.ofNumeral text).phrase = .operand (.ofNumeral text) := by
  unfold WrittenType.ofNumeral
  split <;> rfl

theorem Literal.phrase_written (value : Literal) :
    value.written.phrase = .operand value.written := by
  cases value with
  | integer n => exact phrase_ofNumeral _
  | float d => exact phrase_ofNumeral _
  | _ => rfl

theorem spells_word {name : String} {t : WrittenType}
    (hchars : ∀ c ∈ name.toList, Text.isNameChar c = true)
    (hstart : ∃ c cs, name.toList = c :: cs ∧ c.isDigit = false)
    (hword : Reader.ofWord .name name = t) : Spells name.toList (.operand t) :=
  ⟨_, Reader.scans_name hchars hstart, hword ▸ .word⟩

theorem BaseType.spells (type : BaseType) : Spells type.text.toList (.operand (.base type)) := by
  cases type <;> exact spells_word (List.all_eq_true.mp (by decide)) ⟨_, _, rfl, by decide⟩ rfl

theorem ofWord_name {name : String} (h : IsName name) : Reader.ofWord .name name = .named name := by
  have hfree := h.unreserved
  unfold Reader.ofWord
  split
  case h_1 heq => cases heq
  case h_9 heq _ _ _ _ _ _ _ => rfl
  all_goals exact absurd hfree (by decide)

theorem Literal.spells {value : Literal} (finite : value.isFinite = true) :
    Spells value.text.toList value.written.phrase := by
  cases value with
  | string s => exact ⟨_, Reader.scans_quote s, .literal⟩
  | integer n =>
      obtain ⟨cs, hcs, heq⟩ := Decimal.toList_toString_int n
      refine spells_ofNumeral hcs (decide (n < 0)) ?_
      simp only [decide_eq_true_eq]
      exact heq
  | float d =>
      obtain ⟨cs, hcs, heq⟩ := Decimal.Double.plainText_of_isFinite finite
      have hsign : d.sign.toList = if d.negative = true then ['-'] else [] := by
        unfold Decimal.Double.sign
        split <;> rfl
      exact spells_ofNumeral hcs d.negative (hsign ▸ heq)
  | bool b => cases b <;> exact spells_word (List.all_eq_true.mp (by decide)) ⟨_, _, rfl, by decide⟩ rfl
  | null => exact BaseType.null.spells

/-! ### Types -/

def Property.written (p : Property TypeExpr) : WrittenProperty WrittenType :=
  ⟨p.name, p.optional, p.type.written⟩

theorem TypeExpr.writtenProperties_eq (ps : List (Property TypeExpr)) :
    TypeExpr.writtenProperties ps = ps.map Property.written := by
  induction ps with
  | nil => rfl
  | cons p ps ih => rw [TypeExpr.writtenProperties, ih, List.map_cons, Property.written]

theorem ObjectType.written_eq (o : ObjectType TypeExpr) :
    (TypeExpr.object o).written =
      .object (o.properties.map Property.written) (o.index.map TypeExpr.written) := by
  obtain ⟨properties, index⟩ := o
  cases index <;> rw [TypeExpr.written, TypeExpr.writtenProperties_eq] <;> rfl

structure TypeExpr.Spelled (t : TypeExpr) : Prop where
  plural : t.written.Plural
  text : Spells t.text.toList t.written.phrase

namespace TypeExpr

theorem Spelled.alternatives {t : TypeExpr} (h : t.Spelled) :
    Spells t.text.toList (.alternatives t.written.alternatives) :=
  h.text.alternatives h.plural

theorem parenthesized_toList (s : String) : ("(" ++ s ++ ")").toList = '(' :: (s.toList ++ [')']) := by
  rw [String.toList_append, String.toList_append]
  rfl

/-- Only unions are written as unions. -/
theorem written_ne_union {t : TypeExpr} (h : t.isUnion = false) (members : List WrittenType) :
    t.written ≠ .union members := by
  cases t with
  | union ts => cases h
  | literal value =>
      intro heq
      have hphrase := value.phrase_written
      rw [written] at heq
      rw [heq] at hphrase
      cases hphrase
  | object o => exact o.written_eq ▸ nofun
  | _ => exact nofun

/-- What stands without parentheses in front of an array suffix is an operand. -/
theorem phrase_written {t : TypeExpr} (h : t.needsParens = false) :
    t.written.phrase = .operand t.written := by
  cases t with
  | union | intersection => cases h
  | literal value => exact value.phrase_written
  | object o => rw [o.written_eq]; rfl
  | _ => rfl

/-- A member of an intersection stands for its factors, a union in parentheses for itself. -/
theorem Spelled.factors {t : TypeExpr} (h : t.Spelled) :
    Spells t.operandText.toList (.factors t.written.factors) := by
  unfold operandText
  split
  · next hunion =>
    have hsingle : t.written.factors = [t.written] := by
      cases t with
      | union ts => rfl
      | _ => cases hunion
    obtain ⟨ts, hscans, hderives⟩ := h.text.closed h.plural
    rw [parenthesized_toList, hsingle]
    exact ⟨ts, hscans, .factor hderives⟩
  · next hunion => exact h.text.factors (written_ne_union (Bool.eq_false_iff.mpr hunion))

theorem Spelled.array {t : TypeExpr} (h : t.Spelled) : (TypeExpr.array t).Spelled where
  plural := trivial
  text := by
    rw [TypeExpr.text]
    split
    · have hclosed : Spells _ (TypeExpr.array t).written.phrase := (h.text.closed h.plural).array
      simpa using hclosed
    · next hparens =>
      have htext := h.text
      rw [phrase_written (Bool.eq_false_iff.mpr hparens)] at htext
      rw [String.toList_append]
      exact htext.array

theorem two_le_flatMap {parts : TypeExpr → List WrittenType} {ts : List TypeExpr}
    (two : 2 ≤ ts.length) (h : ∀ t ∈ ts, parts t ≠ []) : 2 ≤ (ts.flatMap parts).length := by
  match ts, two with
  | a :: b :: ts, _ =>
      have ha := List.length_pos_of_ne_nil (h a (by simp))
      have hb := List.length_pos_of_ne_nil (h b (by simp))
      simp only [List.flatMap_cons, List.length_append]
      omega

theorem Spelled.union {ts : List TypeExpr} (two : 2 ≤ ts.length) (h : ∀ t ∈ ts, t.Spelled) :
    (TypeExpr.union ts).Spelled where
  plural := by
    rw [written, writtenAlternatives_eq]
    exact two_le_flatMap two fun t ht => (h t ht).plural.alternatives_ne_nil
  text := by
    have hne : ts ≠ [] := by rintro rfl; cases two
    rw [TypeExpr.text, texts_eq, written, writtenAlternatives_eq]
    exact Spells.joined rfl rfl (fun _ _ _ _ => .alternatives) hne fun t ht => (h t ht).alternatives

theorem Spelled.intersection {ts : List TypeExpr} (two : 2 ≤ ts.length)
    (h : ∀ t ∈ ts, t.Spelled) : (TypeExpr.intersection ts).Spelled where
  plural := by
    rw [written, writtenFactors_eq]
    exact two_le_flatMap two fun t ht => (h t ht).plural.factors_ne_nil
  text := by
    have hne : ts ≠ [] := by rintro rfl; cases two
    rw [TypeExpr.text, operandTexts_eq, written, writtenFactors_eq]
    exact Spells.joined rfl rfl (fun _ _ _ _ => .factors) hne fun t ht => (h t ht).factors

end TypeExpr

/-! ### Objects -/

theorem Property.spells {p : Property TypeExpr} (h : p.type.Spelled) :
    Spells p.text.toList (.property p.written) := by
  obtain ⟨key, hkey, hscans⟩ := Reader.scans_key p.name
  obtain ⟨ts, htype, hderives⟩ := h.alternatives
  have hderived : Reader.Derives (.property ⟨p.name, p.optional, _⟩) _ := hderives.property hkey
  rw [WrittenType.ofAlternatives_alternatives h.plural] at hderived
  refine ⟨_, ?_, hderived⟩
  have hbehind : Reader.Scans (':' :: ' ' :: p.type.text.toList) (.mark ':' :: ts) :=
    .mark rfl (.blank htype)
  unfold Property.text
  simp only [String.toList_append, List.append_assoc]
  split
  · exact hscans.append (Reader.goesOn_of_mem (by decide)) (.mark rfl hbehind)
  · exact hscans.append (Reader.goesOn_of_mem (by decide)) hbehind

theorem spells_indexText {t : TypeExpr} (h : t.Spelled) :
    Spells (indexText t).toList (.members [] (some t.written)) := by
  obtain ⟨ts, htype, hderives⟩ := h.alternatives
  have hderived := hderives.index
  rw [WrittenType.ofAlternatives_alternatives h.plural] at hderived
  refine ⟨_, ?_, hderived⟩
  have hkey : Reader.Scans "key".toList [.word .name "key"] :=
    Reader.scans_name (List.all_eq_true.mp (by decide)) ⟨_, _, rfl, by decide⟩
  have hstring : Reader.Scans "string".toList [.word .name "string"] :=
    Reader.scans_name (List.all_eq_true.mp (by decide)) ⟨_, _, rfl, by decide⟩
  unfold indexText
  rw [String.toList_append]
  exact .mark rfl (hkey.append (Reader.goesOn_of_mem (by decide)) (.mark rfl (.blank
    (hstring.append (Reader.goesOn_of_mem (by decide)) (.mark rfl (.mark rfl (.blank htype)))))))

theorem ObjectType.parts_ne_nil {ps : List (Property TypeExpr)} {index : Option TypeExpr}
    (h : ps ≠ [] ∨ index ≠ none) : ObjectType.parts ⟨ps, index⟩ ≠ [] := by
  intro heq
  rw [ObjectType.parts, List.append_eq_nil_iff, List.map_eq_nil_iff] at heq
  obtain ⟨hps, hindex⟩ := heq
  cases index with
  | none => exact h.elim (absurd hps) (absurd rfl)
  | some t => cases hindex

theorem spells_members {index : Option TypeExpr} (hindex : ∀ t ∈ index, t.Spelled) :
    ∀ ps : List (Property TypeExpr), (∀ p ∈ ps, p.type.Spelled) → ps ≠ [] ∨ index ≠ none →
      Spells (Text.join "; " (ObjectType.parts ⟨ps, index⟩)).toList
        (.members (ps.map Property.written) (index.map TypeExpr.written)) := by
  intro ps hps hne
  induction ps with
  | nil =>
      cases index with
      | none => simp at hne
      | some t => exact spells_indexText (hindex t rfl)
  | cons p ps ih =>
      obtain ⟨hp, hps⟩ := List.forall_mem_cons.mp hps
      obtain ⟨ts, hscans, hderives⟩ := Property.spells hp
      by_cases hlast : ps = [] ∧ index = none
      · obtain ⟨rfl, rfl⟩ := hlast
        exact ⟨ts, hscans, .lastProperty hderives⟩
      · have hmore : ps ≠ [] ∨ index ≠ none := by
          by_contra hnone
          exact hlast (by simpa using hnone)
        obtain ⟨ts', hscans', hderives'⟩ := ih hps hmore
        have hbehind : Reader.Scans (';' :: ' ' :: _) (.mark ';' :: ts') := .mark rfl (.blank hscans')
        obtain ⟨part, parts, heq⟩ := List.exists_cons_of_ne_nil (ObjectType.parts_ne_nil hmore)
        have hparts : ObjectType.parts ⟨p :: ps, index⟩ = p.text :: part :: parts := by
          rw [← heq]
          rfl
        rw [heq] at hbehind
        refine ⟨_, ?_, .members hderives hderives'⟩
        unfold Text.join at hbehind ⊢
        rw [hparts, String.intercalate_cons_cons, String.toList_append, String.toList_append,
          List.append_assoc]
        exact hscans.append (Reader.goesOn_of_mem (by decide)) hbehind

theorem TypeExpr.Spelled.object {o : ObjectType TypeExpr}
    (properties : ∀ p ∈ o.properties, p.type.Spelled) (index : ∀ t ∈ o.index, t.Spelled) :
    (TypeExpr.object o).Spelled where
  plural := o.written_eq ▸ trivial
  text := by
    rw [o.text_eq, o.written_eq]
    by_cases hempty : o.properties ≠ [] ∨ o.index ≠ none
    · obtain ⟨ts, hscans, hderives⟩ := spells_members index o.properties properties hempty
      have hclose : Reader.Scans [' ', '\x7d'] [.mark '\x7d'] := .blank (.mark rfl .nil)
      rw [if_neg (ObjectType.parts_ne_nil hempty)]
      simp only [String.toList_append]
      exact ⟨_, .mark rfl (.blank (hscans.append (Reader.goesOn_of_mem (by decide)) hclose)),
        .object hderives⟩
    · obtain ⟨hproperties, hindex⟩ : o.properties = [] ∧ o.index = none := by
        simpa using hempty
      have hparts : o.parts = [] := by rw [ObjectType.parts, hproperties, hindex]; rfl
      rw [if_pos hparts, hproperties, hindex]
      exact ⟨_, .mark rfl (.mark rfl .nil), .emptyObject⟩

/-! ## The round trip -/

theorem TypeExpr.Readable.spelled {t : TypeExpr} (h : t.Readable) : t.Spelled := by
  induction h with
  | @base type => exact ⟨trivial, type.spells⟩
  | @literal value finite =>
      exact ⟨.of_operand value.phrase_written, Literal.spells finite⟩
  | named free => exact ⟨trivial, spells_word free.chars free.start (ofWord_name free)⟩
  | array _ ih => exact ih.array
  | union two _ ih => exact .union two ih
  | intersection two _ ih => exact .intersection two ih
  | object _ _ properties index => exact .object properties index

/-- The text of a readable type is read back as what is written for the type, as a whole. -/
theorem TypeExpr.Readable.read_text {t : TypeExpr} (h : t.Readable) :
    Reader.read t.text = some t.written := by
  obtain ⟨ts, hscans, hderives⟩ := h.spelled.alternatives
  have hscan : Reader.scan .between t.text.toList = some ts := by
    have hend := hscans [] [] nofun rfl
    rwa [List.append_nil, List.append_nil] at hend
  rw [Reader.read_eq hscan hderives, WrittenType.ofAlternatives_alternatives h.spelled.plural]

end SwaggerTypes
