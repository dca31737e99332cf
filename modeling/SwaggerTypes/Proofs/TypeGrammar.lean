import SwaggerTypes.Types.Expr
import SwaggerTypes.Proofs.Numerals
import SwaggerTypes.Proofs.SanitizedNames
/-!
# Reading types

A reader for the text of types: a scanner that cuts the text into tokens, and a parser that puts them
together again. The grammar is given by its derivations; what they derive, the parser finds. Unions
bind weaker than intersections, and these weaker than the array suffix.
-/

namespace SwaggerTypes

/-! ## What is read -/

structure WrittenProperty (α : Type) where
  name : String
  optional : Bool
  type : α

/-- A type as it is written. There is one `null`, a number is the digits that are written for it, and
nothing tells in which groups the members of a union or an intersection came together. -/
inductive WrittenType where
  | base (type : BaseType)
  | bool (b : Bool)
  | number (negative : Bool) (digits : String)
  | string (s : String)
  | named (name : String)
  | array (of : WrittenType)
  | union (members : List WrittenType)
  | intersection (members : List WrittenType)
  | object (properties : List (WrittenProperty WrittenType)) (index : Option WrittenType)

namespace WrittenType

def alternatives : WrittenType → List WrittenType
  | union members => members
  | t => [t]

def factors : WrittenType → List WrittenType
  | intersection members => members
  | t => [t]

/-- The union of types; a single one is no union. -/
def ofAlternatives : List WrittenType → WrittenType
  | [t] => t
  | ts => union ts

/-- The intersection of types; a single one is no intersection. -/
def ofFactors : List WrittenType → WrittenType
  | [t] => t
  | ts => intersection ts

end WrittenType

namespace Reader

/-! ## Tokens -/

inductive Word where
  | name
  | numeral
deriving DecidableEq

/-- A word, a quoted text without its quotes and escapes, or a mark of one character. -/
inductive Token where
  | word (kind : Word) (text : String)
  | literal (text : String)
  | mark (c : Char)
deriving DecidableEq

def Word.goesOn : Word → Char → Bool
  | name, c => Text.isNameChar c
  | numeral, c => Decimal.isNumeralChar c

/-- Where a scanner stands: between tokens, or in a token with what it has kept of it. A code is what
comes behind `\u`, with the number of digits left and the value of those before. -/
inductive Mode where
  | between
  | word (kind : Word) (kept : List Char)
  | literal (kept : List Char)
  | escape (kept : List Char)
  | code (kept : List Char) (left : Nat) (value : Nat)

def begin? (c : Char) : Mode × List Token :=
  if c = ' ' then (.between, [])
  else if c = '"' then (.literal [], [])
  else if c.isDigit then (.word .numeral [c], [])
  else if Text.isNameChar c then (.word .name [c], [])
  else (.between, [.mark c])

def escaped? : Char → Option Char
  | '\\' => some '\\'
  | '"' => some '"'
  | 'n' => some '\n'
  | 'r' => some '\r'
  | 't' => some '\t'
  | _ => none

def scan : Mode → List Char → Option (List Token)
  | .between, [] => some []
  | .word kind kept, [] => some [.word kind (String.ofList kept)]
  | _, [] => none
  | .between, c :: cs => (scan (begin? c).1 cs).map ((begin? c).2 ++ ·)
  | .word kind kept, c :: cs =>
    if kind.goesOn c then scan (.word kind (kept ++ [c])) cs
    else (scan (begin? c).1 cs).map fun ts => .word kind (String.ofList kept) :: (begin? c).2 ++ ts
  | .literal kept, c :: cs =>
    if c = '"' then (scan .between cs).map (.literal (String.ofList kept) :: ·)
    else if c = '\\' then scan (.escape kept) cs
    else scan (.literal (kept ++ [c])) cs
  | .escape kept, c :: cs =>
    if c = 'u' then scan (.code kept 4 0) cs
    else match escaped? c with
      | some d => scan (.literal (kept ++ [d])) cs
      | none => none
  | .code kept left value, c :: cs =>
    match Decimal.digitValue 16 c, left with
    | some d, 1 => scan (.literal (kept ++ [Char.ofNat (16 * value + d)])) cs
    | some d, left + 2 => scan (.code kept (left + 1) (16 * value + d)) cs
    | _, _ => none

/-! ## The grammar -/

def ofWord : Word → String → WrittenType
  | .numeral, digits => .number false digits
  | .name, "string" => .base .string
  | .name, "number" => .base .number
  | .name, "boolean" => .base .boolean
  | .name, "null" => .base .null
  | .name, "any" => .base .any
  | .name, "true" => .bool true
  | .name, "false" => .bool false
  | .name, name => .named name

/-- The key that a token is: a name, whatever it stands for elsewhere, or a quoted text. -/
def Token.key? : Token → Option String
  | .word .name text | .literal text => some text
  | _ => none

def indexHead : List Token :=
  [.mark '[', .word .name "key", .mark ':', .word .name "string", .mark ']', .mark ':']

inductive Phrase where
  | operand (t : WrittenType)
  | factors (ts : List WrittenType)
  | alternatives (ts : List WrittenType)
  | property (p : WrittenProperty WrittenType)
  | members (properties : List (WrittenProperty WrittenType)) (index : Option WrittenType)

/-- The grammar of types. -/
inductive Derives : Phrase → List Token → Prop
  | word {kind text} : Derives (.operand (ofWord kind text)) [.word kind text]
  | negative {digits} :
      Derives (.operand (.number true digits)) [.mark '-', .word .numeral digits]
  | literal {text} : Derives (.operand (.string text)) [.literal text]
  | array {t ts} (of : Derives (.operand t) ts) :
      Derives (.operand (.array t)) (ts ++ [.mark '[', .mark ']'])
  | parentheses {us ts} (inside : Derives (.alternatives us) ts) :
      Derives (.operand (.ofAlternatives us)) (.mark '(' :: (ts ++ [.mark ')']))
  | emptyObject : Derives (.operand (.object [] none)) [.mark '\x7b', .mark '\x7d']
  | object {ps index ts} (inside : Derives (.members ps index) ts) :
      Derives (.operand (.object ps index)) (.mark '\x7b' :: (ts ++ [.mark '\x7d']))
  | factor {t ts} (one : Derives (.operand t) ts) : Derives (.factors [t]) ts
  | factors {us us' ts ts'} (first : Derives (.factors us) ts) (second : Derives (.factors us') ts') :
      Derives (.factors (us ++ us')) (ts ++ .mark '&' :: ts')
  | alternative {us ts} (one : Derives (.factors us) ts) :
      Derives (.alternatives [.ofFactors us]) ts
  | alternatives {us us' ts ts'} (first : Derives (.alternatives us) ts)
      (second : Derives (.alternatives us') ts') :
      Derives (.alternatives (us ++ us')) (ts ++ .mark '|' :: ts')
  | property {key name optional us ts} (named : key.key? = some name)
      (type : Derives (.alternatives us) ts) :
      Derives (.property ⟨name, optional, .ofAlternatives us⟩)
        (key :: ((if optional then [.mark '?'] else []) ++ .mark ':' :: ts))
  | lastProperty {p ts} (one : Derives (.property p) ts) : Derives (.members [p] none) ts
  | index {us ts} (type : Derives (.alternatives us) ts) :
      Derives (.members [] (some (.ofAlternatives us))) (indexHead ++ ts)
  | members {p ps index ts ts'} (first : Derives (.property p) ts)
      (second : Derives (.members ps index) ts') :
      Derives (.members (p :: ps) index) (ts ++ .mark ';' :: ts')

theorem Derives.length_pos {phrase : Phrase} {ts : List Token} (h : Derives phrase ts) :
    0 < ts.length := by
  induction h with
  | factor _ ih | alternative _ ih | lastProperty _ ih => exact ih
  | index => exact Nat.lt_of_lt_of_le (by decide) (List.length_append ▸ Nat.le_add_right _ _)
  | array | factors | alternatives | members =>
      rw [List.length_append, List.length_cons]
      omega
  | _ => exact Nat.zero_lt_succ _

theorem Derives.property_cons {p : WrittenProperty WrittenType} {ts : List Token}
    (h : Derives (.property p) ts) : ∃ key rest, ts = key :: rest ∧ key.key? = some p.name := by
  cases h with
  | property named => exact ⟨_, _, rfl, named⟩

/-! ## The parser -/

def expect (token : Token) : List Token → Option (List Token)
  | first :: rest => if first = token then some rest else none
  | [] => none

def suffixes (t : WrittenType) : List Token → WrittenType × List Token
  | .mark '[' :: .mark ']' :: ts => suffixes (.array t) ts
  | ts => (t, ts)

def negative : List Token → Option (WrittenType × List Token)
  | .word .numeral digits :: ts => some (suffixes (.number true digits) ts)
  | _ => none

mutual

def alternatives : Nat → List Token → Option (List WrittenType × List Token)
  | 0, _ => none
  | n + 1, ts => do
    let (us, ts) ← factors n ts
    match expect (.mark '|') ts with
    | some ts => do
      let (others, ts) ← alternatives n ts
      return (.ofFactors us :: others, ts)
    | none => return ([.ofFactors us], ts)

def factors : Nat → List Token → Option (List WrittenType × List Token)
  | 0, _ => none
  | n + 1, ts => do
    let (t, ts) ← operand n ts
    match expect (.mark '&') ts with
    | some ts => do
      let (others, ts) ← factors n ts
      return (t :: others, ts)
    | none => return ([t], ts)

def operand : Nat → List Token → Option (WrittenType × List Token)
  | 0, _ | _, [] => none
  | _, .word kind text :: ts => some (suffixes (ofWord kind text) ts)
  | _, .literal text :: ts => some (suffixes (.string text) ts)
  | n + 1, .mark c :: ts =>
    if c = '-' then negative ts
    else if c = '(' then do
      let (us, ts) ← alternatives n ts
      let ts ← expect (.mark ')') ts
      return suffixes (.ofAlternatives us) ts
    else if c = '\x7b' then
      match expect (.mark '\x7d') ts with
      | some ts => some (suffixes (.object [] none) ts)
      | none => do
        let ((ps, index), ts) ← members n ts
        return suffixes (.object ps index) ts
    else none

def property : Nat → List Token → Option (WrittenProperty WrittenType × List Token)
  | 0, _ | _, [] => none
  | n + 1, key :: ts => do
    let name ← key.key?
    let marked := expect (.mark '?') ts
    let ts ← expect (.mark ':') (marked.getD ts)
    let (us, ts) ← alternatives n ts
    return (⟨name, marked.isSome, .ofAlternatives us⟩, ts)

def members : Nat → List Token →
    Option ((List (WrittenProperty WrittenType) × Option WrittenType) × List Token)
  | 0, _ => none
  | n + 1, ts =>
    match expect (.mark '[') ts with
    | some ts => do
      let ts ← expect (.word .name "key") ts
      let ts ← expect (.mark ':') ts
      let ts ← expect (.word .name "string") ts
      let ts ← expect (.mark ']') ts
      let ts ← expect (.mark ':') ts
      let (us, ts) ← alternatives n ts
      let ts ← expect (.mark '\x7d') ts
      return (([], some (.ofAlternatives us)), ts)
    | none => do
      let (p, ts) ← property n ts
      match expect (.mark ';') ts with
      | some ts => do
        let ((ps, index), ts) ← members n ts
        return ((p :: ps, index), ts)
      | none => do
        let ts ← expect (.mark '\x7d') ts
        return (([p], none), ts)

end

def read (text : String) : Option WrittenType := do
  let ts ← scan .between text.toList
  match ← alternatives (4 * ts.length) ts with
  | (us, []) => return .ofAlternatives us
  | _ => none

/-! ## What is derived is found -/

section

variable {t : WrittenType} {us us' : List WrittenType} {p : WrittenProperty WrittenType}
  {ps : List (WrittenProperty WrittenType)} {index : Option WrittenType} {ts ts' rest : List Token}

theorem expect_self (token : Token) (ts : List Token) : expect token (token :: ts) = some ts :=
  if_pos rfl

theorem expect_ne {token first : Token} (h : first ≠ token) (ts : List Token) :
    expect token (first :: ts) = none := if_neg h

/-- What comes next does not go on with an operand or with factors. -/
structure EndsFactors (rest : List Token) : Prop where
  suffix : expect (.mark '[') rest = none
  factor : expect (.mark '&') rest = none

structure EndsType (rest : List Token) : Prop extends EndsFactors rest where
  alternative : expect (.mark '|') rest = none

theorem endsType_mark {c : Char} (h : c ≠ '[' ∧ c ≠ '&' ∧ c ≠ '|') (rest : List Token) :
    EndsType (.mark c :: rest) := by
  obtain ⟨hsuffix, hfactor, halternative⟩ := h
  refine ⟨⟨expect_ne ?_ _, expect_ne ?_ _⟩, expect_ne ?_ _⟩ <;> simpa

theorem endsType_nil : EndsType [] := ⟨⟨rfl, rfl⟩, rfl⟩

theorem suffixes_of_none (h : expect (.mark '[') rest = none) : suffixes t rest = (t, rest) := by
  unfold suffixes
  split
  · rw [expect_self] at h
    cases h
  · rfl

def FindsOperand (t : WrittenType) (ts : List Token) : Prop :=
  ∀ n, 4 * ts.length ≤ n + 2 → ∀ rest, operand n (ts ++ rest) = some (suffixes t rest)

/-- Factors are found where they end, and in front of more factors. -/
structure FindsFactors (us : List WrittenType) (ts : List Token) : Prop where
  last : ∀ n, 4 * ts.length ≤ n + 1 → ∀ rest, EndsFactors rest →
    factors n (ts ++ rest) = some (us, rest)
  more : ∀ m rest us' rest', (∀ n ≥ m, factors n rest = some (us', rest')) →
    ∀ n, 4 * ts.length + m ≤ n → factors n (ts ++ .mark '&' :: rest) = some (us ++ us', rest')

/-- Alternatives are found where they end, and in front of more alternatives. -/
structure FindsAlternatives (us : List WrittenType) (ts : List Token) : Prop where
  last : ∀ n, 4 * ts.length ≤ n → ∀ rest, EndsType rest →
    alternatives n (ts ++ rest) = some (us, rest)
  more : ∀ m rest us' rest', (∀ n ≥ m, alternatives n rest = some (us', rest')) →
    ∀ n, 4 * ts.length + m ≤ n → alternatives n (ts ++ .mark '|' :: rest) = some (us ++ us', rest')

def FindsProperty (p : WrittenProperty WrittenType) (ts : List Token) : Prop :=
  ∀ n, 4 * ts.length ≤ n + 1 → ∀ rest, EndsType rest → property n (ts ++ rest) = some (p, rest)

def FindsMembers (ps : List (WrittenProperty WrittenType)) (index : Option WrittenType)
    (ts : List Token) : Prop :=
  ∀ n, 4 * ts.length ≤ n → ∀ rest,
    members n (ts ++ .mark '\x7d' :: rest) = some ((ps, index), rest)

def Phrase.Found : Phrase → List Token → Prop
  | .operand t, ts => FindsOperand t ts
  | .factors us, ts => FindsFactors us ts
  | .alternatives us, ts => FindsAlternatives us ts
  | .property p, ts => FindsProperty p ts
  | .members ps index, ts => FindsMembers ps index ts

theorem FindsOperand.array (h : FindsOperand t ts) :
    FindsOperand (.array t) (ts ++ [.mark '[', .mark ']']) := by
  intro n hn rest
  rw [List.length_append] at hn
  rw [List.append_assoc, h n (by omega)]
  rfl

theorem FindsOperand.factor (h : FindsOperand t ts) (hpos : 0 < ts.length) : FindsFactors [t] ts where
  last := by
    intro n hn rest hrest
    obtain ⟨k, rfl⟩ : ∃ k, n = k + 1 := ⟨n - 1, by omega⟩
    rw [factors, h k (by omega), suffixes_of_none hrest.suffix]
    simp [hrest.factor]
  more := by
    intro m rest us' rest' hmore n hn
    obtain ⟨k, rfl⟩ : ∃ k, n = k + 1 := ⟨n - 1, by omega⟩
    rw [factors, h k (by omega), suffixes_of_none (expect_ne (by decide) _)]
    simp [expect_self, hmore k (by omega)]

theorem FindsFactors.append (h : FindsFactors us ts) (h' : FindsFactors us' ts') :
    FindsFactors (us ++ us') (ts ++ .mark '&' :: ts') where
  last := by
    intro n hn rest hrest
    rw [List.length_append, List.length_cons] at hn
    rw [List.append_assoc, List.cons_append]
    exact h.more (4 * ts'.length) _ _ _ (fun n hn => h'.last n (by omega) rest hrest) n (by omega)
  more := by
    intro m rest us'' rest' hmore n hn
    rw [List.length_append, List.length_cons] at hn
    rw [List.append_assoc, List.cons_append, List.append_assoc]
    exact h.more (4 * ts'.length + m) _ _ _ (h'.more m rest us'' rest' hmore) n (by omega)

theorem FindsFactors.alternative (h : FindsFactors us ts) (hpos : 0 < ts.length) :
    FindsAlternatives [.ofFactors us] ts where
  last := by
    intro n hn rest hrest
    obtain ⟨k, rfl⟩ : ∃ k, n = k + 1 := ⟨n - 1, by omega⟩
    rw [alternatives, h.last k (by omega) rest hrest.toEndsFactors]
    simp [hrest.alternative]
  more := by
    intro m rest us' rest' hmore n hn
    obtain ⟨k, rfl⟩ : ∃ k, n = k + 1 := ⟨n - 1, by omega⟩
    have hends : EndsFactors (.mark '|' :: rest) :=
      ⟨expect_ne (by decide) _, expect_ne (by decide) _⟩
    rw [alternatives, h.last k (by omega) _ hends]
    simp [expect_self, hmore k (by omega)]

theorem FindsAlternatives.append (h : FindsAlternatives us ts) (h' : FindsAlternatives us' ts') :
    FindsAlternatives (us ++ us') (ts ++ .mark '|' :: ts') where
  last := by
    intro n hn rest hrest
    rw [List.length_append, List.length_cons] at hn
    rw [List.append_assoc, List.cons_append]
    exact h.more (4 * ts'.length) _ _ _ (fun n hn => h'.last n (by omega) rest hrest) n (by omega)
  more := by
    intro m rest us'' rest' hmore n hn
    rw [List.length_append, List.length_cons] at hn
    rw [List.append_assoc, List.cons_append, List.append_assoc]
    exact h.more (4 * ts'.length + m) _ _ _ (h'.more m rest us'' rest' hmore) n (by omega)

theorem FindsAlternatives.parentheses (h : FindsAlternatives us ts) :
    FindsOperand (.ofAlternatives us) (.mark '(' :: (ts ++ [.mark ')'])) := by
  intro n hn rest
  simp only [List.length_cons, List.length_append, List.length_nil] at hn
  obtain ⟨k, rfl⟩ : ∃ k, n = k + 1 := ⟨n - 1, by omega⟩
  have hinside := h.last k (by omega) (.mark ')' :: rest) (endsType_mark (by decide) rest)
  rw [List.cons_append, List.append_assoc, List.singleton_append, operand]
  simp [hinside, expect_self]

theorem FindsMembers.object (h : FindsMembers ps index ts)
    (hopen : ∀ rest, expect (.mark '\x7d') (ts ++ rest) = none) :
    FindsOperand (.object ps index) (.mark '\x7b' :: (ts ++ [.mark '\x7d'])) := by
  intro n hn rest
  simp only [List.length_cons, List.length_append, List.length_nil] at hn
  obtain ⟨k, rfl⟩ : ∃ k, n = k + 1 := ⟨n - 1, by omega⟩
  rw [List.cons_append, List.append_assoc, List.singleton_append, operand]
  simp [h k (by omega), hopen]

theorem FindsAlternatives.property (h : FindsAlternatives us ts) {key : Token} {name : String}
    (hkey : key.key? = some name) (optional : Bool) :
    FindsProperty ⟨name, optional, .ofAlternatives us⟩
      (key :: ((if optional then [.mark '?'] else []) ++ .mark ':' :: ts)) := by
  intro n hn rest hrest
  simp only [List.length_cons, List.length_append] at hn
  obtain ⟨k, rfl⟩ : ∃ k, n = k + 1 := ⟨n - 1, by omega⟩
  have htype := h.last k (by omega) rest hrest
  cases optional with
  | false => simp [Reader.property, hkey, expect_self, expect_ne, htype]
  | true => simp [Reader.property, hkey, expect_self, htype]

end

theorem expect_mark_key {key : Token} {name : String} (h : key.key? = some name) (c : Char)
    (ts : List Token) : expect (.mark c) (key :: ts) = none := by
  refine expect_ne ?_ ts
  rintro rfl
  cases h

/-- The members of an object do not begin with the brace that closes it. -/
theorem Derives.not_closed {ps : List (WrittenProperty WrittenType)} {index : Option WrittenType}
    {ts : List Token} (h : Derives (.members ps index) ts) (rest : List Token) :
    expect (.mark '\x7d') (ts ++ rest) = none := by
  cases h with
  | lastProperty first =>
      obtain ⟨key, more, rfl, hkey⟩ := first.property_cons
      exact expect_mark_key hkey _ _
  | members first second =>
      obtain ⟨key, more, rfl, hkey⟩ := first.property_cons
      exact expect_mark_key hkey _ _
  | index => exact expect_ne (by decide) _

theorem FindsProperty.last {p : WrittenProperty WrittenType} {key : Token} {name : String}
    {ts : List Token} (h : FindsProperty p (key :: ts)) (hkey : key.key? = some name) :
    FindsMembers [p] none (key :: ts) := by
  intro n hn rest
  obtain ⟨k, rfl⟩ : ∃ k, n = k + 1 := ⟨n - 1, by simp at hn; omega⟩
  have hproperty := h k (by omega) (.mark '\x7d' :: rest) (endsType_mark (by decide) rest)
  rw [List.cons_append] at hproperty
  rw [members, List.cons_append, expect_mark_key hkey]
  simp [hproperty, expect_self, expect_ne]

theorem FindsProperty.members {p : WrittenProperty WrittenType}
    {ps : List (WrittenProperty WrittenType)} {index : Option WrittenType} {key : Token}
    {name : String} {ts ts' : List Token} (h : FindsProperty p (key :: ts))
    (hkey : key.key? = some name) (h' : FindsMembers ps index ts') :
    FindsMembers (p :: ps) index (key :: ts ++ .mark ';' :: ts') := by
  intro n hn rest
  simp only [List.length_append, List.length_cons] at hn
  obtain ⟨k, rfl⟩ : ∃ k, n = k + 1 := ⟨n - 1, by omega⟩
  have hproperty := h k (by simp only [List.length_cons]; omega)
    (.mark ';' :: (ts' ++ .mark '\x7d' :: rest)) (endsType_mark (by decide) _)
  rw [List.cons_append] at hproperty
  rw [Reader.members, List.append_assoc, List.cons_append, expect_mark_key hkey, List.cons_append]
  simp [hproperty, expect_self, h' k (by omega)]

theorem FindsAlternatives.index {us : List WrittenType} {ts : List Token}
    (h : FindsAlternatives us ts) :
    FindsMembers [] (some (.ofAlternatives us)) (indexHead ++ ts) := by
  intro n hn rest
  have hlength : (indexHead ++ ts).length = 6 + ts.length := by simp [indexHead]; omega
  obtain ⟨k, rfl⟩ : ∃ k, n = k + 1 := ⟨n - 1, by omega⟩
  have htype := h.last k (by omega) (.mark '\x7d' :: rest) (endsType_mark (by decide) rest)
  rw [members, List.append_assoc]
  simp [indexHead, expect_self, htype]

/-- Whatever the grammar derives, the parser finds. -/
theorem Derives.found {phrase : Phrase} {ts : List Token} (h : Derives phrase ts) :
    phrase.Found ts := by
  induction h with
  | word =>
      intro n hn rest
      obtain ⟨k, rfl⟩ : ∃ k, n = k + 1 := ⟨n - 1, by simp at hn; omega⟩
      rfl
  | negative =>
      intro n hn rest
      obtain ⟨k, rfl⟩ : ∃ k, n = k + 1 := ⟨n - 1, by simp at hn; omega⟩
      rfl
  | literal =>
      intro n hn rest
      obtain ⟨k, rfl⟩ : ∃ k, n = k + 1 := ⟨n - 1, by simp at hn; omega⟩
      rfl
  | emptyObject =>
      intro n hn rest
      obtain ⟨k, rfl⟩ : ∃ k, n = k + 1 := ⟨n - 1, by simp at hn; omega⟩
      rfl
  | array _ ih => exact FindsOperand.array ih
  | parentheses _ ih => exact FindsAlternatives.parentheses ih
  | object inside ih => exact FindsMembers.object ih inside.not_closed
  | factor one ih => exact FindsOperand.factor ih one.length_pos
  | factors _ _ ih ih' => exact FindsFactors.append ih ih'
  | alternative one ih => exact FindsFactors.alternative ih one.length_pos
  | alternatives _ _ ih ih' => exact FindsAlternatives.append ih ih'
  | property named _ ih => exact FindsAlternatives.property ih named _
  | lastProperty one ih =>
      obtain ⟨key, more, rfl, hkey⟩ := one.property_cons
      exact FindsProperty.last ih hkey
  | index _ ih => exact FindsAlternatives.index ih
  | members first _ ih ih' =>
      obtain ⟨key, more, rfl, hkey⟩ := first.property_cons
      exact FindsProperty.members ih hkey ih'

/-- A text that is scanned into the tokens of some alternatives is read as their union. -/
theorem read_eq {text : String} {ts : List Token} {us : List WrittenType}
    (hscan : scan .between text.toList = some ts) (h : Derives (.alternatives us) ts) :
    read text = some (.ofAlternatives us) := by
  have hfound : FindsAlternatives us ts := h.found
  have hall := hfound.last (4 * ts.length) (Nat.le_refl _) [] endsType_nil
  rw [List.append_nil] at hall
  simp [read, hscan, hall]

example : read "A & (B | -1)[]" =
    some (.intersection [.named "A", .array (.union [.named "B", .number true "1"])]) := by
  cbv

end Reader

end SwaggerTypes
