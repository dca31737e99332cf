import SwaggerTypes.Proofs.SanitizedNames
/-!
# Identifier characters

What sanitizing keeps of a key is made of identifier characters, but it upper-cases the first one behind
a dropped run after it has decided to keep it. Some letters upper-case to a letter with a combining mark,
and the mark is no identifier character: it stays in the name, and sanitizing the name drops it. A digit
of ASCII at the beginning is moved behind an underscore; any other numeral stays in front.
-/

namespace SwaggerTypes.Text

theorem isIdentifierChar_of_isAlphabetic {c : Char} (h : isAlphabetic c = true) :
    isIdentifierChar c = true := by
  simp [isIdentifierChar, h]

/-! ## Upper-casing -/

/-- The first character of the upper case of an identifier character is one itself. -/
theorem isIdentifierChar_head_uppercase {c u : Char} {us : List Char} (hc : isIdentifierChar c = true)
    (h : uppercase c = u :: us) : isIdentifierChar u = true := by
  rcases uppercase_cases c with hself | ⟨v, vs, heq, hv, -⟩
  · rw [hself, List.cons.injEq] at h
    exact h.1 ▸ hc
  · rw [heq, List.cons.injEq] at h
    exact h.1 ▸ isIdentifierChar_of_isAlphabetic hv

theorem uppercase_ne_nil (c : Char) : uppercase c ≠ [] := by
  rcases uppercase_cases c with hself | ⟨u, us, heq, -, -⟩
  · exact hself ▸ List.cons_ne_nil _ _
  · exact heq ▸ List.cons_ne_nil _ _

theorem markedLetters_marked : ∀ c ∈ markedLetters,
    isIdentifierChar c = true ∧ (uppercase c).all isIdentifierChar = false := by
  have hall : (markedLetters.all fun c =>
      isIdentifierChar c && !(uppercase c).all isIdentifierChar) = true := by decide +kernel
  intro c hc
  simpa using List.all_eq_true.mp hall c hc

/-- The marked letters are those whose upper case has something else than identifier characters. -/
theorem mem_markedLetters_iff {c : Char} (hc : isIdentifierChar c = true) :
    c ∈ markedLetters ↔ ∃ u ∈ uppercase c, isIdentifierChar u = false := by
  constructor
  · intro hmarked
    have hall := (markedLetters_marked c hmarked).2
    simpa [List.all_eq_false] using hall
  · rintro ⟨u, hu, hno⟩
    rcases uppercase_cases c with hself | ⟨v, vs, heq, hv, hmarked | hvs⟩
    · rw [hself, List.mem_singleton] at hu
      rw [hu, hc] at hno
      cases hno
    · exact hmarked
    · rw [heq, List.mem_cons] at hu
      have halpha : isAlphabetic u = true := by
        rcases hu with rfl | hu
        · exact hv
        · exact hvs u hu
      rw [isIdentifierChar_of_isAlphabetic halpha] at hno
      cases hno

/-! ## The characters that are kept -/

/-- Behind these characters the next one that is kept is upper-cased: something has been kept, and the
last one was dropped. -/
def isDue (before : List Char) : Bool :=
  before.any isIdentifierChar && !before.getLast?.any isIdentifierChar

theorem isDue_concat (before : List Char) (c : Char) :
    isDue (before ++ [c]) = (before.any isIdentifierChar && !isIdentifierChar c) := by
  cases hc : isIdentifierChar c <;> simp [isDue, hc]

theorem isDue_or_any (before : List Char) :
    (isDue before || before.any isIdentifierChar) = before.any isIdentifierChar := by
  cases h : before.any isIdentifierChar <;> simp [isDue, h]

/-- What comes of the characters behind others: each identifier character as it is, or upper-cased where
that is due. -/
theorem mem_identifierChars {u : Char} (before cs : List Char) :
    u ∈ identifierChars (before.any isIdentifierChar) (isDue before) cs ↔
      ∃ between c after, cs = between ++ c :: after ∧ isIdentifierChar c = true ∧
        u ∈ if isDue (before ++ between) then uppercase c else [c] := by
  induction cs generalizing before with
  | nil => simp [identifierChars]
  | cons d cs ih =>
      have hrest := ih (before ++ [d])
      rw [isDue_concat, List.any_append, List.any_cons, List.any_nil, Bool.or_false] at hrest
      have hsplit : (∃ between c after, d :: cs = between ++ c :: after ∧ isIdentifierChar c = true ∧
            u ∈ if isDue (before ++ between) then uppercase c else [c]) ↔
          (isIdentifierChar d = true ∧ u ∈ if isDue before then uppercase d else [d]) ∨
            ∃ between c after, cs = between ++ c :: after ∧ isIdentifierChar c = true ∧
              u ∈ if isDue (before ++ [d] ++ between) then uppercase c else [c] := by
        constructor
        · rintro ⟨_ | ⟨e, between⟩, c, after, heq, hc, hu⟩
          · obtain ⟨rfl, rfl⟩ := List.cons.inj heq
            exact .inl ⟨hc, by simpa using hu⟩
          · obtain ⟨rfl, rfl⟩ := List.cons.inj heq
            exact .inr ⟨between, c, after, rfl, hc, by simpa using hu⟩
        · rintro (⟨hd, hu⟩ | ⟨between, c, after, rfl, hc, hu⟩)
          · exact ⟨[], d, cs, rfl, hd, by simpa using hu⟩
          · exact ⟨d :: between, c, after, rfl, hc, by simpa using hu⟩
      rw [hsplit, ← hrest]
      cases hd : isIdentifierChar d
      · simp [identifierChars, hd, isDue_or_any]
      · simp [identifierChars, hd]

theorem head?_identifierChars (cs : List Char) :
    (identifierChars false false cs).head? = cs.find? isIdentifierChar := by
  induction cs with
  | nil => rfl
  | cons c cs ih =>
      cases hc : isIdentifierChar c
      · simpa [identifierChars, hc] using ih
      · simp [identifierChars, hc]

theorem isIdentifierChar_of_head {started upper : Bool} {cs us : List Char} {u : Char}
    (h : identifierChars started upper cs = u :: us) : isIdentifierChar u = true := by
  induction cs generalizing started upper with
  | nil => cases h
  | cons c cs ih =>
      unfold identifierChars at h
      split at h
      · next hc =>
        cases hup : upper
        · simp only [hup, Bool.false_eq_true, if_false, List.singleton_append, List.cons.injEq] at h
          exact h.1 ▸ hc
        · obtain ⟨v, vs, heq⟩ := List.exists_cons_of_ne_nil (uppercase_ne_nil c)
          simp only [hup, if_true, heq, List.cons_append, List.cons.injEq] at h
          exact h.1 ▸ isIdentifierChar_head_uppercase hc heq
      · exact ih h

/-- Keeping the identifier characters changes nothing exactly where there are no others. -/
theorem identifierChars_eq_self_iff {started : Bool} {cs : List Char} :
    identifierChars started false cs = cs ↔ ∀ c ∈ cs, isIdentifierChar c = true := by
  induction cs generalizing started with
  | nil => simp [identifierChars]
  | cons c cs ih =>
      rw [List.forall_mem_cons]
      cases hc : isIdentifierChar c
      · simp only [Bool.false_eq_true, false_and, iff_false]
        intro h
        rw [identifierChars, hc, if_neg Bool.false_ne_true] at h
        have hkept := isIdentifierChar_of_head h
        rw [hc] at hkept
        cases hkept
      · simpa [identifierChars, hc] using ih

/-! ## Sanitized names -/

def IsRaised (key : String) (c : Char) : Prop :=
  ∃ before after, key.toList = before ++ c :: after ∧ isDue before = true

theorem sanitize_cases (key : String) :
    (identifierChars false false key.toList = [] ∧ sanitize key = "_empty") ∨
    ∃ c cs, identifierChars false false key.toList = c :: cs ∧
      (((c.isDigit = true ∨ isReserved (String.ofList (c :: cs)) = true) ∧
          sanitize key = "_" ++ String.ofList (c :: cs)) ∨
        (c.isDigit = false ∧ isReserved (String.ofList (c :: cs)) = false ∧
          sanitize key = String.ofList (c :: cs))) := by
  simp only [sanitize]
  split
  · next heq => exact .inl ⟨heq, rfl⟩
  · next c cs heq =>
    refine .inr ⟨c, cs, heq, ?_⟩
    rw [heq]
    split
    · next h => exact .inl ⟨Bool.or_eq_true_iff.mp h, rfl⟩
    · next h =>
      obtain ⟨hdigit, hreserved⟩ := not_or.mp (mt Bool.or_eq_true_iff.mpr h)
      exact .inr ⟨Bool.eq_false_iff.mpr hdigit, Bool.eq_false_iff.mpr hreserved, rfl⟩

/-- A name has nothing but identifier characters exactly when this holds of what is kept of its key. -/
theorem all_sanitize_iff (key : String) :
    (∀ c ∈ (sanitize key).toList, isIdentifierChar c = true) ↔
      ∀ c ∈ identifierChars false false key.toList, isIdentifierChar c = true := by
  have hunderscore : isIdentifierChar '_' = true := by decide +kernel
  rcases sanitize_cases key with ⟨hnil, heq⟩ | ⟨c, cs, hkept, ⟨-, heq⟩ | ⟨-, -, heq⟩⟩
  · have hempty : ("_empty".toList.all isIdentifierChar) = true := by decide +kernel
    simpa [hnil, heq] using hempty
  · simp [hkept, heq, String.toList_append, hunderscore]
  · simp [hkept, heq]

/-- All that is kept are identifier characters unless a marked letter is upper-cased. -/
theorem all_identifierChars_iff (key : String) :
    (∀ c ∈ identifierChars false false key.toList, isIdentifierChar c = true) ↔
      ∀ c ∈ markedLetters, ¬ IsRaised key c := by
  have hmem := fun u => mem_identifierChars (u := u) [] key.toList
  simp only [List.any_nil, List.nil_append] at hmem
  constructor
  · rintro hall c hmarked ⟨before, after, heq, hdue⟩
    have hc := (markedLetters_marked c hmarked).1
    obtain ⟨u, hu, hno⟩ := (mem_markedLetters_iff hc).mp hmarked
    have hkept := hall u ((hmem u).mpr ⟨before, c, after, heq, hc, by rwa [if_pos hdue]⟩)
    rw [hno] at hkept
    cases hkept
  · intro hnone u hu
    obtain ⟨before, c, after, heq, hc, hu⟩ := (hmem u).mp hu
    by_cases hdue : isDue before = true
    · rw [if_pos hdue] at hu
      by_contra hno
      exact hnone c ((mem_markedLetters_iff hc).mpr ⟨u, hu, Bool.eq_false_iff.mpr hno⟩)
        ⟨before, after, heq, hdue⟩
    · rw [if_neg hdue, List.mem_singleton] at hu
      exact hu ▸ hc

theorem sanitize_eq_self {name : String} (hname : IsName name)
    (h : ∀ c ∈ name.toList, isIdentifierChar c = true) : sanitize name = name := by
  obtain ⟨c, cs, heq, hdigit⟩ := hname.start
  have hkept : identifierChars false false name.toList = name.toList :=
    identifierChars_eq_self_iff.mpr h
  have hself : String.ofList (c :: cs) = name := by rw [← heq, String.ofList_toList]
  rcases sanitize_cases name with ⟨hnil, -⟩ | ⟨d, ds, hds, hcase⟩
  · rw [hkept, heq] at hnil
    cases hnil
  · rw [hkept, heq] at hds
    obtain ⟨rfl, rfl⟩ := List.cons.inj hds
    rw [hself] at hcase
    rcases hcase with ⟨hd | hd, -⟩ | ⟨-, -, hname⟩
    · rw [hdigit] at hd
      cases hd
    · rw [hname.unreserved] at hd
      cases hd
    · exact hname

/-- Sanitizing leaves only names alone that are made of identifier characters. -/
theorem all_of_sanitize_eq_self {name : String} (h : sanitize name = name) :
    ∀ c ∈ name.toList, isIdentifierChar c = true := by
  have hfront : ∀ kept, name = "_" ++ kept →
      ∃ cs, identifierChars false false name.toList = '_' :: cs := by
    rintro kept rfl
    have hunderscore : isIdentifierChar '_' = true := by decide +kernel
    exact ⟨_, by rw [String.toList_append, show "_".toList = ['_'] from rfl, List.singleton_append,
      identifierChars, if_pos hunderscore, if_neg Bool.false_ne_true, List.singleton_append]⟩
  rcases sanitize_cases name with ⟨hnil, heq⟩ | ⟨c, cs, hkept, ⟨hcause, heq⟩ | ⟨-, -, heq⟩⟩
  · obtain ⟨cs, hcs⟩ := hfront "empty" (h.symm.trans heq)
    rw [hnil] at hcs
    cases hcs
  · obtain ⟨ds, hds⟩ := hfront _ (h.symm.trans heq)
    rw [hkept] at hds
    obtain ⟨rfl, rfl⟩ := List.cons.inj hds
    rcases hcause with hdigit | hreserved
    · cases hdigit
    · have hfree := isReserved_underscore (String.ofList cs)
      have hsame : "_" ++ String.ofList cs = String.ofList ('_' :: cs) := by
        rw [← String.toList_inj]
        simp
      rw [hsame, hreserved] at hfree
      cases hfree
  · have hself : name.toList = c :: cs := by rw [← h, heq, String.toList_ofList]
    exact identifierChars_eq_self_iff.mp (hkept.trans hself.symm)

theorem isNumeric_head_reserved {c : Char} {cs : List Char}
    (h : isReserved (String.ofList (c :: cs)) = true) : isNumeric c = false := by
  have hwords : (usedWords.all fun word => !word.toList.head?.any isNumeric) = true := by
    decide +kernel
  simpa using List.all_eq_true.mp hwords _ (isReserved_iff.mp h)

/-- The first character of a name is a numeral exactly when the first identifier character of its key is
one that is not among the ten digits of ASCII. -/
theorem head?_sanitize (key : String) : ∃ c cs, (sanitize key).toList = c :: cs ∧
    (isNumeric c = true ↔
      ∃ d, key.toList.find? isIdentifierChar = some d ∧ isNumeric d = true ∧ d.isDigit = false) := by
  have hunderscore : isNumeric '_' = false := by decide +kernel
  have hhead := head?_identifierChars key.toList
  rcases sanitize_cases key with ⟨hnil, heq⟩ | ⟨c, cs, hkept, ⟨hcause, heq⟩ | ⟨hdigit, -, heq⟩⟩
  · refine ⟨'_', "empty".toList, by rw [heq]; rfl, ?_⟩
    rw [hnil, List.head?_nil] at hhead
    simp [← hhead, hunderscore]
  · refine ⟨'_', c :: cs, by rw [heq]; simp, ?_⟩
    rw [hkept, List.head?_cons] at hhead
    rw [← hhead, hunderscore]
    constructor
    · exact nofun
    · rintro ⟨d, hd, hnumeric, hplain⟩
      obtain rfl := Option.some.inj hd
      rcases hcause with hdigit | hreserved
      · rw [hplain] at hdigit
        cases hdigit
      · rw [isNumeric_head_reserved hreserved] at hnumeric
        cases hnumeric
  · refine ⟨c, cs, by rw [heq, String.toList_ofList], ?_⟩
    rw [hkept, List.head?_cons] at hhead
    rw [← hhead]
    constructor
    · exact fun hnumeric => ⟨c, rfl, hnumeric, hdigit⟩
    · rintro ⟨d, hd, hnumeric, -⟩
      exact Option.some.inj hd ▸ hnumeric

/-- Sanitized names. All their characters are identifier characters exactly when no marked letter of the
key is upper-cased, which is also when sanitizing the name again leaves it as it is. The first character
is a numeral exactly when the first identifier character of the key is a numeral beyond ASCII. -/
theorem sanitize_characters (key : String) :
    ((∀ c ∈ (sanitize key).toList, isIdentifierChar c = true) ↔
      ∀ c ∈ markedLetters, ¬ IsRaised key c) ∧
    (∃ c cs, (sanitize key).toList = c :: cs ∧
      (isNumeric c = true ↔ ∃ d, key.toList.find? isIdentifierChar = some d ∧
        isNumeric d = true ∧ d.isDigit = false)) ∧
    (sanitize (sanitize key) = sanitize key ↔ ∀ c ∈ markedLetters, ¬ IsRaised key c) := by
  have hchars := (all_sanitize_iff key).trans (all_identifierChars_iff key)
  refine ⟨hchars, head?_sanitize key, ?_⟩
  rw [← hchars]
  exact ⟨all_of_sanitize_eq_self, sanitize_eq_self (isName_sanitize key)⟩

/-- A key that begins with a digit of another script keeps it in front; and one with a marked letter
behind a dropped character becomes a name with a combining mark, which is dropped when the name is
sanitized again. -/
theorem sanitize_oddKeys :
    sanitize "\u0663abc" = "\u0663abc" ∧ isNumeric '\u0663' = true ∧
      sanitize "a-\u01f0b" = "aJ\u030cb" ∧ isIdentifierChar '\u030c' = false ∧
      sanitize (sanitize "a-\u01f0b") = "aJB" := by
  decide +kernel

end SwaggerTypes.Text
