import SwaggerTypes.Proofs.Names
import SwaggerTypes.Proofs.Pointers
/-!
# Sanitized names

Any key of a document becomes a name that can be declared: what sanitizing leaves is a word that does
not begin with a digit and that the language does not use itself. A number behind such a name leaves it
one.
-/

namespace SwaggerTypes.Text

def isNameChar (c : Char) : Bool := isPlainChar c || 0x80 ≤ c.toNat

theorem isNameChar_of_isDigit {c : Char} (h : c.isDigit = true) : isNameChar c = true := by
  simp [isNameChar, isPlainChar, Char.isAlphanum, h]

theorem isNameChar_of_letter {c : Char} (h : isLetterOrBeyond c = true) : isNameChar c = true := by
  rcases Bool.or_eq_true_iff.mp h with h | h
  · simp [isNameChar, isPlainChar, Char.isAlphanum, h]
  · exact Bool.or_eq_true_iff.mpr (.inr h)

theorem isNameChar_of_isIdentifierChar {c : Char} (h : isIdentifierChar c = true) :
    isNameChar c = true := by
  rcases Nat.lt_or_ge c.toNat 0x80 with hlt | hge
  · have hascii : ∀ n < 0x80, isIdentifierChar (Char.ofNat n) = true →
        isNameChar (Char.ofNat n) = true := by decide +kernel
    have hc := hascii c.toNat hlt
    rw [Char.ofNat_toNat] at hc
    exact hc h
  · exact Bool.or_eq_true_iff.mpr (.inr (decide_eq_true hge))

theorem isNameChar_of_mem_identifierChars {started upper : Bool} {cs : List Char} {c : Char}
    (h : c ∈ identifierChars started upper cs) : isNameChar c = true := by
  induction cs generalizing started upper with
  | nil => cases h
  | cons d cs ih =>
      unfold identifierChars at h
      split at h
      · next hd =>
        have hd := isNameChar_of_isIdentifierChar hd
        rcases List.mem_append.mp h with h | h
        · split at h
          · rcases letter_of_mem_uppercase h with rfl | hletter
            · exact hd
            · exact isNameChar_of_letter hletter
          · exact List.mem_singleton.mp h ▸ hd
        · exact ih h
      · exact ih h

def usedWords : List String := reservedWords ++ builtinTypes

theorem isReserved_iff {name : String} : isReserved name = true ↔ name ∈ usedWords := by
  simp [isReserved, usedWords]

/-- A name that can be declared: it is a word, does not begin with a digit, and the language does not
use it itself. -/
structure IsName (name : String) : Prop where
  chars : ∀ c ∈ name.toList, isNameChar c = true
  start : ∃ c cs, name.toList = c :: cs ∧ c.isDigit = false
  unreserved : isReserved name = false

theorem IsName.ne_empty {name : String} (h : IsName name) : name ≠ "" := by
  rintro rfl
  obtain ⟨c, cs, heq, -⟩ := h.start
  cases heq

theorem isReserved_underscore (name : String) : isReserved ("_" ++ name) = false := by
  have hwords : ∀ word ∈ usedWords, word.toList.head? ≠ some '_' := by decide
  refine Bool.eq_false_iff.mpr fun h => hwords _ (isReserved_iff.mp h) ?_
  rw [String.toList_append]
  rfl

/-- No word of the language ends in a digit. -/
theorem isReserved_numbered (base : String) (n : Nat) :
    isReserved (base ++ toString n) = false := by
  have hwords : ∀ word ∈ usedWords, word.toList.getLast?.any Char.isDigit = false := by decide
  have hne : (toString n).toList ≠ [] := by
    have hlist : (toString n).toList = Nat.toDigits 10 n := by simp
    exact hlist ▸ Nat.toDigits_ne_nil
  refine Bool.eq_false_iff.mpr fun h => ?_
  have hlast : (base ++ toString n).toList.getLast? = some ((toString n).toList.getLast hne) := by
    rw [String.toList_append, List.getLast?_append, List.getLast?_eq_some_getLast hne]
    rfl
  have hdigit := Pointer.isDigit_of_mem_toString (List.getLast_mem hne)
  have hany := hwords _ (isReserved_iff.mp h)
  rw [hlast, Option.any_some, hdigit] at hany
  cases hany

theorem IsName.underscore {name : String} (h : ∀ c ∈ name.toList, isNameChar c = true) :
    IsName ("_" ++ name) where
  chars := by
    rw [String.toList_append]
    intro c hc
    rcases List.mem_append.mp hc with hc | hc
    · obtain rfl : c = '_' := List.mem_singleton.mp hc
      decide
    · exact h c hc
  start := ⟨'_', name.toList, String.toList_append .., by decide⟩
  unreserved := isReserved_underscore name

theorem isName_sanitize (key : String) : IsName (sanitize key) := by
  have hchars : ∀ c ∈ identifierChars false false key.toList, isNameChar c = true :=
    fun c hc => isNameChar_of_mem_identifierChars hc
  simp only [sanitize]
  split
  · exact ⟨List.all_eq_true.mp (by decide), ⟨'_', "empty".toList, by decide, by decide⟩, by decide⟩
  · next c cs heq =>
    rw [heq] at hchars ⊢
    split
    · exact .underscore (by simpa using hchars)
    · next hplain =>
      obtain ⟨hdigit, hreserved⟩ := not_or.mp (mt Bool.or_eq_true_iff.mpr hplain)
      exact ⟨by simpa using hchars, ⟨c, cs, by simp, Bool.eq_false_iff.mpr hdigit⟩,
        Bool.eq_false_iff.mpr hreserved⟩

theorem IsName.numbered {base : String} (h : IsName base) (n : Nat) :
    IsName (base ++ toString n) where
  chars := by
    rw [String.toList_append]
    intro c hc
    rcases List.mem_append.mp hc with hc | hc
    · exact h.chars c hc
    · exact isNameChar_of_isDigit (Pointer.isDigit_of_mem_toString hc)
  start := by
    obtain ⟨c, cs, heq, hc⟩ := h.start
    exact ⟨c, cs ++ (toString n).toList, by rw [String.toList_append, heq]; rfl, hc⟩
  unreserved := isReserved_numbered base n

end SwaggerTypes.Text

namespace SwaggerTypes

open Text (IsName)

theorem Operation.isName_queryName (op : Operation) : IsName op.queryName := Text.isName_sanitize _

end SwaggerTypes
