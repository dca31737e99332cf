import SwaggerTypes.Decimal.Shortest
import SwaggerTypes.Proofs.Pointers
import SwaggerTypes.Schema.Node
/-!
# Numerals

A finite number is written with digits and at most points among them, a digit first, and a minus sign in
front where it is negative. An infinity or a NaN is written as a word.
-/

namespace SwaggerTypes

/-- Whether a listed value is written with digits, if it is a number. -/
def Literal.isFinite : Literal → Bool
  | float d => d.isFinite
  | _ => true

namespace Decimal

def isNumeralChar (c : Char) : Bool := c.isDigit || c = '.'

theorem isNumeralChar_of_isDigit {c : Char} (h : c.isDigit = true) : isNumeralChar c = true := by
  simp [isNumeralChar, h]

structure IsNumeral (cs : List Char) : Prop where
  chars : ∀ c ∈ cs, isNumeralChar c = true
  start : ∃ c ∈ cs.head?, c.isDigit = true

theorem IsNumeral.of_digits {cs : List Char} (hne : cs ≠ []) (h : ∀ c ∈ cs, c.isDigit = true) :
    IsNumeral cs where
  chars := fun c hc => isNumeralChar_of_isDigit (h c hc)
  start := by
    obtain ⟨c, rest, rfl⟩ := List.exists_cons_of_ne_nil hne
    exact ⟨c, rfl, h c List.mem_cons_self⟩

theorem IsNumeral.pointed {whole fraction : List Char} (hne : whole ≠ [])
    (hwhole : ∀ c ∈ whole, c.isDigit = true) (hfraction : ∀ c ∈ fraction, c.isDigit = true) :
    IsNumeral (whole ++ '.' :: fraction) where
  chars := by
    intro c hc
    rcases List.mem_append.mp hc with hc | hc
    · exact isNumeralChar_of_isDigit (hwhole c hc)
    · rcases List.mem_cons.mp hc with rfl | hc
      · rfl
      · exact isNumeralChar_of_isDigit (hfraction c hc)
  start := by
    obtain ⟨c, rest, rfl⟩ := List.exists_cons_of_ne_nil hne
    exact ⟨c, rfl, hwhole c List.mem_cons_self⟩

theorem isNumeral_toString (n : Nat) : IsNumeral (toString n).toList := by
  have hlist : (toString n).toList = Nat.toDigits 10 n := by simp
  exact .of_digits (hlist ▸ Nat.toDigits_ne_nil) fun c hc => Pointer.isDigit_of_mem_toString hc

theorem toList_toString_int (n : Int) :
    ∃ cs, IsNumeral cs ∧ (toString n).toList = (if n < 0 then ['-'] else []) ++ cs := by
  cases n with
  | ofNat k => exact ⟨_, isNumeral_toString k, rfl⟩
  | negSucc k =>
      have htext : toString (Int.negSucc k) = "-" ++ toString (k + 1) := rfl
      refine ⟨_, isNumeral_toString (k + 1), ?_⟩
      rw [if_pos (Int.negSucc_lt_zero k), htext, String.toList_append]
      rfl

theorem Digits.isNumeral_positional {d : Digits} (h : ∀ c ∈ d.digits, c.isDigit = true) :
    IsNumeral d.positional.toList := by
  have hzeros : ∀ (n : Nat) (c : Char), c ∈ List.replicate n '0' → c.isDigit = true :=
    fun n c hc => (List.mem_replicate.mp hc).2 ▸ rfl
  unfold positional
  rw [String.toList_ofList]
  split
  · have hfraction : ∀ c ∈ List.replicate (-d.point).toNat '0' ++ d.digits, c.isDigit = true := by
      intro c hc
      rcases List.mem_append.mp hc with hc | hc
      · exact hzeros _ c hc
      · exact h c hc
    have hzero : ∀ c ∈ ['0'], c.isDigit = true := List.forall_mem_singleton.mpr rfl
    exact .pointed (List.cons_ne_nil _ _) hzero hfraction
  · next hpoint =>
    split
    · refine .of_digits (fun hnil => ?_) fun c hc => ?_
      · obtain ⟨hdigits, hzero⟩ := List.append_eq_nil_iff.mp hnil
        rw [List.replicate_eq_nil_iff, hdigits, List.length_nil] at hzero
        omega
      · rcases List.mem_append.mp hc with hc | hc
        · exact h c hc
        · exact hzeros _ c hc
    · next hsize =>
      refine .pointed (fun hnil => ?_) (fun c hc => h c (List.mem_of_mem_take hc))
        fun c hc => h c (List.mem_of_mem_drop hc)
      rcases List.take_eq_nil_iff.mp hnil with hzero | hdigits
      · omega
      · simp only [hdigits, List.length_nil] at hsize
        omega

namespace Double

theorem isDigit_of_mem_shortest {tie : Tie} {d : Double} {c : Char}
    (h : c ∈ (d.shortest tie).digits) : c.isDigit = true := by
  simp only [shortest] at h
  cases hhit : (List.range 17).findSome? fun (n : Nat) =>
      (d.onGrid tie (d.decimalOrder - n)).map fun c => digitsOf c (d.decimalOrder - n) with
  | none =>
      rw [hhit] at h
      exact List.mem_singleton.mp h ▸ rfl
  | some digits =>
      rw [hhit] at h
      obtain ⟨n, -, hn⟩ := List.exists_of_findSome?_eq_some hhit
      obtain ⟨k, -, rfl⟩ := Option.map_eq_some_iff.mp hn
      have hstripped : c ∈ (Nat.toDigits 10 k).reverse.dropWhile (· = '0') := List.mem_reverse.mp h
      have hdigit := List.mem_reverse.mp ((List.dropWhile_sublist _).subset hstripped)
      exact Nat.isDigit_of_mem_toDigits (by decide) (by decide) hdigit

theorem isNaN_of_isFinite {d : Double} (h : d.isFinite = true) : d.isNaN = false := by
  simp only [isFinite, isNaN, decide_eq_true_eq, decide_eq_false_iff_not] at h ⊢
  omega

theorem isInfinite_of_isFinite {d : Double} (h : d.isFinite = true) : d.isInfinite = false := by
  simp only [isFinite, isInfinite, decide_eq_true_eq, decide_eq_false_iff_not] at h ⊢
  omega

theorem plainText_eq {d : Double} (h : d.isFinite = true) : d.plainText =
    d.sign ++ if d.magnitude.val = 0 then "0" else (d.shortest .up).positional := by
  unfold plainText
  rw [isNaN_of_isFinite h, isInfinite_of_isFinite h, apply_ite (d.sign ++ ·)]
  rfl

/-- The text of a finite number: a numeral, with a sign where it is negative. -/
theorem plainText_of_isFinite {d : Double} (h : d.isFinite = true) :
    ∃ cs, IsNumeral cs ∧ d.plainText.toList = d.sign.toList ++ cs := by
  rw [plainText_eq h, String.toList_append]
  refine ⟨_, ?_, rfl⟩
  split
  · exact .of_digits (List.cons_ne_nil _ _) (List.forall_mem_singleton.mpr rfl)
  · exact Digits.isNumeral_positional fun c hc => isDigit_of_mem_shortest hc

end Double

end Decimal

end SwaggerTypes
