import SwaggerTypes.Proofs.TypeGrammar
import SwaggerTypes.Proofs.TypeTexts
/-!
# Scanning types

What the scanner makes of the pieces that types are written with, whatever comes behind them: names,
numerals, marks and blanks, and quoted texts, which end at their closing quote whatever they hold.
-/

namespace SwaggerTypes.Reader

/-- What comes next does not go on with a word. -/
def Apart (rest : List Char) : Prop := ∀ c ∈ rest.head?, ∀ kind : Word, kind.goesOn c = false

def Scans (cs : List Char) (ts : List Token) : Prop :=
  ∀ rest more, Apart rest → scan .between rest = some more →
    scan .between (cs ++ rest) = some (ts ++ more)

theorem apart_cons {c : Char} (h : ∀ kind : Word, kind.goesOn c = false) (cs : List Char) :
    Apart (c :: cs) := by
  intro d hd
  exact Option.some.inj hd ▸ h

theorem goesOn_of_mem {c : Char} (h : c ∈ [' ', ')', '[', ']', ':', ';', '?']) (kind : Word) :
    kind.goesOn c = false := by
  have hall : [' ', ')', '[', ']', ':', ';', '?'].all (fun c => !kind.goesOn c) = true := by
    cases kind <;> decide
  simpa using List.all_eq_true.mp hall c h

theorem scan_between_cons (c : Char) (cs : List Char) :
    scan .between (c :: cs) = (scan (begin? c).1 cs).map ((begin? c).2 ++ ·) := by
  rw [scan]

theorem Scans.nil : Scans [] [] := fun _ _ _ h => h

theorem Scans.mark {c : Char} {cs : List Char} {ts : List Token}
    (hc : begin? c = (.between, [.mark c])) (h : Scans cs ts) : Scans (c :: cs) (.mark c :: ts) := by
  intro rest more hrest hmore
  rw [List.cons_append, scan_between_cons, hc, h rest more hrest hmore]
  rfl

theorem Scans.blank {cs : List Char} {ts : List Token} (h : Scans cs ts) : Scans (' ' :: cs) ts := by
  intro rest more hrest hmore
  have hblank : begin? ' ' = (.between, []) := rfl
  rw [List.cons_append, scan_between_cons, hblank, h rest more hrest hmore]
  rfl

/-- Two texts, the second beginning with something that is no part of a word. -/
theorem Scans.append {cs cs' : List Char} {c : Char} {ts ts' : List Token} (h : Scans cs ts)
    (hc : ∀ kind : Word, kind.goesOn c = false) (h' : Scans (c :: cs') ts') :
    Scans (cs ++ c :: cs') (ts ++ ts') := by
  intro rest more hrest hmore
  rw [List.append_assoc, List.append_assoc]
  exact h _ _ (apart_cons hc _) (h' rest more hrest hmore)

theorem scan_word {kind : Word} {w rest : List Char} {more : List Token}
    (hw : ∀ c ∈ w, kind.goesOn c = true) (hrest : Apart rest) (h : scan .between rest = some more) :
    ∀ kept, scan (.word kind kept) (w ++ rest) =
      some (.word kind (String.ofList (kept ++ w)) :: more) := by
  induction w with
  | nil =>
      intro kept
      rw [List.append_nil, List.nil_append]
      cases rest with
      | nil =>
          obtain rfl : [] = more := by simpa [scan] using h
          simp [scan]
      | cons c cs =>
          rw [scan_between_cons] at h
          obtain ⟨ts, hts, rfl⟩ := Option.map_eq_some_iff.mp h
          rw [scan, if_neg (by simp [hrest c rfl kind]), hts]
          rfl
  | cons c w ih =>
      intro kept
      obtain ⟨hc, hw⟩ := List.forall_mem_cons.mp hw
      rw [List.cons_append, scan, if_pos hc, ih hw, List.append_assoc]
      rfl

theorem scans_word {kind : Word} {c : Char} {w : List Char}
    (hc : begin? c = (.word kind [c], [])) (hw : ∀ d ∈ w, kind.goesOn d = true) :
    Scans (c :: w) [.word kind (String.ofList (c :: w))] := by
  intro rest more hrest hmore
  rw [List.cons_append, scan_between_cons, hc, scan_word hw hrest hmore]
  rfl

theorem scans_name {name : String} (hchars : ∀ c ∈ name.toList, Text.isNameChar c = true)
    (hstart : ∃ c cs, name.toList = c :: cs ∧ c.isDigit = false) :
    Scans name.toList [.word .name name] := by
  obtain ⟨c, cs, heq, hdigit⟩ := hstart
  rw [heq] at hchars
  obtain ⟨hc, hcs⟩ := List.forall_mem_cons.mp hchars
  have hblank : c ≠ ' ' := by rintro rfl; exact absurd hc (by decide)
  have hquote : c ≠ '"' := by rintro rfl; exact absurd hc (by decide)
  have hbegin : begin? c = (.word .name [c], []) := by
    simp [begin?, hblank, hquote, hdigit, hc]
  have hscans := scans_word hbegin hcs
  rwa [← heq, String.ofList_toList] at hscans

theorem scans_numeral {cs : List Char} (h : Decimal.IsNumeral cs) :
    Scans cs [.word .numeral (String.ofList cs)] := by
  obtain ⟨c, hhead, hdigit⟩ := h.start
  obtain ⟨w, rfl⟩ : ∃ w, cs = c :: w := List.head?_eq_some_iff.mp hhead
  have hblank : c ≠ ' ' := by rintro rfl; exact absurd hdigit (by decide)
  have hquote : c ≠ '"' := by rintro rfl; exact absurd hdigit (by decide)
  have hbegin : begin? c = (.word .numeral [c], []) := by
    simp [begin?, hblank, hquote, hdigit]
  exact scans_word hbegin (List.forall_mem_cons.mp h.chars).2

/-! ### Quoted texts -/

theorem digitValue_hexDigit {n : Nat} (h : n < 16) :
    Decimal.digitValue 16 (Text.hexDigit n) = some n := by
  have hall : ∀ n < 16, Decimal.digitValue 16 (Text.hexDigit n) = some n := by decide
  exact hall n h

theorem scan_code {n : Nat} (h : n < 0x10000) (kept cs : List Char) :
    scan (.code kept 4 0) (Text.hexDigits 4 n ++ cs) =
      scan (.literal (kept ++ [Char.ofNat n])) cs := by
  have hdigits : Text.hexDigits 4 n =
      [Text.hexDigit (n / 16 / 16 / 16 % 16), Text.hexDigit (n / 16 / 16 % 16),
        Text.hexDigit (n / 16 % 16), Text.hexDigit (n % 16)] := rfl
  have hmod : ∀ k, k % 16 < 16 := fun k => Nat.mod_lt k (by decide)
  have hvalue : 16 * (16 * (16 * (16 * 0 + n / 16 / 16 / 16 % 16) + n / 16 / 16 % 16) + n / 16 % 16)
      + n % 16 = n := by omega
  rw [hdigits]
  simp only [List.cons_append, List.nil_append, scan, digitValue_hexDigit (hmod _), hvalue]

theorem scan_escapeChar (c : Char) (kept cs : List Char) :
    scan (.literal kept) (Text.escapeChar c ++ cs) = scan (.literal (kept ++ [c])) cs := by
  unfold Text.escapeChar
  split
  case h_6 hbackslash hquote _ _ _ =>
    split
    · next hcontrol =>
      have hlt : c.toNat < 0x10000 := by
        simp only [Text.isControl, Bool.or_eq_true, Bool.and_eq_true, decide_eq_true_eq] at hcontrol
        omega
      have hcode := scan_code hlt kept cs
      rw [Char.ofNat_toNat] at hcode
      rw [← hcode]
      rfl
    · rw [List.singleton_append, scan, if_neg hquote, if_neg hbackslash]
  all_goals rfl

theorem scan_escaped (cs rest : List Char) : ∀ kept,
    scan (.literal kept) (cs.flatMap Text.escapeChar ++ '"' :: rest) =
      (scan .between rest).map (.literal (String.ofList (kept ++ cs)) :: ·) := by
  induction cs with
  | nil =>
      intro kept
      rw [List.append_nil]
      rfl
  | cons c cs ih =>
      intro kept
      rw [List.flatMap_cons, List.append_assoc, scan_escapeChar, ih, List.append_assoc]
      rfl

/-- A quoted text is one token, whatever it holds. -/
theorem scans_quote (s : String) : Scans (Text.quote s).toList [.literal s] := by
  intro rest more _ hmore
  have hquote : (Text.quote s).toList = '"' :: (s.toList.flatMap Text.escapeChar ++ ['"']) := by
    simp [Text.quote, Text.escape]
  have hbegin : begin? '"' = (.literal [], []) := rfl
  rw [hquote, List.cons_append, List.append_assoc, scan_between_cons, hbegin]
  show (scan (.literal []) (s.toList.flatMap Text.escapeChar ++ '"' :: rest)).map _ = _
  rw [scan_escaped, hmore, List.nil_append, String.ofList_toList]
  rfl

/-! ### Keys -/

theorem isDigit_of_isPlainStart {c : Char} (h : Text.isPlainStart c = true) :
    c.isDigit = false := by
  refine Bool.eq_false_iff.mpr fun hdigit => ?_
  obtain ⟨hlow, hhigh⟩ : 48 ≤ c.toNat ∧ c.toNat ≤ 57 := by
    simp only [Char.isDigit, Bool.and_eq_true, decide_eq_true_eq] at hdigit
    exact ⟨hdigit.1, hdigit.2⟩
  have hdigits : ∀ n < 58, 48 ≤ n → Text.isPlainStart (Char.ofNat n) = false := by decide
  have hplain := hdigits c.toNat (Nat.lt_succ_of_le hhigh) hlow
  rw [Char.ofNat_toNat, h] at hplain
  cases hplain

/-- A name is a key wherever it is plain, and is quoted elsewhere. -/
theorem scans_key (name : String) :
    ∃ token, token.key? = some name ∧ Scans (Text.key name).toList [token] := by
  unfold Text.key
  split
  · next hplain =>
    have hstart : ∃ c cs, name.toList = c :: cs ∧ c.isDigit = false := by
      unfold Text.isPlain at hplain
      split at hplain
      · cases hplain
      · next c cs heq =>
        exact ⟨c, cs, heq, isDigit_of_isPlainStart (Bool.and_eq_true_iff.mp hplain).1⟩
    exact ⟨.word .name name, rfl, scans_name (Text.isNameChar_of_isPlain hplain) hstart⟩
  · exact ⟨.literal name, rfl, scans_quote name⟩

end SwaggerTypes.Reader
