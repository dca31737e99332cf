import SwaggerTypes.Proofs.TypeScanning
/-!
# Quoted texts

A reader for what stands between the double quotes of a literal, with all the escapes that the language
knows, gives back each text that is written there. A text is what the language makes of it, a sequence of
16-bit units. A key is a plain identifier or such a literal, so different properties have different keys.
-/

namespace SwaggerTypes.Text

/-! ## Texts as units -/

def codeUnits (n : Nat) : List Nat :=
  if n < 0x10000 then [n]
  else [0xD800 + (n - 0x10000) / 0x400, 0xDC00 + (n - 0x10000) % 0x400]

def units (cs : List Char) : List Nat := cs.flatMap fun c => codeUnits c.toNat

theorem units_cons (c : Char) (cs : List Char) : units (c :: cs) = codeUnits c.toNat ++ units cs :=
  List.flatMap_cons

theorem toNat_lt_or_gt (c : Char) : c.toNat < 0xD800 ∨ 0xDFFF < c.toNat := by
  rcases c.valid with h | h
  · exact .inl h
  · exact .inr h.1

theorem codeUnits_cases (c : Char) :
    (codeUnits c.toNat = [c.toNat] ∧ (c.toNat < 0xD800 ∨ 0xDFFF < c.toNat)) ∨
      ∃ high low, codeUnits c.toNat = [0xD800 + high, 0xDC00 + low] ∧ high < 0x400 ∧ low < 0x400 ∧
        c.toNat = 0x10000 + 0x400 * high + low := by
  unfold codeUnits
  split
  · exact .inl ⟨rfl, toNat_lt_or_gt c⟩
  · next hlarge =>
    have hvalid : c.toNat < 0x110000 := by
      rcases c.valid with h | h
      · exact Nat.lt_trans h (by decide)
      · exact h.2
    refine .inr ⟨_, _, rfl, ?_, ?_, ?_⟩ <;> omega

/-- The units of a text tell where its characters end. -/
theorem units_injective : ∀ {cs cs' : List Char}, units cs = units cs' → cs = cs' := by
  have hne : ∀ c cs, units (c :: cs) ≠ [] := by
    intro c cs
    rw [units_cons]
    rcases codeUnits_cases c with ⟨h, -⟩ | ⟨_, _, h, -⟩ <;> rw [h] <;> exact List.cons_ne_nil _ _
  intro cs
  induction cs with
  | nil =>
      intro cs' h
      cases cs' with
      | nil => rfl
      | cons d ds => exact absurd h.symm (hne d ds)
  | cons c cs ih =>
      intro cs' h
      cases cs' with
      | nil => exact absurd h (hne c cs)
      | cons d ds =>
          rw [units_cons, units_cons] at h
          rcases codeUnits_cases c with ⟨hc, hvalid⟩ | ⟨high, low, hc, hhigh, hlow, hval⟩ <;>
            rcases codeUnits_cases d with ⟨hd, hvalid'⟩ | ⟨high', low', hd, hhigh', hlow', hval'⟩ <;>
            rw [hc, hd] at h <;> simp only [List.cons_append, List.nil_append, List.cons.injEq] at h
          · rw [Char.toNat_inj.mp h.1, ih h.2]
          · omega
          · omega
          · rw [Char.toNat_inj.mp (by omega : c.toNat = d.toNat), ih h.2.2]

/-! ## Reading a literal -/

/-- Where a reader stands in a literal: between characters, behind a backslash, behind `\0`, behind an
escaped carriage return, behind `\u`, in a code with so many digits left, or in a code between braces,
which has a value from its first digit on. -/
inductive LiteralMode where
  | between
  | escape
  | zero
  | continued
  | code
  | digits (left value : Nat)
  | braces (value : Option Nat)

namespace LiteralMode

def escaped (c : Char) : Nat :=
  match c with
  | 'b' => 0x8
  | 't' => 0x9
  | 'n' => 0xA
  | 'v' => 0xB
  | 'f' => 0xC
  | 'r' => 0xD
  | c => c.toNat

/-- A character between others. A quote ends the literal, and line feeds and carriage returns cannot
stand in one. -/
def take (c : Char) : Option (LiteralMode × List Nat) :=
  if c = '"' || c = '\n' || c = '\r' then none
  else if c = '\\' then some (escape, [])
  else some (between, codeUnits c.toNat)

def digit (left value : Nat) (c : Char) : Option (LiteralMode × List Nat) :=
  (Decimal.digitValue 16 c).map fun d =>
    match left with
    | 0 | 1 => (between, [16 * value + d])
    | left + 2 => (digits (left + 1) (16 * value + d), [])

/-- What a character does: where the reader stands behind it, and the units that are complete. -/
def step : LiteralMode → Char → Option (LiteralMode × List Nat)
  | between, c => take c
  | escape, c =>
    if c = 'u' then some (code, [])
    else if c = 'x' then some (digits 2 0, [])
    else if c = '0' then some (zero, [])
    else if c.isDigit then none
    else if c = '\r' then some (continued, [])
    else if c = '\n' || c = '\u2028' || c = '\u2029' then some (between, [])
    else some (between, codeUnits (escaped c))
  | zero, c => if c.isDigit then none else (take c).map fun next => (next.1, 0 :: next.2)
  | continued, c => if c = '\n' then some (between, []) else take c
  | code, c => if c = '\x7b' then some (braces none, []) else digit 4 0 c
  | digits left value, c => digit left value c
  | braces value, c =>
    if c = '\x7d' then value.map fun n => (between, codeUnits n)
    else (Decimal.digitValue 16 c).bind fun d =>
      let n := 16 * value.getD 0 + d
      if n ≤ 0x10FFFF then some (braces (some n), []) else none

def finish : LiteralMode → Option (List Nat)
  | between | continued => some []
  | zero => some [0]
  | _ => none

def read : LiteralMode → List Char → Option (List Nat)
  | mode, [] => mode.finish
  | mode, c :: cs => (mode.step c).bind fun next => (read next.1 cs).map (next.2 ++ ·)

end LiteralMode

/-- The units that the inside of a double-quoted literal stands for, if it is one. -/
def literalUnits? (inside : List Char) : Option (List Nat) := LiteralMode.between.read inside

/-- Every kind of escape: a surrogate pair stands for one character, a line can be continued, and a
decimal digit cannot be escaped. -/
example : literalUnits? "a\\u00e9\\x41\\u\x7b1F600\x7d\\uD83D\\uDE00\\0\\q\\\r\n".toList =
      some (units "aéA😀😀\x00q".toList) ∧ literalUnits? "\\1".toList = none := by
  decide

/-! ## What is written in a literal -/

namespace LiteralMode

variable {mode next : LiteralMode} {c : Char} {us : List Nat}

theorem read_of_step (h : mode.step c = some (next, us)) (cs : List Char) :
    mode.read (c :: cs) = (next.read cs).map (us ++ ·) := by
  rw [read, h]
  rfl

theorem read_of_silent (h : mode.step c = some (next, [])) (cs : List Char) :
    mode.read (c :: cs) = next.read cs := by
  rw [read_of_step h]
  exact Option.map_id'

theorem step_digits {d : Nat} (h : d < 16) (left value : Nat) :
    (digits (left + 2) value).step (hexDigit d) = some (digits (left + 1) (16 * value + d), []) := by
  rw [step, digit, Reader.digitValue_hexDigit h]
  rfl

theorem read_hexDigits {n : Nat} (h : n < 0x10000) (cs : List Char) :
    code.read (hexDigits 4 n ++ cs) = (between.read cs).map ([n] ++ ·) := by
  have hdigits : hexDigits 4 n = [hexDigit (n / 16 / 16 / 16 % 16), hexDigit (n / 16 / 16 % 16),
      hexDigit (n / 16 % 16), hexDigit (n % 16)] := rfl
  have hmod : ∀ k, k % 16 < 16 := fun k => Nat.mod_lt k (by decide)
  have hbrace : ∀ d < 16, hexDigit d ≠ '\x7b' := by decide
  have hfirst : code.step (hexDigit (n / 16 / 16 / 16 % 16)) =
      some (digits 3 (16 * 0 + n / 16 / 16 / 16 % 16), []) := by
    rw [step, if_neg (hbrace _ (hmod _)), ← step_digits (hmod _)]
    rfl
  have hlast : ∀ value, (digits 1 value).step (hexDigit (n % 16)) =
      some (between, [16 * value + n % 16]) := by
    intro value
    rw [step, digit, Reader.digitValue_hexDigit (hmod _)]
    rfl
  have hvalue : 16 * (16 * (16 * (16 * 0 + n / 16 / 16 / 16 % 16) + n / 16 / 16 % 16) + n / 16 % 16)
      + n % 16 = n := by omega
  rw [hdigits, List.cons_append, List.cons_append, List.cons_append, List.cons_append,
    List.nil_append, read_of_silent hfirst, read_of_silent (step_digits (hmod _) 1 _),
    read_of_silent (step_digits (hmod _) 0 _), read_of_step (hlast _), hvalue]

/-- A written character is read back. -/
theorem read_escapeChar (c : Char) (cs : List Char) :
    between.read (escapeChar c ++ cs) = (between.read cs).map (codeUnits c.toNat ++ ·) := by
  have hbackslash : between.step '\\' = some (escape, []) := rfl
  unfold escapeChar
  split
  case h_6 hback hquote hfeed hreturn _ =>
    split
    · next hcontrol =>
      have hlt : c.toNat < 0x10000 := by
        simp only [isControl, Bool.or_eq_true, Bool.and_eq_true, decide_eq_true_eq] at hcontrol
        omega
      have hcode : escape.step 'u' = some (code, []) := rfl
      rw [List.cons_append, List.cons_append, read_of_silent hbackslash, read_of_silent hcode,
        read_hexDigits hlt, codeUnits, if_pos hlt]
    · have hplain : between.step c = some (between, codeUnits c.toNat) := by
        have hout : ¬(c = '"' || c = '\n' || c = '\r') = true := by
          simpa only [Bool.or_eq_true, decide_eq_true_eq] using
            not_or.mpr ⟨not_or.mpr ⟨hquote, hfeed⟩, hreturn⟩
        rw [step, take, if_neg hout, if_neg hback]
      rw [List.singleton_append, read_of_step hplain]
  all_goals
    rw [List.cons_append, read_of_silent hbackslash]
    exact read_of_step rfl cs

/-- Whatever a text holds, the reader takes it from what is written for it. -/
theorem read_escaped (cs : List Char) : between.read (cs.flatMap escapeChar) = some (units cs) := by
  induction cs with
  | nil => rfl
  | cons c cs ih => rw [List.flatMap_cons, read_escapeChar, ih, units_cons]; rfl

end LiteralMode

/-- The characters that stand for themselves: a backslash takes the character behind it along, and one
at the end has none to take. -/
def unescaped : List Char → List Char
  | '\\' :: _ :: cs => unescaped cs
  | c :: cs => c :: unescaped cs
  | [] => []

theorem unescaped_append {cs : List Char} (h : '\\' ∉ cs) (rest : List Char) :
    unescaped (cs ++ rest) = cs ++ unescaped rest := by
  induction cs with
  | nil => rfl
  | cons c cs ih =>
      obtain ⟨hc, hcs⟩ := not_or.mp fun hmem => h (List.mem_cons.mpr hmem)
      rw [List.cons_append, unescaped.eq_2 _ _ fun _ _ heq => absurd heq.symm hc, ih hcs]
      rfl

theorem hexDigits_safe {width n : Nat} {c : Char} (h : c ∈ hexDigits width n) :
    c ≠ '"' ∧ c ≠ '\\' ∧ isControl c = false := by
  induction width generalizing n with
  | zero => cases h
  | succ width ih =>
      rcases List.mem_append.mp h with h | h
      · exact ih h
      · have hdigit : ∀ d < 16, hexDigit d ≠ '"' ∧ hexDigit d ≠ '\\' ∧
            isControl (hexDigit d) = false := by decide
        exact List.mem_singleton.mp h ▸ hdigit _ (Nat.mod_lt _ (by decide))

theorem isControl_of_mem_escapeChar {c d : Char} (h : d ∈ escapeChar c) : isControl d = false := by
  unfold escapeChar at h
  split at h
  case h_6 =>
    split at h
    · rcases List.mem_cons.mp h with rfl | h
      · decide
      · rcases List.mem_cons.mp h with rfl | h
        · decide
        · exact (hexDigits_safe h).2.2
    · next hcontrol => rw [List.mem_singleton.mp h, Bool.eq_false_iff.mpr hcontrol]
  all_goals
    simp only [List.mem_cons, List.not_mem_nil, or_false] at h
    rcases h with rfl | rfl <;> decide

/-- What is written for a character keeps neither a quote nor a backslash that would stand for itself. -/
theorem unescaped_escapeChar (c : Char) (cs : List Char) :
    ∃ kept, unescaped (escapeChar c ++ cs) = kept ++ unescaped cs ∧ '"' ∉ kept ∧ '\\' ∉ kept := by
  unfold escapeChar
  split
  case h_6 hback hquote _ _ _ =>
    split
    · have hdigits : '\\' ∉ hexDigits 4 c.toNat := fun hmem => (hexDigits_safe hmem).2.1 rfl
      exact ⟨hexDigits 4 c.toNat, unescaped_append hdigits cs,
        fun hmem => (hexDigits_safe hmem).1 rfl, hdigits⟩
    · have hself : '\\' ∉ [c] := fun hmem => hback (List.mem_singleton.mp hmem).symm
      exact ⟨[c], unescaped_append hself cs, fun hmem => hquote (List.mem_singleton.mp hmem).symm,
        hself⟩
  all_goals exact ⟨[], rfl, List.not_mem_nil, List.not_mem_nil⟩

theorem unescaped_escaped (cs : List Char) :
    '"' ∉ unescaped (cs.flatMap escapeChar) ∧ '\\' ∉ unescaped (cs.flatMap escapeChar) := by
  induction cs with
  | nil => exact ⟨List.not_mem_nil, List.not_mem_nil⟩
  | cons c cs ih =>
      obtain ⟨kept, heq, hquote, hback⟩ := unescaped_escapeChar c (cs.flatMap escapeChar)
      rw [List.flatMap_cons, heq, List.mem_append, List.mem_append]
      exact ⟨not_or.mpr ⟨hquote, ih.1⟩, not_or.mpr ⟨hback, ih.2⟩⟩

/-- The inside of a literal writes a text: no quote closes the literal early, no backslash takes the
closing quote along, nothing in it is a control character, and it is read as the text. -/
structure Writes (inside s : String) : Prop where
  quotes : '"' ∉ unescaped inside.toList
  backslashes : '\\' ∉ unescaped inside.toList
  controls : ∀ c ∈ inside.toList, isControl c = false
  decoded : literalUnits? inside.toList = some (units s.toList)

theorem writes_escape (s : String) : Writes (escape s) s := by
  have hescape : (escape s).toList = s.toList.flatMap escapeChar := String.toList_ofList
  refine ⟨?_, ?_, fun c hc => ?_, ?_⟩
  · exact hescape ▸ (unescaped_escaped s.toList).1
  · exact hescape ▸ (unescaped_escaped s.toList).2
  · rw [hescape] at hc
    obtain ⟨d, -, hd⟩ := List.mem_flatMap.mp hc
    exact isControl_of_mem_escapeChar hd
  · rw [hescape]
    exact LiteralMode.read_escaped s.toList

/-- What is read tells which text was written. -/
theorem Writes.unique {inside s t : String} (h : Writes inside s) (h' : Writes inside t) : s = t :=
  String.toList_inj.mp (units_injective (Option.some.inj (h.decoded.symm.trans h'.decoded)))

/-! ## Keys -/

structure IsIdentifier (name : String) : Prop where
  start : ∃ c ∈ name.toList.head?, c.isDigit = false
  chars : ∀ c ∈ name.toList, c.toNat < 0x80 ∧ (c.isAlphanum = true ∨ c = '_' ∨ c = '$')

theorem ascii_of_isPlainChar {c : Char} (h : isPlainChar c = true) :
    c.toNat < 0x80 ∧ (c.isAlphanum = true ∨ c = '_' ∨ c = '$') := by
  have hcases : c.isAlphanum = true ∨ c = '_' ∨ c = '$' := by
    simpa only [isPlainChar, Bool.or_eq_true, decide_eq_true_eq, or_assoc] using h
  refine ⟨?_, hcases⟩
  rcases hcases with halphanum | rfl | rfl
  · have hranges : (decide ('A'.val ≤ c.val ∧ c.val ≤ 'Z'.val) ||
        (decide ('a'.val ≤ c.val) && decide (c.val ≤ 'z'.val)) ||
        (decide ('0'.val ≤ c.val) && decide (c.val ≤ '9'.val))) = true := halphanum
    simp only [Bool.or_eq_true, Bool.and_eq_true, decide_eq_true_eq, UInt32.le_iff_toNat_le] at hranges
    have hupper : 'Z'.val.toNat = 90 := rfl
    have hlower : 'z'.val.toNat = 122 := rfl
    have hdigit : '9'.val.toNat = 57 := rfl
    show c.val.toNat < 0x80
    omega
  · decide
  · decide

theorem isIdentifier_of_isPlain {name : String} (h : isPlain name = true) : IsIdentifier name := by
  unfold isPlain at h
  split at h
  · cases h
  · next c cs heq =>
    obtain ⟨hstart, hchars⟩ := Bool.and_eq_true_iff.mp h
    refine ⟨⟨c, by rw [heq]; rfl, Reader.isDigit_of_isPlainStart hstart⟩, fun d hd => ?_⟩
    exact ascii_of_isPlainChar (List.all_eq_true.mp hchars d (heq ▸ hd))

theorem key_cases (name : String) :
    (key name = name ∧ IsIdentifier name) ∨
      ∃ inside, key name = "\"" ++ inside ++ "\"" ∧ Writes inside name := by
  unfold key
  split
  · next hplain => exact .inl ⟨rfl, isIdentifier_of_isPlain hplain⟩
  · exact .inr ⟨escape name, rfl, writes_escape name⟩

/-- Texts are written in literals so that the language reads them back, whatever they hold. A property's
key is its name, as an identifier, or such a literal, and no two properties have one key. -/
theorem texts_and_keys_written :
    (∀ s, Writes (escape s) s) ∧
      (∀ name, (key name = name ∧ IsIdentifier name) ∨
        ∃ inside, key name = "\"" ++ inside ++ "\"" ∧ Writes inside name) ∧
      ∀ name name', key name = key name' → name = name' := by
  refine ⟨writes_escape, key_cases, fun name name' hkey => ?_⟩
  have hquoted : ∀ {name inside : String}, IsIdentifier name → name ≠ "\"" ++ inside ++ "\"" := by
    rintro name inside h rfl
    obtain ⟨-, hquote⟩ := h.chars '"' (by simp)
    exact absurd hquote (by decide)
  rcases key_cases name with ⟨heq, hname⟩ | ⟨inside, heq, hinside⟩ <;>
    rcases key_cases name' with ⟨heq', hname'⟩ | ⟨inside', heq', hinside'⟩ <;>
    rw [heq, heq'] at hkey
  · exact hkey
  · exact absurd hkey (hquoted hname)
  · exact absurd hkey.symm (hquoted hname')
  · rw [String.append_left_inj, String.append_right_inj] at hkey
    exact hinside.unique (hkey ▸ hinside')

end SwaggerTypes.Text
