import SwaggerTypes.Markup.Cursor
import SwaggerTypes.Decimal.Reading
/-!
The texts of scalars: plain words, quoted texts and blocks. A single line end between words is
written as a space, and further ones are kept.
-/
namespace SwaggerTypes.Markup

/-- What stands between two words: blanks, or line ends with blanks around them. -/
structure Gap where
  /-- The blanks before any line end, last first. -/
  blanks : List Char := []
  /-- Whether there is a line end. -/
  broken : Bool := false
  /-- The first line end. -/
  first : List Char := []
  /-- The line ends after it, last first. -/
  more : List Char := []

namespace Gap

def addBlank (g : Gap) (c : Char) : Gap :=
  if g.broken then g else { g with blanks := c :: g.blanks }

def addBreak (g : Gap) (lineEnd : List Char) : Gap :=
  if g.broken then { g with more := lineEnd ++ g.more }
  else { broken := true, first := lineEnd }

def reversed (g : Gap) : List Char :=
  if !g.broken then g.blanks
  else if g.first = ['\n'] then (if g.more.isEmpty then [' '] else g.more)
  else g.more ++ g.first.reverse

/-- Takes the text of an open gap into a text, both last character first. -/
def close (gap : Option Gap) (text : List Char) : List Char :=
  match gap with
  | none => text
  | some g => g.reversed ++ text

end Gap

/-- The text of a line end that begins with a character, as a scalar keeps it. -/
def keptBreak (c : Char) : List Char := [if c = '\u2028' || c = '\u2029' then c else '\n']

/-- Reads plain words. Outside flow collections they go on only on lines that are indented at
least by `indent`. The text comes with whether line ends follow it, and the place behind them. -/
def plainText (flow : Bool) (indent : Int) (text : List Char) (gap : Option Gap) (m : Mark) :
    List Char → Option (String × Bool × Cursor)
  | [] => some (String.ofList text.reverse, (gap.map Gap.broken).getD false, ⟨[], m⟩)
  | '\r' :: '\n' :: rest =>
    plainText flow indent text (some ((gap.getD {}).addBreak ['\n'])) (m.newLine 2) rest
  | c :: rest =>
    let pending := gap.getD {}
    if isBreak c then
      plainText flow indent text (some (pending.addBreak (keptBreak c))) (m.newLine 1) rest
    else if isBlank c then
      if pending.broken && m.column < indent && c = '\t' then none
      else plainText flow indent text (some (pending.addBlank c)) (m.forward 1) rest
    else
      let here : Cursor := ⟨c :: rest, m⟩
      let ended := some (String.ofList text.reverse, pending.broken, here)
      let newWord := gap.isSome
      if newWord && (c = '#' || here.atDocumentMark || (!flow && m.column < indent)) then ended
      else if flow && c = ':' && (rest.head?.map fun d => isFlowMark d || d = '?').getD false then
        none
      else if (c = ':' && endsWord rest) || (flow && isFlowMark c) then ended
      else plainText flow indent (c :: Gap.close gap text) none (m.forward 1) rest

def singleQuoted (text : List Char) (gap : Option Gap) (m : Mark) :
    List Char → Option (String × Cursor)
  | [] => none
  | '\r' :: '\n' :: rest =>
    singleQuoted text (some ((gap.getD {}).addBreak ['\n'])) (m.newLine 2) rest
  | '\'' :: '\'' :: rest =>
    singleQuoted ('\'' :: Gap.close gap text) none (m.forward 2) rest
  | c :: rest =>
    if isBreak c then
      singleQuoted text (some ((gap.getD {}).addBreak (keptBreak c))) (m.newLine 1) rest
    else if isBlank c then
      singleQuoted text (some ((gap.getD {}).addBlank c)) (m.forward 1) rest
    else if gap.isSome && Cursor.atDocumentMark ⟨c :: rest, m⟩ then none
    else if c = '\'' then
      some (String.ofList (Gap.close gap text).reverse, ⟨rest, m.forward 1⟩)
    else singleQuoted (c :: Gap.close gap text) none (m.forward 1) rest

/-- What a character after a backslash stands for: a character, or a number of hexadecimal
digits that give its code point. -/
inductive Escape where
  | char (c : Char)
  | digits (count : Nat)

def Escape.ofChar? : Char → Option Escape
  | '0' => some (.char '\x00')
  | 'a' => some (.char '\x07')
  | 'b' => some (.char '\x08')
  | 't' | '\t' => some (.char '\t')
  | 'n' => some (.char '\n')
  | 'v' => some (.char '\x0b')
  | 'f' => some (.char '\x0c')
  | 'r' => some (.char '\r')
  | 'e' => some (.char '\x1b')
  | ' ' => some (.char ' ')
  | '"' => some (.char '"')
  | '/' => some (.char '/')
  | '\\' => some (.char '\\')
  | 'N' => some (.char '\u0085')
  | '_' => some (.char '\u00a0')
  | 'L' => some (.char '\u2028')
  | 'P' => some (.char '\u2029')
  | 'x' => some (.digits 2)
  | 'u' => some (.digits 4)
  | 'U' => some (.digits 8)
  | _ => none

def charOfCode? (n : Nat) : Option Char := if n.isValidChar then some (Char.ofNat n) else none

/-- Where a double-quoted text stands: among its characters, behind a backslash, or in a code
point with some digits to come. -/
inductive QuoteState where
  | plain
  | escape
  | code (digits value : Nat)

/-- Reads a double-quoted text behind its opening quote. A line end behind a backslash is left
out together with the blanks that follow. -/
def doubleQuoted (state : QuoteState) (text : List Char) (gap : Option Gap) (m : Mark) :
    List Char → Option (String × Cursor)
  | [] => none
  | '\r' :: '\n' :: rest =>
    match state with
    | .code _ _ => none
    | .escape => doubleQuoted .plain text (some { broken := true }) (m.newLine 2) rest
    | .plain =>
      doubleQuoted .plain text (some ((gap.getD {}).addBreak ['\n'])) (m.newLine 2) rest
  | c :: rest =>
    match state with
    | .code digits value =>
      match Decimal.digitValue 16 c with
      | none => none
      | some d =>
        let value := value * 16 + d
        if digits ≤ 1 then
          match charOfCode? value with
          | some char => doubleQuoted .plain (char :: text) none (m.forward 1) rest
          | none => none
        else doubleQuoted (.code (digits - 1) value) text none (m.forward 1) rest
    | .escape =>
      if isBreak c then doubleQuoted .plain text (some { broken := true }) (m.newLine 1) rest
      else match Escape.ofChar? c with
        | some (.char char) => doubleQuoted .plain (char :: text) none (m.forward 1) rest
        | some (.digits count) => doubleQuoted (.code count 0) text none (m.forward 1) rest
        | none => none
    | .plain =>
      if isBreak c then
        doubleQuoted .plain text (some ((gap.getD {}).addBreak (keptBreak c))) (m.newLine 1) rest
      else if isBlank c then
        doubleQuoted .plain text (some ((gap.getD {}).addBlank c)) (m.forward 1) rest
      else if gap.isSome && Cursor.atDocumentMark ⟨c :: rest, m⟩ then none
      else if c = '"' then
        some (String.ofList (Gap.close gap text).reverse, ⟨rest, m.forward 1⟩)
      else if c = '\\' then doubleQuoted .escape (Gap.close gap text) none (m.forward 1) rest
      else doubleQuoted .plain (c :: Gap.close gap text) none (m.forward 1) rest

inductive Chomping where
  | clip
  | strip
  | keep
deriving DecidableEq

/-- The line ends before the next line of a block that has text, last first. While the indentation
is not known (`indent = 0`) the deepest one seen is kept. -/
def blockBreaks (indent deepest : Nat) (breaks : List Char) (m : Mark) :
    List Char → Option (Nat × List Char × Cursor)
  | [] => some (max deepest m.column, breaks, ⟨[], m⟩)
  | '\r' :: '\n' :: rest =>
    blockBreaks indent (max deepest m.column) ('\n' :: breaks) (m.newLine 2) rest
  | c :: rest =>
    let before := indent = 0 || m.column < indent
    if before && c = ' ' then blockBreaks indent deepest breaks (m.forward 1) rest
    else if before && c = '\t' then none
    else if isBreak c then
      blockBreaks indent (max deepest m.column) (keptBreak c ++ breaks) (m.newLine 1) rest
    else some (max deepest m.column, breaks, ⟨c :: rest, m⟩)

/-- A block as far as it is read: its text, the line end of its last line, and the empty lines
behind that, all last character first, and whether the last line began with a blank. -/
structure Block where
  text : List Char := []
  lineEnd : List Char := []
  breaks : List Char := []
  indentedMore : Bool := false

/-- Reads the lines of a block that are indented by `indent`. -/
def blockLines (literal : Bool) (indent : Nat) : (fuel : Nat) → Block → Cursor →
    Option (Block × Cursor)
  | 0, _, _ => none
  | fuel + 1, b, c =>
    if c.mark.column ≠ indent || c.rest.isEmpty then some (b, c)
    else do
      let startsBlank := (c.rest.head?.map isBlank).getD false
      let folds := !literal && b.lineEnd = ['\n'] && !b.indentedMore && !startsBlank
      let joint :=
        if folds then (if b.breaks.isEmpty then [' '] else b.breaks) else b.breaks ++ b.lineEnd
      let (line, c) := c.span fun d => !isBreak d
      let (lineEnd, c) := (c.lineEnd?).getD ([], c)
      let (_, breaks, c) ← blockBreaks indent 0 [] c.mark c.rest
      blockLines literal indent fuel
        { text := line.reverse ++ joint ++ b.text, lineEnd, breaks, indentedMore := startsBlank } c

def blockHeader (c : Cursor) : Option (Chomping × Nat × Cursor) :=
  let chomping (c : Cursor) : Chomping × Cursor := match c.rest with
    | '+' :: _ => (.keep, c.skip 1)
    | '-' :: _ => (.strip, c.skip 1)
    | _ => (.clip, c)
  let indentation (c : Cursor) : Option (Nat × Cursor) := match c.rest with
    | d :: _ =>
      if d = '0' then none
      else if d.isDigit then some (d.toNat - '0'.toNat, c.skip 1) else some (0, c)
    | [] => some (0, c)
  match chomping c with
  | (.clip, c) => do
    let (indent, c) ← indentation c
    let (chomp, c) := chomping c
    some (chomp, indent, c)
  | (chomp, c) => do
    let (indent, c) ← indentation c
    some (chomp, indent, c)

/-- Reads a block behind its sign. `parent` is the indentation around it, and `fuel` is at least
the number of characters ahead. -/
def blockText (literal : Bool) (parent : Int) (fuel : Nat) (c : Cursor) :
    Option (String × Cursor) := do
  let (chomp, increment, c) ← blockHeader c
  let c := (← c.skipComment?).skipLineEnd
  let given : Nat := if increment = 0 then 0 else (max parent 0).toNat + increment
  let (deepest, breaks, c) ← blockBreaks given 0 [] c.mark c.rest
  let indent := if given = 0 then max deepest (max (parent + 1) 1).toNat else given
  let (b, c) ← blockLines literal indent (fuel + 1) { breaks } c
  let text := match chomp with
    | .strip => b.text
    | .clip => b.lineEnd ++ b.text
    | .keep => b.breaks ++ b.lineEnd ++ b.text
  some (String.ofList text.reverse, c)

end SwaggerTypes.Markup
