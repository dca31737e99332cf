/-!
Places in a text of block and flow collections: the characters ahead, with the line and column of
the first of them.
-/
namespace SwaggerTypes.Markup

def isBreak (c : Char) : Bool :=
  c = '\r' || c = '\n' || c = '\u0085' || c = '\u2028' || c = '\u2029'

def isBlank (c : Char) : Bool := c = ' ' || c = '\t'

/-- Whether the text ahead begins with a blank or a line end, or there is none. -/
def endsWord : List Char → Bool
  | [] => true
  | c :: _ => isBlank c || isBreak c

def isNameChar (c : Char) : Bool := c.isAlphanum || c = '_' || c = '-'

/-- Brackets and commas, which end words inside flow collections. -/
def isFlowMark (c : Char) : Bool := c = ',' || c = '[' || c = ']' || c = '\x7b' || c = '\x7d'

def isAllowed (c : Char) : Bool :=
  c = '\t' || c = '\n' || c = '\r' || (' ' ≤ c && c ≤ '~') || c = '\u0085'
    || ('\u00a0' ≤ c && c ≤ '\ufffd') || '\x7f' < c && 0x10000 ≤ c.toNat

structure Mark where
  index : Nat := 0
  line : Nat := 0
  column : Nat := 0

def Mark.forward (m : Mark) (n : Nat) : Mark :=
  { m with index := m.index + n, column := m.column + n }

def Mark.newLine (m : Mark) (n : Nat) : Mark := ⟨m.index + n, m.line + 1, 0⟩

structure Cursor where
  rest : List Char
  mark : Mark := {}

namespace Cursor

def skip (c : Cursor) (n : Nat) : Cursor := ⟨c.rest.drop n, c.mark.forward n⟩

/-- The characters ahead that a class holds, and the place behind them. The class has no line
ends. -/
def span (c : Cursor) (p : Char → Bool) : List Char × Cursor :=
  let word := c.rest.takeWhile p
  (word, ⟨c.rest.dropWhile p, c.mark.forward word.length⟩)

/-- Passes over the characters of a class without line ends. -/
def skipWhile (c : Cursor) (p : Char → Bool) : Cursor := (c.span p).2

/-- The line end ahead as a scalar keeps it, and the place behind it. Carriage returns and the
next-line character count as line feeds. -/
def lineEnd? (c : Cursor) : Option (List Char × Cursor) :=
  match c.rest with
  | '\r' :: '\n' :: rest => some (['\n'], ⟨rest, c.mark.newLine 2⟩)
  | b :: rest =>
    if isBreak b then
      some ([if b = '\u2028' || b = '\u2029' then b else '\n'], ⟨rest, c.mark.newLine 1⟩)
    else none
  | [] => none

/-- Whether `---` or `...` stands at the start of a line. -/
def atDocumentMark (c : Cursor) : Bool :=
  c.mark.column = 0 && match c.rest with
    | '-' :: '-' :: '-' :: rest => endsWord rest
    | '.' :: '.' :: '.' :: rest => endsWord rest
    | _ => false

/-- Passes over the rest of a line that may hold blanks and a comment; its line end stays. -/
def skipComment? (c : Cursor) : Option Cursor :=
  let c := c.skipWhile isBlank
  let c := match c.rest with
    | '#' :: _ => c.skipWhile fun d => !isBreak d
    | _ => c
  match c.rest with
  | [] => some c
  | d :: _ => if isBreak d then some c else none

def skipLineEnd (c : Cursor) : Cursor := (c.lineEnd?.map Prod.snd).getD c

end Cursor

end SwaggerTypes.Markup
