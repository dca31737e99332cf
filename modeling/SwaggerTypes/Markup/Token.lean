import SwaggerTypes.Markup.Scalar
import SwaggerTypes.Markup.Tag
/-!
The signs of a text: brackets, entry and key marks, scalars, and the beginnings and ends of blocks
that follow from the indentation. That a scalar is a key shows only at the colon behind it, so each
level remembers the last place where a key can have begun.
-/
namespace SwaggerTypes.Markup

inductive Token where
  | directive (d : Directive)
  | documentStart
  | documentEnd
  | blockSequenceStart
  | blockMappingStart
  | blockEnd
  | flowSequenceStart
  | flowSequenceEnd
  | flowMappingStart
  | flowMappingEnd
  | blockEntry
  | flowEntry
  | key
  | value
  | reference (name : String)
  | anchor (name : String)
  | tag (t : WrittenTag)
  | scalar (text : String) (plain : Bool)
deriving DecidableEq

structure KeyStart where
  /-- Nothing but a key can stand there. -/
  required : Bool
  /-- The number of tokens before it. -/
  number : Nat
  mark : Mark

structure Scanner where
  cursor : Cursor
  /-- The column of the innermost open block, or -1. -/
  indent : Int := -1
  /-- The columns of the blocks around it. -/
  outerIndents : List Int := []
  /-- Whether a key can begin here. -/
  keyAllowed : Bool := true
  /-- Where a key of the innermost open collection can have begun. -/
  keyStart : Option KeyStart := none
  /-- The same for the collections around the open flow collections. -/
  outerKeyStarts : List (Option KeyStart) := []
  /-- The tokens so far, last first. -/
  tokens : List Token := []
  count : Nat := 0

namespace Scanner

def inFlow (s : Scanner) : Bool := !s.outerKeyStarts.isEmpty

def column (s : Scanner) : Int := s.cursor.mark.column

def emit (s : Scanner) (t : Token) : Scanner :=
  { s with tokens := t :: s.tokens, count := s.count + 1 }

def insertAt (s : Scanner) (number : Nat) (ts : List Token) : Scanner :=
  let later := s.count - number
  { s with
    tokens := s.tokens.take later ++ ts ++ s.tokens.drop later
    count := s.count + ts.length }

def skip (s : Scanner) (n : Nat) : Scanner := { s with cursor := s.cursor.skip n }

def dropKey? (s : Scanner) : Option Scanner :=
  if s.keyStart.any KeyStart.required then none else some { s with keyStart := none }

def saveKey? (s : Scanner) : Option Scanner :=
  if s.keyAllowed then do
    let s ← s.dropKey?
    let required := !s.inFlow && s.indent = s.column
    some { s with keyStart := some ⟨required, s.count, s.cursor.mark⟩ }
  else some s

/-- A key ends on its line, and after 1024 characters at the latest. -/
def KeyStart.isStale (here : Mark) (k : KeyStart) : Bool :=
  k.mark.line < here.line || k.mark.index + 1024 < here.index

def dropStale? (s : Scanner) : Option Scanner :=
  let stale := KeyStart.isStale s.cursor.mark
  if (s.keyStart :: s.outerKeyStarts).any fun k => k.any fun k => k.required && stale k then none
  else
    let keep (k : Option KeyStart) := k.filter fun k => !stale k
    some { s with keyStart := keep s.keyStart, outerKeyStarts := s.outerKeyStarts.map keep }

/-- Opens a block at a column if it is deeper than the innermost one. -/
def opensBlock (s : Scanner) (column : Int) : Bool := !s.inFlow && s.indent < column

def openBlock (s : Scanner) (column : Int) : Scanner :=
  { s with indent := column, outerIndents := s.indent :: s.outerIndents }

def beginBlock (s : Scanner) (opening : Token) : Scanner :=
  if s.opensBlock s.column then (s.openBlock s.column).emit opening else s

def closeBlocks (column : Int) : List Int → Scanner → Scanner
  | outer :: rest, s =>
    if s.indent ≤ column then s
    else closeBlocks column rest ({ s with indent := outer, outerIndents := rest }.emit .blockEnd)
  | [], s => s

def endBlocks (s : Scanner) (column : Int) : Scanner :=
  if s.inFlow then s else closeBlocks column s.outerIndents s

/-- Where the next token begins, behind blanks, comments and line ends, and whether a key can begin
there. A byte order mark may begin any line; it takes up a column. -/
def gapEnd (flow comment keyAllowed : Bool) (m : Mark) : List Char → Cursor × Bool
  | [] => (⟨[], m⟩, keyAllowed)
  | '\r' :: '\n' :: rest => gapEnd flow false (keyAllowed || !flow) (m.newLine 2) rest
  | c :: rest =>
    if isBreak c then gapEnd flow false (keyAllowed || !flow) (m.newLine 1) rest
    else if comment || c = ' ' || (c = '\t' && (flow || !keyAllowed))
        || (c = '\ufeff' && m.column = 0) then
      gapEnd flow comment keyAllowed (m.forward 1) rest
    else if c = '#' then gapEnd flow true keyAllowed (m.forward 1) rest
    else (⟨c :: rest, m⟩, keyAllowed)

def skipGap (s : Scanner) : Scanner :=
  let (cursor, keyAllowed) := gapEnd s.inFlow false s.keyAllowed s.cursor.mark s.cursor.rest
  { s with cursor, keyAllowed }

/-- A mark between documents, or a directive, ends all blocks. -/
def endDocument? (s : Scanner) : Option Scanner := do
  let s ← (s.endBlocks (-1)).dropKey?
  some { s with keyAllowed := false }

/-- An entry mark or a key mark: outside flow collections it stands where a key can begin, and
opens its block. -/
def indicator? (s : Scanner) (opening mark : Token) : Option Scanner := do
  if !s.inFlow && !s.keyAllowed then none
  let s ← (if s.inFlow then s else s.beginBlock opening).dropKey?
  some ((s.emit mark).skip 1)

/-- The colon behind a key. If the key began at the remembered place its mark is put in there. -/
def value? (s : Scanner) : Option Scanner :=
  match s.keyStart with
  | some k =>
    let column : Int := k.mark.column
    let opened := s.opensBlock column
    let s := if opened then s.openBlock column else s
    let s := s.insertAt k.number (.key :: if opened then [.blockMappingStart] else [])
    some (({ s with keyStart := none, keyAllowed := false }.emit .value).skip 1)
  | none =>
    if !s.inFlow && !s.keyAllowed then none
    else
      let s := if s.inFlow then s else s.beginBlock .blockMappingStart
      some (({ s with keyAllowed := !s.inFlow }.emit .value).skip 1)

def flowStart? (s : Scanner) (opening : Token) : Option Scanner := do
  let s ← s.saveKey?
  some (({ s with
    keyStart := none, outerKeyStarts := s.keyStart :: s.outerKeyStarts, keyAllowed := true }.emit
      opening).skip 1)

def flowEnd? (s : Scanner) (closing : Token) : Option Scanner := do
  let s ← s.dropKey?
  let s := match s.outerKeyStarts with
    | k :: rest => { s with keyStart := k, outerKeyStarts := rest }
    | [] => s
  some (({ s with keyAllowed := false }.emit closing).skip 1)

/-- A token that may be a key, read from the place of its first character. -/
def word? (s : Scanner) (read : Cursor → Option (Token × Cursor)) : Option Scanner := do
  let s ← s.saveKey?
  let (token, cursor) ← read s.cursor
  some ({ s with keyAllowed := false, cursor }.emit token)

def plain? (s : Scanner) : Option Scanner := do
  let s ← s.saveKey?
  let (text, broken, cursor) ← plainText s.inFlow (s.indent + 1) [] none s.cursor.mark s.cursor.rest
  some ({ s with keyAllowed := broken, cursor }.emit (.scalar text true))

def block? (size : Nat) (literal : Bool) (s : Scanner) : Option Scanner := do
  let s ← s.dropKey?
  let (text, cursor) ← blockText literal s.indent size (s.cursor.skip 1)
  some ({ s with keyAllowed := true, cursor }.emit (.scalar text false))

/-- Whether a plain scalar can begin with a character before others. -/
def startsPlain (flow : Bool) (c : Char) (rest : List Char) : Bool :=
  if c = '-' then !rest.head?.any isBlank
  else if c = '?' || c = ':' then !flow && !endsWord rest
  else !isBlank c &&
    c ∉ [',', '[', ']', '\x7b', '\x7d', '#', '&', '*', '!', '|', '>', '\'', '"', '%', '@', '\x60']

/-- Reads the token that begins here. `size` is at least the number of characters ahead. -/
def token? (size : Nat) (c : Char) (rest : List Char) (s : Scanner) : Option Scanner :=
  if s.column = 0 && c = '%' then do
    let s ← s.endDocument?
    let (directive, cursor) ← scanDirective s.cursor
    some ({ s with cursor }.emit (.directive directive))
  else if s.cursor.atDocumentMark then do
    let s ← s.endDocument?
    some ((s.emit (if c = '-' then .documentStart else .documentEnd)).skip 3)
  else
    let mark := s.inFlow || endsWord rest
    match c with
    | '[' => s.flowStart? .flowSequenceStart
    | '\x7b' => s.flowStart? .flowMappingStart
    | ']' => s.flowEnd? .flowSequenceEnd
    | '\x7d' => s.flowEnd? .flowMappingEnd
    | ',' => do
      let s ← s.dropKey?
      some (({ s with keyAllowed := true }.emit .flowEntry).skip 1)
    | '*' => s.word? fun c => (scanAnchor (c.skip 1)).map fun (name, c) => (.reference name, c)
    | '&' => s.word? fun c => (scanAnchor (c.skip 1)).map fun (name, c) => (.anchor name, c)
    | '!' => s.word? fun c => (scanTag s.inFlow c).map fun (tag, c) => (.tag tag, c)
    | '\'' => s.word? fun c =>
      let c := c.skip 1
      (singleQuoted [] none c.mark c.rest).map fun (text, c) => (.scalar text false, c)
    | '"' => s.word? fun c =>
      let c := c.skip 1
      (doubleQuoted .plain [] none c.mark c.rest).map fun (text, c) => (.scalar text false, c)
    | _ =>
      if c = '-' && endsWord rest then do
        let s ← s.indicator? .blockSequenceStart .blockEntry
        some { s with keyAllowed := true }
      else if c = '?' && mark then do
        let s ← s.indicator? .blockMappingStart .key
        some { s with keyAllowed := !s.inFlow }
      else if c = ':' && mark then s.value?
      else if (c = '|' || c = '>') && !s.inFlow then s.block? size (c = '|')
      else if startsPlain s.inFlow c rest then s.plain?
      else none

/-- Reads tokens to the end of the text; every round reads one. -/
def run (size : Nat) : (fuel : Nat) → Scanner → Option (List Token)
  | 0, _ => none
  | fuel + 1, s => do
    let s ← s.skipGap.dropStale?
    let s := s.endBlocks s.column
    match s.cursor.rest with
    | [] => do
      let s ← s.endDocument?
      some s.tokens.reverse
    | c :: rest => run size fuel (← s.token? size c rest)

end Scanner

/-- The tokens of a text, if all its characters are allowed and belong to tokens. -/
def Token.ofText? (text : String) : Option (List Token) :=
  let cs := text.toList
  if cs.all isAllowed then Scanner.run cs.length (cs.length + 1) { cursor := { rest := cs } }
  else none

end SwaggerTypes.Markup
