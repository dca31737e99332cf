import SwaggerTypes.Markup.Cursor
import SwaggerTypes.Decimal.Reading
/-!
What may stand before a node, anchors and tags, and the directives before a document.
-/
namespace SwaggerTypes.Markup

/-- A tag or a part of one, as bytes: escapes may write bytes that are no text. -/
abbrev TagBytes := List UInt8

def TagBytes.ofText (s : String) : TagBytes := s.toUTF8.toList

def TagBytes.text? (bs : TagBytes) : Option String := String.fromUTF8? ⟨bs.toArray⟩

def TagBytes.untilZero (bs : TagBytes) : TagBytes := bs.takeWhile (· ≠ 0)

/-- A tag as written: a handle that stands for the beginning of the tag, and the rest. Without
handle the rest is the whole tag. -/
structure WrittenTag where
  handle : String
  suffix : TagBytes
deriving DecidableEq

inductive Directive where
  | version (major minor : Nat)
  | tagHandle (handle : String) (start : TagBytes)
deriving DecidableEq

/-- Characters of tags; `whole` tells that the tag stands in angle brackets. -/
def isTagChar (whole : Bool) (c : Char) : Bool :=
  isNameChar c
    || c ∈ [';', '/', '?', ':', '@', '&', '=', '+', '$', '.', '!', '~', '*', '\'', '(', ')']
    || (whole && c ∈ [',', '[', ']'])

def escapedByte : List Char → Option (UInt8 × List Char)
  | '%' :: high :: low :: rest => do
    let h ← Decimal.digitValue 16 high
    let l ← Decimal.digitValue 16 low
    some (UInt8.ofNat (h * 16 + l), rest)
  | _ => none

/-- The bytes of a number of escapes that go on with a character. -/
def escapedTail : Nat → List Char → Option (TagBytes × List Char)
  | 0, cs => some ([], cs)
  | n + 1, cs => do
    let (b, cs) ← escapedByte cs
    if b &&& 0xc0 ≠ 0x80 then none
    let (bs, cs) ← escapedTail n cs
    some (b :: bs, cs)

/-- The number of bytes of a character that begins with a byte. -/
def encodedLength (first : UInt8) : Option Nat :=
  if first < 0x80 then some 1
  else if first &&& 0xe0 = 0xc0 then some 2
  else if first &&& 0xf0 = 0xe0 then some 3
  else if first &&& 0xf8 = 0xf0 then some 4
  else none

/-- The bytes of a character written by escapes, one for each byte. The first one tells how many
there are; whether they encode a character is not asked. -/
def escapedChar (cs : List Char) : Option (TagBytes × List Char) := do
  let (first, cs) ← escapedByte cs
  let length ← encodedLength first
  let (more, cs) ← escapedTail (length - 1) cs
  some (first :: more, cs)

def tagChars (whole : Bool) : (fuel : Nat) → Cursor → Option (TagBytes × Cursor)
  | 0, c => some ([], c)
  | fuel + 1, c =>
    match c.rest with
    | '%' :: _ => do
      let (bytes, rest) ← escapedChar c.rest
      let (more, c) ← tagChars whole fuel ⟨rest, c.mark.forward (3 * bytes.length)⟩
      some (bytes ++ more, c)
    | d :: rest =>
      if isTagChar whole d then do
        let (more, c) ← tagChars whole fuel ⟨rest, c.mark.forward 1⟩
        some (UInt8.ofNat d.toNat :: more, c)
      else some ([], c)
    | [] => some ([], c)

/-- Tags are read up to the end of the line. -/
def tagText (whole : Bool) (c : Cursor) : Option (TagBytes × Cursor) :=
  tagChars whole (c.rest.takeWhile fun d => !isBreak d).length c

/-- A handle ahead: `!`, or `!name!` with a possibly empty name, or `!name` without its end, which
is no handle. -/
def tagHandle (c : Cursor) : Option (List Char × Cursor) :=
  match c.rest with
  | '!' :: _ =>
    let (name, after) := (c.skip 1).span isNameChar
    match after.rest with
    | '!' :: _ => some ('!' :: name ++ ['!'], after.skip 1)
    | _ => some ('!' :: name, after)
  | _ => none

/-- The tag ahead: `!<tag>`, `!name!rest`, `!rest` or `!`. -/
def scanTag (flow : Bool) (c : Cursor) : Option (WrittenTag × Cursor) := do
  let (tag, c) ← (match c.rest with
    | '!' :: '<' :: _ => do
      let (text, c) ← tagText true (c.skip 2)
      match text, c.rest with
      | _ :: _, '>' :: _ => some (⟨"", text.untilZero⟩, c.skip 1)
      | _, _ => none
    | _ => do
      let (handle, c) ← tagHandle c
      let (text, c) ← tagText false c
      if handle.length > 1 && handle.getLast? = some '!' then
        if text.isEmpty then none else some (⟨String.ofList handle, text.untilZero⟩, c)
      else
        let suffix := (.ofText (String.ofList (handle.drop 1)) ++ text : TagBytes).untilZero
        some (if suffix.isEmpty then ⟨"", .ofText "!"⟩ else ⟨"!", suffix⟩, c))
  if endsWord c.rest || (flow && c.rest.head? = some ',') then some (tag, c) else none

def scanAnchor (c : Cursor) : Option (String × Cursor) :=
  let (name, c) := c.span isNameChar
  let ended := endsWord c.rest ||
    c.rest.head?.any fun d => d ∈ ['?', ':', ',', ']', '\x7d', '%', '@', '\x60']
  if name.isEmpty || !ended then none else some (String.ofList name, c)

/-- A number of a version; it has nine digits at most. -/
def versionNumber (c : Cursor) : Option (Nat × Cursor) := do
  let (digits, c) := c.span Char.isDigit
  if digits.length > 9 then none else some (← Decimal.readNat 10 digits, c)

def scanDirective (c : Cursor) : Option (Directive × Cursor) := do
  let (name, c) := (c.skip 1).span isNameChar
  if !endsWord c.rest then none
  let c := c.skipWhile isBlank
  let (directive, c) ← (match String.ofList name with
    | "YAML" => do
      let (major, c) ← versionNumber c
      if c.rest.head? ≠ some '.' then none
      let (minor, c) ← versionNumber (c.skip 1)
      some (.version major minor, c)
    | "TAG" => do
      let (handle, c) ← tagHandle c
      if handle.length > 1 && handle.getLast? ≠ some '!' then none
      if (c.rest.head?.map isBlank) ≠ some true then none
      let (start, c) ← tagText true (c.skipWhile isBlank)
      if start.isEmpty || !endsWord c.rest then none
      some (.tagHandle (String.ofList handle) start.untilZero, c)
    | _ => none)
  some (directive, (← c.skipComment?).skipLineEnd)

end SwaggerTypes.Markup
