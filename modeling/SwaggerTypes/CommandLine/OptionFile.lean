import SwaggerTypes.Document.Entries
import SwaggerTypes.Document.Value
import SwaggerTypes.Markup.Scalar
/-!
Files that set options, one on each line: a key, an equals sign, and a quoted text or a boolean.
-/
namespace SwaggerTypes.OptionFile

def isPrinted (c : Char) : Bool := c = '\t' || (' ' ≤ c && c ≠ '\x7f')

def isBlank (c : Char) : Bool := c = ' ' || c = '\t'

def isKeyChar (c : Char) : Bool := c.isAlphanum || c = '-' || c = '_'

/-- Where a quoted text stands: behind some closing quotes that may still belong to it, behind a
backslash, in a code point with some digits to come, or in a gap that a backslash at the end of a
line leaves out. -/
inductive Position where
  | text (quotes : Nat)
  | escape
  | code (digits value : Nat)
  | gap (broken : Bool)

/-- A quoted text as a format: its quote, whether backslashes escape, and whether it has three
quotes on each side and may hold line ends. -/
structure Quotation where
  quote : Char
  escapes : Bool
  long : Bool

def Quotation.basic (long : Bool) : Quotation := ⟨'"', true, long⟩
def Quotation.verbatim (long : Bool) : Quotation := ⟨'\'', false, long⟩

def escapedChar? : Char → Option Char
  | 'b' => some '\x08'
  | 't' => some '\t'
  | 'n' => some '\n'
  | 'f' => some '\x0c'
  | 'r' => some '\r'
  | '"' => some '"'
  | '\\' => some '\\'
  | _ => none

def codeDigits? : Char → Option Nat
  | 'u' => some 4
  | 'U' => some 8
  | _ => none

/-- The text of a long quotation that ended with some quotes, the last three of which close it. -/
def closed? (q : Quotation) (text : List Char) (quotes : Nat) : Option String :=
  if q.long && 3 ≤ quotes && quotes ≤ 5 then
    some (String.ofList (List.replicate (quotes - 3) q.quote ++ text).reverse)
  else none

/-- Reads a quoted text behind its opening quotes; `text` is what is read, last character first. -/
def quoted (q : Quotation) (p : Position) (text : List Char) :
    List Char → Option (String × List Char)
  | [] => match p with
    | .text quotes => (closed? q text quotes).map (·, [])
    | _ => none
  | '\r' :: '\n' :: rest =>
    if !q.long then none
    else match p with
      | .text quotes =>
        if 3 ≤ quotes then (closed? q text quotes).map (·, '\r' :: '\n' :: rest)
        else quoted q (.text 0) ('\n' :: (List.replicate quotes q.quote ++ text)) rest
      | .escape | .gap _ => quoted q (.gap true) text rest
      | .code _ _ => none
  | c :: rest =>
    let plain (quotes : Nat) :=
      if c = q.quote then
        if q.long then quoted q (.text (quotes + 1)) text rest
        else some (String.ofList text.reverse, rest)
      else if 3 ≤ quotes then (closed? q text quotes).map (·, c :: rest)
      else
        let text := List.replicate quotes q.quote ++ text
        if c = '\\' && q.escapes then quoted q .escape text rest
        else if isPrinted c || (q.long && c = '\n') then quoted q (.text 0) (c :: text) rest
        else none
    match p with
    | .text quotes => plain quotes
    | .gap broken =>
      if isBlank c then quoted q (.gap broken) text rest
      else if c = '\n' then quoted q (.gap true) text rest
      else if broken then plain 0
      else none
    | .escape =>
      match escapedChar? c, codeDigits? c with
      | some char, _ => quoted q (.text 0) (char :: text) rest
      | none, some digits => quoted q (.code digits 0) text rest
      | none, none =>
        if !q.long then none
        else if isBlank c then quoted q (.gap false) text rest
        else if c = '\n' then quoted q (.gap true) text rest
        else none
    | .code digits value =>
      match Decimal.digitValue 16 c with
      | none => none
      | some d =>
        let value := value * 16 + d
        if digits ≤ 1 then
          match Markup.charOfCode? value with
          | some char => quoted q (.text 0) (char :: text) rest
          | none => none
        else quoted q (.code (digits - 1) value) text rest

def skipLineEnd : List Char → List Char
  | '\r' :: '\n' :: rest => rest
  | '\n' :: rest => rest
  | cs => cs

def quotedText? (long : Bool) : List Char → Option (String × List Char)
  | '"' :: '"' :: '"' :: rest =>
    if long then quoted (.basic true) (.text 0) [] (skipLineEnd rest)
    else some ("", '"' :: rest)
  | '\'' :: '\'' :: '\'' :: rest =>
    if long then quoted (.verbatim true) (.text 0) [] (skipLineEnd rest)
    else some ("", '\'' :: rest)
  | '"' :: rest => quoted (.basic false) (.text 0) [] rest
  | '\'' :: rest => quoted (.verbatim false) (.text 0) [] rest
  | _ => none

def key? (cs : List Char) : Option (String × List Char) :=
  let plain := cs.takeWhile isKeyChar
  if plain.isEmpty then quotedText? false cs
  else some (String.ofList plain, cs.dropWhile isKeyChar)

/-- The value ahead. Options have no values of other kinds. -/
def value? : List Char → Option (Value × List Char)
  | 't' :: 'r' :: 'u' :: 'e' :: rest => some (.bool true, rest)
  | 'f' :: 'a' :: 'l' :: 's' :: 'e' :: rest => some (.bool false, rest)
  | cs => (quotedText? true cs).map fun (text, rest) => (.string text, rest)

/-- Passes over the rest of a line that may hold blanks and a comment. -/
def endLine? (cs : List Char) : Option (List Char) :=
  let cs := cs.dropWhile isBlank
  let cs := match cs with
    | '#' :: comment => comment.dropWhile isPrinted
    | _ => cs
  match cs with
  | [] => some []
  | '\n' :: rest => some rest
  | '\r' :: '\n' :: rest => some rest
  | _ => none

/-- The settings of a file. Every round reads a line or a setting. -/
def settings : (fuel : Nat) → List Char → Option (List (String × Value))
  | 0, _ => none
  | fuel + 1, cs =>
    let cs := cs.dropWhile isBlank
    match cs with
    | [] => some []
    | c :: _ =>
      if c = '#' || c = '\n' || c = '\r' then do settings fuel (← endLine? cs)
      else do
        let (key, cs) ← key? cs
        match cs.dropWhile isBlank with
        | '=' :: cs =>
          let (value, cs) ← value? (cs.dropWhile isBlank)
          let more ← settings fuel (← endLine? cs)
          some ((key, value) :: more)
        | _ => none

/-- The settings of a file as a map. No key may stand there twice. -/
def document? (text : String) : Option Value := do
  let cs := match text.toList with
    | '\ufeff' :: cs => cs
    | cs => cs
  let entries ← settings (cs.length + 1) cs
  let fields := Entries.ofList entries
  if fields.length ≠ entries.length then none
  return .object fields

end SwaggerTypes.OptionFile
