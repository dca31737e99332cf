/-!
Texts as bytes in UTF-8.
-/
namespace SwaggerTypes.Text

/-- Why bytes are no text: from a byte on, some bytes begin no character, or the last character is
cut off. -/
inductive Undecodable where
  | invalid (length index : Nat)
  | incomplete (index : Nat)

def Undecodable.message : Undecodable → String
  | invalid length index =>
    "invalid utf-8 sequence of " ++ toString length ++ " bytes from index " ++ toString index
  | incomplete index => "incomplete utf-8 byte sequence from index " ++ toString index

/-- The least and the greatest byte that may follow each other in a character. -/
abbrev ByteRange := UInt8 × UInt8

def ByteRange.holds (r : ByteRange) (b : UInt8) : Bool := r.1 ≤ b && b ≤ r.2

/-- What has to follow the first byte of a character. -/
def followers (first : UInt8) : Option (List ByteRange) :=
  let any : ByteRange := (0x80, 0xbf)
  if first < 0x80 then some []
  else if first < 0xc2 then none
  else if first < 0xe0 then some [any]
  else if first = 0xe0 then some [(0xa0, 0xbf), any]
  else if first = 0xed then some [(0x80, 0x9f), any]
  else if first < 0xf0 then some [any, any]
  else if first = 0xf0 then some [(0x90, 0xbf), any, any]
  else if first < 0xf4 then some [any, any, any]
  else if first = 0xf4 then some [(0x80, 0x8f), any, any]
  else none

/-- The first fault of bytes. `expected` is what has to follow in the character that began at
`start`. -/
def undecodable? (start index : Nat) (expected : List ByteRange) : List UInt8 → Option Undecodable
  | [] => if expected.isEmpty then none else some (.incomplete start)
  | b :: rest =>
    match expected with
    | r :: more =>
      if r.holds b then undecodable? start (index + 1) more rest
      else some (.invalid (index - start) start)
    | [] =>
      match followers b with
      | some expected => undecodable? index (index + 1) expected rest
      | none => some (.invalid 1 index)

def decode (bytes : ByteArray) : Except Undecodable String :=
  match String.fromUTF8? bytes with
  | some text => .ok text
  | none => .error ((undecodable? 0 0 [] bytes.toList).getD (.incomplete bytes.size))

end SwaggerTypes.Text
