import SwaggerTypes.Decimal.Reading
import SwaggerTypes.Decimal.Shortest
import SwaggerTypes.Document.Value
import SwaggerTypes.Markup.Tag
/-!
The data a text describes, before it becomes a document: here any datum may be a key, and tags are
kept. Plain words are read by their looks.
-/
namespace SwaggerTypes.Markup

open Decimal (Double)

inductive Datum where
  | null
  | bool (b : Bool)
  | integer (n : Int)
  | float (d : Double)
  | string (s : String)
  | sequence (items : List Datum)
  | mapping (entries : List (Datum × Datum))
  | tagged (name : String) (content : Datum)

namespace Datum

mutual

def same (a b : Datum) : Bool :=
  match a, b with
  | null, null => true
  | bool a, bool b => a = b
  | integer a, integer b => a = b
  | float a, float b => a.same b || (a.isNaN && b.isNaN)
  | string a, string b => a = b
  | sequence as, sequence bs => sameItems as bs
  | mapping as, mapping bs => as.length = bs.length && sameEntries as bs
  | tagged n a, tagged m b => n = m && same a b
  | _, _ => false
termination_by structural a

def sameItems (as bs : List Datum) : Bool :=
  match as, bs with
  | [], [] => true
  | a :: as, b :: bs => same a b && sameItems as bs
  | _, _ => false
termination_by structural as

def sameEntries (as bs : List (Datum × Datum)) : Bool :=
  match as with
  | [] => true
  | a :: as => bs.any (fun b => same a.1 b.1 && same a.2 b.2) && sameEntries as bs
termination_by structural as

end

mutual

def height (d : Datum) : Nat :=
  match d with
  | sequence items => itemsHeight items + 1
  | mapping entries => entriesHeight entries + 1
  | tagged _ content => height content + 1
  | null | bool _ | integer _ | float _ | string _ => 1
termination_by structural d

def itemsHeight (items : List Datum) : Nat :=
  match items with
  | [] => 0
  | item :: rest => max (height item) (itemsHeight rest)
termination_by structural items

def entriesHeight (entries : List (Datum × Datum)) : Nat :=
  match entries with
  | [] => 0
  | e :: rest => max (max (height e.1) (height e.2)) (entriesHeight rest)
termination_by structural entries

end

def null? (text : String) : Option Datum :=
  if text ∈ ["null", "Null", "NULL", "~"] then some null else none

def bool? (text : String) : Option Datum :=
  if text ∈ ["true", "True", "TRUE"] then some (bool true)
  else if text ∈ ["false", "False", "FALSE"] then some (bool false)
  else none

/-- Digits behind a zero are no number. -/
def zeroLed : List Char → Bool
  | '0' :: rest => !rest.isEmpty && rest.all Char.isDigit
  | _ => false

/-- A number without sign, decimal or with the mark of another base. -/
def magnitude? : List Char → Option Nat
  | '0' :: 'x' :: digits => Decimal.readNat 16 digits
  | '0' :: 'o' :: digits => Decimal.readNat 8 digits
  | '0' :: 'b' :: digits => Decimal.readNat 2 digits
  | digits => if zeroLed digits then none else Decimal.readNat 10 digits

def integer? (text : String) : Option Int :=
  let (negative, cs) := Decimal.splitSign text.toList
  (magnitude? cs).map fun n => if negative then -(n : Int) else n

/-- The floating point number a word writes. What is too large for one is not read as a number;
infinities have their own words. -/
def float? (text : String) : Option Double :=
  if text ∈ [".inf", ".Inf", ".INF", "+.inf", "+.Inf", "+.INF"] then some (.infinity false)
  else if text ∈ ["-.inf", "-.Inf", "-.INF"] then some (.infinity true)
  else if text ∈ [".nan", ".NaN", ".NAN"] then some (.nan false)
  else (Decimal.readDouble text).filter Double.isFinite

/-- How integers fare: those of 64 bits are data, longer ones of 128 bits have no form, and beyond
that they are not read as integers. -/
inductive IntegerRange where
  | datum
  | refused
  | beyond

def IntegerRange.of (n : Int) : IntegerRange :=
  if -0x8000000000000000 ≤ n ∧ n < 0x10000000000000000 then datum
  else if -0x80000000000000000000000000000000 ≤ n ∧ n < 0x100000000000000000000000000000000 then
    refused
  else beyond

def ofWord (text : String) : Option Datum :=
  if text = "" then some null
  else
    let number : Datum :=
      if zeroLed (Decimal.splitSign text.toList).2 then string text
      else match float? text with
        | some d => float d
        | none => string text
    let numeric := match integer? text with
      | none => some number
      | some n => match IntegerRange.of n with
        | .datum => some (integer n)
        | .refused => none
        | .beyond => some number
    (null? text <|> bool? text).orElse fun _ => numeric

/-- The datum of a scalar with a tag that is not local: the tags of booleans, numbers and null ask
for words of their kind, and any other makes it a string. -/
def ofTagged (tag : TagBytes) (text : String) : Option Datum :=
  match tag.text? with
  | some "tag:yaml.org,2002:bool" => bool? text
  | some "tag:yaml.org,2002:null" => null? text
  | some "tag:yaml.org,2002:float" => (float? text).map float
  | some "tag:yaml.org,2002:int" =>
    match integer? text with
    | some n => match IntegerRange.of n with
      | .datum => some (integer n)
      | .refused | .beyond => none
    | none => none
  | _ => some (string text)

def isLocal (tag : TagBytes) : Bool := tag.head? = some 0x21

/-- The name of a local tag. One whose bytes are no text has none. -/
def localName? (tag : TagBytes) : Option String :=
  tag.text?.bind fun text => match text.toList with
    | ['!'] => some "!!"
    | '!' :: '!' :: c :: rest => some (String.ofList ('!' :: c :: rest))
    | '!' :: rest => some (String.ofList ('!' :: rest))
    | _ => none

end Datum

end SwaggerTypes.Markup
