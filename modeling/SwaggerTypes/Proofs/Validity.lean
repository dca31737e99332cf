import SwaggerTypes.Resolution.Target
/-!
# Valid values

Which values a schema allows, read off its node. Numbers are compared as numbers: an integer and a
floating point number are the same when their values are. A reference allows what the schema it
leads to allows; validity is inductive, so a reference that only ever leads to itself allows nothing.
-/

namespace SwaggerTypes

namespace Decimal.Double

def isInteger (d : Double) (n : Int) : Bool :=
  let significand : Int := if d.negative then -d.significand else d.significand
  d.isFinite && significand * Int.pow 2 d.exponent.toNat = n * Int.pow 2 (-d.exponent).toNat

theorem same_iff {a b : Double} : a.same b = true ↔
    a.isNaN = false ∧ a.magnitude = b.magnitude ∧
      (a.negative = b.negative ∨ a.magnitude.val = 0) := by
  simp only [same, Bool.and_eq_true, Bool.not_eq_true', decide_eq_true_eq, Bool.or_eq_true,
    and_assoc]

theorem same_trans {a b c : Double} (h : a.same b = true) (h' : b.same c = true) :
    a.same c = true := by
  obtain ⟨hn, hm, hs⟩ := same_iff.mp h
  obtain ⟨-, hm', hs'⟩ := same_iff.mp h'
  refine same_iff.mpr ⟨hn, hm.trans hm', ?_⟩
  rcases hs with hs | hs
  · rw [hs, hm]
    exact hs'
  · exact .inr hs

theorem isInteger_congr {a b : Double} (h : a.same b = true) (n : Int) :
    a.isInteger n = b.isInteger n := by
  obtain ⟨-, hm, hs⟩ := same_iff.mp h
  obtain ⟨na, ma⟩ := a
  obtain ⟨nb, mb⟩ := b
  obtain rfl : ma = mb := hm
  rcases hs with rfl | hzero
  · rfl
  · obtain rfl : ma = 0 := Fin.ext hzero
    cases na <;> cases nb <;> rfl

end Decimal.Double

/-- Whether a value is the listed one, numbers compared as numbers. -/
def Literal.denotes : Literal → Value → Bool
  | .string a, .string b => a = b
  | .integer a, .integer b => a = b
  | .integer a, .float b => b.isInteger a
  | .float a, .integer b => a.isInteger b
  | .float a, .float b => a.same b
  | .bool a, .bool b => a = b
  | .null, .null => true
  | _, _ => false

theorem Literal.denotes_of_same {k l : Literal} {v : Value} (h : k.same l = true)
    (hv : l.denotes v = true) : k.denotes v = true := by
  cases k <;> cases l <;> first | cases h | skip
  case string.string | integer.integer | bool.bool =>
    obtain rfl := of_decide_eq_true h
    exact hv
  case null.null => exact hv
  case float.float a b =>
    cases v with
    | integer n => exact (Decimal.Double.isInteger_congr h n).trans hv
    | float d => exact Decimal.Double.same_trans h hv
    | _ => cases hv

def PrimitiveType.accepts : PrimitiveType → Value → Bool
  | .string, .string _ => true
  | .number, .integer _ | .number, .float _ => true
  | .integer, .integer _ | .integer, .float _ => true
  | .boolean, .bool _ => true
  | .null, .null => true
  | _, _ => false

/-- `Node.Accepts table node v`: the schema allows the value; references lead where the table
resolves them to. -/
inductive Node.Accepts (table : DefinitionTable) : Node → Value → Prop
  | null {kind doc} : Accepts table ⟨kind, doc, true⟩ .null
  | any {doc nullable v} : Accepts table ⟨.any, doc, nullable⟩ v
  | unsupported {construct doc nullable v} : Accepts table ⟨.unsupported construct, doc, nullable⟩ v
  | primitive {type format doc nullable v} (h : type.accepts v = true) :
      Accepts table ⟨.primitive type format, doc, nullable⟩ v
  | enum {values doc nullable v l} (hl : l ∈ values) (h : l.denotes v = true) :
      Accepts table ⟨.enum values, doc, nullable⟩ v
  | array {items doc nullable vs} (h : ∀ v ∈ vs, Accepts table items v) :
      Accepts table ⟨.array items, doc, nullable⟩ (.array vs)
  | object {ps required additional doc nullable fields}
      (present : ∀ name ∈ required, ∃ v, Entries.get? name fields = some v)
      (declared : ∀ name node v, (name, node) ∈ ps → Entries.get? name fields = some v →
        Accepts table node v)
      (others : ∀ node name v, additional = .typed node → Entries.get? name fields = some v →
        name ∉ ps.map Prod.fst → Accepts table node v) :
      Accepts table ⟨.object ps required additional, doc, nullable⟩ (.object fields)
  | reference {pointer target doc nullable v} (resolved : table.resolve pointer = .ok target)
      (h : Accepts table target.node v) : Accepts table ⟨.reference pointer, doc, nullable⟩ v
  | allOf {ms doc nullable v} (h : ∀ m ∈ ms, Accepts table m v) :
      Accepts table ⟨.composite .allOf ms, doc, nullable⟩ v
  | union {keyword ms m doc nullable v} (union : keyword.isUnion = true) (hm : m ∈ ms)
      (h : Accepts table m v) : Accepts table ⟨.composite keyword ms, doc, nullable⟩ v

end SwaggerTypes
