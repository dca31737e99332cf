import SwaggerTypes.Proofs.Numerals
import SwaggerTypes.Proofs.ParameterSchemas
/-!
# Listed values

The values that the types of a build list are those that schemas of the document list. Where the numbers
of a document are numbers of JSON, as in all documents that are read from texts, they are finite, also
those that are integers too large for a signed one and are listed as the nearest floating point number.
-/

namespace SwaggerTypes

/-! ## Large integers -/

namespace Decimal.Double

theorem roundHalfEven_le (num den : Nat) : roundHalfEven num den ≤ num / den + 1 := by
  unfold roundHalfEven
  dsimp only
  split
  · omega
  · split
    · omega
    · split <;> omega

/-- An integer of 64 bits lies far below the largest number. -/
theorem nearestMagnitude_lt {n : Nat} (hlow : 0x8000000000000000 ≤ n)
    (hhigh : n < 0x10000000000000000) :
    nearestMagnitude (n, 1) < infinityBits := by
  have hlog : n.log2 = 63 := (Nat.log2_eq_iff (by omega)).mpr ⟨hlow, hhigh⟩
  have hone : Nat.log2 1 = 0 := rfl
  have hscale : ∀ k : Nat, scale 2 (-(k : Int)) (n, 1) = (n, 2 ^ k) := by
    intro k
    simp [scale]
  have hround : ∀ k : Nat, 10 ≤ k → roundHalfEven n (2 ^ k) ≤ 2 ^ 54 + 1 := by
    intro k hk
    have hle : n / 2 ^ k ≤ 2 ^ 54 := by
      refine Nat.div_le_of_le_mul ?_
      calc n ≤ 2 ^ 10 * 2 ^ 54 := Nat.le_of_lt hhigh
        _ ≤ 2 ^ k * 2 ^ 54 := Nat.mul_le_mul_right _ (Nat.pow_le_pow_right (by decide) hk)
    exact Nat.le_trans (roundHalfEven_le n _) (Nat.succ_le_succ hle)
  have hbound : ∀ k : Nat, 10 ≤ k → k ≤ 11 →
      ((k : Int) + 1074).toNat * fractions + roundHalfEven n (2 ^ k) < infinityBits := by
    intro k hlow hhigh
    have hk := hround k hlow
    have htoNat : ((k : Int) + 1074).toNat = k + 1074 := by omega
    rw [htoNat]
    unfold fractions infinityBits
    omega
  have hlowest : max ((n.log2 : Int) - Nat.log2 1 - 53) (-1074) = ((10 : Nat) : Int) := by
    rw [hlog, hone]
    decide
  unfold nearestMagnitude
  dsimp only
  rw [hlowest, hscale]
  split
  · have hbeyond : ((10 : Nat) : Int) + 1 = ((11 : Nat) : Int) := rfl
    rw [hbeyond, hscale]
    exact hbound 11 (by decide) (by decide)
  · rw [hscale]
    exact hbound 10 (by decide) (by decide)

/-- The number nearest to an integer that is too large for a signed one of 64 bits is finite. -/
theorem isFinite_ofInt {n : Int} (hlow : 0x8000000000000000 ≤ n) (hhigh : n < 0x10000000000000000) :
    (ofInt n).isFinite = true := by
  obtain ⟨k, rfl⟩ := Int.eq_ofNat_of_zero_le (Int.le_trans (by decide) hlow)
  have hdigits : (Nat.toDigits 10 k).length ≤ 20 :=
    (Nat.length_toDigits_le_iff (by decide) (by decide)).mpr (by omega)
  have hmagnitude := nearestMagnitude_lt (n := k) (by omega) (by omega)
  have hscale : scale 10 0 (k, 1) = (k, 1) := by simp [scale]
  unfold ofInt ofDecimal
  rw [Int.natAbs_natCast]
  dsimp only
  rw [if_neg (by simp; omega), if_neg (by omega), hscale, Nat.min_eq_right (Nat.le_of_lt hmagnitude)]
  unfold isFinite
  simp only [Fin.val_ofNat, decide_eq_true_eq]
  exact Nat.lt_of_le_of_lt (Nat.mod_le _ _) hmagnitude

end Decimal.Double

/-! ## Numbers of a document -/

namespace Value

mutual

/-- Whether the numbers in a value are those of JSON: integers of 64 bits, with a sign or without one,
and finite floating point numbers. -/
def hasJsonNumbers : Value → Bool
  | integer n => -0x8000000000000000 ≤ n && n < 0x10000000000000000
  | float d => d.isFinite
  | array items => itemsJsonNumbers items
  | object fields => fieldsJsonNumbers fields
  | null | bool _ | string _ => true
termination_by structural v => v

def itemsJsonNumbers : List Value → Bool
  | [] => true
  | v :: vs => v.hasJsonNumbers && itemsJsonNumbers vs
termination_by structural vs => vs

def fieldsJsonNumbers : List (String × Value) → Bool
  | [] => true
  | (_, v) :: fields => v.hasJsonNumbers && fieldsJsonNumbers fields
termination_by structural fields => fields

end

theorem itemsJsonNumbers_eq (items : List Value) :
    itemsJsonNumbers items = items.all hasJsonNumbers := by
  induction items with
  | nil => rfl
  | cons v vs ih => rw [itemsJsonNumbers, ih, List.all_cons]

theorem fieldsJsonNumbers_eq (fields : List (String × Value)) :
    fieldsJsonNumbers fields = fields.all fun field => field.2.hasJsonNumbers := by
  induction fields with
  | nil => rfl
  | cons field fields ih => rw [fieldsJsonNumbers, ih, List.all_cons]

theorem Holds.hasJsonNumbers {v w : Value} (h : v.Holds w) (hv : v.hasJsonNumbers = true) :
    w.hasJsonNumbers = true := by
  rcases h with ⟨fields, name, rfl, hmem⟩ | ⟨items, rfl, hmem⟩
  · rw [Value.hasJsonNumbers, fieldsJsonNumbers_eq, List.all_eq_true] at hv
    exact hv _ hmem
  · rw [Value.hasJsonNumbers, itemsJsonNumbers_eq, List.all_eq_true] at hv
    exact hv _ hmem

theorem Contains.hasJsonNumbers {v w : Value} (h : v.Contains w) (hv : v.hasJsonNumbers = true) :
    w.hasJsonNumbers = true := by
  induction h with
  | refl => exact hv
  | tail _ hholds ih => exact hholds.hasJsonNumbers ih

theorem isFinite_literal {v : Value} {value : Literal} (hv : v.hasJsonNumbers = true)
    (h : Literal.ofValue? v = some value) : value.isFinite = true := by
  cases v with
  | integer n =>
      cases h
      rw [hasJsonNumbers, Bool.and_eq_true, decide_eq_true_eq, decide_eq_true_eq] at hv
      split
      · rfl
      · next hlarge => exact Decimal.Double.isFinite_ofInt (Int.not_lt.mp hlarge) hv.2
  | float d =>
      cases h
      exact hv
  | null | bool | string =>
      cases h
      rfl
  | array | object => cases h

end Value

/-- What comes out of a list item by item comes out of one of the items. -/
theorem mem_of_mapM_some {α β : Type} {f : α → Option β} {l : List α} {l' : List β}
    (h : l.mapM f = some l') : ∀ b ∈ l', ∃ a ∈ l, f a = some b := by
  induction l generalizing l' with
  | nil =>
      cases h
      exact nofun
  | cons a l ih =>
      rw [List.mapM_cons] at h
      obtain ⟨first, hfirst, h⟩ := Option.bind_eq_some_iff.mp h
      obtain ⟨rest, hrest, heq⟩ := Option.bind_eq_some_iff.mp h
      cases heq
      intro b hb
      rcases List.mem_cons.mp hb with rfl | hb
      · exact ⟨a, List.mem_cons_self, hfirst⟩
      · obtain ⟨c, hc, hout⟩ := ih hrest b hb
        exact ⟨c, List.mem_cons_of_mem _ hc, hout⟩

theorem Kind.mem_ofValues {values : List Value} {literals : List Literal}
    (h : Kind.ofValues values = .enum literals) :
    ∀ value ∈ literals, ∃ v ∈ values, Literal.ofValue? v = some value := by
  unfold Kind.ofValues at h
  split at h
  · cases h
  · split at h
    · next hread =>
      cases h
      exact mem_of_mapM_some hread
    · cases h

/-- With numbers of JSON in a document, its schemas list finite numbers only. -/
theorem Value.grants_finite {v : Value} (hv : v.hasJsonNumbers = true) :
    v.Grants (Node.Lists fun value => value.isFinite = true) where
  object := nofun
  values := by
    intro values literals doc nullable hvalues hread found hfound value hvalue
    cases hfound
    obtain ⟨w, hw, hliteral⟩ := Kind.mem_ofValues hread value hvalue
    exact isFinite_literal ((hvalues w hw).hasJsonNumbers hv) hliteral
  other := fun _ henum found hfound => absurd hfound (henum found)

end SwaggerTypes
