import Mathlib.Algebra.Order.Field.Power
import Mathlib.Data.List.TakeWhile
import Mathlib.Data.Rat.Cast.Order
import Mathlib.Tactic.FieldSimp
import Mathlib.Tactic.Linarith
import Mathlib.Tactic.NormNum
import Mathlib.Tactic.Positivity
import Mathlib.Tactic.Ring
import SwaggerTypes.Proofs.Numerals
/-!
# Shortest decimals

The text of a finite number tells which number it is. The reals that round to a number lie between
halfway to its neighbours, and these neighbourhoods do not meet: where two share an end, the parity of
the significands gives it to one of them. A decimal of seventeen digits always falls into the
neighbourhood, so the search for the shortest one ends with a decimal of the number, and its digits are
all that is written.
-/

namespace SwaggerTypes.Decimal

namespace Double

/-! ## Fractions -/

def ratio (frac : Nat × Nat) : ℚ := frac.1 / frac.2

variable {base : Nat}

theorem scale_pos (hbase : 0 < base) (e : Int) {frac : Nat × Nat} (h : 0 < frac.2) :
    0 < (scale base e frac).2 :=
  Nat.mul_pos h (Nat.pow_pos hbase)

theorem ratio_scale (hbase : 0 < base) (e : Int) (frac : Nat × Nat) :
    ratio (scale base e frac) = ratio frac * (base : ℚ) ^ e := by
  have hne : (base : ℚ) ≠ 0 := Nat.cast_ne_zero.mpr (Nat.ne_of_gt hbase)
  have hscale : ratio (scale base e frac) =
      frac.1 * (base : ℚ) ^ e.toNat / (frac.2 * (base : ℚ) ^ (-e).toNat) := by
    simp [ratio, scale]
  have he : (base : ℚ) ^ e = (base : ℚ) ^ e.toNat / (base : ℚ) ^ (-e).toNat := by
    rw [← zpow_natCast, ← zpow_natCast, ← zpow_sub₀ hne]
    congr 1
    omega
  rw [hscale, he, ratio]
  ring

/-! ## Neighbourhoods -/

def quarter (d : Double) : ℚ := 2 ^ (d.exponent - 2)

theorem quarter_pos (d : Double) : 0 < d.quarter := zpow_pos (by norm_num) _

def Near (d : Double) (x : ℚ) : Prop :=
  if d.neighbourhood.closed then
    d.neighbourhood.low * d.quarter ≤ x ∧ x ≤ d.neighbourhood.high * d.quarter
  else d.neighbourhood.low * d.quarter < x ∧ x < d.neighbourhood.high * d.quarter

theorem near_of_lt {d : Double} {x : ℚ} (hlow : d.neighbourhood.low * d.quarter < x)
    (hhigh : x < d.neighbourhood.high * d.quarter) : d.Near x := by
  unfold Near
  split
  · exact ⟨le_of_lt hlow, le_of_lt hhigh⟩
  · exact ⟨hlow, hhigh⟩

theorem Near.le {d : Double} {x : ℚ} (h : d.Near x) :
    d.neighbourhood.low * d.quarter ≤ x ∧ x ≤ d.neighbourhood.high * d.quarter := by
  unfold Near at h
  split at h
  · exact h
  · exact ⟨le_of_lt h.1, le_of_lt h.2⟩

/-- A quarter of the unit in steps of a decimal grid, as the search for the shortest decimal has it. -/
def gridUnit (d : Double) (p : Int) : Nat × Nat := scale 10 (-p) (scale 2 (d.exponent - 2) (1, 1))

theorem gridUnit_pos (d : Double) (p : Int) : 0 < (d.gridUnit p).2 :=
  scale_pos (by decide) _ (scale_pos (by decide) _ (by decide))

/-- One factor turns multiples of the quarter unit and points of the grid into whole numbers. -/
theorem gridUnit_eq (d : Double) (p : Int) : ∃ t : ℚ, 0 < t ∧
    (∀ a : Nat, ((a * (d.gridUnit p).1 : Nat) : ℚ) = a * d.quarter * t) ∧
    ∀ c : Nat, ((c * (d.gridUnit p).2 : Nat) : ℚ) = c * 10 ^ p * t := by
  have hten : (0 : ℚ) < 10 ^ p := zpow_pos (by norm_num) _
  have hden : (0 : ℚ) < (d.gridUnit p).2 := Nat.cast_pos.mpr (d.gridUnit_pos p)
  have hratio : ratio (d.gridUnit p) = d.quarter * 10 ^ (-p) := by
    rw [gridUnit, ratio_scale (by decide), ratio_scale (by decide), quarter]
    simp [ratio]
  rw [ratio, div_eq_iff (ne_of_gt hden), zpow_neg] at hratio
  refine ⟨(d.gridUnit p).2 / 10 ^ p, div_pos hden hten, fun a => ?_, fun c => ?_⟩
  · rw [Nat.cast_mul, hratio]
    ring
  · rw [Nat.cast_mul]
    field_simp

theorem mul_gridUnit_le_iff (d : Double) (p : Int) (a c : Nat) :
    a * (d.gridUnit p).1 ≤ c * (d.gridUnit p).2 ↔ (a : ℚ) * d.quarter ≤ c * 10 ^ p := by
  obtain ⟨t, ht, hquarter, hgrid⟩ := d.gridUnit_eq p
  rw [← Nat.cast_le (α := ℚ), hquarter, hgrid, mul_le_mul_iff_of_pos_right ht]

theorem le_mul_gridUnit_iff (d : Double) (p : Int) (a c : Nat) :
    c * (d.gridUnit p).2 ≤ a * (d.gridUnit p).1 ↔ (c : ℚ) * 10 ^ p ≤ a * d.quarter := by
  obtain ⟨t, ht, hquarter, hgrid⟩ := d.gridUnit_eq p
  rw [← Nat.cast_le (α := ℚ), hquarter, hgrid, mul_le_mul_iff_of_pos_right ht]

/-! ## Binary form -/

theorem significand_lt (d : Double) : d.significand < 2 * fractions := by
  have hbits : d.biased = d.magnitude.val / fractions := rfl
  unfold significand
  unfold fractions at hbits ⊢
  split <;> omega

theorem le_significand {d : Double} (h : 1 < max d.biased 1) : fractions ≤ d.significand := by
  unfold significand
  rw [if_neg (by omega)]
  exact Nat.le_add_left _ _

/-- A step of the significand is a step of the bits, also from one exponent to the next. -/
theorem magnitude_eq (d : Double) :
    d.magnitude.val = (max d.biased 1 - 1) * fractions + d.significand := by
  have hbits : d.biased = d.magnitude.val / fractions := rfl
  unfold significand
  unfold fractions at hbits ⊢
  split <;> omega

/-- Larger bits mean a larger exponent, or the same one with a larger significand. -/
theorem lt_or_eq_of_magnitude_lt {d d' : Double} (h : d.magnitude.val < d'.magnitude.val) :
    max d.biased 1 < max d'.biased 1 ∨
      max d.biased 1 = max d'.biased 1 ∧ d.significand < d'.significand := by
  have hlt := d'.significand_lt
  have hle := le_significand (d := d)
  rw [magnitude_eq, magnitude_eq] at h
  unfold fractions at *
  omega

/-! ## Neighbourhoods do not meet -/

theorem quarter_eq {d d' : Double} {j : Nat} (h : max d'.biased 1 = max d.biased 1 + j) :
    d'.quarter = 2 ^ j * d.quarter := by
  have hexponent : d'.exponent - 2 = j + (d.exponent - 2) := by
    simp only [exponent, h]
    omega
  rw [quarter, hexponent, zpow_add₀ (by norm_num), zpow_natCast, quarter]

/-- Below the smallest significand of an exponent the distance is that of the exponent before. -/
theorem low_eq (d : Double) : d.neighbourhood.low =
    4 * d.significand - if d.significand = fractions ∧ 1 < d.biased then 1 else 2 := by
  simp [neighbourhood]

theorem high_eq (d : Double) : d.neighbourhood.high = 4 * d.significand + 2 := rfl

theorem closed_eq (d : Double) : d.neighbourhood.closed = decide (d.significand % 2 = 0) := rfl

/-- Above a number of smaller bits comes the end of its neighbourhood, and then the start of the
neighbourhood of the other. Where these are the same, only one of them belongs to its number. -/
theorem ends_of_magnitude_lt {d d' : Double} (h : d.magnitude.val < d'.magnitude.val) :
    ∃ j, d'.quarter = 2 ^ j * d.quarter ∧
      d.neighbourhood.high ≤ 2 ^ j * d'.neighbourhood.low ∧
      (d.neighbourhood.high = 2 ^ j * d'.neighbourhood.low →
        d.neighbourhood.closed ≠ d'.neighbourhood.closed) := by
  simp only [closed_eq, ne_eq, decide_eq_decide]
  have hlt := d.significand_lt
  have hlow := d'.low_eq
  have hhigh := d.high_eq
  unfold fractions at hlt hlow
  rcases lt_or_eq_of_magnitude_lt h with hexponent | ⟨hexponent, hsignificand⟩
  · obtain ⟨j, hj⟩ : ∃ j, max d'.biased 1 = max d.biased 1 + (j + 1) :=
      ⟨max d'.biased 1 - max d.biased 1 - 1, by omega⟩
    have hle := le_significand (d := d') (by omega)
    have htwo : 2 * d'.neighbourhood.low ≤ 2 ^ (j + 1) * d'.neighbourhood.low := by
      rw [Nat.pow_succ, Nat.mul_comm (2 ^ j), Nat.mul_assoc]
      exact Nat.mul_le_mul_left 2 (Nat.le_mul_of_pos_left _ (Nat.two_pow_pos j))
    unfold fractions at hle
    refine ⟨j + 1, quarter_eq hj, ?_, fun hsame => ?_⟩ <;> split at hlow <;> omega
  · refine ⟨0, quarter_eq hexponent.symm, ?_⟩
    have hle := le_significand (d := d)
    unfold fractions at hle
    rw [Nat.pow_zero, Nat.one_mul]
    refine ⟨?_, fun hsame => ?_⟩ <;> split at hlow <;> omega

/-- No real rounds to two magnitudes. -/
theorem Near.magnitude_not_lt {d d' : Double} {x : ℚ} (h : d.Near x) (h' : d'.Near x) :
    ¬d.magnitude.val < d'.magnitude.val := by
  intro hlt
  obtain ⟨j, hquarter, hends, hparity⟩ := ends_of_magnitude_lt hlt
  have hstart : (d'.neighbourhood.low : ℚ) * d'.quarter =
      ((2 ^ j * d'.neighbourhood.low : Nat) : ℚ) * d.quarter := by
    rw [hquarter]
    push_cast
    ring
  rcases Nat.lt_or_eq_of_le hends with hlt | heq
  · have hbetween := mul_lt_mul_of_pos_right (Nat.cast_lt (α := ℚ).mpr hlt) d.quarter_pos
    rw [← hstart] at hbetween
    exact absurd hbetween (not_lt.mpr (le_trans h'.le.1 h.le.2))
  · have hmeet : (d'.neighbourhood.low : ℚ) * d'.quarter = d.neighbourhood.high * d.quarter := by
      rw [hstart, heq]
    unfold Near at h h'
    split at h <;> split at h'
    · next hclosed hclosed' => exact hparity heq (hclosed.trans hclosed'.symm)
    · exact absurd (lt_of_lt_of_le h'.1 h.2) (by rw [hmeet]; exact lt_irrefl _)
    · exact absurd (lt_of_le_of_lt h'.1 h.2) (by rw [hmeet]; exact lt_irrefl _)
    · exact absurd (lt_trans h'.1 h.2) (by rw [hmeet]; exact lt_irrefl _)

theorem Near.magnitude_eq {d d' : Double} {x : ℚ} (h : d.Near x) (h' : d'.Near x) :
    d.magnitude = d'.magnitude :=
  Fin.ext (Nat.le_antisymm (Nat.not_lt.mp (h'.magnitude_not_lt h))
    (Nat.not_lt.mp (h.magnitude_not_lt h')))

/-! ## The search on a grid -/

theorem holds_iff (d : Double) (p : Int) (c : Nat) :
    d.neighbourhood.holds (d.gridUnit p) c = true ↔ d.Near (c * 10 ^ p) := by
  unfold Neighbourhood.holds Near
  dsimp only
  split
  · rw [Bool.and_eq_true, decide_eq_true_eq, decide_eq_true_eq, mul_gridUnit_le_iff,
      le_mul_gridUnit_iff]
  · rw [Bool.and_eq_true, decide_eq_true_eq, decide_eq_true_eq, ← not_le, ← not_le,
      mul_gridUnit_le_iff, le_mul_gridUnit_iff, not_le, not_le]

/-- The search finds one of the two points next to the number that reads back, if one of them does. -/
theorem onGrid_cases (tie : Tie) (d : Double) (p : Int) {floor : Nat}
    (hfloor : floor = d.neighbourhood.mid * (d.gridUnit p).1 / (d.gridUnit p).2) :
    (∃ c, d.onGrid tie p = some c ∧ d.neighbourhood.holds (d.gridUnit p) c = true) ∨
      (d.onGrid tie p = none ∧ d.neighbourhood.holds (d.gridUnit p) floor = false ∧
        d.neighbourhood.holds (d.gridUnit p) (floor + 1) = false) := by
  subst hfloor
  unfold onGrid
  dsimp only
  split
  · next hfloor hnext => exact .inr ⟨rfl, hfloor, hnext⟩
  · next hfloor _ => exact .inl ⟨_, rfl, hfloor⟩
  · next _ hnext => exact .inl ⟨_, rfl, hnext⟩
  · next hfloor hnext =>
    split
    · exact .inl ⟨_, rfl, hfloor⟩
    · split
      · exact .inl ⟨_, rfl, hnext⟩
      · cases tie with
        | up => exact .inl ⟨_, rfl, hnext⟩
        | toEven =>
            refine .inl ⟨_, rfl, ?_⟩
            split
            · exact hfloor
            · exact hnext

theorem near_of_onGrid {tie : Tie} {d : Double} {p : Int} {c : Nat}
    (h : d.onGrid tie p = some c) : d.Near (c * 10 ^ p) := by
  rcases onGrid_cases tie d p rfl with ⟨c', hsome, hholds⟩ | ⟨hnone, -⟩
  · rw [h] at hsome
    cases hsome
    exact (holds_iff d p c).mp hholds
  · rw [h] at hnone
    cases hnone

/-- On a grid that is finer than the neighbourhood the search finds a point. -/
theorem onGrid_ne_none {tie : Tie} {d : Double} {p : Int}
    (h : (10 : ℚ) ^ p < (d.neighbourhood.high - d.neighbourhood.low) * d.quarter) :
    d.onGrid tie p ≠ none := by
  intro hnone
  obtain ⟨floor, hvalue⟩ : ∃ floor,
      floor = d.neighbourhood.mid * (d.gridUnit p).1 / (d.gridUnit p).2 := ⟨_, rfl⟩
  obtain ⟨c, hsome, -⟩ | ⟨-, hfloor, hnext⟩ := onGrid_cases tie d p hvalue
  · rw [hnone] at hsome
    cases hsome
  have hpos := d.gridUnit_pos p
  have hle : (floor : ℚ) * 10 ^ p ≤ d.neighbourhood.mid * d.quarter := by
    rw [← le_mul_gridUnit_iff, hvalue]
    exact Nat.div_mul_le_self _ _
  have hlt : (d.neighbourhood.mid : ℚ) * d.quarter < (floor + 1 : Nat) * 10 ^ p := by
    rw [← not_le, ← le_mul_gridUnit_iff, not_le, hvalue, Nat.mul_comm (_ + 1)]
    exact Nat.lt_mul_div_succ _ hpos
  have hlow : (d.neighbourhood.low : ℚ) ≤ d.neighbourhood.mid := Nat.cast_le.mpr (Nat.sub_le _ _)
  have hhigh : (d.neighbourhood.mid : ℚ) < d.neighbourhood.high :=
    Nat.cast_lt.mpr (Nat.lt_add_of_pos_right (by decide))
  -- the neighbourhood lies between two points of the grid that are next to each other
  have hbelow : (floor : ℚ) * 10 ^ p ≤ d.neighbourhood.low * d.quarter := by
    by_contra hcontra
    have hnear := near_of_lt (not_le.mp hcontra)
      (lt_of_le_of_lt hle (mul_lt_mul_of_pos_right hhigh d.quarter_pos))
    rw [← holds_iff, hfloor] at hnear
    cases hnear
  have habove : (d.neighbourhood.high : ℚ) * d.quarter ≤ (floor + 1 : Nat) * 10 ^ p := by
    by_contra hcontra
    have hnear := near_of_lt
      (lt_of_le_of_lt (mul_le_mul_of_nonneg_right hlow (le_of_lt d.quarter_pos)) hlt)
      (not_le.mp hcontra)
    rw [← holds_iff, hnext] at hnear
    cases hnear
  push_cast at habove
  linarith

/-! ## The order of a number -/

def value (d : Double) : ℚ := d.significand * 2 ^ d.exponent

theorem reaches_iff (d : Double) (p : Int) : d.reaches p = true ↔ (10 : ℚ) ^ p ≤ d.value := by
  have hten : (0 : ℚ) < 10 ^ p := zpow_pos (by norm_num) _
  have hpos : 0 < (scale 10 (-p) (scale 2 d.exponent (d.significand, 1))).2 :=
    scale_pos (by decide) _ (scale_pos (by decide) _ Nat.one_pos)
  have hratio : ratio (scale 10 (-p) (scale 2 d.exponent (d.significand, 1))) =
      d.value * 10 ^ (-p) := by
    rw [ratio_scale (by decide), ratio_scale (by decide), value]
    simp [ratio]
  rw [ratio, div_eq_iff (Nat.cast_ne_zero.mpr (Nat.ne_of_gt hpos)), zpow_neg] at hratio
  unfold reaches
  dsimp only
  rw [decide_eq_true_eq, ← Nat.cast_le (α := ℚ), hratio, ← div_eq_mul_inv,
    le_mul_iff_one_le_left (Nat.cast_pos.mpr hpos), one_le_div hten]

/-- A power of ten lies below a power of two if one pair of whole powers does and the exponents are in
the proportion of that pair. -/
theorem zpow_le_two_zpow {k n : Nat} {a l : Int} (hn : n ≠ 0) (hle : n * a ≤ k * l)
    (h : ((10 : ℚ) ^ k) ^ l ≤ (2 ^ n) ^ l) : (10 : ℚ) ^ a ≤ 2 ^ l := by
  have hten : (0 : ℚ) ≤ 10 ^ a := zpow_nonneg (by norm_num) _
  have htwo : (0 : ℚ) ≤ 2 ^ l := zpow_nonneg (by norm_num) _
  rw [← pow_le_pow_iff_left₀ hten htwo hn]
  calc ((10 : ℚ) ^ a) ^ n = 10 ^ (n * a) := by rw [← zpow_natCast, ← zpow_mul, mul_comm]
    _ ≤ 10 ^ (k * l) := zpow_le_zpow_right₀ (by norm_num) hle
    _ = (10 ^ k) ^ l := by rw [zpow_mul, zpow_natCast]
    _ ≤ (2 ^ n) ^ l := h
    _ = (2 ^ l) ^ n := by rw [← zpow_natCast, ← zpow_natCast, ← zpow_mul, ← zpow_mul, mul_comm]

/-- One less than the estimate is never too large. The proportion 31 : 103 lies below the logarithm of two
and serves numbers from one on, and 16 : 53 lies above it and serves those below one. -/
theorem estimate_le {l : Int} (hlow : -1074 ≤ l) (hhigh : l ≤ 1023) :
    (10 : ℚ) ^ (l * 30103 / 100000 - 1) ≤ 2 ^ l := by
  rcases Int.le_total 0 l with hl | hl
  · refine zpow_le_two_zpow (k := 31) (n := 103) (by decide) (by omega) ?_
    exact zpow_le_zpow_left₀ hl (by norm_num) (by norm_num)
  · refine zpow_le_two_zpow (k := 16) (n := 53) (by decide) (by omega) ?_
    obtain ⟨m, rfl⟩ : ∃ m : Nat, l = -m := ⟨l.natAbs, by omega⟩
    rw [zpow_neg, zpow_neg, zpow_natCast, zpow_natCast]
    exact inv_anti₀ (by positivity) (pow_le_pow_left₀ (by norm_num) (by norm_num) m)

theorem significand_pos {d : Double} (h : d.magnitude.val ≠ 0) : 0 < d.significand := by
  unfold significand fractions
  split <;> omega

theorem biased_le {d : Double} (h : d.isFinite = true) : d.biased ≤ 2046 := by
  simp only [isFinite, decide_eq_true_eq] at h
  unfold infinityBits at h
  unfold biased fractions
  omega

theorem decimalOrder_le {d : Double} (hfinite : d.isFinite = true) (hne : d.magnitude.val ≠ 0) :
    (10 : ℚ) ^ d.decimalOrder ≤ d.value := by
  unfold decimalOrder
  dsimp only
  cases hfound : List.find? d.reaches _ with
  | some p => exact (reaches_iff d p).mp (List.find?_some hfound)
  | none =>
      have hpos := significand_pos hne
      have hlog : d.significand.log2 < 53 :=
        (Nat.log2_lt (Nat.ne_of_gt hpos)).mpr d.significand_lt
      have hbiased := biased_le hfinite
      have hexponent : d.exponent = (max d.biased 1 : Nat) - 1075 := rfl
      calc (10 : ℚ) ^ (((d.significand.log2 : Int) + d.exponent) * 30103 / 100000 - 1)
          ≤ 2 ^ ((d.significand.log2 : Int) + d.exponent) := estimate_le (by omega) (by omega)
        _ = (2 ^ d.significand.log2 : Nat) * 2 ^ d.exponent := by
            rw [zpow_add₀ (by norm_num), zpow_natCast, Nat.cast_pow, Nat.cast_ofNat]
        _ ≤ d.value :=
            mul_le_mul_of_nonneg_right (Nat.cast_le.mpr (Nat.log2_self_le (Nat.ne_of_gt hpos)))
              (zpow_nonneg (by norm_num) _)

/-- Seventeen digits suffice. -/
theorem onGrid_seventeenth {tie : Tie} {d : Double} (hfinite : d.isFinite = true)
    (hne : d.magnitude.val ≠ 0) : d.onGrid tie (d.decimalOrder - 16) ≠ none := by
  refine onGrid_ne_none ?_
  have hquarter := d.quarter_pos
  have hvalue : d.value = 4 * d.significand * d.quarter := by
    rw [value, quarter, zpow_sub₀ (by norm_num)]
    ring
  have hwidth : 4 * (d.significand : ℚ) < (d.neighbourhood.high - d.neighbourhood.low) * 10 ^ 16 := by
    have hlow := d.low_eq
    have hhigh := d.high_eq
    have hlt := d.significand_lt
    have hpos := significand_pos hne
    have hends : 4 * d.significand + d.neighbourhood.low * 10 ^ 16 < d.neighbourhood.high * 10 ^ 16 := by
      unfold fractions at hlow hlt
      split at hlow <;> omega
    have hcast := Nat.cast_lt (α := ℚ).mpr hends
    push_cast at hcast
    linarith
  calc (10 : ℚ) ^ (d.decimalOrder - 16) = 10 ^ d.decimalOrder / 10 ^ 16 := by
        rw [zpow_sub₀ (by norm_num)]
        norm_num
    _ ≤ d.value / 10 ^ 16 := div_le_div_of_nonneg_right (decimalOrder_le hfinite hne) (by norm_num)
    _ < (d.neighbourhood.high - d.neighbourhood.low) * d.quarter := by
        rw [hvalue, div_lt_iff₀ (by norm_num), mul_right_comm _ d.quarter]
        exact mul_lt_mul_of_pos_right hwidth hquarter

end Double

/-! ## Digits as numbers -/

def Digits.value (x : Digits) : ℚ :=
  (Nat.ofDigitChars 10 x.digits 0 : ℚ) * 10 ^ (x.point - x.digits.length)

theorem Double.value_digitsOf (c : Nat) (p : Int) : (Double.digitsOf c p).value = c * 10 ^ p := by
  obtain ⟨digits, hdigits⟩ : ∃ digits, digits = Nat.toDigits 10 c := ⟨_, rfl⟩
  obtain ⟨zeros, hzeros⟩ : ∃ zeros,
      digits = (digits.reverse.dropWhile (· = '0')).reverse ++ List.replicate zeros '0' := by
    have hall : ∀ b ∈ digits.reverse.takeWhile (· = '0'), b = '0' :=
      fun b hb => of_decide_eq_true (List.mem_takeWhile_imp (p := (· = '0')) hb)
    refine ⟨(digits.reverse.takeWhile (· = '0')).length, ?_⟩
    rw [← List.reverse_replicate, ← List.eq_replicate_of_mem hall, ← List.reverse_append,
      List.takeWhile_append_dropWhile, List.reverse_reverse]
  unfold digitsOf Digits.value
  dsimp only
  rw [← hdigits]
  generalize (digits.reverse.dropWhile (· = '0')).reverse = stripped at hzeros
  have hc : (c : ℚ) = 10 ^ zeros * Nat.ofDigitChars 10 stripped 0 := by
    have hnat : c = 10 ^ zeros * Nat.ofDigitChars 10 stripped 0 := by
      rw [← Nat.ofDigitChars_replicate_zero, ← Nat.ofDigitChars_append, ← hzeros, hdigits,
        Nat.ofDigitChars_ten_toDigits]
    exact_mod_cast hnat
  have hpoint : (digits.length : Int) + p - stripped.length = zeros + p := by
    rw [hzeros, List.length_append, List.length_replicate]
    omega
  rw [hpoint, zpow_add₀ (by norm_num), zpow_natCast, hc]
  ring

def numeralValue (cs : List Char) : ℚ :=
  let whole := cs.takeWhile Char.isDigit
  let fraction := (cs.dropWhile Char.isDigit).drop 1
  (Nat.ofDigitChars 10 (whole ++ fraction) 0 : ℚ) / 10 ^ fraction.length

theorem numeralValue_of_digits {cs : List Char} (h : ∀ c ∈ cs, c.isDigit = true) :
    numeralValue cs = Nat.ofDigitChars 10 cs 0 := by
  simp [numeralValue, List.takeWhile_eq_self_iff.mpr h, List.dropWhile_eq_nil_iff.mpr h]

theorem numeralValue_pointed {whole : List Char} (fraction : List Char)
    (h : ∀ c ∈ whole, c.isDigit = true) :
    numeralValue (whole ++ '.' :: fraction) =
      (Nat.ofDigitChars 10 (whole ++ fraction) 0 : ℚ) / 10 ^ fraction.length := by
  have htake : List.takeWhile Char.isDigit ('.' :: fraction) = [] := rfl
  have hdrop : List.dropWhile Char.isDigit ('.' :: fraction) = '.' :: fraction := rfl
  simp [numeralValue, List.takeWhile_append_of_pos h, List.dropWhile_append_of_pos h, htake, hdrop]

theorem Digits.numeralValue_positional {x : Digits} (h : ∀ c ∈ x.digits, c.isDigit = true) :
    numeralValue x.positional.toList = x.value := by
  unfold positional value
  dsimp only
  rw [String.toList_ofList]
  split
  · next hpoint =>
    obtain ⟨zeros, hzeros⟩ : ∃ zeros : Nat, x.point = -zeros := ⟨x.point.natAbs, by omega⟩
    have hcount : (-x.point).toNat = zeros := by omega
    have hlength : x.point - x.digits.length = -((zeros + x.digits.length : Nat) : Int) := by omega
    have hdigits : Nat.ofDigitChars 10 ('0' :: (List.replicate zeros '0' ++ x.digits)) 0 =
        Nat.ofDigitChars 10 x.digits 0 := by
      rw [Nat.ofDigitChars_cons, Nat.ofDigitChars_append, Nat.ofDigitChars_replicate_zero]
      simp
    have hvalue := numeralValue_pointed (List.replicate zeros '0' ++ x.digits)
      (List.forall_mem_singleton.mpr (by decide : '0'.isDigit = true))
    rw [hcount, hlength, zpow_neg, zpow_natCast, ← div_eq_mul_inv]
    refine hvalue.trans ?_
    rw [List.length_append, List.length_replicate, List.singleton_append, hdigits]
  · split
    · next hsize =>
      obtain ⟨zeros, hzeros⟩ : ∃ zeros : Nat, x.point - x.digits.length = zeros :=
        ⟨(x.point - x.digits.length).toNat, by omega⟩
      rw [numeralValue_of_digits, hzeros, Int.toNat_natCast, Nat.ofDigitChars_append,
        Nat.ofDigitChars_replicate_zero, zpow_natCast]
      · push_cast
        ring
      · intro c hc
        rcases List.mem_append.mp hc with hc | hc
        · exact h c hc
        · exact (List.mem_replicate.mp hc).2 ▸ rfl
    · next hsize =>
      have hlength : x.point - x.digits.length = -((x.digits.drop x.point.toNat).length : Int) := by
        rw [List.length_drop]
        omega
      rw [numeralValue_pointed _ fun c hc => h c (List.mem_of_mem_take hc), List.take_append_drop,
        hlength, zpow_neg, zpow_natCast, ← div_eq_mul_inv]

namespace Double

/-- The digits of a finite number that is not zero are those of a decimal that rounds to it. -/
theorem near_shortest {tie : Tie} {d : Double} (hfinite : d.isFinite = true)
    (hne : d.magnitude.val ≠ 0) : d.Near (d.shortest tie).value := by
  unfold shortest
  dsimp only
  cases hhit : List.findSome? _ (List.range 17) with
  | none =>
      have hlast := List.findSome?_eq_none_iff.mp hhit 16 (List.mem_range.mpr (by decide))
      exact absurd (Option.map_eq_none_iff.mp hlast) (onGrid_seventeenth hfinite hne)
  | some digits =>
      obtain ⟨n, -, hn⟩ := List.exists_of_findSome?_eq_some hhit
      obtain ⟨c, hc, rfl⟩ := Option.map_eq_some_iff.mp hn
      rw [Option.getD_some, value_digitsOf]
      exact near_of_onGrid hc

theorem near_zero {d : Double} (h : d.magnitude.val = 0) : d.Near 0 := by
  have hsignificand : d.significand = 0 := by
    simp [significand, biased, h]
  have hquarter := d.quarter_pos
  simp [Near, closed_eq, low_eq, high_eq, hsignificand, hquarter.le]

/-- The text of a finite number is a numeral that rounds to it, with a sign where it is negative. -/
theorem near_plainText {d : Double} (h : d.isFinite = true) :
    ∃ cs, IsNumeral cs ∧ d.plainText.toList = d.sign.toList ++ cs ∧ d.Near (numeralValue cs) := by
  rw [plainText_eq h]
  split
  · next hzero =>
    have hvalue : numeralValue ['0'] = 0 := by
      rw [numeralValue_of_digits (List.forall_mem_singleton.mpr rfl)]
      rfl
    exact ⟨['0'], .of_digits (List.cons_ne_nil _ _) (List.forall_mem_singleton.mpr rfl),
      String.toList_append .., hvalue ▸ near_zero hzero⟩
  · next hne =>
    have hdigits : ∀ c ∈ (d.shortest .up).digits, c.isDigit = true :=
      fun c hc => isDigit_of_mem_shortest hc
    exact ⟨_, Digits.isNumeral_positional hdigits, String.toList_append ..,
      Digits.numeralValue_positional hdigits ▸ near_shortest h hne⟩

theorem sign_append_inj {d d' : Double} {cs cs' : List Char} (hcs : IsNumeral cs)
    (hcs' : IsNumeral cs') (h : d.sign.toList ++ cs = d'.sign.toList ++ cs') :
    d.negative = d'.negative ∧ cs = cs' := by
  have hstart : ∀ {cs : List Char}, IsNumeral cs → ∀ rest, cs ≠ '-' :: rest := by
    rintro _ ⟨-, c, hc, hdigit⟩ rest rfl
    cases hc
    exact absurd hdigit (by decide)
  unfold sign at h
  cases hd : d.negative <;> cases hd' : d'.negative <;> simp [hd, hd'] at h
  · exact ⟨rfl, h⟩
  · exact absurd h (hstart hcs _)
  · exact absurd h.symm (hstart hcs' _)
  · exact ⟨rfl, h⟩

/-- No two finite numbers are written the same. -/
theorem eq_of_plainText_eq {d d' : Double} (h : d.isFinite = true) (h' : d'.isFinite = true)
    (htext : d.plainText = d'.plainText) : d = d' := by
  obtain ⟨cs, hcs, hsplit, hnear⟩ := near_plainText h
  obtain ⟨cs', hcs', hsplit', hnear'⟩ := near_plainText h'
  rw [htext, hsplit'] at hsplit
  obtain ⟨hsign, rfl⟩ := sign_append_inj hcs' hcs hsplit
  have hmagnitude := hnear.magnitude_eq hnear'
  cases d
  cases d'
  congr
  exact hsign.symm

end Double

end SwaggerTypes.Decimal
