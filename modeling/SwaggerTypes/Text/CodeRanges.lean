/-!
Sets of characters written as ranges of code points.
-/
namespace SwaggerTypes.Text

/-- Inclusive ranges of code points, ascending and disjoint. -/
abbrev CodeRanges := List (Nat × Nat)

def CodeRanges.holds : CodeRanges → Char → Bool
  | [], _ => false
  | (first, last) :: rest, c =>
    if c.toNat < first then false else c.toNat ≤ last || CodeRanges.holds rest c

/-- Whether one of the ranges takes in all code points from `low` to `high`. -/
def CodeRanges.spans : CodeRanges → Nat → Nat → Bool
  | [], _, _ => false
  | (first, last) :: rest, low, high =>
    if last < low then first ≤ last && CodeRanges.spans rest low high
    else first ≤ low && high ≤ last

theorem CodeRanges.holds_of_spans {ranges : CodeRanges} {low high : Nat}
    (h : ranges.spans low high = true) {c : Char} (hlow : low ≤ c.toNat) (hhigh : c.toNat ≤ high) :
    ranges.holds c = true := by
  induction ranges with
  | nil => cases h
  | cons range rest ih =>
      obtain ⟨first, last⟩ := range
      unfold spans at h
      split at h
      · obtain ⟨hrange, hrest⟩ := Bool.and_eq_true_iff.mp h
        have hfirst : ¬ c.toNat < first := by
          have := of_decide_eq_true hrange
          omega
        rw [holds, if_neg hfirst, ih hrest, Bool.or_true]
      · obtain ⟨hfirst, hlast⟩ := Bool.and_eq_true_iff.mp h
        have hfirst := of_decide_eq_true hfirst
        have hlast := of_decide_eq_true hlast
        rw [holds, if_neg (by omega), decide_eq_true (by omega), Bool.true_or]

end SwaggerTypes.Text
