import SwaggerTypes.Proofs.Resolution
/-!
# Pointers read back

A written pointer is read as the segments it was written from, so different segments never share a
text. A pointer to a part of something is the pointer to the whole with more segments behind it.
-/

namespace SwaggerTypes

namespace Text

theorem pieces_cons (separator c : Char) (cs : List Char) :
    pieces separator (c :: cs) = consPiece separator c (pieces separator cs) := rfl

theorem pieces_ne_nil (separator : Char) (cs : List Char) : pieces separator cs ≠ [] := by
  cases cs with
  | nil => exact List.cons_ne_nil _ _
  | cons c cs =>
      rw [pieces_cons]
      unfold consPiece
      split
      · exact List.cons_ne_nil _ _
      · split <;> exact List.cons_ne_nil _ _

theorem pieces_append {separator : Char} {piece : List Char} (h : separator ∉ piece)
    (cs : List Char) : pieces separator (piece ++ separator :: cs) = piece :: pieces separator cs := by
  induction piece with
  | nil =>
      obtain ⟨first, rest, hcs⟩ := List.exists_cons_of_ne_nil (pieces_ne_nil separator cs)
      rw [List.nil_append, pieces_cons, hcs]
      simp [consPiece]
  | cons c piece ih =>
      rw [List.mem_cons, not_or] at h
      rw [List.cons_append, pieces_cons, ih h.2]
      simp [consPiece, Ne.symm h.1]

theorem pieces_of_not_mem {separator : Char} {piece : List Char} (h : separator ∉ piece) :
    pieces separator piece = [piece] := by
  induction piece with
  | nil => rfl
  | cons c piece ih =>
      rw [List.mem_cons, not_or] at h
      rw [pieces_cons, ih h.2]
      simp [consPiece, Ne.symm h.1]

end Text

namespace Pointer

/-! ## Segments -/

theorem toList_escape (segment : String) :
    (escape segment).toList = segment.toList.flatMap escapeChar := String.toList_ofList

theorem slash_not_mem_escape (segment : String) : '/' ∉ (escape segment).toList := by
  rw [toList_escape, List.mem_flatMap]
  rintro ⟨c, -, hc⟩
  unfold escapeChar at hc
  split at hc
  · simp at hc
  · simp at hc
  · next hslash => exact hslash (List.mem_singleton.mp hc).symm

theorem unescape_escapeChar (c : Char) (cs : List Char) :
    unescape (escapeChar c ++ cs) = c :: unescape cs := by
  by_cases htilde : c = '~'
  · subst htilde
    rfl
  · by_cases hslash : c = '/'
    · subst hslash
      rfl
    · have hself : escapeChar c = [c] := by simp [escapeChar]
      simp [hself, unescape, htilde]

theorem unescape_escape (segment : String) :
    String.ofList (unescape (escape segment).toList) = segment := by
  rw [toList_escape]
  suffices h : ∀ cs : List Char, unescape (cs.flatMap escapeChar) = cs by
    rw [h, String.ofList_toList]
  intro cs
  induction cs with
  | nil => rfl
  | cons c cs ih => rw [List.flatMap_cons, unescape_escapeChar, ih]

/-! ## Pointers to parts -/

def extend (pointer : String) (segments : List String) : String :=
  pointer ++ String.join (segments.map fun s => "/" ++ escape s)

@[simp] theorem extend_nil (pointer : String) : extend pointer [] = pointer := by
  simp [extend]

theorem extend_append (pointer : String) (segments more : List String) :
    extend pointer (segments ++ more) = extend (extend pointer segments) more := by
  simp [extend, String.append_assoc]

theorem render_eq_extend (segments : List String) : render segments = extend "#" segments := rfl

theorem render_append (segments more : List String) :
    render (segments ++ more) = extend (render segments) more := extend_append _ _ _

/-! ## Reading -/

theorem toList_extend (pointer : String) (segments : List String) :
    (extend pointer segments).toList =
      pointer.toList ++ segments.flatMap fun s => '/' :: (escape s).toList := by
  simp only [extend, String.toList_append, String.toList_join, List.flatMap_map]
  rfl

/-- Behind its first slash a pointer is cut into the segments as they are written. -/
theorem pieces_segments (segment : String) (segments : List String) :
    Text.pieces '/' ((escape segment).toList ++ segments.flatMap fun s => '/' :: (escape s).toList) =
      (segment :: segments).map fun s => (escape s).toList := by
  induction segments generalizing segment with
  | nil =>
      rw [List.flatMap_nil, List.append_nil]
      exact Text.pieces_of_not_mem (slash_not_mem_escape segment)
  | cons next segments ih =>
      rw [List.flatMap_cons, List.cons_append, Text.pieces_append (slash_not_mem_escape segment),
        ih next]
      rfl

/-- A written pointer is read as the segments it was written from. -/
theorem parse_render {segments : List String} (h : segments ≠ []) :
    parse (render segments) = .ok segments := by
  obtain ⟨segment, rest, rfl⟩ := List.exists_cons_of_ne_nil h
  have hlist : (render (segment :: rest)).toList =
      '#' :: '/' :: ((escape segment).toList ++ rest.flatMap fun s => '/' :: (escape s).toList) := by
    rw [render_eq_extend, toList_extend]
    rfl
  unfold parse
  rw [hlist]
  simp only [pieces_segments, List.map_map, Function.comp_def, unescape_escape, List.map_id']

/-! ## Positions -/

theorem digitValue_of_isDigit {c : Char} (h : c.isDigit = true) :
    Decimal.digitValue 10 c = some (c.toNat - '0'.toNat) := by
  have hle : c.toNat ≤ 57 := by
    simp only [Char.isDigit, Bool.and_eq_true, decide_eq_true_eq] at h
    exact h.2
  have hlt : c.toNat - 48 < 10 := by omega
  simp [Decimal.digitValue, h, Option.filter, hlt]

theorem readNat_of_digits {cs : List Char} (hne : cs ≠ []) (h : ∀ c ∈ cs, c.isDigit = true) :
    Decimal.readNat 10 cs = some (Nat.ofDigitChars 10 cs 0) := by
  have hmap : cs.mapM (Decimal.digitValue 10) = some (cs.map fun c => c.toNat - '0'.toNat) := by
    clear hne
    induction cs with
    | nil => rfl
    | cons c cs ih =>
        rw [List.mapM_cons, digitValue_of_isDigit (h c List.mem_cons_self),
          ih fun d hd => h d (List.mem_cons_of_mem _ hd)]
        rfl
  unfold Decimal.readNat Nat.ofDigitChars
  rw [if_neg (by simpa using hne), hmap, Option.map_some, List.foldl_map]
  simp only [Nat.mul_comm]

theorem isDigit_of_mem_toString {i : Nat} {c : Char} (h : c ∈ (toString i).toList) :
    c.isDigit = true := by
  have hlist : (toString i).toList = Nat.toDigits 10 i := by simp
  rw [hlist] at h
  exact Nat.isDigit_of_mem_toDigits (by decide) (by decide) h

theorem readNat_toString (i : Nat) : Decimal.readNat 10 (toString i).toList = some i := by
  have hlist : (toString i).toList = Nat.toDigits 10 i := by simp
  have hne : (toString i).toList ≠ [] := hlist ▸ Nat.toDigits_ne_nil
  rw [readNat_of_digits hne fun c hc => isDigit_of_mem_toString hc, hlist,
    Nat.ofDigitChars_toDigits (by decide) (by decide)]

/-- A position is read back unless it is beyond all that can be counted. -/
theorem index?_toString {i : Nat} (h : i < 0x10000000000000000) : index? (toString i) = some i := by
  have hread := readNat_toString i
  unfold index?
  split
  · next cs heq =>
    have hplus := isDigit_of_mem_toString (heq ▸ List.mem_cons_self : '+' ∈ (toString i).toList)
    exact absurd hplus (by decide)
  · show Option.filter _ (Decimal.readNat 10 (toString i).toList) = some i
    rw [hread, Option.filter_some, if_pos (decide_eq_true h)]

end Pointer

end SwaggerTypes
