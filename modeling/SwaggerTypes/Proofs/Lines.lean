import SwaggerTypes.Proofs.Pointers
import SwaggerTypes.Text.Blank
/-!
# Lines

A text is cut into lines at its line feeds, and a carriage return before one goes with it. So a text
that is put together from lines gives back these lines only if none of them ends in a carriage return.
-/

namespace SwaggerTypes.Text

theorem mem_pieces {separator c : Char} {cs : List Char} (h : c ∈ cs) :
    c = separator ∨ ∃ piece ∈ pieces separator cs, c ∈ piece := by
  induction cs with
  | nil => cases h
  | cons d cs ih =>
      obtain ⟨first, rest, heq⟩ := List.exists_cons_of_ne_nil (pieces_ne_nil separator cs)
      rw [heq] at ih
      rw [pieces_cons, heq, consPiece]
      rcases List.mem_cons.mp h with rfl | h
      · by_cases hd : c = separator
        · exact .inl hd
        · rw [if_neg hd]
          exact .inr ⟨c :: first, List.mem_cons_self, List.mem_cons_self⟩
      · rcases ih h with heq | ⟨piece, hpiece, hc⟩
        · exact .inl heq
        right
        split
        · exact ⟨piece, List.mem_cons_of_mem _ hpiece, hc⟩
        · rcases List.mem_cons.mp hpiece with rfl | hpiece
          · exact ⟨d :: piece, List.mem_cons_self, List.mem_cons_of_mem _ hc⟩
          · exact ⟨piece, List.mem_cons_of_mem _ hpiece, hc⟩

def closed (ls : List (List Char)) : List Char := ls.flatMap fun l => l ++ ['\n']

/-- The lines of a text that ends with the end of a line, cut at the line feeds. -/
def closedLines (cs : List Char) : List (List Char) := (pieces '\n' cs).dropLast

structure IsLine (l : List Char) : Prop where
  feed : '\n' ∉ l
  last : l.getLast? ≠ some '\r'

theorem closed_cons (l : List Char) (ls : List (List Char)) :
    closed (l :: ls) = l ++ '\n' :: closed ls := by
  rw [closed, List.flatMap_cons, List.append_assoc]
  rfl

theorem closed_append (ls ls' : List (List Char)) : closed (ls ++ ls') = closed ls ++ closed ls' :=
  List.flatMap_append

theorem closedLines_closed {ls : List (List Char)} (h : ∀ l ∈ ls, '\n' ∉ l) :
    closedLines (closed ls) = ls := by
  unfold closedLines
  induction ls with
  | nil => rfl
  | cons l ls ih =>
      obtain ⟨hl, hls⟩ := List.forall_mem_cons.mp h
      rw [closed_cons, pieces_append hl, List.dropLast_cons_of_ne_nil (pieces_ne_nil _ _), ih hls]

theorem foldr_line {l : List Char} (h : IsLine l) (cs : List Char) :
    (l ++ '\n' :: cs).foldr LineTail.cons {} = ⟨l.isEmpty, l :: lines cs⟩ := by
  induction l with
  | nil => rfl
  | cons c l ih =>
      have hc : c ≠ '\n' := fun heq => h.feed (heq ▸ List.mem_cons_self)
      have hl : IsLine l := by
        refine ⟨fun hmem => h.feed (List.mem_cons_of_mem _ hmem), fun hlast => h.last ?_⟩
        rw [List.getLast?_cons, hlast]
        rfl
      have hreturn : (c = '\r' && l.isEmpty) = false := by
        refine Bool.eq_false_iff.mpr fun hboth => h.last ?_
        simp only [Bool.and_eq_true, decide_eq_true_eq, List.isEmpty_iff] at hboth
        rw [hboth.1, hboth.2]
        rfl
      rw [List.cons_append, List.foldr_cons, ih hl, LineTail.cons, if_neg hc, hreturn]
      rfl

theorem lines_closed {ls : List (List Char)} (h : ∀ l ∈ ls, IsLine l) : lines (closed ls) = ls := by
  induction ls with
  | nil => rfl
  | cons l ls ih =>
      obtain ⟨hl, hls⟩ := List.forall_mem_cons.mp h
      rw [closed_cons, lines, foldr_line hl, ih hls]

theorem feed_not_mem_lines {cs l : List Char} (h : l ∈ lines cs) : '\n' ∉ l := by
  induction cs generalizing l with
  | nil => cases h
  | cons c cs ih =>
      rw [lines, List.foldr_cons, LineTail.cons] at h
      split at h
      · rcases List.mem_cons.mp h with rfl | h
        · exact List.not_mem_nil
        · exact ih h
      · next hc =>
        split at h
        · exact ih h
        · split at h
          · rw [List.mem_singleton.mp h, List.mem_singleton]
            exact Ne.symm hc
          · next first rest heq =>
            have hall : ∀ l ∈ first :: rest, '\n' ∉ l := by
              intro l hl
              rw [← heq] at hl
              exact ih hl
            rcases List.mem_cons.mp h with rfl | h
            · rw [List.mem_cons, not_or]
              exact ⟨Ne.symm hc, hall first List.mem_cons_self⟩
            · exact hall l (List.mem_cons_of_mem _ h)

/-- Without the blanks at its end, a text does not end in a carriage return. -/
theorem isLine_trimEnd {l : List Char} (h : '\n' ∉ l) : IsLine (trimEnd l) where
  feed := fun hmem => h <| List.mem_reverse.mp <|
    (List.dropWhile_sublist isBlank).subset (List.mem_reverse.mp hmem)
  last := by
    rw [trimEnd, List.getLast?_reverse]
    intro hlast
    have hhead := List.head?_dropWhile_not isBlank l.reverse
    rw [hlast] at hhead
    exact absurd hhead (by decide)

/-! ## Texts made of lines -/

def Flat (s : String) : Prop := ∀ c ∈ s.toList, c ≠ '\n' ∧ c ≠ '\r'

instance (s : String) : Decidable (Flat s) :=
  List.decidableBAll (fun c => c ≠ '\n' ∧ c ≠ '\r') s.toList

def Lined (s : String) : Prop := ∃ ls, (∀ l ∈ ls, IsLine l) ∧ s.toList = closed ls

theorem Flat.append {s t : String} (hs : Flat s) (ht : Flat t) : Flat (s ++ t) := by
  intro c hc
  rw [String.toList_append] at hc
  exact (List.mem_append.mp hc).elim (hs c) (ht c)

theorem Flat.isLine {s : String} (h : Flat s) : IsLine s.toList where
  feed := fun hmem => (h _ hmem).1 rfl
  last := fun hlast => (h _ (List.mem_of_getLast? hlast)).2 rfl

theorem flat_join {sep : String} {ss : List String} (hsep : Flat sep) (h : ∀ s ∈ ss, Flat s) :
    Flat (join sep ss) := by
  unfold join
  match ss, h with
  | [], _ => exact fun c hc => nomatch hc
  | [s], h => exact h s List.mem_cons_self
  | s :: t :: rest, h =>
      obtain ⟨hs, hrest⟩ := List.forall_mem_cons.mp h
      rw [String.intercalate_cons_cons]
      exact (hs.append hsep).append (flat_join hsep hrest)

/-- A line that goes on after some text is one if it would be without the text. -/
theorem IsLine.prepend {l before : List Char} (h : IsLine l) (hne : l ≠ [])
    (hbefore : '\n' ∉ before) : IsLine (before ++ l) where
  feed := fun hmem => (List.mem_append.mp hmem).elim hbefore h.feed
  last := by
    rw [List.getLast?_append, List.getLast?_eq_some_getLast hne, Option.some_or,
      ← List.getLast?_eq_some_getLast hne]
    exact h.last

theorem Lined.empty : Lined "" := ⟨[], by simp, rfl⟩

theorem Lined.line {s : String} (h : IsLine s.toList) : Lined (s ++ "\n") := by
  refine ⟨[s.toList], List.forall_mem_singleton.mpr h, ?_⟩
  rw [String.toList_append, closed_cons]
  rfl

theorem Lined.append {s t : String} (hs : Lined s) (ht : Lined t) : Lined (s ++ t) := by
  obtain ⟨ls, hls, heq⟩ := hs
  obtain ⟨ls', hls', heq'⟩ := ht
  refine ⟨ls ++ ls', fun l hl => (List.mem_append.mp hl).elim (hls l) (hls' l), ?_⟩
  rw [String.toList_append, heq, heq', closed_append]

theorem Lined.concat {ss : List String} (h : ∀ s ∈ ss, Lined s) : Lined (String.join ss) := by
  induction ss with
  | nil => exact .empty
  | cons s ss ih =>
      obtain ⟨hs, hss⟩ := List.forall_mem_cons.mp h
      rw [String.join_cons]
      exact hs.append (ih hss)

theorem Lined.spaced {ss : List String} (h : ∀ s ∈ ss, Lined s) : Lined (join "\n" ss) := by
  unfold join
  match ss, h with
  | [], _ => exact .empty
  | [s], h => exact h s List.mem_cons_self
  | s :: t :: rest, h =>
      obtain ⟨hs, hrest⟩ := List.forall_mem_cons.mp h
      have hempty : Lined ("" ++ "\n") := .line ⟨List.not_mem_nil, by decide⟩
      rw [String.intercalate_cons_cons]
      exact (hs.append hempty).append (Lined.spaced hrest)

end SwaggerTypes.Text
