import Mathlib.Data.List.Chain
import SwaggerTypes.Proofs.NamespaceLines
/-!
# Comments

A description becomes a block comment, and a format a comment up to the end of its line. A block comment
is closed once, by the mark at its end, whatever its text is: the pair of characters that would close it
is broken up, and neither cutting the text into lines nor trimming these brings two characters together
that were apart. A comment behind a property loses its line feeds and carriage returns, but not the two
separators of Unicode that end a line as well, so it holds exactly when its format has none of them.
-/

namespace SwaggerTypes

open Text (IsLine Flat closed)

/-! ## Comments up to the end of the line -/

namespace Text

def isSeparator (c : Char) : Bool := c = '\u2028' || c = '\u2029'

/-- What ends a line of code, and with it a comment that begins with two slashes. -/
def isLineEnd (c : Char) : Bool := c = '\n' || c = '\r' || isSeparator c

/-- A comment as the language reads it from behind its two slashes: it takes what stands before the next
end of a line. -/
def lineComment (cs : List Char) : List Char := cs.takeWhile (!isLineEnd ·)

end Text

namespace Comment

open Text (isSeparator isLineEnd lineComment)

def unbroken (c : Char) : Char := if c = '\n' || c = '\r' then ' ' else c

theorem trailing_eq (format : String) :
    trailing format = " //" ++ String.ofList (' ' :: format.toList.map unbroken) := by
  rw [← String.toList_inj]
  simp [trailing, unbroken]

/-- The only line ends that are left are the separators. -/
theorem isLineEnd_unbroken (c : Char) : isLineEnd (unbroken c) = isSeparator c := by
  unfold unbroken
  split
  · next hc =>
    rcases Bool.or_eq_true_iff.mp hc with hc | hc
    · rw [of_decide_eq_true hc]
      decide
    · rw [of_decide_eq_true hc]
      decide
  · next hc => rw [isLineEnd, Bool.eq_false_iff.mpr hc, Bool.false_or]

/-- What the language reads of a format is what stands before its first separator. -/
theorem lineComment_unbroken (format rest : List Char) :
    lineComment (' ' :: format.map unbroken ++ '\n' :: rest) =
      ' ' :: (format.takeWhile (!isSeparator ·)).map unbroken := by
  have hblank : (!isLineEnd ' ') = true := by decide
  rw [lineComment, List.cons_append, List.takeWhile_cons, if_pos hblank]
  refine congrArg (' ' :: ·) ?_
  induction format with
  | nil => rfl
  | cons c format ih =>
      rw [List.map_cons, List.cons_append, List.takeWhile_cons, List.takeWhile_cons,
        isLineEnd_unbroken, ih]
      cases isSeparator c <;> rfl

end Comment

def Declaration.textBefore (d : Declaration) (others : List (Property TypeExpr))
    (p : Property TypeExpr) : String :=
  docText d.doc "" ++ (if d.exported then "export " else "") ++ "interface " ++ d.name ++ " \x7b\n"
    ++ String.join (others.map Property.lines) ++ docText p.doc indentation ++ indentation ++ p.text
    ++ ";"

def ObjectType.textBehind (others : ObjectType TypeExpr) : String := others.lines ++ "\x7d\n"

theorem Declaration.text_of_property {d : Declaration} {o : ObjectType TypeExpr}
    {before after : List (Property TypeExpr)} {p : Property TypeExpr}
    (hbody : d.body = .interface o) (hp : o.properties = before ++ p :: after) :
    d.text = d.textBefore before p ++ (p.format.map Comment.trailing).getD "" ++ "\n"
      ++ ObjectType.textBehind ⟨after, o.index⟩ := by
  obtain ⟨properties, index⟩ := o
  obtain rfl : properties = before ++ p :: after := hp
  rw [text, hbody]
  simp only [textBefore, ObjectType.textBehind, ObjectType.lines, List.map_append, List.map_cons,
    String.join_append, String.join_cons, Property.lines, String.append_assoc]

/-- The comment that a format becomes stands behind its property, up to the line feed of the
declaration. The language reads it up to the first separator in the format, so it ends where its line
ends exactly when the format has no separator. -/
theorem Declaration.comment_of_format {d : Declaration} {o : ObjectType TypeExpr}
    {before after : List (Property TypeExpr)} {p : Property TypeExpr} {format : String}
    (hbody : d.body = .interface o) (hp : o.properties = before ++ p :: after)
    (hformat : p.format = some format) :
    ∃ comment : String,
      d.text = d.textBefore before p ++ " //" ++ comment ++ "\n"
        ++ ObjectType.textBehind ⟨after, o.index⟩ ∧
      ((∀ c ∈ comment.toList, Text.isLineEnd c = false) ↔
        ∀ c ∈ format.toList, Text.isSeparator c = false) ∧
      Text.lineComment (comment ++ "\n" ++ ObjectType.textBehind ⟨after, o.index⟩).toList =
        ' ' :: (format.toList.takeWhile (!Text.isSeparator ·)).map Comment.unbroken := by
  refine ⟨String.ofList (' ' :: format.toList.map Comment.unbroken), ?_, ?_, ?_⟩
  · have htrailing : (p.format.map Comment.trailing).getD "" =
        " //" ++ String.ofList (' ' :: format.toList.map Comment.unbroken) := by
      rw [hformat]
      exact Comment.trailing_eq format
    rw [text_of_property hbody hp, htrailing]
    simp only [String.append_assoc]
  · rw [String.toList_ofList, List.forall_mem_cons, List.forall_mem_map]
    simp only [Comment.isLineEnd_unbroken]
    exact and_iff_right (by decide)
  · rw [String.toList_append, String.toList_append, String.toList_ofList, List.append_assoc]
    exact Comment.lineComment_unbroken _ _

def tagFormat : Property TypeExpr :=
  { name := "tag", type := .base .string, optional := true, format := some "short\r\ntext" }

def taggedPet : Declaration :=
  { name := "Pet"
    body := .interface
      { properties := [{ name := "id", type := .base .number, optional := false }, tagFormat] } }

/-- On one line, the comment of the tag ends where the line ends. -/
theorem taggedPet_comment :
    tagFormat.format = some "short\r\ntext" ∧
    ∃ before comment, taggedPet.body = .interface { properties := before ++ [tagFormat] } ∧
      taggedPet.text = taggedPet.textBefore before tagFormat ++ " //" ++ comment ++ "\n"
        ++ ObjectType.textBehind {} ∧
      ∀ c ∈ comment.toList, Text.isLineEnd c = false := by
  obtain ⟨comment, htext, hends, -⟩ := @Declaration.comment_of_format taggedPet _
    [{ name := "id", type := .base .number, optional := false }] [] tagFormat "short\r\ntext"
    rfl rfl rfl
  have hformat : "short\r\ntext".toList.any Text.isSeparator = false := by decide
  refine ⟨rfl, _, comment, rfl, htext, hends.mpr fun c hc => ?_⟩
  exact Bool.eq_false_iff.mpr (List.any_eq_false.mp hformat c hc)

def splitFormat : Value :=
  .object
    [("definitions", .object
      [("A", .object
        [("type", .string "object"),
          ("properties", .object
            [("p", .object [("type", .string "string"), ("format", .string "a\u2028b")])])])])]

def splitProperty : Property TypeExpr :=
  { name := "p", type := .base .string, optional := true, format := some "a\u2028b" }

def splitDeclaration : Declaration :=
  { name := "A", body := .interface { properties := [splitProperty] } }

/-- The comment of the format holds the end of a line: behind `a` the language reads code. -/
theorem splitFormat_leaves_comment :
    (convert splitFormat {}).toOption.map Conversion.output = some splitDeclaration.text ∧
    splitDeclaration.text = splitDeclaration.textBefore [] splitProperty ++ " //" ++ " a\u2028b" ++ "\n"
      ++ ObjectType.textBehind {} ∧
    ¬ (∀ c ∈ " a\u2028b".toList, Text.isLineEnd c = false) ∧
    Text.lineComment (" a\u2028b" ++ "\n" ++ ObjectType.textBehind {}).toList = [' ', 'a'] := by
  refine ⟨by decide +kernel, by decide +kernel, fun h => ?_, by decide +kernel⟩
  have hend := h '\u2028' (by decide)
  cases hend

/-! ## Block comments -/

namespace Text

/-- How the lines of a text stand in it: the first one at its beginning, and empty in front of a line
feed. -/
structure LineTail.Within (cs : List Char) (tail : LineTail) : Prop where
  feed : tail.startsWithFeed = true → tail.lines.head? = some []
  first : ∀ l ∈ tail.lines.head?, l <+: cs
  all : ∀ l ∈ tail.lines, l <:+: cs

theorem LineTail.Within.cons {cs : List Char} {tail : LineTail} (h : tail.Within cs) (c : Char) :
    (LineTail.cons c tail).Within (c :: cs) := by
  have hall : ∀ l ∈ tail.lines, l <:+: c :: cs := fun l hl => List.infix_cons (h.all l hl)
  unfold LineTail.cons
  split
  · exact ⟨fun _ => rfl, fun l hl => Option.some.inj hl ▸ List.nil_prefix,
      List.forall_mem_cons.mpr ⟨List.nil_infix, hall⟩⟩
  · split
    · next hreturn =>
      have hempty := h.feed (Bool.and_eq_true_iff.mp hreturn).2
      refine ⟨nofun, fun l hl => ?_, hall⟩
      obtain rfl : [] = l := Option.some.inj (hempty.symm.trans hl)
      exact List.nil_prefix
    · split
      · have hone : [c] <+: c :: cs := List.prefix_append [c] cs
        exact ⟨nofun, fun l hl => Option.some.inj hl ▸ hone,
          List.forall_mem_singleton.mpr hone.isInfix⟩
      · next line lines heq =>
        have hline : c :: line <+: c :: cs :=
          List.cons_prefix_cons.mpr ⟨rfl, h.first line (by rw [heq]; rfl)⟩
        rw [heq] at hall
        exact ⟨nofun, fun l hl => Option.some.inj hl ▸ hline,
          List.forall_mem_cons.mpr ⟨hline.isInfix, (List.forall_mem_cons.mp hall).2⟩⟩

theorem infix_of_mem_lines {cs l : List Char} (h : l ∈ lines cs) : l <:+: cs := by
  have hwithin : (cs.foldr LineTail.cons {}).Within cs := by
    clear h
    induction cs with
    | nil => exact ⟨nofun, nofun, nofun⟩
    | cons c cs ih => exact ih.cons c
  exact hwithin.all l h

theorem trimEnd_prefix (cs : List Char) : trimEnd cs <+: cs := by
  rw [trimEnd, ← List.reverse_suffix, List.reverse_reverse]
  exact List.dropWhile_suffix isBlank

end Text

namespace Comment

def Unclosed (cs : List Char) : Prop := cs.IsChain fun a b => ¬(a = '*' ∧ b = '/')

namespace Unclosed

variable {cs cs' : List Char}

theorem of_not_mem (h : '*' ∉ cs) : Unclosed cs := by
  refine List.isChain_iff_forall_rel_of_append_cons_cons.mpr fun a b l l' heq hpair => h ?_
  rw [heq, ← hpair.1]
  exact List.mem_append_right _ List.mem_cons_self

theorem append (h : Unclosed cs) (h' : Unclosed cs')
    (hmeet : (∀ a ∈ cs.getLast?, a ≠ '*') ∨ ∀ b ∈ cs'.head?, b ≠ '/') : Unclosed (cs ++ cs') := by
  refine List.IsChain.append h h' fun a ha b hb hpair => ?_
  rcases hmeet with hlast | hhead
  · exact hlast a ha hpair.1
  · exact hhead b hb hpair.2

theorem prepend (hcs : '*' ∉ cs) (h : Unclosed cs') : Unclosed (cs ++ cs') :=
  (of_not_mem hcs).append h (.inl fun _ ha heq => hcs (heq ▸ List.mem_of_getLast? ha))

theorem closed_append {ls : List (List Char)} (hls : ∀ l ∈ ls, Unclosed l) (h : Unclosed cs) :
    Unclosed (closed ls ++ cs) := by
  induction ls with
  | nil => exact h
  | cons l ls ih =>
      obtain ⟨hl, hls⟩ := List.forall_mem_cons.mp hls
      have hrest : Unclosed (['\n'] ++ (closed ls ++ cs)) := prepend (by decide) (ih hls)
      rw [Text.closed_cons, List.append_assoc]
      refine hl.append hrest (.inr fun b hb heq => ?_)
      cases hb
      cases heq

end Unclosed

/-- The pair that closes a comment is broken up, and no other pair of these characters arises. -/
theorem unclosed_harmless (cs : List Char) :
    Unclosed (harmless cs) ∧ (harmless cs).head? = cs.head? := by
  fun_induction harmless cs with
  | case1 cs ih =>
      have hslash : Unclosed (['/'] ++ harmless cs) := Unclosed.prepend (by decide) ih.1
      refine ⟨?_, rfl⟩
      exact .cons_cons (by decide) (.cons_cons (by decide) hslash)
  | case2 c cs hpair ih =>
      refine ⟨ih.1.cons fun d hd hclosing => ?_, rfl⟩
      obtain ⟨rfl, rfl⟩ := hclosing
      obtain ⟨rest, rfl⟩ := List.head?_eq_some_iff.mp (ih.2.symm.trans hd)
      exact hpair rest rfl rfl
  | case3 => exact ⟨.nil, rfl⟩

theorem unclosed_of_mem_lines {text line : String} (h : line ∈ lines text) :
    Unclosed line.toList := by
  obtain ⟨l, hl, rfl⟩ := List.mem_map.mp h
  rw [String.toList_ofList]
  have hwhole : Unclosed l := List.IsChain.infix (unclosed_harmless _).1 (Text.infix_of_mem_lines hl)
  exact List.IsChain.prefix hwhole (Text.trimEnd_prefix l)

/-- A line of a block comment, or what the last line holds up to the slash that closes the comment. -/
structure Row (indent : String) (l : List Char) : Prop where
  indented : indent.toList <+: l
  isLine : IsLine l
  unclosed : Unclosed l

/-- What stands in a block behind the indentation of a line. -/
def blockTail (line : String) : List Char :=
  if line.isEmpty then [' ', '*'] else ' ' :: '*' :: ' ' :: line.toList

theorem toList_blockLine (indent line : String) :
    (blockLine indent line).toList = indent.toList ++ blockTail line ++ ['\n'] := by
  unfold blockLine blockTail
  split <;> simp

section

variable {indent : String} (hindent : ∀ c ∈ indent.toList, c = ' ')
include hindent

theorem Row.of {l : List Char} (hne : l ≠ []) (hline : IsLine l) (hunclosed : Unclosed l) :
    Row indent (indent.toList ++ l) where
  indented := List.prefix_append ..
  isLine := hline.prepend hne fun hmem => absurd (hindent _ hmem) (by decide)
  unclosed := hunclosed.prepend fun hmem => absurd (hindent _ hmem) (by decide)

theorem row_blockTail {line : String} (hline : IsLine line.toList)
    (hunclosed : Unclosed line.toList) : Row indent (indent.toList ++ blockTail line) := by
  unfold blockTail
  split
  · exact .of hindent (by decide) ⟨by decide, by decide⟩ (.cons_cons (by decide) (.singleton _))
  · next hne =>
    have hblank : Unclosed ([' '] ++ line.toList) := Unclosed.prepend (by decide) hunclosed
    have hrow : IsLine ([' ', '*', ' '] ++ line.toList) :=
      hline.prepend (by simpa using hne) (by decide)
    exact .of hindent (List.cons_ne_nil _ _) hrow
      (.cons_cons (by decide) (.cons_cons (by decide) hblank))

/-- A comment is made of lines, the last one up to the slash that closes it. -/
theorem doc_rows (text : String) :
    ∃ ls last, (doc text indent).toList = closed ls ++ (last ++ ['*', '/', '\n']) ∧
      (∀ l ∈ ls, Row indent l) ∧ Row indent (last ++ ['*']) := by
  have hend : IsLine [' ', '*'] := ⟨by decide, by decide⟩
  have hstar : Unclosed [' ', '*'] := .cons_cons (by decide) (.singleton _)
  unfold doc
  split
  · next line heq =>
    have hmem : line ∈ lines text := heq ▸ List.mem_cons_self
    have hfeed : '\n' ∉ "/** ".toList ++ line.toList := by
      simpa using (isLine_of_mem_lines hmem).feed
    have hmark : Unclosed "/** ".toList := by simp [Unclosed]
    have hline : Unclosed ("/** ".toList ++ line.toList) :=
      hmark.append (unclosed_of_mem_lines hmem) (.inl (by simp))
    have hrow : Row indent (indent.toList ++ ("/** ".toList ++ line.toList ++ [' ', '*'])) :=
      .of hindent (by simp) (hend.prepend (by decide) hfeed) (hline.append hstar (.inr (by simp)))
    refine ⟨[], indent.toList ++ "/** ".toList ++ line.toList ++ [' '], ?_, nofun, ?_⟩
    · simp [closed]
    · simpa using hrow
  · have hmark : IsLine "/**".toList := ⟨by decide, by decide⟩
    have hopen : Row indent (indent.toList ++ "/**".toList) :=
      .of hindent (by decide) hmark (by simp [Unclosed])
    have hblock : (String.join ((lines text).map (blockLine indent))).toList =
        closed ((lines text).map fun line => indent.toList ++ blockTail line) := by
      induction lines text with
      | nil => rfl
      | cons line block ih =>
          rw [List.map_cons, List.map_cons, String.join_cons, String.toList_append, ih,
            toList_blockLine, closed, closed, List.flatMap_cons]
    refine ⟨(indent.toList ++ "/**".toList) ::
      (lines text).map (fun line => indent.toList ++ blockTail line), indent.toList ++ [' '],
      ?_, List.forall_mem_cons.mpr ⟨hopen, List.forall_mem_map.mpr fun line hline => ?_⟩, ?_⟩
    · rw [String.toList_append, String.toList_append, String.toList_append, hblock, Text.closed_cons]
      simp
    · exact row_blockTail hindent (isLine_of_mem_lines hline) (unclosed_of_mem_lines hline)
    · simpa using Row.of hindent (by decide) hend hstar

end

/-- A comment of its own: it begins with its indentation and its opening mark, its closing mark stands at
its end, in front of the line feed, and nowhere else, and each of its lines is indented. -/
structure StandsAlone (indent comment : String) : Prop where
  opens : ∃ rest, comment = indent ++ "/**" ++ rest
  closes : ∃ front, comment = front ++ "*/" ++ "\n"
  once : ∀ front rest, comment = front ++ "*/" ++ rest → rest = "\n"
  lines : ∀ line ∈ Text.lines comment.toList, indent.toList <+: line

theorem doc_opens (text indent : String) : ∃ rest, doc text indent = indent ++ "/**" ++ rest := by
  unfold doc
  split
  · next line _ =>
    refine ⟨" " ++ line ++ " */\n", ?_⟩
    have hopen : "/** " = "/**" ++ " " := rfl
    rw [hopen]
    simp only [String.append_assoc]
  · refine ⟨"\n" ++ String.join ((lines text).map (blockLine indent)) ++ indent ++ " */\n", ?_⟩
    have hopen : "/**\n" = "/**" ++ "\n" := rfl
    rw [hopen]
    simp only [String.append_assoc]

/-- Where no pair but the last one closes a comment, what stands behind such a pair is the line feed. -/
theorem eq_of_closes {cs front rest : List Char} (h : Unclosed (cs ++ ['*']))
    (heq : cs ++ ['*', '/', '\n'] = front ++ '*' :: '/' :: rest) : rest = ['\n'] := by
  have hsplit : (cs ++ ['*']) ++ ['/', '\n'] = front ++ '*' :: '/' :: rest := by
    rw [← heq, List.append_assoc]
    rfl
  rcases List.append_eq_append_iff.mp hsplit with ⟨more, -, hmore⟩ | ⟨more, hfront, hmore⟩
  · have hstar : '*' ∈ ['/', '\n'] := hmore ▸ List.mem_append_right _ List.mem_cons_self
    exact absurd hstar (by decide)
  · cases more with
    | nil => exact absurd (List.cons.inj hmore).1 (by decide)
    | cons c more =>
        obtain ⟨rfl, hbehind⟩ := List.cons.inj hmore
        cases more with
        | nil => exact (List.cons.inj hbehind).2
        | cons d more =>
            obtain ⟨rfl, -⟩ := List.cons.inj hbehind
            exact absurd ⟨rfl, rfl⟩ (List.isChain_iff_forall_rel_of_append_cons_cons.mp h hfront)

/-- A description cannot close its comment early or leave it open: whatever text it is, and however it is
indented, the comment is closed once, at its end, and stands on lines of its own. -/
theorem doc_standsAlone (text : String) (n : Nat) :
    StandsAlone (String.ofList (List.replicate n ' '))
      (doc text (String.ofList (List.replicate n ' '))) := by
  have hindent : ∀ c ∈ (String.ofList (List.replicate n ' ')).toList, c = ' ' := by
    intro c hc
    rw [String.toList_ofList] at hc
    exact List.eq_of_mem_replicate hc
  generalize String.ofList (List.replicate n ' ') = indent at hindent ⊢
  obtain ⟨ls, last, heq, hls, hlast⟩ := doc_rows hindent text
  refine ⟨doc_opens text indent, ⟨String.ofList (closed ls ++ last), ?_⟩, fun front rest hcut => ?_, ?_⟩
  · rw [← String.toList_inj, heq]
    simp
  · have hunclosed : Unclosed (closed ls ++ last ++ ['*']) := by
      rw [List.append_assoc]
      exact .closed_append (fun l hl => (hls l hl).unclosed) hlast.unclosed
    rw [← String.toList_inj, heq, ← List.append_assoc] at hcut
    rw [← String.toList_inj]
    have hpair : closed ls ++ last ++ ['*', '/', '\n'] = front.toList ++ '*' :: '/' :: rest.toList := by
      simpa using hcut
    exact eq_of_closes hunclosed hpair
  · have hclosed : (doc text indent).toList = closed (ls ++ [last ++ ['*', '/']]) := by
      rw [heq, Text.closed_append, Text.closed_cons]
      simp [closed]
    have hrow : last ++ ['*', '/'] = last ++ ['*'] ++ ['/'] := by simp
    have hend : IsLine ['/'] := ⟨by decide, by decide⟩
    have hlines : ∀ l ∈ ls ++ [last ++ ['*', '/']], IsLine l ∧ indent.toList <+: l := by
      intro l hl
      rcases List.mem_append.mp hl with hl | hl
      · exact ⟨(hls l hl).isLine, (hls l hl).indented⟩
      · rw [List.mem_singleton.mp hl, hrow]
        exact ⟨hend.prepend (by decide) hlast.isLine.feed,
          hlast.indented.trans (List.prefix_append ..)⟩
    rw [hclosed, Text.lines_closed fun l hl => (hlines l hl).1]
    exact fun l hl => (hlines l hl).2

end Comment

end SwaggerTypes
