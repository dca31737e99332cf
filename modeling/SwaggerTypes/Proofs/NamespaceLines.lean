import SwaggerTypes.Proofs.QueryInterfaces
import SwaggerTypes.Proofs.RenamedDeclarations
import SwaggerTypes.Proofs.TypeTexts
/-!
# Lines in a namespace

A namespace is put around finished text, line by line. The text of declarations is made of lines that
do not end in a carriage return, whatever a document describes, names or lists, so the lines are found
again as they were and nothing but indentation is added.
-/

namespace SwaggerTypes

open Text (Flat Lined IsLine IsName closed closedLines)

/-! ## The lines of declarations -/

namespace Comment

theorem isLine_of_mem_lines {text line : String} (h : line ∈ lines text) : IsLine line.toList := by
  obtain ⟨l, hl, rfl⟩ := List.mem_map.mp h
  rw [String.toList_ofList]
  exact Text.isLine_trimEnd (Text.feed_not_mem_lines hl)

variable {indent : String}

theorem lined_blockLine (hindent : Flat indent) {line : String} (h : IsLine line.toList) :
    Lined (blockLine indent line) := by
  unfold blockLine
  split
  · have hline : Flat (indent ++ " *") := hindent.append (by decide)
    have hsplit : " *\n" = " *" ++ "\n" := rfl
    rw [hsplit, ← String.append_assoc]
    exact .line hline.isLine
  · next hne =>
    have hbefore : Flat (indent ++ " * ") := hindent.append (by decide)
    refine .line ?_
    rw [String.toList_append]
    exact h.prepend (by simpa using hne) hbefore.isLine.feed

theorem lined_doc (text : String) (hindent : Flat indent) : Lined (doc text indent) := by
  unfold doc
  split
  · next line heq =>
    have hline := isLine_of_mem_lines (heq ▸ List.mem_cons_self : line ∈ lines text)
    have hbefore : Flat (indent ++ "/** ") := hindent.append (by decide)
    have hend : IsLine " */".toList := Flat.isLine (s := " */") (by decide)
    have hsplit : " */\n" = " */" ++ "\n" := rfl
    rw [hsplit, ← String.append_assoc]
    refine .line ?_
    rw [String.toList_append, String.toList_append]
    exact hend.prepend (by decide) fun hmem =>
      (List.mem_append.mp hmem).elim hbefore.isLine.feed hline.feed
  · have hopen : Lined (indent ++ "/**" ++ "\n") := .line (hindent.append (by decide)).isLine
    have hclose : Lined (indent ++ " */" ++ "\n") := .line (hindent.append (by decide)).isLine
    have hblock : Lined (String.join ((lines text).map (blockLine indent))) := by
      refine .concat fun s hs => ?_
      obtain ⟨line, hline, rfl⟩ := List.mem_map.mp hs
      exact lined_blockLine hindent (isLine_of_mem_lines hline)
    have hall := (hopen.append hblock).append hclose
    simpa [String.append_assoc] using hall

theorem flat_trailing (format : String) : Flat (trailing format) := by
  refine Flat.append (by decide) fun c hc => ?_
  rw [String.toList_ofList] at hc
  obtain ⟨d, -, rfl⟩ := List.mem_map.mp hc
  split
  · decide
  · next hd => simpa [not_or] using hd

end Comment

theorem lined_docText (doc : Option String) {indent : String} (hindent : Flat indent) :
    Lined (docText doc indent) := by
  cases doc with
  | none => exact .empty
  | some text => exact Comment.lined_doc text hindent

theorem Property.lined_lines {p : Property TypeExpr} (h : Flat p.type.text) : Lined p.lines := by
  have hindent : Flat indentation := by decide
  have hformat : Flat ((p.format.map Comment.trailing).getD "") := by
    cases p.format with
    | none => decide
    | some format => exact Comment.flat_trailing format
  have hline := ((hindent.append (Property.flat_text h)).append (by decide : Flat ";")).append hformat
  have hall := (lined_docText p.doc hindent).append (.line hline.isLine)
  simpa [Property.lines, String.append_assoc] using hall

theorem ObjectType.lined_lines {o : ObjectType TypeExpr}
    (properties : ∀ p ∈ o.properties, Flat p.type.text) (index : ∀ t ∈ o.index, Flat t.text) :
    Lined o.lines := by
  unfold lines
  refine Lined.append (.concat fun s hs => ?_) ?_
  · obtain ⟨p, hp, rfl⟩ := List.mem_map.mp hs
    exact Property.lined_lines (properties p hp)
  · cases hindex : o.index with
    | none => exact .empty
    | some t =>
        have hindent : Flat indentation := by decide
        have hline := (hindent.append (flat_indexText (index t hindex))).append (by decide : Flat ";")
        have hall := Lined.line hline.isLine
        simpa [String.append_assoc] using hall

/-- The text of a declaration is made of lines when the names in it are flat. -/
theorem Declaration.lined_text {d : Declaration} (hname : Flat d.name)
    (hnames : ∀ name ∈ d.names, Flat name) : Lined d.text := by
  have hdoc : Lined (docText d.doc "") := lined_docText d.doc (by decide)
  have hexport : Flat (if d.exported then "export " else "") := by split <;> decide
  unfold names at hnames
  unfold text
  cases hbody : d.body with
  | interface o =>
      rw [hbody] at hnames
      have hlines : Lined o.lines := by
        refine ObjectType.lined_lines (fun p hp => p.type.flat_text fun name hn => ?_)
          fun t ht => t.flat_text fun name hn => ?_
        · exact hnames name (ObjectType.mem_names.mpr (.inl ⟨p, hp, hn⟩))
        · exact hnames name (ObjectType.mem_names.mpr (.inr ⟨t, ht, hn⟩))
      have hopen := ((hexport.append (by decide : Flat "interface ")).append hname).append
        (by decide : Flat " \x7b")
      have hclose : Lined ("\x7d" ++ "\n") := .line (Flat.isLine (by decide))
      have hall := ((hdoc.append (.line hopen.isLine)).append hlines).append hclose
      simpa [String.append_assoc] using hall
  | synonym t =>
      rw [hbody] at hnames
      have hline := ((((hexport.append (by decide : Flat "type ")).append hname).append
        (by decide : Flat " = ")).append (t.flat_text hnames)).append (by decide : Flat ";")
      have hall := hdoc.append (.line hline.isLine)
      simpa [String.append_assoc] using hall

theorem SchemaModel.Built.lined_text {model : SchemaModel} {sorted withQuery : Bool} {b : Build}
    {log : List Begun} {st : Progress} {queries : List Declaration}
    (h : Built model sorted withQuery b log st queries) :
    Lined (DeclarationFile.text { declarations := b.declarations }) := by
  refine Lined.spaced fun s hs => ?_
  obtain ⟨d, hd, rfl⟩ := List.mem_map.mp hs
  exact Declaration.lined_text (Text.flat_of_name (h.isName hd).chars)
    fun name hn => Text.flat_of_name (h.isName_of_mem_names hd hn).chars

/-! ## The namespace around them -/

def indentLine (l : List Char) : List Char := if l = [] then [] else ' ' :: ' ' :: l

def outdentLine : List Char → List Char
  | ' ' :: ' ' :: l => l
  | l => l

theorem outdentLine_indentLine (l : List Char) : outdentLine (indentLine l) = l := by
  cases l <;> rfl

def unwrapped (output : String) : String :=
  String.ofList (closed ((closedLines output.toList).tail.dropLast.map outdentLine))

structure WrappedIn (ns : String) (plain wrapped : String) : Prop where
  /-- The plain text ends with the end of a line. -/
  plain_eq : plain.toList = closed (closedLines plain.toList)
  wrapped_eq : wrapped.toList = ("declare namespace " ++ ns ++ " \x7b\n").toList
    ++ closed ((closedLines plain.toList).map indentLine) ++ "\x7d\n".toList
  unwrapped_eq : unwrapped wrapped = plain

theorem toList_indentLines {text : String} {ls : List (List Char)} (hls : ∀ l ∈ ls, IsLine l)
    (h : text.toList = closed ls) : (indentLines text).toList = closed (ls.map indentLine) := by
  rw [indentLines, h, Text.lines_closed hls]
  clear hls h
  induction ls with
  | nil => rfl
  | cons l ls ih =>
      rw [List.map_cons, String.join_cons, String.toList_append, ih, List.map_cons, Text.closed_cons,
        String.toList_append]
      cases l with
      | nil => rfl
      | cons c l => simp [indentLine, indentation]

def wrappedLines (ns : String) (ls : List (List Char)) : List (List Char) :=
  ("declare namespace " ++ ns ++ " \x7b").toList :: (ls.map indentLine ++ [['\x7d']])

section

variable {ns : String} {ls : List (List Char)}

theorem closed_wrappedLines :
    closed (wrappedLines ns ls) = ("declare namespace " ++ ns ++ " \x7b\n").toList
      ++ closed (ls.map indentLine) ++ "\x7d\n".toList := by
  rw [wrappedLines, Text.closed_cons, Text.closed_append]
  simp [Text.closed]

theorem feed_not_mem_indentLine {l : List Char} (h : '\n' ∉ l) : '\n' ∉ indentLine l := by
  cases l with
  | nil => exact h
  | cons c l => simpa [indentLine] using h

/-- No line of a namespace holds a line feed if none of those in it does. -/
theorem feed_not_mem_wrappedLines (hns : '\n' ∉ ns.toList) (hls : ∀ l ∈ ls, '\n' ∉ l) :
    ∀ l ∈ wrappedLines ns ls, '\n' ∉ l := by
  intro l hl
  rcases List.mem_cons.mp hl with rfl | hl
  · simpa using hns
  rcases List.mem_append.mp hl with hl | hl
  · obtain ⟨l', hl', rfl⟩ := List.mem_map.mp hl
    exact feed_not_mem_indentLine (hls l' hl')
  · obtain rfl := List.mem_singleton.mp hl
    decide

theorem outdent_wrappedLines : (wrappedLines ns ls).tail.dropLast.map outdentLine = ls := by
  rw [wrappedLines, List.tail_cons, List.dropLast_concat, List.map_map]
  exact List.map_id'' outdentLine_indentLine ls

end

/-- A file of declarations in a namespace is the file without one, wrapped. -/
theorem DeclarationFile.wrappedIn {declarations : List Declaration} {ns : String}
    (hns : '\n' ∉ ns.toList) (h : Lined (DeclarationFile.text { declarations })) :
    WrappedIn ns (DeclarationFile.text { declarations })
      (DeclarationFile.text { declarations, namespaceName := some ns }) := by
  obtain ⟨ls, hls, heq⟩ := h
  have hfeed : ∀ l ∈ ls, '\n' ∉ l := fun l hl => (hls l hl).feed
  have hlines : closedLines (DeclarationFile.text { declarations }).toList = ls := by
    rw [heq]
    exact Text.closedLines_closed hfeed
  have hwrapped : (DeclarationFile.text { declarations, namespaceName := some ns }).toList =
      ("declare namespace " ++ ns ++ " \x7b\n").toList ++ closed (ls.map indentLine)
        ++ "\x7d\n".toList := by
    show (_ ++ indentLines (DeclarationFile.text { declarations }) ++ _ : String).toList = _
    rw [String.toList_append, String.toList_append, toList_indentLines hls heq]
  refine ⟨by rw [hlines, heq], by rw [hlines, hwrapped], ?_⟩
  -- no line holds a line feed, so cutting the wrapped text gives the lines it was made of
  rw [unwrapped, hwrapped, ← closed_wrappedLines,
    Text.closedLines_closed (feed_not_mem_wrappedLines hns hfeed), outdent_wrappedLines, ← heq,
    String.ofList_toList]

/-! ## Conversions -/

theorem convert_eq (document : Value) (options : Options) :
    convert document options =
      (Build.ofDocument document options >>= fun build =>
        (DeclarationFile.organize build.declarations options.namespaceName).map fun file =>
          { output := file.text, warnings := build.warnings }) := by
  unfold convert Build.ofDocument
  cases SchemaModel.ofDocument document options.withQuery with
  | error fault => rfl
  | ok model =>
      show (model.build options.sortProps options.withQuery >>= _) =
        (model.build options.sortProps options.withQuery >>= _)
      cases model.build options.sortProps options.withQuery with
      | error fault => rfl
      | ok build =>
          show (DeclarationFile.organize build.declarations options.namespaceName >>= _) =
            (DeclarationFile.organize build.declarations options.namespaceName).map _
          cases DeclarationFile.organize build.declarations options.namespaceName <;> rfl

theorem Build.lined_text {document : Value} {options : Options} {b : Build}
    (h : Build.ofDocument document options = .ok b) :
    Lined (DeclarationFile.text { declarations := b.declarations }) := by
  obtain ⟨model, -, hbuild⟩ := bind_eq_ok.mp h
  obtain ⟨log, st, queries, hb⟩ := SchemaModel.built_of_ok hbuild
  exact hb.lined_text

/-- A line feed is no part of a namespace. -/
theorem feed_not_mem_namespace {ns : String}
    (h : ∀ segment ∈ Text.splitAt '.' ns, Text.isDeclarable segment = true) : '\n' ∉ ns.toList := by
  intro hmem
  have hpieces : '\n' = '.' ∨ ∃ piece ∈ Text.pieces '.' ns.toList, '\n' ∈ piece :=
    Text.mem_pieces hmem
  rcases hpieces with heq | ⟨piece, hpiece, hc⟩
  · exact absurd heq (by decide)
  · have hdeclarable := h (String.ofList piece) (List.mem_map_of_mem hpiece)
    have hplain := (Bool.and_eq_true_iff.mp hdeclarable).1
    have hchar := Text.isNameChar_of_isPlain hplain '\n' (by simpa using hc)
    cases hchar

/-- A namespace only wraps: with one, a conversion succeeds exactly when it does without, or fails with
the same fault; the warnings are the same, and the output is that without it, each line indented unless
it is empty, between an opening and a closing line. -/
theorem convert_in_namespace (document : Value) (options : Options) {ns : String}
    (h : ∀ segment ∈ Text.splitAt '.' ns, Text.isDeclarable segment = true) :
    SameOutcome
      (fun plain wrapped =>
        wrapped.warnings = plain.warnings ∧ WrappedIn ns plain.output wrapped.output)
      (convert document { options with namespaceName := none })
      (convert document { options with namespaceName := some ns }) := by
  have hns : isNamespace ns = true := List.all_eq_true.mpr h
  rw [convert_eq, convert_eq]
  show SameOutcome _ (Build.ofDocument document options >>= _)
    (Build.ofDocument document options >>= _)
  cases hbuild : Build.ofDocument document options with
  | error fault => exact .error
  | ok b =>
      have hwrapped := DeclarationFile.wrappedIn (feed_not_mem_namespace h) (Build.lined_text hbuild)
      show SameOutcome _
        ((DeclarationFile.organize b.declarations none).map
          fun file => Conversion.mk file.text b.warnings)
        ((DeclarationFile.organize b.declarations (some ns)).map
          fun file => Conversion.mk file.text b.warnings)
      rw [DeclarationFile.organize, DeclarationFile.organize, if_pos hns]
      exact .ok ⟨rfl, hwrapped⟩

/-- A document whose descriptions and formats have line ends of every kind. -/
def petNotes : Value :=
  .object
    [("definitions", .object
      [("Pet", .object
        [("description", .string "A pet.\r\n\r\nNo\rwild animal.\r\r\n*/"),
          ("properties", .object
            [("tag", .object
                [("type", .string "string"), ("format", .string "short\r\ntext")]),
              ("name\n", .object [("enum", .array [.string "Rex\r\n"])])])])])]

theorem petNotes_output :
    (convert petNotes {}).toOption.map Conversion.output =
      some ("/**\n * A pet.\n *\n * No\rwild animal.\n * *\\/\n */\n"
        ++ "export interface Pet \x7b\n  tag?: string; // short  text\n"
        ++ "  \"name\\n\"?: \"Rex\\r\\n\";\n\x7d\n") := by
  decide +kernel

theorem petNotes_wrapped : ∃ plain wrapped, convert petNotes {} = .ok plain ∧
    convert petNotes { namespaceName := some "Pets.V1" } = .ok wrapped ∧
    wrapped.warnings = plain.warnings ∧ WrappedIn "Pets.V1" plain.output wrapped.output := by
  have hsame := convert_in_namespace petNotes {} (by decide :
    ∀ segment ∈ Text.splitAt '.' "Pets.V1", Text.isDeclarable segment = true)
  obtain ⟨plain, hplain, -⟩ := eq_ok_of_toOption_map petNotes_output
  rw [hplain] at hsame
  generalize convert petNotes { namespaceName := some "Pets.V1" } = outcome at hsame ⊢
  cases hsame with
  | ok hwrapped => exact ⟨plain, _, hplain, rfl, hwrapped⟩

end SwaggerTypes
