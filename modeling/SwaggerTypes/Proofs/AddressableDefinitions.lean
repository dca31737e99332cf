import Mathlib.Data.List.Nodup
import SwaggerTypes.Proofs.FaultContainment
import SwaggerTypes.Proofs.ReferenceHops
/-!
# Every definition has an address

A written pointer is read as its segments, and what is read is written in one way only, so that two
pointers have the same canonical text exactly when they have the same segments. Names may hold
anything: a tilde or a slash in one never meets those that the pointer itself is made with. So every
schema that a document names is found again by its pointer.
-/

namespace SwaggerTypes

namespace Pointer

/-! ## Escapes as replacements -/

def replacePair (first second new : Char) : List Char → List Char
  | c :: d :: cs =>
    if c = first ∧ d = second then new :: replacePair first second new cs
    else c :: replacePair first second new (d :: cs)
  | cs => cs

def replaceChar (old first second : Char) (cs : List Char) : List Char :=
  cs.flatMap fun c => if c = old then [first, second] else [c]

section

variable {first second new : Char}

theorem replacePair_of_ne {c : Char} (h : c ≠ first) (cs : List Char) :
    replacePair first second new (c :: cs) = c :: replacePair first second new cs := by
  cases cs with
  | nil => rfl
  | cons d cs => rw [replacePair, if_neg fun hpair => h hpair.1]

theorem replacePair_of_second_ne {d : Char} (h : d ≠ second) (cs : List Char) :
    replacePair first second new (first :: d :: cs) =
      first :: replacePair first second new (d :: cs) := by
  rw [replacePair, if_neg fun hpair => h hpair.2]

theorem replacePair_pair (cs : List Char) :
    replacePair first second new (first :: second :: cs) =
      new :: replacePair first second new cs := by
  rw [replacePair, if_pos ⟨rfl, rfl⟩]

/-- What replacing puts in front is the character that stood there, or the new one. -/
theorem head_replacePair (first second new d : Char) (cs : List Char) :
    ∃ e rest, replacePair first second new (d :: cs) = e :: rest ∧ (e = d ∨ e = new) := by
  cases cs with
  | nil => exact ⟨d, [], rfl, .inl rfl⟩
  | cons c cs =>
      rw [replacePair]
      split
      · exact ⟨new, _, rfl, .inr rfl⟩
      · exact ⟨d, _, rfl, .inl rfl⟩

end

/-- A segment is written by two replacements: of the tildes, and then of the slashes. -/
theorem escape_eq_replacements (segment : String) :
    (escape segment).toList = replaceChar '/' '~' '1' (replaceChar '~' '~' '0' segment.toList) := by
  rw [toList_escape, replaceChar, replaceChar, List.flatMap_assoc]
  refine congrArg (fun f => segment.toList.flatMap f) (funext fun c => ?_)
  unfold escapeChar
  split
  · rfl
  · rfl
  · next htilde hslash =>
    rw [if_neg htilde, List.flatMap_singleton, if_neg hslash]

/-- A written segment is read by two replacements in the other order: the escaped slashes come
first, so that what an escaped tilde becomes starts no escape. -/
theorem unescape_eq_replacements (cs : List Char) :
    unescape cs = replacePair '~' '0' '~' (replacePair '~' '1' '/' cs) := by
  fun_induction unescape cs with
  | case1 cs ih =>
      rw [ih, replacePair_pair, replacePair_of_ne (by decide)]
  | case2 cs ih =>
      rw [ih, replacePair_of_second_ne (by decide), replacePair_of_ne (c := '0') (by decide),
        replacePair_pair]
  | case3 c cs hslash htilde ih =>
      rw [ih]
      by_cases hc : c = '~'
      · subst hc
        cases cs with
        | nil => rfl
        | cons d cs =>
            have hone : d ≠ '1' := fun hd => hslash cs rfl (by rw [hd])
            have hzero : d ≠ '0' := fun hd => htilde cs rfl (by rw [hd])
            obtain ⟨e, rest, hfront, he⟩ := head_replacePair '~' '1' '/' d cs
            have hnew : e ≠ '0' := by
              rcases he with rfl | rfl
              · exact hzero
              · decide
            rw [replacePair_of_second_ne hone, hfront, replacePair_of_second_ne hnew]
      · rw [replacePair_of_ne hc, replacePair_of_ne hc]
  | case4 => rfl

/-- In the other order an escaped tilde before a one would become a slash. -/
example : replacePair '~' '1' '/' (replacePair '~' '0' '~' ['~', '0', '1']) = ['/'] ∧
    unescape ['~', '0', '1'] = ['~', '1'] := by decide

/-! ## Canonical pointers -/

theorem ne_nil_of_parse {pointer : String} {segments : List String}
    (h : parse pointer = .ok segments) : segments ≠ [] := by
  unfold parse at h
  split at h
  · next path _ =>
    cases h
    exact fun hnil => Text.pieces_ne_nil '/' path (List.map_eq_nil_iff.mp hnil)
  · cases h
  · cases h

end Pointer

/-! ## Tables of definitions -/

theorem Definition.key_of_pointer {d e : Definition} (h : d.pointer = e.pointer) : d.key = e.key := by
  have hsegments : d.home.segments ++ [d.name] = e.home.segments ++ [e.name] :=
    Pointer.render_inj (by simp) h
  have hsplit := congrArg Home.split? hsegments
  rw [Home.split?_append, Home.split?_append, Option.some.injEq, Prod.mk.injEq,
    Prod.mk.injEq] at hsplit
  exact Prod.ext hsplit.1 hsplit.2.1

namespace DefinitionTable

variable {table : DefinitionTable}

theorem nodup_pointers (table : DefinitionTable) :
    (table.entries.map Definition.pointer).Nodup :=
  List.Nodup.map_on (fun _ hd _ he hpointer =>
    List.inj_on_of_nodup_map table.nodup hd he (Definition.key_of_pointer hpointer))
    (List.Nodup.of_map _ table.nodup)

theorem indexOf?_pointer {i : Nat} {d : Definition} (entry : table.entries[i]? = some d) :
    table.indexOf? d.pointer = some i := by
  obtain ⟨hi, hd⟩ := List.getElem?_eq_some_iff.mp entry
  refine List.findIdx?_eq_some_iff_getElem.mpr ⟨hi, by simp [hd], fun j hj hsame => ?_⟩
  have hat : (table.entries.map Definition.pointer)[i]? = some d.pointer := by simp [entry]
  have hat' : (table.entries.map Definition.pointer)[j]? = some d.pointer := by
    simpa [Nat.lt_trans hj hi] using hsame
  have hlt : j < (table.entries.map Definition.pointer).length :=
    (List.getElem?_eq_some_iff.mp hat').1
  have hij : j = i := (List.getElem?_inj hlt table.nodup_pointers).mp (hat'.trans hat.symm)
  exact Nat.ne_of_lt hj hij

/-- A definition that is put in a table is there afterwards, or one of the same name in its place.
-/
theorem key_mem_ofList {ds : List Definition} {d : Definition} (h : d ∈ ds) :
    d.key ∈ (ofList ds).entries.map Definition.key := by
  induction ds using List.reverseRecOn with
  | nil => cases h
  | append_singleton ds e ih =>
      rw [ofList, List.foldl_append, List.foldl_cons, List.foldl_nil, insert]
      split
      · next htaken =>
        rcases List.mem_append.mp h with h | h
        · exact ih h
        · rw [List.mem_singleton.mp h]
          exact htaken
      · rw [List.map_append, List.mem_append]
        rcases List.mem_append.mp h with h | h
        · exact .inl (ih h)
        · exact .inr (List.mem_map_of_mem h)

end DefinitionTable

/-! ## The definitions of a document -/

theorem Schema.exists_of_mapOf {v found : Value} {name : String}
    {schemas : Option (Entries Schema)} (h : mapOf v = .ok schemas) (hv : v.field? name = some found) :
    ∃ entries, schemas = some entries ∧ name ∈ entries.map Prod.fst := by
  cases v with
  | object vs =>
      rw [mapOf_object] at h
      cases h
      have hget : (readAll vs).get? name = some (Schema.ofValue found) := by
        rw [readAll, Entries.get?_ofList_map, show (Entries.ofList vs).get? name = some found from hv]
        rfl
      exact ⟨_, rfl, Entries.mem_keys_of_get? hget⟩
  | array items => cases h
  | _ => cases hv

/-- A field that one key sets, and no other, is read from the last value under that key. -/
theorem Entries.read_of_foldlM {α σ ε γ : Type} (set : σ → String → α → Except ε σ) {start s : σ}
    (field : σ → γ) {key : String} (reads : α → γ → Prop)
    (hset : ∀ {s s' a}, set s key a = .ok s' → reads a (field s'))
    (hframe : ∀ {s s' name a}, set s name a = .ok s' → name ≠ key → field s' = field s)
    {fields : List (String × α)} {a : α}
    (h : fields.foldlM (fun s f => set s f.1 f.2) start = .ok s)
    (ha : (ofList fields).get? key = some a) : reads a (field s) := by
  rcases field_of_foldlM set field key reads hset hframe h with ⟨hnone, -⟩ | ⟨b, hb, hread⟩
  · rw [ha] at hnone
    cases hnone
  · cases ha.symm.trans hb
    exact hread

namespace Sections

variable {fields : List (String × Value)} {s : Sections} {v : Value}

theorem read_definitions (h : ofDocument (.object fields) = .ok s)
    (hv : (Entries.ofList fields).get? "definitions" = some v) :
    Schema.mapOf v = .ok s.definitions :=
  Entries.read_of_foldlM (fun s name v => Reading.under (.key name) (set s name v))
    Sections.definitions (fun v schemas => Schema.mapOf v = .ok schemas)
    (fun hset => by
      obtain ⟨_, hread, hs⟩ := bind_eq_ok.mp (Reading.under_eq_ok hset)
      cases hs
      exact hread)
    (fun hset hne => (set_frame (Reading.under_eq_ok hset)).1 hne) (readSection_eq_ok h) hv

theorem read_components (h : ofDocument (.object fields) = .ok s)
    (hv : (Entries.ofList fields).get? "components" = some v) :
    Components.ofValue v = .ok s.components :=
  Entries.read_of_foldlM (fun s name v => Reading.under (.key name) (set s name v))
    Sections.components (fun v c => Components.ofValue v = .ok c)
    (fun hset => by
      obtain ⟨_, hread, hs⟩ := bind_eq_ok.mp (Reading.under_eq_ok hset)
      cases hs
      exact hread)
    (fun hset hne => (set_frame (Reading.under_eq_ok hset)).2 hne) (readSection_eq_ok h) hv

end Sections

namespace Components

theorem read_object {fields : List (String × Value)} {found : Option Components}
    (h : ofValue (.object fields) = .ok found) :
    ∃ c, found = some c ∧ Record.components.read set {} (.object fields) = .ok c := by
  replace h : (Record.components.read set {} (.object fields)).map some = .ok found := h
  cases hread : Record.components.read set {} (.object fields) with
  | error m =>
      rw [hread] at h
      cases h
  | ok c =>
      rw [hread] at h
      cases h
      exact ⟨c, rfl, rfl⟩

theorem schemas_read {fields : List (String × Value)} {c : Components} {v : Value}
    (h : Record.components.read set {} (.object fields) = .ok c)
    (hv : (Entries.ofList fields).get? "schemas" = some v) : Schema.mapOf v = .ok c.schemas :=
  Entries.read_of_foldlM (fun c name v => Reading.under (.key name) (set c name v))
    Components.schemas (fun v schemas => Schema.mapOf v = .ok schemas)
    (fun hset => by
      obtain ⟨_, hread, hs⟩ := bind_eq_ok.mp (Reading.under_eq_ok hset)
      cases hs
      exact hread)
    (fun hset hne => set_frame (Reading.under_eq_ok hset) hne) h hv

end Components

/-- What a document names is put in its table. -/
theorem Sections.key_mem_definitionTable {fields : List (String × Value)} {s : Sections}
    (h : ofDocument (.object fields) = .ok s) {home : Home} {name : String} {v : Value}
    (hv : (Value.object fields).locate (home.segments ++ [name]) = some v) :
    (home, name) ∈ s.definitionTable.entries.map Definition.key := by
  have hmem {found : Home} {entries : Entries Schema} (hname : name ∈ entries.map Prod.fst) :
      ∃ d ∈ entries.map fun e => ({ home := found, name := e.1, root := e.2.node } : Definition),
        d.key = (found, name) := by
    obtain ⟨e, he, rfl⟩ := List.mem_map.mp hname
    exact ⟨_, List.mem_map_of_mem he, rfl⟩
  cases home with
  | definitions =>
      obtain ⟨w, hw, hrest⟩ := Option.bind_eq_some_iff.mp hv
      obtain ⟨found, hfound, -⟩ := Option.bind_eq_some_iff.mp hrest
      obtain ⟨entries, hentries, hname⟩ := Schema.exists_of_mapOf (read_definitions h hw) hfound
      obtain ⟨d, hd, hkey⟩ := hmem hname
      rw [← hkey]
      refine DefinitionTable.key_mem_ofList (List.mem_append_left _ ?_)
      rw [hentries]
      exact hd
  | components =>
      obtain ⟨w, hw, hrest⟩ := Option.bind_eq_some_iff.mp hv
      obtain ⟨schemas, hschemas, hrest⟩ := Option.bind_eq_some_iff.mp hrest
      obtain ⟨found, hfound, -⟩ := Option.bind_eq_some_iff.mp hrest
      cases w with
      | object inner =>
          obtain ⟨c, hc, hread⟩ := Components.read_object (read_components h hw)
          obtain ⟨entries, hentries, hname⟩ :=
            Schema.exists_of_mapOf (Components.schemas_read hread hschemas) hfound
          obtain ⟨d, hd, hkey⟩ := hmem hname
          rw [← hkey]
          refine DefinitionTable.key_mem_ofList (List.mem_append_right _ ?_)
          rw [hc, Option.bind_some, hentries]
          exact hd
      | _ => cases hschemas

/-- What a document names is a definition, read from the value under its name. -/
theorem SchemaModel.exists_definition {document : Value} {withOperations : Bool}
    {model : SchemaModel} (h : SchemaModel.ofDocument document withOperations = .ok model)
    {home : Home} {name : String} {v : Value}
    (hv : document.locate (home.segments ++ [name]) = some v) :
    ∃ d ∈ model.definitions.entries, d.home = home ∧ d.name = name ∧ d.root = Node.ofValue v := by
  obtain ⟨fields, s, rfl, hs, hdefinitions⟩ := sections_of_document h
  have hkey := Sections.key_mem_definitionTable hs hv
  rw [← hdefinitions] at hkey
  obtain ⟨d, hd, hdkey⟩ := List.mem_map.mp hkey
  cases hdkey
  refine ⟨d, hd, rfl, rfl, ?_⟩
  obtain ⟨w, hw, hroot⟩ := definition_of_document h hd fun hhome items hlist => by
    rw [hhome] at hv
    have hcomponents := Option.bind_eq_some_iff.mp hv
    obtain ⟨found, hfound, hrest⟩ := hcomponents
    replace hlist := Option.bind_eq_some_iff.mp hlist
    obtain ⟨again, hagain, hpure⟩ := hlist
    cases hpure
    cases hfound.symm.trans hagain
    cases hrest
  cases hv.symm.trans hw
  exact hroot

namespace Pointer

/-- Pointers are written and read in one way: what is written is read back, what is read has a
canonical text that is read the same, and pointers have the same canonical text exactly when they
have the same segments. Whatever the names in a document are, each named schema is a definition, the
pointers of definitions are all different, and the pointer of each leads back to its position and to
its root. -/
theorem definitions_addressable :
    (∀ segments : List String, segments ≠ [] → parse (render segments) = .ok segments) ∧
    (∀ pointer segments, parse pointer = .ok segments → parse (render segments) = .ok segments) ∧
    (∀ p q segments others, parse p = .ok segments → parse q = .ok others →
      (render segments = render others ↔ segments = others)) ∧
    ∀ document withOperations model, SchemaModel.ofDocument document withOperations = .ok model →
      (∀ (home : Home) name v, document.locate (home.segments ++ [name]) = some v →
        ∃ d ∈ model.definitions.entries, d.home = home ∧ d.name = name ∧
          d.root = Node.ofValue v) ∧
      (model.definitions.entries.map Definition.pointer).Nodup ∧
      ∀ i d, model.definitions.entries[i]? = some d →
        model.definitions.indexOf? d.pointer = some i ∧
        model.definitions.resolve d.pointer = .ok ⟨i, d.pointer, d.root, true⟩ := by
  refine ⟨fun segments => parse_render, fun pointer segments h => parse_render (ne_nil_of_parse h),
    fun p q segments others hp _ => ⟨render_inj (ne_nil_of_parse hp), congrArg render⟩,
    fun document withOperations model h => ⟨fun home name v => SchemaModel.exists_definition h,
      model.definitions.nodup_pointers, fun i d entry => ⟨?_, ?_⟩⟩⟩
  · exact DefinitionTable.indexOf?_pointer entry
  · exact DefinitionTable.resolve_render entry (by rw [Node.walk])

/-- Names that are empty or made of what pointers are made with. -/
def oddNames : Value :=
  .object [("definitions", .object
      [("", .object [("type", .string "string")]), ("~", .object [("type", .string "integer")]),
        ("/", .object []), ("~1", .object [("type", .string "boolean")])]),
    ("components", .object [("schemas", .object [("~1", .object [("type", .string "number")])])])]

def oddFlag : Definition := ⟨.definitions, "~1", .bare (.primitive .boolean none)⟩

/-- A name that looks like the escape of a slash is not taken for the slash. -/
theorem oddNames_addressable :
    parse (render ["definitions", "~1"]) = .ok ["definitions", "~1"] ∧
    render ["definitions", "~1"] ≠ render ["definitions", "/"] ∧
    ∃ model, SchemaModel.ofDocument oddNames false = .ok model ∧
      (∃ d ∈ model.definitions.entries, d.home = .definitions ∧ d.name = "~1" ∧
        d.root = oddFlag.root) ∧
      model.definitions.indexOf? "#/definitions/~01" = some 3 ∧
      model.definitions.resolve "#/definitions/~01" =
        .ok ⟨3, "#/definitions/~01", oddFlag.root, true⟩ := by
  obtain ⟨hback, -, hsame, hdocument⟩ := definitions_addressable
  obtain ⟨model, hmodel, entry⟩ : ∃ model, SchemaModel.ofDocument oddNames false = .ok model ∧
      model.definitions.entries[3]? = some oddFlag := ⟨_, rfl, rfl⟩
  obtain ⟨hnamed, -, hentry⟩ := hdocument oddNames false model hmodel
  obtain ⟨d, hd, hhome, hname, hroot⟩ := hnamed .definitions "~1" _ rfl
  obtain ⟨hindex, hresolve⟩ := hentry 3 oddFlag entry
  have hpointer : oddFlag.pointer = "#/definitions/~01" := by decide
  rw [hpointer] at hindex hresolve
  refine ⟨hback _ (by decide), ?_, model, hmodel, ⟨d, hd, hhome, hname, hroot⟩, hindex, hresolve⟩
  rw [ne_eq, hsame "#/definitions/~01" "#/definitions/~1" _ _ (by rfl) (by rfl)]
  decide

end Pointer

end SwaggerTypes
