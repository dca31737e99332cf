import SwaggerTypes.Proofs.NamedReferences
/-!
# The order of definitions

Definitions are declared when they are first met, so the order in which declarations are made depends
on the order of the definitions and on their references. What is made does not, as long as nothing has
to be cut: the same definitions in another order become the same declarations in that order, with the
same warnings.
-/

namespace SwaggerTypes

open Relation (TransGen)

def rearrange {α : Type} (positions : List Nat) (l : List α) : List α :=
  positions.filterMap fun i => l[i]?

section Rearrange

variable {α : Type} {positions : List Nat} {l : List α}

theorem getElem?_rearrange (h : ∀ i ∈ positions, i < l.length) (k : Nat) :
    (rearrange positions l)[k]? = positions[k]?.bind (l[·]?) := by
  induction positions generalizing k with
  | nil => rfl
  | cons i rest ih =>
      obtain ⟨a, ha⟩ : ∃ a, l[i]? = some a := ⟨_, List.getElem?_eq_getElem (h i List.mem_cons_self)⟩
      have hrest := ih fun j hj => h j (List.mem_cons_of_mem _ hj)
      rw [rearrange, List.filterMap_cons, ha]
      cases k with
      | zero => exact ha.symm
      | succ k => exact hrest k

theorem rearrange_range (l : List α) : rearrange (List.range l.length) l = l := by
  refine List.ext_getElem? fun k => ?_
  rw [getElem?_rearrange fun i hi => List.mem_range.mp hi]
  rcases Nat.lt_or_ge k l.length with hk | hk
  · rw [List.getElem?_range hk, Option.bind_some]
  · rw [List.getElem?_eq_none_iff.mpr (by simpa using hk), List.getElem?_eq_none_iff.mpr hk]
    rfl

theorem rearrange_perm (h : positions.Perm (List.range l.length)) :
    (rearrange positions l).Perm l := by
  have hp := h.filterMap fun i => l[i]?
  rwa [show (List.range l.length).filterMap (fun i => l[i]?) = l from rearrange_range l] at hp

end Rearrange

/-! ## Names without duplicates -/

namespace SchemaModel

/-- Definitions with different names keep them, and nothing is reported. -/
theorem takeNames_of_nodup {definitions : List Definition}
    (h : (definitions.map fun d => Text.sanitize d.name).Nodup) :
    (takeNames definitions).1 = definitions.map (fun d => Text.sanitize d.name) ∧
      (takeNames definitions).2.warnings = [] := by
  induction definitions using List.reverseRecOn with
  | nil => exact ⟨rfl, rfl⟩
  | append_singleton ds d ih =>
      rw [List.map_append, List.nodup_append] at h
      obtain ⟨hnames, hwarnings⟩ := ih h.1
      have hfree : Text.sanitize d.name ∉ (takeNames ds).2.taken := by
        rw [(named_takeNames ds).taken, List.mem_reverse, hnames]
        exact fun hmem => h.2.2 _ hmem _ List.mem_cons_self rfl
      have hnext : nextName (takeNames ds).2.taken (Text.sanitize d.name) d.pointer =
          (Text.sanitize d.name, none) := by
        rw [nextName, if_neg hfree]
      rw [takeNames_concat, hnext]
      exact ⟨by simp [hnames], by simp [hwarnings]⟩

theorem nameOf_of_nodup {model : SchemaModel} {sorted : Bool} {i : Nat} {d : Definition}
    (h : (model.definitions.entries.map fun d => Text.sanitize d.name).Nodup)
    (entry : model.definitions.entries[i]? = some d) :
    (model.setting sorted).nameOf i = Text.sanitize d.name := by
  have hnames : (model.setting sorted).names = _ := (takeNames_of_nodup h).1
  rw [Setting.nameOf, hnames, List.getElem?_map, entry]
  rfl

end SchemaModel

/-! ## Tables with the same definitions -/

namespace DefinitionTable

variable {table table' : DefinitionTable}

def Agrees (table table' : DefinitionTable) : Prop := ∀ d, d ∈ table.entries ↔ d ∈ table'.entries

theorem Agrees.symm (h : table.Agrees table') : table'.Agrees table := fun d => (h d).symm

theorem Agrees.find? (h : table.Agrees table') {home : Home} {name : String} {d : Definition} {i : Nat}
    (hfind : table.find? home name = some (d, i)) : ∃ j, table'.find? home name = some (d, j) := by
  obtain ⟨rfl, rfl⟩ := key_of_find? hfind
  have hd := (h d).mp (List.mem_of_getElem? (getElem?_of_find? hfind))
  obtain ⟨j, hj⟩ := List.getElem?_of_mem hd
  exact ⟨j, find?_of_getElem? hj⟩

/-- A pointer leads to the same schema in both, though its definition may stand at another
position. -/
structure SameTarget (table table' : DefinitionTable) (target target' : Target) : Prop where
  pointer : target'.pointer = target.pointer
  node : target'.node = target.node
  isRoot : target'.isRoot = target.isRoot
  entry : table'.entries[target'.definition]? = table.entries[target.definition]?

theorem Agrees.resolveFrom (h : table.Agrees table') {pointer : String} {walks : Nat}
    {visited segments : List String} {target : Target}
    (hresolve : table.resolveFrom pointer walks visited segments = .ok target) :
    ∃ target', table'.resolveFrom pointer walks visited segments = .ok target' ∧
      SameTarget table table' target target' := by
  induction walks generalizing visited segments with
  | zero => cases hresolve
  | succ walks ih =>
      rw [DefinitionTable.resolveFrom] at hresolve ⊢
      split at hresolve
      · cases hresolve
      · next hnew =>
        rw [if_neg hnew]
        split at hresolve
        · cases hresolve
        · next home name rest hsplit =>
          split at hresolve
          · cases hresolve
          · next d i hfind =>
            obtain ⟨j, hfind'⟩ := h.find? hfind
            simp only [hfind']
            split at hresolve
            · next node hwalk =>
              cases hresolve
              refine ⟨_, rfl, rfl, rfl, rfl, ?_⟩
              exact (getElem?_of_find? hfind').trans (getElem?_of_find? hfind).symm
            · cases hresolve
            · next followed rest' hwalk =>
              obtain ⟨segments', hparse, hrest⟩ := bind_eq_ok.mp hresolve
              obtain ⟨target', htarget, hsame⟩ := ih hrest
              exact ⟨target', bind_eq_ok.mpr ⟨segments', hparse, htarget⟩, hsame⟩

theorem Agrees.resolve (h : table.Agrees table') {pointer : String} {target : Target}
    (hresolve : table.resolve pointer = .ok target) :
    ∃ target', table'.resolve pointer = .ok target' ∧ SameTarget table table' target target' := by
  obtain ⟨segments, hparse, hfrom⟩ := bind_eq_ok.mp hresolve
  obtain ⟨target', htarget, hsame⟩ := h.resolveFrom hfrom
  exact ⟨target', bind_eq_ok.mpr ⟨segments, hparse, htarget⟩, hsame⟩

theorem Agrees.expands (h : table.Agrees table') {x y : Spot} (hxy : table.Expands x y) :
    table'.Expands x y := by
  cases hxy with
  | member composition hp => exact .member composition hp
  | reference resolved =>
      obtain ⟨target', resolved', hsame⟩ := h.resolve resolved
      rw [← hsame.pointer, ← hsame.node]
      exact .reference resolved'

theorem Agrees.references (h : table.Agrees table') {r : String} (hr : r ∈ table.references) :
    r ∈ table'.references := by
  obtain ⟨_, hmap, hr⟩ := List.mem_flatten.mp hr
  obtain ⟨d, hd, rfl⟩ := List.mem_map.mp hmap
  exact mem_references ((h d).mp hd) hr

end DefinitionTable

/-! ## Builds in which nothing is cut -/

def Definition.declaration (d : Definition) (t : TypeExpr) : Declaration :=
  { name := Text.sanitize d.name
    doc := d.root.description
    body := .ofType d.root.isInterface t }

namespace SchemaModel

/-- Nothing has to be cut: every reference leads to a whole definition, the definitions have different
names, and none leads back to itself by members and references alone. -/
structure Uncut (model : SchemaModel) : Prop where
  root : ∀ r ∈ model.definitions.references, ∃ target,
    model.definitions.resolve r = .ok target ∧ target.isRoot = true
  names : (model.definitions.entries.map fun d => Text.sanitize d.name).Nodup
  acyclic : ∀ d ∈ model.definitions.entries,
    ¬ TransGen model.definitions.Expands (d.pointer, d.root) (d.pointer, d.root)

def referenceName (model : SchemaModel) (r : String) : String :=
  match model.definitions.resolve r with
  | .ok target => ((model.definitions.entries[target.definition]?).map fun d =>
      Text.sanitize d.name).getD ""
  | .error _ => ""

variable {model model' : SchemaModel} {sorted : Bool} {names : String → String}

/-- In any order of the definitions references stand for the same names. -/
theorem Uncut.straight (h : model.Uncut) (h' : model'.Uncut)
    (ha : model.definitions.Agrees model'.definitions) :
    (model'.setting sorted).Straight model.referenceName where
  root := by
    intro r hr
    obtain ⟨target, resolved, root⟩ := h.root r (ha.symm.references hr)
    obtain ⟨d, entry, -⟩ := DefinitionTable.resolve_root resolved root
    obtain ⟨target', resolved', hsame⟩ := ha.resolve resolved
    refine ⟨target', resolved', hsame.isRoot.trans root, ?_⟩
    rw [nameOf_of_nodup h'.names (hsame.entry.trans entry), referenceName, resolved]
    simp [entry]
  acyclic := h'.acyclic

/-- If nothing has to be cut, nothing has to be cut in another order either. -/
theorem Uncut.of_perm (h : model.Uncut)
    (hperm : model'.definitions.entries.Perm model.definitions.entries) : model'.Uncut where
  root := by
    have ha : model.definitions.Agrees model'.definitions := fun d => (hperm.mem_iff).symm
    intro r hr
    obtain ⟨target, resolved, root⟩ := h.root r (ha.symm.references hr)
    obtain ⟨target', resolved', hsame⟩ := ha.resolve resolved
    exact ⟨target', resolved', hsame.isRoot.trans root⟩
  names := (hperm.map _).nodup_iff.mpr h.names
  acyclic := by
    have ha : model'.definitions.Agrees model.definitions := fun d => hperm.mem_iff
    intro d hd hcycle
    exact h.acyclic d ((ha d).mp hd) (TransGen.mono (fun _ _ hxy => ha.expands hxy) _ _ hcycle)

/-- Every definition is begun once in a build. -/
theorem Built.begun_perm {withQuery : Bool} {b : Build} {log : List Begun} {st : Progress}
    {queries : List Declaration} (h : Built model sorted withQuery b log st queries) :
    (log.map Begun.index).Perm (List.range model.definitions.entries.length) := by
  have hfin := h.run.finishes (model.start_orderly sorted)
  refine (List.perm_ext_iff_of_nodup hfin.nodup List.nodup_range).mpr fun i => ?_
  rw [List.mem_range]
  constructor
  · intro hi
    have hlt := (List.getElem?_eq_some_iff.mp (hfin.pending i hi)).1
    rwa [start_slots, List.length_map] at hlt
  · intro hi
    obtain ⟨p, hp⟩ := h.begun hi
    exact List.mem_map_of_mem (f := Begun.index) hp

/-- Where nothing has to be cut a build succeeds. Its declarations are what the roots of the
definitions read as, and its warnings are what the roots report. -/
theorem Uncut.build (h : model.Uncut) (hs : (model.setting sorted).Straight names) :
    ∃ b, model.build sorted false = .ok b ∧
      b.declarations.length = model.definitions.entries.length ∧
      b.warnings.Perm
        (model.definitions.entries.flatMap (Setting.rootWarnings sorted names)) ∧
      ∀ (i : Nat) (d : Definition), model.definitions.entries[i]? = some d → ∃ t ws,
        (model.setting sorted).Reads names d.pointer (.schema d.root) (.type t) ws ∧
          b.declarations[i]? = some (d.declaration t) := by
  cases hbuild : model.build sorted false with
  | error fault =>
      obtain ⟨r, hr, failed⟩ := fault_of_build hbuild
      obtain ⟨target, resolved, -⟩ := h.root r hr
      cases resolved.symm.trans failed
  | ok b =>
      obtain ⟨log, st, queries, hb⟩ := built_of_ok hbuild
      obtain ⟨ws, rfl, haccounts⟩ := hb.run.reads hs ⟨rfl, List.nil_subset _, .inl rfl⟩
      have hqueries : queries = [] := by
        cases hb.run
        rfl
      refine ⟨b, rfl, ?_, ?_, fun i d entry => ?_⟩
      · rw [hb.declarations_eq, hqueries, List.append_nil, hb.length]
      · have hwarnings := haccounts.warnings
        rw [show model.start.warnings = [] from (takeNames_of_nodup h.names).2] at hwarnings
        rw [hb.result]
        exact hwarnings.trans ((rearrange_perm hb.begun_perm).flatMap_right _)
      · have hstart : (model.setting sorted).DeclaresRoots names model.start :=
          fun i _ _ _ hdone => nomatch model.start_pending hdone
        obtain ⟨_, t, _, _, _, -, -, -, hdone, hdeclared⟩ := hb.definition entry
        obtain ⟨t', ws, hreads, heq⟩ := haccounts.declared hstart i d _ entry hdone
        refine ⟨t', ws, hreads, ?_⟩
        rw [hdeclared, heq, Setting.declarationOf, nameOf_of_nodup h.names entry]
        rfl

/-- The order of the definitions does not matter when nothing has to be cut: if every reference leads
to a whole definition, the sanitized names are different, and no cycle of references avoids the parts
of values, then the definitions in another order become the same declarations in that order, with the
same warnings each as often. -/
theorem build_rearranged {positions : List Nat} (h : model.Uncut)
    (hpositions : positions.Perm (List.range model.definitions.entries.length))
    (hentries : model'.definitions.entries = rearrange positions model.definitions.entries) :
    ∃ b b', model.build sorted false = .ok b ∧ model'.build sorted false = .ok b' ∧
      b'.declarations = rearrange positions b.declarations ∧ b'.warnings.Perm b.warnings := by
  have hperm : model'.definitions.entries.Perm model.definitions.entries :=
    hentries ▸ rearrange_perm hpositions
  have h' := h.of_perm hperm
  have ha : model.definitions.Agrees model'.definitions := fun d => hperm.mem_iff.symm
  obtain ⟨b, hbuild, hlength, hwarnings, hroots⟩ := h.build (h.straight h (fun _ => Iff.rfl))
  obtain ⟨b', hbuild', hlength', hwarnings', hroots'⟩ := h'.build (h.straight h' ha)
  refine ⟨b, b', hbuild, hbuild', ?_, ?_⟩
  · have hbound : ∀ i ∈ positions, i < model.definitions.entries.length :=
      fun i hi => List.mem_range.mp (hpositions.mem_iff.mp hi)
    refine List.ext_getElem? fun k => ?_
    rw [getElem?_rearrange (hlength ▸ hbound)]
    have hentry := getElem?_rearrange hbound k
    rw [← hentries] at hentry
    cases hk : positions[k]? with
    | none =>
        rw [hk, Option.bind_none, List.getElem?_eq_none_iff, ← hlength'] at hentry
        rw [List.getElem?_eq_none_iff.mpr hentry, Option.bind_none]
    | some i =>
        obtain ⟨d, hd⟩ : ∃ d, model.definitions.entries[i]? = some d :=
          ⟨_, List.getElem?_eq_getElem (hbound i (List.mem_of_getElem? hk))⟩
        rw [hk, Option.bind_some, hd] at hentry
        obtain ⟨t, ws, hreads, hdeclared⟩ := hroots i d hd
        obtain ⟨t', ws', hreads', hdeclared'⟩ := hroots' k d hentry
        obtain ⟨rfl, -⟩ := (hreads { location := d.pointer } rfl).unique
          (hreads' { location := d.pointer } rfl)
        rw [hdeclared', Option.bind_some, hdeclared]
  · exact hwarnings'.trans ((hperm.flatMap_right _).trans hwarnings.symm)

/-! A book with its pages, each of which knows its book, and an entry that is a book or a pair. -/

def bookEntry : Definition :=
  ⟨.definitions, "Entry", .bare <| .composite .oneOf
    [.bare (.reference "#/definitions/Book"), .bare (.unsupported "tuple `items`")]⟩

def book : Definition :=
  ⟨.definitions, "Book", .bare <| .object
    [("pages", .bare (.array (.bare (.reference "#/definitions/Page"))))] [] .closed⟩

def bookPage : Definition :=
  ⟨.definitions, "Page", .bare <| .object
    [("book", .bare (.reference "#/definitions/Book"))] ["book"] .closed⟩

def library : SchemaModel where
  definitions := { entries := [book, bookPage, bookEntry], nodup := by decide }

def libraryByEntry : SchemaModel where
  definitions := { entries := [bookEntry, book, bookPage], nodup := by decide }

theorem library_resolve {i : Nat} {d : Definition} (entry : library.definitions.entries[i]? = some d) :
    library.definitions.resolve d.pointer = .ok ⟨i, d.pointer, d.root, true⟩ :=
  DefinitionTable.resolve_render entry rfl

/-- From the entry members and the reference lead no further than to the book. -/
theorem library_way {x y : Spot} (h : TransGen library.definitions.Expands x y)
    (hx : x.2 = bookEntry.root) :
    y.2 = .bare (.reference book.pointer) ∨ y.2 = .bare (.unsupported "tuple `items`") ∨
      y.2 = book.root := by
  have hbook : book.pointer = "#/definitions/Book" := by decide +kernel
  rw [hbook]
  induction h with
  | single step =>
      cases step with
      | member _ hp =>
          obtain rfl : _ = bookEntry.root := hx
          cases hp with
          | @member _ _ _ i _ _ h =>
              match i, h with
              | 0, h => exact .inl (Option.some.inj h).symm
              | 1, h => exact .inr (.inl (Option.some.inj h).symm)
      | reference => cases hx
  | tail _ step ih =>
      rcases ih with h | h | h
      · cases step with
        | member composition =>
            obtain rfl : _ = Node.bare _ := h
            cases composition
        | reference resolved =>
            cases h
            rw [← hbook] at resolved
            cases (library_resolve (i := 0) rfl).symm.trans resolved
            exact .inr (.inr rfl)
      · rcases step.kind with ⟨_, _, hkind⟩ | ⟨_, hkind⟩ <;> rw [h] at hkind <;> cases hkind
      · rcases step.kind with ⟨_, _, hkind⟩ | ⟨_, hkind⟩ <;> rw [h] at hkind <;> cases hkind

theorem library_uncut : library.Uncut where
  root := by
    have hbook : book.pointer = "#/definitions/Book" := by decide +kernel
    have hpage : bookPage.pointer = "#/definitions/Page" := by decide +kernel
    have hrefs : library.definitions.references =
        [bookPage.pointer, book.pointer, book.pointer] := by
      rw [hbook, hpage]
      decide +kernel
    intro r hr
    simp only [hrefs, List.mem_cons, List.not_mem_nil, or_false, or_self] at hr
    rcases hr with rfl | rfl
    · exact ⟨_, library_resolve (i := 1) rfl, rfl⟩
    · exact ⟨_, library_resolve (i := 0) rfl, rfl⟩
  names := by decide +kernel
  acyclic := by
    intro d hd hcycle
    simp only [library, List.mem_cons, List.not_mem_nil, or_false] at hd
    obtain ⟨_, step, -⟩ := TransGen.head'_iff.mp hcycle
    rcases hd with rfl | rfl | rfl
    · rcases step.kind with ⟨_, _, hkind⟩ | ⟨_, hkind⟩ <;> cases hkind
    · rcases step.kind with ⟨_, _, hkind⟩ | ⟨_, hkind⟩ <;> cases hkind
    · rcases library_way hcycle rfl with h | h | h <;> cases h

theorem library_rearranged : ∃ b b', library.build false false = .ok b ∧
    libraryByEntry.build false false = .ok b' ∧ b'.declarations = rearrange [2, 0, 1] b.declarations ∧
      b'.warnings.Perm b.warnings :=
  build_rearranged library_uncut (by decide) rfl

end SchemaModel

end SwaggerTypes
