import SwaggerTypes.Proofs.Declarations
import SwaggerTypes.Proofs.WarningOrigins
import Mathlib.Logic.Relation
/-!
# Recursive references into unnamed schemas

A reference into the middle of a definition is written out where it stands, so one that leads back to
itself cannot be expressed. The synthesis takes a reference for such a one when what it leads to is
open already. From everything that is open there is a path to the schema at hand, through parts of
schemas and through references; a reference to a whole definition is on that path only where the
declaration of the definition was begun on the way.
-/

namespace SwaggerTypes

open Relation (ReflTransGen TransGen)

/-! ## Paths through schemas -/

abbrev Spot := String × Node

/-- One step on the way through schemas: to a part, through a reference into the middle of a
definition, or through a reference to one of the definitions in `named`. -/
inductive DefinitionTable.Leads (table : DefinitionTable) (named : Nat → Prop) : Spot → Spot → Prop
  | part {pointer segments node part} (h : Node.PartAt node segments part) :
      Leads table named (pointer, node) (Pointer.extend pointer segments, part)
  | deep {pointer r doc nullable target} (resolved : table.resolve r = .ok target)
      (deep : target.isRoot = false) :
      Leads table named (pointer, ⟨.reference r, doc, nullable⟩) (target.pointer, target.node)
  | root {pointer r doc nullable target} (resolved : table.resolve r = .ok target)
      (root : target.isRoot = true) (h : named target.definition) :
      Leads table named (pointer, ⟨.reference r, doc, nullable⟩) (target.pointer, target.node)

/-- A cycle that never passes a reference to a whole definition. -/
def DefinitionTable.UnnamedCycle (table : DefinitionTable) (spot : Spot) : Prop :=
  TransGen (table.Leads fun _ => False) spot spot

namespace DefinitionTable

variable {table : DefinitionTable} {named named' : Nat → Prop}

theorem Leads.mono (hn : ∀ i, named i → named' i) {x y : Spot} (h : table.Leads named x y) :
    table.Leads named' x y := by
  cases h with
  | part h => exact .part h
  | deep resolved deep => exact .deep resolved deep
  | root resolved root h => exact .root resolved root (hn _ h)

theorem path_mono (hn : ∀ i, named i → named' i) {x y : Spot}
    (h : ReflTransGen (table.Leads named) x y) : ReflTransGen (table.Leads named') x y :=
  ReflTransGen.mono (fun _ _ hstep => Leads.mono hn hstep) _ _ h

end DefinitionTable

namespace Setting

variable {s : Setting} {model : SchemaModel} {c d : Call} {log log' : List Begun}

theorem Descends.leads {pointer pointer' : String} {node node' : Node} {parts : Nat}
    {named : Nat → Prop} (h : Descends pointer node parts pointer' node') :
    ReflTransGen (s.definitions.Leads named) (pointer, node) (pointer', node') := by
  cases h with
  | same => exact .refl
  | member _ hp | part hp => exact .single (.part hp)

/-! ## What is open on the way to a call -/

def BegunWhile (log : List Begun) (pointer : String) (i : Nat) : Prop :=
  ∃ b ∈ log, b.index = i ∧ pointer ∈ b.place.chain.pointers

/-- From an open pointer a path leads to a schema, and it passes references to definitions only where
these were begun while the pointer was open. -/
def OpenTo (s : Setting) (log : List Begun) (spot : Spot) (pointer : String) : Prop :=
  ∃ node, s.definitions.Stands pointer node ∧
    ReflTransGen (s.definitions.Leads (BegunWhile log pointer)) (pointer, node) spot

/-- From all that is open paths lead to what the call is busy with. -/
def Connected (s : Setting) (log : List Begun) (c : Call) : Prop :=
  c.place.chain = [] ∨ ∃ pointer node, s.Concerns c.place c.task pointer node ∧
    ∀ opened ∈ c.place.chain.pointers, s.OpenTo log (pointer, node) opened

theorem BegunWhile.append {pointer : String} {i : Nat} (h : BegunWhile log pointer i) :
    BegunWhile (log ++ log') pointer i := by
  obtain ⟨b, hb, hi, hopen⟩ := h
  exact ⟨b, List.mem_append_left _ hb, hi, hopen⟩

theorem OpenTo.append {spot : Spot} {pointer : String} (h : s.OpenTo log spot pointer) :
    s.OpenTo (log ++ log') spot pointer := by
  obtain ⟨node, stands, path⟩ := h
  exact ⟨node, stands, DefinitionTable.path_mono (fun _ hi => hi.append) path⟩

theorem OpenTo.step {x y : Spot} {pointer : String} (h : s.OpenTo log x pointer)
    (hxy : ReflTransGen (s.definitions.Leads (BegunWhile log pointer)) x y) :
    s.OpenTo log y pointer := by
  obtain ⟨node, stands, path⟩ := h
  exact ⟨node, stands, path.trans hxy⟩

/-- What a call opens it starts from, and the reference leads on from all that was open before. -/
theorem Opens.connected (h : s.Opens c log' d) (hc : s.Connected log c) :
    s.Connected (log ++ log') d := by
  cases h with
  | @target p r target chain st resolved deep entered =>
      obtain ⟨-, rfl⟩ := Chain.enter_entered entered
      refine .inr ⟨_, _, .schema, fun opened hopened => ?_⟩
      rcases List.mem_cons.mp hopened with rfl | hopened
      · exact ⟨_, .target resolved, .refl⟩
      · rcases hc with hnil | ⟨pointer, node, concerns, hpaths⟩
        · rw [show p.chain = [] from hnil] at hopened
          cases hopened
        · cases concerns with
          | reference => exact (hpaths opened hopened).append.step (.single (.deep resolved deep))
  | @definition p i d chain st unfinished entry entered =>
      obtain ⟨-, rfl⟩ := Chain.enter_entered entered
      refine .inr ⟨_, _, .schema, fun opened hopened => ?_⟩
      rcases List.mem_cons.mp hopened with rfl | hopened'
      · exact ⟨_, .root entry, .refl⟩
      · rcases hc with hnil | ⟨pointer, node, concerns, hpaths⟩
        · rw [show p.chain = [] from hnil] at hopened'
          cases hopened'
        · cases concerns with
          | @definition r target doc nullable resolved root =>
            obtain ⟨hpointer, hnode⟩ := DefinitionTable.target_of_root resolved root entry
            have hbegun : BegunWhile (log ++ [⟨target.definition, p.into d.pointer _⟩]) opened
                target.definition := ⟨_, List.mem_append_right _ List.mem_cons_self, rfl, hopened⟩
            have hstep : s.definitions.Leads _ (p.location, ⟨.reference r, doc, nullable⟩)
                (target.pointer, target.node) := .root resolved root hbegun
            rw [hpointer, hnode] at hstep
            exact (hpaths opened hopened').append.step (.single hstep)

theorem Calls.connected (h : s.Calls model c log' d) (hc : s.Connected log c) :
    s.Connected (log ++ log') d := by
  rcases hc with hnil | ⟨pointer, node, concerns, hpaths⟩
  · rcases h.opens_or_keeps with opened | hkeeps
    · exact opened.connected (.inl hnil)
    · exact .inl (hkeeps.trans hnil)
  · rcases h.concerns concerns with opened | ⟨hkeeps, _, pointer', node', concerns', descends, -⟩
    · exact opened.connected (.inr ⟨pointer, node, concerns, hpaths⟩)
    · refine .inr ⟨pointer', node', concerns', fun opened hopened => ?_⟩
      rw [hkeeps] at hopened
      exact (hpaths opened hopened).append.step descends.leads

theorem Reaches.connected (h : s.Reaches model c log d) (hc : c.place.chain = []) :
    s.Connected log d := by
  induction h with
  | refl => exact .inl hc
  | tail _ call ih => exact call.connected ih

end Setting

/-! ## Recursive references -/

namespace Warning

theorem recursive_inj {pointer pointer' r r' : String}
    (h : recursive pointer r = recursive pointer' r') : pointer = pointer' ∧ r = r' := by
  injection h with _ hpointer hmessage
  refine ⟨hpointer, ?_⟩
  have hlist := congrArg String.toList hmessage
  simp only [String.toList_append] at hlist
  rw [List.append_left_inj, List.append_right_inj] at hlist
  exact String.toList_inj.mp hlist

/-- The message of no construct ends like that of a recursive reference. -/
theorem recursive_ne (pointer pointer' r construct : String) :
    recursive pointer r ≠ unsupported pointer' construct := by
  intro h
  injection h with _ _ hmessage
  -- the character before the last thirteen tells the two apart
  have hchar := congrArg (fun message => message.toList.reverse[13]?) hmessage
  simp only [String.toList_append, List.reverse_append] at hchar
  rw [List.getElem?_append_left (by decide), List.getElem?_append_left (by decide)] at hchar
  exact absurd hchar (by decide)

end Warning

namespace Setting

variable {s : Setting} {model : SchemaModel} {c : Call} {log : List Begun}

/-- The call that raises the warning about a recursive reference finds its target open. -/
theorem Raises.target_open {pointer r : String}
    (h : s.Raises model c (Warning.recursive pointer r)) :
    c.task = .reference r ∧ c.place.location = pointer ∧ ∃ target,
      s.definitions.resolve r = .ok target ∧ target.isRoot = false ∧
        target.pointer ∈ c.place.chain.pointers := by
  generalize hw : Warning.recursive pointer r = w at h
  cases h with
  | unsupported => exact absurd hw (Warning.recursive_ne _ _ _ _)
  | recursiveReference resolved deep cycle =>
      obtain ⟨rfl, rfl⟩ := Warning.recursive_inj hw
      obtain ⟨frame, hframe, hpointer, -⟩ := Chain.enter_cycle cycle
      exact ⟨rfl, rfl, _, resolved, deep, List.mem_map.mpr ⟨frame, hframe, hpointer⟩⟩
  | aliasCycle => cases hw
  | duplicateName _ _ _ renamed =>
      have hkind := (nextName_warning renamed).1
      rw [← hw] at hkind
      cases hkind

/-- Where the warning is raised, a path leads from the target to the reference. -/
theorem Raises.path {pointer r : String} (h : s.Raises model c (Warning.recursive pointer r))
    (hc : s.Connected log c) :
    ∃ target doc nullable, s.definitions.resolve r = .ok target ∧ target.isRoot = false ∧
      ReflTransGen (s.definitions.Leads (BegunWhile log target.pointer))
        (target.pointer, target.node) (pointer, ⟨.reference r, doc, nullable⟩) := by
  obtain ⟨htask, rfl, target, resolved, deep, hopen⟩ := h.target_open
  rcases hc with hnil | ⟨pointer, node, concerns, hpaths⟩
  · rw [hnil] at hopen
    cases hopen
  · rw [htask] at concerns
    cases concerns
    obtain ⟨node, stands, path⟩ := hpaths _ hopen
    obtain rfl := stands.unique (.target resolved)
    exact ⟨target, _, _, resolved, deep, path⟩

end Setting

namespace SchemaModel

variable {model : SchemaModel} {sorted withQuery : Bool} {b : Build}

/-- A reference that is cut to `any` as a recursive one leads to a schema without a name, and from
there a path leads back to the reference. It passes references to whole definitions only where their
declarations were begun while the schema without a name was open; if there are none, the reference
stands on a cycle of schemas without names, which no declaration can express. -/
theorem recursive_reference_cycles (h : model.build sorted withQuery = .ok b) :
    ∃ log st queries, Built model sorted withQuery b log st queries ∧
      ∀ pointer r, Warning.recursive pointer r ∈ b.warnings →
        ∃ target doc nullable, model.definitions.resolve r = .ok target ∧ target.isRoot = false ∧
          ReflTransGen (model.definitions.Leads (Setting.BegunWhile log target.pointer))
            (target.pointer, target.node) (pointer, ⟨.reference r, doc, nullable⟩) ∧
          ((∀ i, ¬ Setting.BegunWhile log target.pointer i) →
            model.definitions.UnnamedCycle (target.pointer, target.node)) := by
  obtain ⟨log, st, queries, hb⟩ := built_of_ok h
  refine ⟨log, st, queries, hb, fun pointer r hw => ?_⟩
  rw [hb.result] at hw
  rcases hb.run.origin _ hw with hstart | ⟨begun, c, ⟨rest, rfl⟩, reached, raised⟩
  · cases (takeNames_warnings hstart).1
  · have hconnected := reached.connected rfl
    obtain ⟨target, doc, nullable, resolved, deep, path⟩ := raised.path hconnected
    refine ⟨target, doc, nullable, resolved, deep, ?_, fun hnone => ?_⟩
    · exact DefinitionTable.path_mono (fun _ hi => hi.append) path
    · have hunnamed : ∀ i, Setting.BegunWhile begun target.pointer i → False :=
        fun i hi => hnone i hi.append
      exact .tail' (DefinitionTable.path_mono hunnamed path) (.deep resolved deep)

/-- An alias of a property of `B`, which is a list of `B`, and a second property like the first. The
alias comes first, so `B` is begun while its property is open. -/
def borrowedList : SchemaModel where
  definitions :=
    { entries :=
        [⟨.definitions, "A", .bare (.reference "#/definitions/B/properties/x")⟩,
          ⟨.definitions, "B", .bare <| .object
            [("x", .bare (.array (.bare (.reference "#/definitions/B")))),
              ("y", .bare (.reference "#/definitions/B/properties/x"))] [] .closed⟩]
      nodup := by decide }

theorem borrowedList_warnings :
    (borrowedList.build false false).toOption.map Build.warnings = some
      [.recursive "#/definitions/B/properties/y" "#/definitions/B/properties/x"] := by
  decide +kernel

theorem borrowedList_build : ∃ b, borrowedList.build false false = .ok b ∧
    Warning.recursive "#/definitions/B/properties/y" "#/definitions/B/properties/x" ∈
      b.warnings := by
  obtain ⟨b, hbuild, hwarnings⟩ := eq_ok_of_toOption_map borrowedList_warnings
  refine ⟨b, hbuild, ?_⟩
  rw [hwarnings]
  exact List.mem_cons_self

/-- The property leads to the list, and the items of the list to the whole of `B`. -/
theorem borrowedList_resolve : ∃ list whole : Target,
    borrowedList.definitions.resolve "#/definitions/B/properties/x" = .ok list ∧
      list.node = .bare (.array (.bare (.reference "#/definitions/B"))) ∧
      borrowedList.definitions.resolve "#/definitions/B" = .ok whole ∧ whole.isRoot = true := by
  have entry : borrowedList.definitions.entries[1]? = some borrowedList.definitions.entries[1] := rfl
  have hlist : borrowedList.definitions.entries[1].root.walk [] ["properties", "x"] =
      .done (.bare (.array (.bare (.reference "#/definitions/B")))) := rfl
  have hwhole : borrowedList.definitions.entries[1].root.walk [] [] =
      .done borrowedList.definitions.entries[1].root := rfl
  have hresolve := DefinitionTable.resolve_render entry hlist
  have hresolve' := DefinitionTable.resolve_render entry hwhole
  rw [show Pointer.render _ = "#/definitions/B/properties/x" by decide +kernel] at hresolve
  rw [show Pointer.render _ = "#/definitions/B" by decide +kernel] at hresolve'
  exact ⟨_, _, hresolve, rfl, hresolve', rfl⟩

/-- What the property leads to is on no cycle of schemas without names. -/
theorem borrowedList_not_unnamed {target : Target}
    (h : borrowedList.definitions.resolve "#/definitions/B/properties/x" = .ok target) :
    ¬ borrowedList.definitions.UnnamedCycle (target.pointer, target.node) := by
  obtain ⟨list, whole, hlist, hnode, hwhole, hroot⟩ := borrowedList_resolve
  cases hlist.symm.trans h
  intro hcycle
  have hitems : ∀ spot, TransGen (borrowedList.definitions.Leads fun _ => False)
      (target.pointer, target.node) spot → spot.2 = .bare (.reference "#/definitions/B") := by
    intro spot hpath
    induction hpath with
    | single hstep =>
        rw [hnode] at hstep
        cases hstep with
        | part hp =>
            cases hp
            rfl
    | tail _ hstep ih =>
        cases hstep with
        | part hp =>
            obtain rfl : _ = Node.bare _ := ih
            cases hp
        | deep resolved deep =>
            cases ih
            rw [hwhole] at resolved
            cases resolved
            rw [hroot] at deep
            cases deep
        | root _ _ hnamed => exact hnamed.elim
  have hself := hitems _ hcycle
  rw [show _ = Node.bare _ from hnode] at hself
  cases hself

/-- Still the reference to it is cut. -/
theorem borrowedList_cut : ∃ b target, borrowedList.build false false = .ok b ∧
    Warning.recursive "#/definitions/B/properties/y" "#/definitions/B/properties/x" ∈ b.warnings ∧
    borrowedList.definitions.resolve "#/definitions/B/properties/x" = .ok target ∧
    ¬ borrowedList.definitions.UnnamedCycle (target.pointer, target.node) := by
  obtain ⟨b, hbuild, hw⟩ := borrowedList_build
  obtain ⟨list, whole, hlist, -⟩ := borrowedList_resolve
  exact ⟨b, list, hbuild, hw, hlist, borrowedList_not_unnamed hlist⟩

theorem borrowedList_begun_while : ∃ b log st queries target,
    borrowedList.build false false = .ok b ∧ Built borrowedList false false b log st queries ∧
      borrowedList.definitions.resolve "#/definitions/B/properties/x" = .ok target ∧
      ∃ i, Setting.BegunWhile log target.pointer i := by
  obtain ⟨b, hbuild, hw⟩ := borrowedList_build
  obtain ⟨log, st, queries, hbuilt, hcycles⟩ := recursive_reference_cycles hbuild
  obtain ⟨target, doc, nullable, resolved, -, -, hunnamed⟩ := hcycles _ _ hw
  refine ⟨b, log, st, queries, target, hbuild, hbuilt, resolved, ?_⟩
  by_contra hnone
  exact borrowedList_not_unnamed resolved (hunnamed fun i hi => hnone ⟨i, hi⟩)

end SchemaModel

end SwaggerTypes
