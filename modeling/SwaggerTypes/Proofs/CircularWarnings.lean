import SwaggerTypes.Proofs.Degradation
import SwaggerTypes.Proofs.UnnamedCycles
/-!
# Warnings about circular aliases

A reference to a definition is cut as a circular alias when the definition is open and no part of a
value has been entered since. The synthesis decides that by two numbers: the depth at hand and the
depth at which the definition was opened. Whatever is open at the depth at hand is connected to the
schema at hand by members of compositions and by references alone, so the warning is never raised for
a cycle that passes a property, an item or an index signature.
-/

namespace SwaggerTypes

open Relation (ReflTransGen TransGen)

/-- One step on the way through schemas that describe one and the same value: from a composition to a
member, or from a reference to what it leads to. -/
inductive DefinitionTable.Expands (table : DefinitionTable) : Spot → Spot → Prop
  | member {pointer segments node part keyword ms} (composition : node.kind = .composite keyword ms)
      (h : Node.PartAt node segments part) :
      Expands table (pointer, node) (Pointer.extend pointer segments, part)
  | reference {pointer r doc nullable target} (resolved : table.resolve r = .ok target) :
      Expands table (pointer, ⟨.reference r, doc, nullable⟩) (target.pointer, target.node)

namespace DefinitionTable

variable {table : DefinitionTable} {x y : Spot}

theorem Expands.kind (h : table.Expands x y) :
    (∃ keyword ms, x.2.kind = .composite keyword ms) ∨ ∃ r, x.2.kind = .reference r := by
  cases h with
  | member composition => exact .inl ⟨_, _, composition⟩
  | reference => exact .inr ⟨_, rfl⟩

theorem Expands.stands (ha : table.Addressable) (h : table.Expands x y)
    (hx : table.Stands x.1 x.2) : table.Stands y.1 y.2 := by
  cases h with
  | member _ hp => exact hx.part hp (hx.distinct ha)
  | reference resolved => exact .target resolved

theorem Stands.expand (ha : table.Addressable) (hx : table.Stands x.1 x.2)
    (h : ReflTransGen table.Expands x y) : table.Stands y.1 y.2 := by
  induction h with
  | refl => exact hx
  | tail _ step ih => exact step.stands ha ih

theorem Stands.resolve {pointer : String} {node : Node} (h : table.Stands pointer node) :
    ∃ target, table.resolve pointer = .ok target ∧ target.pointer = pointer ∧
      target.node = node := by
  obtain ⟨i, d, way, entry, rfl, hwalk⟩ := h
  exact ⟨_, resolve_render entry hwalk, rfl, rfl⟩

end DefinitionTable

namespace Setting

variable {s : Setting} {model : SchemaModel} {c d : Call} {log : List Begun}

/-! ## What is open without a part of a value in between -/

/-- A reference was opened at the depth at hand or above it; if at the depth at hand, a way leads from
what it opened to a schema through members and references alone. -/
structure ExpandsTo (s : Setting) (depth : Nat) (spot : Spot) (frame : Frame) : Prop where
  above : frame.depth ≤ depth
  level : frame.depth = depth → ∃ node, s.definitions.Stands frame.pointer node ∧
    ReflTransGen s.definitions.Expands (frame.pointer, node) spot

theorem ExpandsTo.descend {depth parts : Nat} {pointer pointer' : String} {node node' : Node}
    {frame : Frame} (h : s.ExpandsTo depth (pointer, node) frame)
    (hd : Descends pointer node parts pointer' node') :
    s.ExpandsTo (depth + parts) (pointer', node') frame := by
  refine ⟨Nat.le_add_right_of_le h.above, fun heq => ?_⟩
  cases hd with
  | same => exact h.level heq
  | member composition hp =>
      obtain ⟨node, stands, path⟩ := h.level heq
      exact ⟨node, stands, path.tail (.member composition hp)⟩
  | part =>
      have habove := h.above
      omega

theorem ExpandsTo.expand {depth : Nat} {x y : Spot} {frame : Frame}
    (h : s.ExpandsTo depth x frame) (hxy : s.definitions.Expands x y) :
    s.ExpandsTo depth y frame := by
  refine ⟨h.above, fun heq => ?_⟩
  obtain ⟨node, stands, path⟩ := h.level heq
  exact ⟨node, stands, path.tail hxy⟩

theorem ExpandsTo.opened {depth : Nat} {pointer : String} {node : Node}
    (h : s.definitions.Stands pointer node) :
    s.ExpandsTo depth (pointer, node) ⟨pointer, depth⟩ :=
  ⟨Nat.le_refl _, fun _ => ⟨node, h, .refl⟩⟩

/-- All that is open and not above the call leads to what the call is busy with. -/
def Level (s : Setting) (c : Call) : Prop :=
  c.place.chain = [] ∨ ∃ pointer node, s.Concerns c.place c.task pointer node ∧
    ∀ frame ∈ c.place.chain, s.ExpandsTo c.place.depth (pointer, node) frame

theorem Opens.level (h : s.Opens c log d) (hc : s.Level c) : s.Level d := by
  cases h with
  | @target p r target chain st resolved deep entered =>
      obtain ⟨-, rfl⟩ := Chain.enter_entered entered
      refine .inr ⟨_, _, .schema, fun frame hframe => ?_⟩
      rcases List.mem_cons.mp hframe with rfl | hframe
      · exact .opened (.target resolved)
      · rcases hc with hnil | ⟨pointer, node, concerns, hlevel⟩
        · rw [show p.chain = [] from hnil] at hframe
          cases hframe
        · cases concerns with
          | reference => exact (hlevel frame hframe).expand (.reference resolved)
  | @definition p i d chain st unfinished entry entered =>
      obtain ⟨-, rfl⟩ := Chain.enter_entered entered
      refine .inr ⟨_, _, .schema, fun frame hframe => ?_⟩
      rcases List.mem_cons.mp hframe with rfl | hframe'
      · exact .opened (.root entry)
      · rcases hc with hnil | ⟨pointer, node, concerns, hlevel⟩
        · rw [show p.chain = [] from hnil] at hframe'
          cases hframe'
        · cases concerns with
          | definition resolved root =>
            have hstep := (hlevel frame hframe').expand (.reference resolved)
            obtain ⟨hpointer, hnode⟩ := DefinitionTable.target_of_root resolved root entry
            rw [hpointer, hnode] at hstep
            exact hstep

theorem Calls.level (h : s.Calls model c log d) (hc : s.Level c) : s.Level d := by
  rcases hc with hnil | ⟨pointer, node, concerns, hlevel⟩
  · rcases h.opens_or_keeps with opened | hkeeps
    · exact opened.level (.inl hnil)
    · exact .inl (hkeeps.trans hnil)
  · rcases h.concerns concerns with
      opened | ⟨hkeeps, parts, pointer', node', concerns', descends, hdepth⟩
    · exact opened.level (.inr ⟨pointer, node, concerns, hlevel⟩)
    · refine .inr ⟨pointer', node', concerns', fun frame hframe => ?_⟩
      rw [hkeeps] at hframe
      rw [hdepth]
      exact (hlevel frame hframe).descend descends

theorem Reaches.level (h : s.Reaches model c log d) (hc : c.place.chain = []) : s.Level d := by
  induction h with
  | refl => exact .inl hc
  | tail _ call ih => exact call.level ih

end Setting

/-! ## Where a circular alias is reported -/

/-- A warning is raised at a reference to the root of a definition, and from that root a way leads
back to the reference that enters no part of a value. -/
structure DefinitionTable.Closes (table : DefinitionTable) (w : Warning) (r : String)
    (target : Target) (d : Definition) (reference : Node) : Prop where
  kind : reference.kind = .reference r
  resolved : table.resolve r = .ok target
  root : target.isRoot = true
  entry : table.entries[target.definition]? = some d
  way : ReflTransGen table.Expands (d.pointer, d.root) (w.pointer, reference)

/-- Such a definition leads back to itself. -/
theorem DefinitionTable.Closes.cycle {table : DefinitionTable} {w : Warning} {r : String}
    {target : Target} {d : Definition} {reference : Node}
    (h : table.Closes w r target d reference) :
    TransGen table.Expands (d.pointer, d.root) (d.pointer, d.root) := by
  obtain ⟨kind, doc, nullable⟩ := reference
  obtain rfl : kind = .reference r := h.kind
  have hback : table.Expands (w.pointer, ⟨.reference r, doc, nullable⟩)
      (target.pointer, target.node) := .reference h.resolved
  obtain ⟨hpointer, hnode⟩ := target_of_root h.resolved h.root h.entry
  rw [hpointer, hnode] at hback
  exact .tail' h.way hback

namespace Setting

variable {s : Setting} {model : SchemaModel} {c : Call} {w : Warning}

/-- A cycle that is not guarded ends at a reference that was opened at the depth at hand. -/
theorem path_of_unguarded {p : Place} {spot : Spot} {pointer : String}
    (hlevel : ∀ frame ∈ p.chain, s.ExpandsTo p.depth spot frame)
    (cycle : p.chain.enter pointer p.depth = .cycle false) :
    ∃ node, s.definitions.Stands pointer node ∧
      ReflTransGen s.definitions.Expands (pointer, node) spot := by
  obtain ⟨frame, hframe, rfl, hguarded⟩ := Chain.enter_cycle cycle
  obtain ⟨habove, hpath⟩ := hlevel frame hframe
  have hnot : ¬ frame.depth < p.depth := of_decide_eq_false hguarded.symm
  exact hpath (Nat.le_antisymm habove (Nat.le_of_not_lt hnot))

theorem Raises.closes (h : s.Raises model c w) (hc : s.Level c) (hkind : w.kind = .circularAlias) :
    ∃ r target d reference, s.definitions.Closes w r target d reference ∧
      w = .circular w.pointer (s.nameOf target.definition) := by
  cases h with
  | unsupported | recursiveReference => cases hkind
  | duplicateName _ _ _ renamed =>
      rw [(nextName_warning renamed).1] at hkind
      cases hkind
  | @aliasCycle p i d st unfinished entry cycle =>
      rcases hc with hnil | ⟨pointer, node, concerns, hlevel⟩
      · obtain ⟨frame, hframe, -⟩ := Chain.enter_cycle cycle
        rw [show p.chain = [] from hnil] at hframe
        cases hframe
      · cases concerns with
        | @definition r target doc nullable resolved root =>
          obtain ⟨node, stands, path⟩ := path_of_unguarded hlevel cycle
          obtain rfl := stands.unique (.root entry)
          exact ⟨r, target, d, _, ⟨rfl, resolved, root, entry, path⟩, rfl⟩

end Setting

namespace SchemaModel

variable {model : SchemaModel} {sorted withQuery : Bool} {b : Build} {w : Warning}

/-- A warning about a circular alias is never a false alarm. It is raised at a reference to the root of
a definition, and from that root a way leads back to the reference through members of compositions and
through references alone. Where the segments of a pointer tell the parts of a schema apart, as in all
that is read from a document, the pointer of the warning resolves to that reference. -/
theorem circular_warning_closes_cycle (h : model.build sorted withQuery = .ok b) (hw : w ∈ b.warnings)
    (hkind : w.kind = .circularAlias) :
    ∃ r target d reference, model.definitions.Closes w r target d reference ∧
      w = .circular w.pointer ((model.setting sorted).nameOf target.definition) ∧
      (model.definitions.Addressable → ∃ place, model.definitions.resolve w.pointer = .ok place ∧
        place.pointer = w.pointer ∧ place.node = reference) := by
  obtain ⟨log, st, queries, hb⟩ := built_of_ok h
  rw [hb.result] at hw
  rcases hb.run.origin _ hw with hstart | ⟨begun, c, -, reached, raised⟩
  · rw [(takeNames_warnings hstart).1] at hkind
    cases hkind
  · obtain ⟨r, target, d, reference, closes, hmessage⟩ := raised.closes (reached.level rfl) hkind
    refine ⟨r, target, d, reference, closes, hmessage, fun ha => ?_⟩
    have stands : model.definitions.Stands d.pointer d.root := .root closes.entry
    exact (DefinitionTable.Stands.expand ha stands closes.way).resolve

/-- An alias of a property of `B`, which is an alias of the first again. The reference is cut inside of
`B`, where the composition has led. -/
def borrowedAlias : SchemaModel where
  definitions :=
    { entries :=
        [⟨.definitions, "A", .bare <| .composite .allOf
            [.bare (.reference "#/definitions/B/properties/x")]⟩,
          ⟨.definitions, "B", .bare <| .object
            [("x", .bare (.reference "#/definitions/A"))] [] .closed⟩]
      nodup := by decide }

theorem borrowedAlias_warnings :
    (borrowedAlias.build false false).toOption.map Build.warnings = some
      [.circular "#/definitions/B/properties/x" "A"] := by
  decide +kernel

theorem borrowedAlias_addressable : borrowedAlias.definitions.Addressable := by
  have hleaf : ∀ r, (Node.bare (.reference r)).Addressable :=
    fun _ => .of_parts trivial fun _ hp => nomatch hp
  intro d hd
  simp only [borrowedAlias, List.mem_cons, List.not_mem_nil, or_false] at hd
  rcases hd with rfl | rfl
  · refine .of_parts (show 1 ≤ 0x10000000000000000 by decide) fun part hp => ?_
    cases hp with
    | member h => exact List.mem_singleton.mp h ▸ hleaf _
  · have hnames : ["x"].Nodup := by decide
    refine .of_parts hnames fun part hp => ?_
    cases hp with
    | property h =>
        obtain ⟨-, rfl⟩ := Prod.mk.inj (List.mem_singleton.mp h)
        exact hleaf _

/-- The first step from `A` is its only member; the cut reference stands in a property of `B`, which
the way never enters. -/
theorem borrowedAlias_closes_cycle : ∃ b, borrowedAlias.build false false = .ok b ∧
    ∃ w ∈ b.warnings, w.kind = .circularAlias ∧ w.pointer = "#/definitions/B/properties/x" ∧
      ∃ r target d reference, borrowedAlias.definitions.Closes w r target d reference ∧
        ∃ place, borrowedAlias.definitions.resolve w.pointer = .ok place ∧
          place.node = reference := by
  obtain ⟨b, hbuild, hwarnings⟩ := eq_ok_of_toOption_map borrowedAlias_warnings
  have hw : Warning.circular "#/definitions/B/properties/x" "A" ∈ b.warnings := by simp [hwarnings]
  obtain ⟨r, target, d, reference, closes, -, hplace⟩ := circular_warning_closes_cycle hbuild hw rfl
  obtain ⟨place, resolved, -, hnode⟩ := hplace borrowedAlias_addressable
  exact ⟨b, hbuild, _, hw, rfl, rfl, r, target, d, reference, closes, place, resolved, hnode⟩

end SchemaModel

end SwaggerTypes
