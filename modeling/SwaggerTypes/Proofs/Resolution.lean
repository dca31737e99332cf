import Mathlib.Data.List.Forall2
import SwaggerTypes.Resolution.Chain
import SwaggerTypes.Resolution.Target
import SwaggerTypes.Schema.References
import SwaggerTypes.Synthesis.Definitions
/-!
# What references lead to

A reference that resolves leads to a schema inside some definition, so the references below its
target are references of the table. Resolution fails with faults of its own kind only. A chain of
open references grows by new pointers only.
-/

namespace SwaggerTypes

/-! ## Steps that may fail -/

section

variable {ε α β : Type} {x : Except ε α} {f : α → Except ε β}

theorem bind_eq_ok {b : β} : x >>= f = .ok b ↔ ∃ a, x = .ok a ∧ f a = .ok b := by
  cases x with
  | error e =>
      constructor
      · intro h
        cases h
      · rintro ⟨a, ha, -⟩
        cases ha
  | ok a =>
      constructor
      · exact fun h => ⟨a, rfl, h⟩
      · rintro ⟨a', ha, h⟩
        cases ha
        exact h

theorem bind_eq_error {e : ε} :
    x >>= f = .error e ↔ x = .error e ∨ ∃ a, x = .ok a ∧ f a = .error e := by
  cases x with
  | error e' =>
      constructor
      · intro h
        cases h
        exact .inl rfl
      · rintro (h | ⟨a, ha, -⟩)
        · cases h
          rfl
        · cases ha
  | ok a =>
      constructor
      · exact fun h => .inr ⟨a, rfl, h⟩
      · rintro (h | ⟨a', ha, h⟩)
        · cases h
        · cases ha
          exact h

theorem map_some_eq_ok {a : α} (h : x.map some = .ok (some a)) : x = .ok a := by
  cases x with
  | error e => cases h
  | ok b =>
      cases h
      rfl

theorem eq_ok_of_toOption_map {g : α → β} {b : β} (h : x.toOption.map g = some b) :
    ∃ a, x = .ok a ∧ g a = b := by
  cases x with
  | error e => cases h
  | ok a => exact ⟨a, rfl, Option.some.inj h⟩

theorem forall₂_of_mapM {σ : Type} {f : α → StateT σ (Except ε) β} {l : List α} {bs : List β}
    {st st' : σ} (h : (l.mapM f).run st = .ok (bs, st')) :
    List.Forall₂ (fun a b => ∃ before after, (f a).run before = .ok (b, after)) l bs := by
  induction l generalizing bs st with
  | nil =>
      cases h
      exact .nil
  | cons a l ih =>
      rw [List.mapM_cons, StateT.run_bind] at h
      obtain ⟨⟨b, st₁⟩, hfirst, h⟩ := bind_eq_ok.mp h
      rw [StateT.run_bind] at h
      obtain ⟨⟨rest, st₂⟩, hrest, heq⟩ := bind_eq_ok.mp h
      cases heq
      exact .cons ⟨st, st₁, hfirst⟩ (ih hrest)

end

/-! ## References of a schema and of its parts -/

theorem Entries.mem_of_get? {α : Type} {key : String} {map : Entries α} {a : α}
    (h : map.get? key = some a) : (key, a) ∈ map := by
  obtain ⟨before, after, rfl, -⟩ := List.lookup_eq_some_iff.mp h
  simp

namespace Node

theorem mem_propertyReferences {pointer : String} {properties : List (String × Node)} :
    pointer ∈ propertyReferences properties ↔ ∃ e ∈ properties, pointer ∈ e.2.references := by
  induction properties with
  | nil => simp [propertyReferences]
  | cons e rest ih => simp [propertyReferences, ih]

theorem mem_memberReferences {pointer : String} {members : List Node} :
    pointer ∈ memberReferences members ↔ ∃ m ∈ members, pointer ∈ m.references := by
  induction members with
  | nil => simp [memberReferences]
  | cons m rest ih => simp [memberReferences, ih]

inductive PartOf : Node → Node → Prop
  | items {items : Node} {doc : Option String} {nullable : Bool} :
      PartOf items ⟨.array items, doc, nullable⟩
  | property {name : String} {node : Node} {ps : List (String × Node)} {required : List String}
      {additional : Additional Node} {doc : Option String} {nullable : Bool}
      (h : (name, node) ∈ ps) : PartOf node ⟨.object ps required additional, doc, nullable⟩
  | additional {node : Node} {ps : List (String × Node)} {required : List String}
      {doc : Option String} {nullable : Bool} :
      PartOf node ⟨.object ps required (.typed node), doc, nullable⟩
  | member {node : Node} {keyword : Composition} {ms : List Node} {doc : Option String}
      {nullable : Bool} (h : node ∈ ms) : PartOf node ⟨.composite keyword ms, doc, nullable⟩

inductive Below (root : Node) : Node → Prop
  | refl : Below root root
  | part {node part : Node} (h : Below root node) (hp : PartOf part node) : Below root part

theorem Below.head {root part node : Node} (hp : PartOf part root) (h : Below part node) :
    Below root node := by
  induction h with
  | refl => exact .part .refl hp
  | part _ hp' ih => exact .part ih hp'

theorem Below.cases_head {root node : Node} (h : Below root node) :
    node = root ∨ ∃ part, PartOf part root ∧ Below part node := by
  induction h with
  | refl => exact .inl rfl
  | part _ hp ih =>
      rcases ih with rfl | ⟨first, hfirst, hrest⟩
      · exact .inr ⟨_, hp, .refl⟩
      · exact .inr ⟨first, hfirst, hrest.part hp⟩

theorem PartOf.references {part node : Node} (h : PartOf part node) :
    part.references ⊆ node.references := by
  intro r hr
  cases h with
  | items => exact hr
  | property h => exact List.mem_append_left _ (mem_propertyReferences.mpr ⟨_, h, hr⟩)
  | additional => exact List.mem_append_right _ hr
  | member h => exact mem_memberReferences.mpr ⟨_, h, hr⟩

theorem Below.references {root node : Node} (h : Below root node) :
    node.references ⊆ root.references := by
  induction h with
  | refl => exact List.Subset.refl _
  | part _ hp ih => exact List.Subset.trans hp.references ih

theorem Below.trans {root node other : Node} (h : Below root node) (h' : Below node other) :
    Below root other := by
  induction h' with
  | refl => exact h
  | part _ hp ih => exact ih.part hp

def AllBelow (P : Node → Prop) (root : Node) : Prop := ∀ node, Below root node → P node

namespace AllBelow

variable {P : Node → Prop} {root node : Node}

theorem below (h : root.AllBelow P) (hb : Below root node) : node.AllBelow P :=
  fun _ hbelow => h _ (hb.trans hbelow)

theorem part {inner : Node} (h : node.AllBelow P) (hp : PartOf inner node) : inner.AllBelow P :=
  h.below (.part .refl hp)

theorem of_parts (hroot : P root) (hparts : ∀ part, PartOf part root → part.AllBelow P) :
    root.AllBelow P := by
  intro node hb
  rcases hb.cases_head with rfl | ⟨part, hp, hrest⟩
  · exact hroot
  · exact hparts part hp node hrest

end AllBelow

/-! ## Ways to the schemas below -/

theorem member?_below {wanted keyword : Composition} {index : Nat} {members : List Node}
    {child : Node} {doc : Option String} {nullable : Bool}
    (h : member? wanted index keyword members = some child) :
    Below ⟨.composite keyword members, doc, nullable⟩ child := by
  unfold member? at h
  split at h
  · exact .part .refl (.member (List.mem_of_getElem? h))
  · obtain ⟨m, hm, hinner⟩ := List.exists_of_findSome?_eq_some h
    obtain ⟨kind, doc, nullable⟩ := m
    refine Below.head (.member (List.mem_reverse.mp hm)) ?_
    cases kind with
    | composite inner innerMembers =>
        simp only at hinner
        split at hinner
        · exact .part .refl (.member (List.mem_of_getElem? hinner))
        · simp at hinner
    | _ => simp at hinner

theorem child_below {node child : Node} {segment : String} {next : Option String} {used : Nat}
    (h : node.child segment next = some (child, used)) : Below node child := by
  obtain ⟨kind, doc, nullable⟩ := node
  cases kind with
  | object properties required additional =>
      simp only [Node.child] at h
      split at h
      · simp only [Option.bind_eq_bind, Option.bind_eq_some_iff, Option.some.injEq,
          Prod.mk.injEq] at h
        obtain ⟨name, -, found, hfound, rfl, -⟩ := h
        exact .part .refl (.property (Entries.mem_of_get? hfound))
      · split at h
        · cases additional with
          | typed schema =>
              simp only [Option.some.injEq, Prod.mk.injEq] at h
              obtain ⟨rfl, -⟩ := h
              exact .part .refl .additional
          | _ => simp at h
        · simp at h
  | array items =>
      simp only [Node.child, Option.ite_none_right_eq_some, Option.some.injEq, Prod.mk.injEq] at h
      obtain ⟨-, rfl, -⟩ := h
      exact .part .refl .items
  | composite keyword members =>
      simp only [Node.child, Option.bind_eq_bind, Option.bind_eq_some_iff, Option.some.injEq,
        Prod.mk.injEq] at h
      obtain ⟨wanted, -, index, -, found, hfound, rfl, -⟩ := h
      exact member?_below hfound
  | _ => simp [Node.child] at h

theorem walk_below {node target : Node} {passed segments : List String}
    (h : node.walk passed segments = .done target) : Below node target := by
  fun_induction Node.walk node passed segments with
  | case1 node passed =>
      cases h
      exact .refl
  | case2 => simp at h
  | case3 => simp at h
  | case4 node passed segment rest _ child hchild ih => exact (child_below hchild).trans (ih h)
  | case5 => simp at h
  | case6 node passed segment child used _ next below _ hchild ih =>
      exact (child_below hchild).trans (ih h)

end Node

def Fault.IsResolution (fault : Fault) : Prop :=
  ∃ pointer reason, fault = .resolution pointer reason

/-! ## Targets -/

/-- The segments that a pointer is taken apart into make up the pointer. -/
theorem Home.split?_eq_some {segments : List String} {home : Home} {name : String}
    {way : List String} (h : Home.split? segments = some (home, name, way)) :
    segments = home.segments ++ name :: way := by
  unfold Home.split? at h
  split at h
  · cases h
    rfl
  · cases h
    rfl
  · cases h

namespace DefinitionTable

variable {table : DefinitionTable}

theorem getElem?_of_find? {home : Home} {name : String} {d : Definition} {index : Nat}
    (h : table.find? home name = some (d, index)) : table.entries[index]? = some d := by
  have hm := List.mem_of_find?_eq_some h
  exact List.mk_mem_zipIdx_iff_getElem?.mp hm

theorem key_of_find? {home : Home} {name : String} {d : Definition} {index : Nat}
    (h : table.find? home name = some (d, index)) : d.home = home ∧ d.name = name := by
  simpa using List.find?_some h

/-- A target lies on a way below the root of its definition, has the pointer of that way, and is the
root if it says so. -/
theorem resolveFrom_found {pointer : String} {walks : Nat} {visited segments : List String}
    {target : Target} (h : table.resolveFrom pointer walks visited segments = .ok target) :
    ∃ d way, table.entries[target.definition]? = some d ∧
      d.root.walk [] way = .done target.node ∧ target.isRoot = way.isEmpty ∧
      target.pointer = Pointer.render (d.home.segments ++ d.name :: way) := by
  induction walks generalizing visited segments with
  | zero => simp [resolveFrom] at h
  | succ walks ih =>
      simp only [resolveFrom] at h
      split at h
      · simp at h
      · split at h
        · simp at h
        · next hsplit =>
          split at h
          · simp at h
          · next hfind =>
            split at h
            · next hwalk =>
              cases h
              obtain ⟨rfl, rfl⟩ := key_of_find? hfind
              refine ⟨_, _, getElem?_of_find? hfind, hwalk, rfl, ?_⟩
              rw [Home.split?_eq_some hsplit]
            · simp at h
            · obtain ⟨followed, -, hrest⟩ := bind_eq_ok.mp h
              exact ih hrest

theorem resolve_found {pointer : String} {target : Target}
    (h : table.resolve pointer = .ok target) :
    ∃ d way, table.entries[target.definition]? = some d ∧
      d.root.walk [] way = .done target.node ∧ target.isRoot = way.isEmpty ∧
      target.pointer = Pointer.render (d.home.segments ++ d.name :: way) := by
  obtain ⟨segments, -, hfrom⟩ := bind_eq_ok.mp h
  exact resolveFrom_found hfrom

/-- A reference that resolves leads into a definition. -/
theorem resolve_ok {pointer : String} {target : Target} (h : table.resolve pointer = .ok target) :
    ∃ d way, table.entries[target.definition]? = some d ∧
      d.root.walk [] way = .done target.node ∧ target.isRoot = way.isEmpty := by
  obtain ⟨d, way, entry, hwalk, hroot, -⟩ := resolve_found h
  exact ⟨d, way, entry, hwalk, hroot⟩

theorem mem_references {d : Definition} {pointer : String} (hd : d ∈ table.entries)
    (hp : pointer ∈ d.root.references) : pointer ∈ table.references :=
  List.mem_flatten.mpr ⟨_, List.mem_map_of_mem hd, hp⟩

/-- References below a target are references of the table. -/
theorem target_references {pointer : String} {target : Target}
    (h : table.resolve pointer = .ok target) : target.node.references ⊆ table.references := by
  obtain ⟨d, way, hd, hwalk, -⟩ := resolve_ok h
  exact fun q hq =>
    mem_references (List.mem_of_getElem? hd) ((Node.walk_below hwalk).references hq)

/-- A reference to a definition leads to its root, and the pointer is that of the definition. -/
theorem target_of_root {pointer : String} {target : Target} {d : Definition}
    (h : table.resolve pointer = .ok target) (root : target.isRoot = true)
    (entry : table.entries[target.definition]? = some d) :
    target.pointer = d.pointer ∧ target.node = d.root := by
  obtain ⟨d', way, entry', hwalk, hroot, hpointer⟩ := resolve_found h
  have hnil : way = [] := by simpa [root] using hroot.symm
  subst hnil
  cases entry'.symm.trans entry
  rw [Node.walk, Walk.done.injEq] at hwalk
  exact ⟨hpointer, hwalk.symm⟩

theorem resolve_root {pointer : String} {target : Target}
    (h : table.resolve pointer = .ok target) (root : target.isRoot = true) :
    ∃ d, table.entries[target.definition]? = some d ∧ d.root = target.node := by
  obtain ⟨d, way, entry, -⟩ := resolve_ok h
  exact ⟨d, entry, (target_of_root h root entry).2.symm⟩

/-! ## Faults -/

theorem parsePointer_error {pointer : String} {fault : Fault}
    (h : parsePointer pointer = .error fault) : fault.IsResolution := by
  unfold parsePointer at h
  cases hp : Pointer.parse pointer with
  | error cause =>
      rw [hp] at h
      cases h
      exact ⟨_, _, rfl⟩
  | ok segments =>
      rw [hp] at h
      cases h

theorem resolveFrom_error {pointer : String} {walks : Nat} {visited segments : List String}
    {fault : Fault} (h : table.resolveFrom pointer walks visited segments = .error fault) :
    fault.IsResolution := by
  induction walks generalizing visited segments with
  | zero =>
      cases h
      exact ⟨_, _, rfl⟩
  | succ walks ih =>
      simp only [resolveFrom] at h
      split at h
      · cases h
        exact ⟨_, _, rfl⟩
      · split at h
        · cases h
          exact ⟨_, _, rfl⟩
        · split at h
          · cases h
            exact ⟨_, _, rfl⟩
          · split at h
            · cases h
            · cases h
              exact ⟨_, _, rfl⟩
            · rcases bind_eq_error.mp h with hp | ⟨followed, -, hrest⟩
              · exact parsePointer_error hp
              · exact ih hrest

/-- A reference that does not resolve fails with a fault of resolution. -/
theorem resolve_error {pointer : String} {fault : Fault}
    (h : table.resolve pointer = .error fault) : fault.IsResolution := by
  rcases bind_eq_error.mp h with hp | ⟨segments, -, hfrom⟩
  · exact parsePointer_error hp
  · exact resolveFrom_error hfrom

end DefinitionTable

/-! ## Chains -/

namespace Chain

def pointers (chain : Chain) : List String := chain.map Frame.pointer

@[simp] theorem pointers_cons (frame : Frame) (chain : Chain) :
    pointers (frame :: chain) = frame.pointer :: chain.pointers := rfl

theorem enter_entered {chain opened : Chain} {pointer : String} {depth : Nat}
    (h : chain.enter pointer depth = .entered opened) :
    pointer ∉ chain.pointers ∧ opened = ⟨pointer, depth⟩ :: chain := by
  unfold enter at h
  split at h
  · cases h
  · next hnone =>
    cases h
    refine ⟨?_, rfl⟩
    intro hmem
    obtain ⟨frame, hframe, rfl⟩ := List.mem_map.mp hmem
    have := List.find?_eq_none.mp hnone frame hframe
    simp at this

theorem enter_cycle {chain : Chain} {pointer : String} {depth : Nat} {guarded : Bool}
    (h : chain.enter pointer depth = .cycle guarded) :
    ∃ frame ∈ chain, frame.pointer = pointer ∧ guarded = decide (frame.depth < depth) := by
  unfold enter at h
  split at h
  · next frame hsome =>
    cases h
    exact ⟨frame, List.mem_of_find?_eq_some hsome,
      by simpa using List.find?_some hsome, rfl⟩
  · cases h

end Chain

end SwaggerTypes
