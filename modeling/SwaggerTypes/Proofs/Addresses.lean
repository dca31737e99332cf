import SwaggerTypes.Proofs.DanglingReferences
import SwaggerTypes.Proofs.Pointers
/-!
# Addresses of schemas

A schema inside a definition has an address: the pointer of the definition with the segments that lead
from the root down to the schema. Reading an address walks the same way again, so it ends at the same
schema and follows no reference, provided that the segments tell the parts of a schema apart.
-/

namespace SwaggerTypes

theorem Entries.get?_of_mem {α : Type} {key : String} {a : α} {map : Entries α}
    (hkeys : map.keys.Nodup) (h : (key, a) ∈ map) : map.get? key = some a := by
  induction map with
  | nil => cases h
  | cons e rest ih =>
      obtain ⟨k, b⟩ := e
      rw [keys, List.map_cons, List.nodup_cons] at hkeys
      rcases List.mem_cons.mp h with heq | h
      · cases heq
        simp [get?]
      · have hmem : key ∈ keys rest := List.mem_map.mpr ⟨_, h, rfl⟩
        have hne : key ≠ k := fun hk => hkeys.1 (hk ▸ hmem)
        rw [get?, List.lookup_cons, beq_eq_false_iff_ne.mpr hne]
        exact ih hkeys.2 h

@[simp] theorem Composition.ofKeyword?_keyword (keyword : Composition) :
    ofKeyword? keyword.keyword = some keyword := by
  cases keyword <;> rfl

namespace Node

/-! ## Ways through a schema -/

inductive PartAt : Node → List String → Node → Prop
  | items {items : Node} {doc : Option String} {nullable : Bool} :
      PartAt ⟨.array items, doc, nullable⟩ ["items"] items
  | property {name : String} {node : Node} {ps : List (String × Node)} {required : List String}
      {additional : Additional Node} {doc : Option String} {nullable : Bool}
      (h : (name, node) ∈ ps) :
      PartAt ⟨.object ps required additional, doc, nullable⟩ ["properties", name] node
  | additional {node : Node} {ps : List (String × Node)} {required : List String}
      {doc : Option String} {nullable : Bool} :
      PartAt ⟨.object ps required (.typed node), doc, nullable⟩ ["additionalProperties"] node
  | member {node : Node} {keyword : Composition} {ms : List Node} {i : Nat} {doc : Option String}
      {nullable : Bool} (h : ms[i]? = some node) :
      PartAt ⟨.composite keyword ms, doc, nullable⟩ [keyword.keyword, toString i] node

inductive At (root : Node) : List String → Node → Prop
  | refl : At root [] root
  | part {way segments : List String} {node part : Node} (h : At root way node)
      (hp : PartAt node segments part) : At root (way ++ segments) part

/-- What is found on the way to a schema: the schema itself, or a part of the root first. -/
theorem At.cases_head {root node : Node} {way : List String} (h : At root way node) :
    (way = [] ∧ node = root) ∨ ∃ segments part rest, PartAt root segments part ∧
      way = segments ++ rest ∧ At part rest node := by
  induction h with
  | refl => exact .inl ⟨rfl, rfl⟩
  | part _ hp ih =>
      rcases ih with ⟨rfl, rfl⟩ | ⟨segments, part, rest, hfirst, rfl, hrest⟩
      · exact .inr ⟨_, _, [], hp, by simp, .refl⟩
      · exact .inr ⟨segments, part, _, hfirst, List.append_assoc .., hrest.part hp⟩

theorem PartAt.partOf {node part : Node} {segments : List String} (h : PartAt node segments part) :
    PartOf part node := by
  cases h with
  | items => exact .items
  | property h => exact .property h
  | additional => exact .additional
  | member h => exact .member (List.mem_of_getElem? h)

theorem PartOf.partAt {node part : Node} (h : PartOf part node) :
    ∃ segments, PartAt node segments part := by
  cases h with
  | items => exact ⟨_, .items⟩
  | property h => exact ⟨_, .property h⟩
  | additional => exact ⟨_, .additional⟩
  | member h =>
      obtain ⟨i, hi⟩ := List.getElem?_of_mem h
      exact ⟨_, .member hi⟩

theorem At.isBelow {root node : Node} {way : List String} (h : At root way node) :
    Below root node := by
  induction h with
  | refl => exact .refl
  | part _ hp ih => exact ih.part hp.partOf

/-- Segments tell the parts of a schema apart: an object has no two properties of one name, and the
members of a composition can be counted. -/
def Distinct (node : Node) : Prop :=
  match node.kind with
  | .object ps _ _ => (ps.map Prod.fst).Nodup
  | .composite _ ms => ms.length ≤ 0x10000000000000000
  | _ => True

/-- Segments tell apart all that stands in a schema. -/
def Addressable (root : Node) : Prop := ∀ node, Below root node → node.Distinct

theorem Addressable.of_parts {root : Node} (hd : root.Distinct)
    (hparts : ∀ part, PartOf part root → part.Addressable) : root.Addressable := by
  intro node hb
  rcases hb.cases_head with rfl | ⟨part, hp, hrest⟩
  · exact hd
  · exact hparts part hp node hrest

/-! ## Walking a way -/

theorem walk_part {node part : Node} {segments : List String} (hp : PartAt node segments part)
    (hd : node.Distinct) (passed more : List String) :
    node.walk passed (segments ++ more) = part.walk (passed ++ segments) more := by
  cases hp with
  | items | additional => simp [walk, child]
  | property h => simp [walk, child, Entries.get?_of_mem hd h]
  | @member _ keyword ms i _ _ h =>
      have hi : i < ms.length := (List.getElem?_eq_some_iff.mp h).1
      have hindex : Pointer.index? (toString i) = some i :=
        Pointer.index?_toString (Nat.lt_of_lt_of_le hi hd)
      simp only [List.cons_append, List.nil_append, walk, child, List.head?_cons,
        Composition.ofKeyword?_keyword, Option.bind_some, Option.bind_eq_bind, hindex, member?,
        if_true, h]
      rfl

/-- A child found without looking at the next segment is found whatever that is. -/
theorem child_of_none {node child : Node} {segment : String} {used : Nat}
    (h : node.child segment none = some (child, used)) (next : Option String) :
    node.child segment next = some (child, used) := by
  obtain ⟨kind, doc, nullable⟩ := node
  cases kind with
  | object properties required additional =>
      simp only [Node.child] at h ⊢
      split at h
      · cases h
      · next hne =>
        rw [if_neg hne]
        exact h
  | array items => exact h
  | composite keyword members => simp [Node.child] at h
  | _ => cases h

theorem walk_append {root node : Node} {passed way : List String}
    (h : root.walk passed way = .done node) (more : List String) :
    root.walk passed (way ++ more) = node.walk (passed ++ way) more := by
  fun_induction Node.walk root passed way with
  | case1 node passed =>
      cases h
      simp
  | case2 => cases h
  | case3 => cases h
  | case4 node passed segment rest child hkind hchild ih =>
      have hnext : node.child segment (rest ++ more).head? = some (child, 1) := by
        cases rest with
        | nil => exact child_of_none hchild _
        | cons next rest => exact hchild
      rw [List.cons_append, Node.walk, hnext]
      simpa using ih h
  | case5 => cases h
  | case6 node passed segment child used hused next below hkind hchild ih =>
      have hnext : node.child segment (next :: below ++ more).head? = some (child, used) := hchild
      rw [List.cons_append, Node.walk, hnext]
      simpa [hused] using ih h

theorem walk_to_part {root node part : Node} {way segments : List String}
    (h : root.walk [] way = .done node) (hp : PartAt node segments part) (hd : node.Distinct) :
    root.walk [] (way ++ segments) = .done part := by
  have hpart := walk_part hp hd way []
  rw [List.append_nil] at hpart
  rw [walk_append h, List.nil_append, hpart, walk]

theorem walk_at {root node : Node} {way : List String} (h : At root way node)
    (ha : root.Addressable) : root.walk [] way = .done node := by
  induction h with
  | refl => rfl
  | part hat hp ih => exact walk_to_part ih hp (ha _ hat.isBelow)

end Node

namespace DefinitionTable

variable {table : DefinitionTable}

/-! ## Pointers that follow no reference -/

theorem find?_of_getElem? {i : Nat} {d : Definition} (h : table.entries[i]? = some d) :
    table.find? d.home d.name = some (d, i) := by
  cases hfind : table.find? d.home d.name with
  | none =>
      have hne := List.find?_eq_none.mp hfind (d, i) (List.mk_mem_zipIdx_iff_getElem?.mpr h)
      simp at hne
  | some found =>
      obtain ⟨d', j⟩ := found
      have entry := getElem?_of_find? hfind
      obtain ⟨hhome, hname⟩ := key_of_find? hfind
      have hi : (table.entries.map Definition.key)[i]? = some d.key := by simp [h]
      have hj : (table.entries.map Definition.key)[j]? = some d.key := by
        simp [entry, Definition.key, hhome, hname]
      have hlt : i < (table.entries.map Definition.key).length :=
        (List.getElem?_eq_some_iff.mp hi).1
      obtain rfl : i = j := (List.getElem?_inj hlt table.nodup).mp (hi.trans hj.symm)
      rw [h] at entry
      cases entry
      rfl

/-- A schema stands at a pointer: the pointer names a definition, and the way behind the name ends
at the schema without leaving the definition. -/
def Stands (table : DefinitionTable) (pointer : String) (node : Node) : Prop :=
  ∃ (i : Nat) (d : Definition) (way : List String), table.entries[i]? = some d ∧
    pointer = Pointer.render (d.home.segments ++ d.name :: way) ∧ d.root.walk [] way = .done node

theorem Stands.root {i : Nat} {d : Definition} (h : table.entries[i]? = some d) :
    table.Stands d.pointer d.root :=
  ⟨i, d, [], h, rfl, rfl⟩

theorem Stands.target {r : String} {target : Target} (h : table.resolve r = .ok target) :
    table.Stands target.pointer target.node := by
  obtain ⟨d, way, entry, hwalk, -, hpointer⟩ := resolve_found h
  exact ⟨_, d, way, entry, hpointer, hwalk⟩

/-- The pointer of a part is that of the whole with the segments that lead to the part. -/
theorem Stands.part {pointer : String} {node part : Node} {segments : List String}
    (h : table.Stands pointer node) (hp : Node.PartAt node segments part) (hd : node.Distinct) :
    table.Stands (Pointer.extend pointer segments) part := by
  obtain ⟨i, d, way, entry, rfl, hwalk⟩ := h
  refine ⟨i, d, way ++ segments, entry, ?_, ?_⟩
  · rw [← List.cons_append, ← List.append_assoc, Pointer.render_append _ segments]
  · exact Node.walk_to_part hwalk hp hd

theorem resolve_render {i : Nat} {d : Definition} {way : List String} {node : Node}
    (entry : table.entries[i]? = some d) (hwalk : d.root.walk [] way = .done node) :
    table.resolve (Pointer.render (d.home.segments ++ d.name :: way)) =
      .ok ⟨i, Pointer.render (d.home.segments ++ d.name :: way), node, way.isEmpty⟩ := by
  have hparse : parsePointer (Pointer.render (d.home.segments ++ d.name :: way)) =
      .ok (d.home.segments ++ d.name :: way) := by
    rw [parsePointer, Pointer.parse_render (by simp)]
    rfl
  have hsplit : Home.split? (d.home.segments ++ d.name :: way) = some (d.home, d.name, way) := by
    cases d.home <;> rfl
  rw [DefinitionTable.resolve, hparse]
  show table.resolveFrom _ maxWalks [] _ = _
  rw [maxWalks, resolveFrom]
  simp only [List.contains_nil, Bool.false_eq_true, if_false, hsplit, find?_of_getElem? entry,
    hwalk]

/-- The address of a schema resolves to the schema. -/
theorem resolve_at {i : Nat} {d : Definition} {way : List String} {node : Node}
    (entry : table.entries[i]? = some d) (hat : d.root.At way node) (ha : d.root.Addressable) :
    table.resolve (Pointer.render (d.home.segments ++ d.name :: way)) =
      .ok ⟨i, Pointer.render (d.home.segments ++ d.name :: way), node, way.isEmpty⟩ :=
  resolve_render entry (Node.walk_at hat ha)

/-- No two schemas stand at one pointer. -/
theorem Stands.unique {pointer : String} {node other : Node} (h : table.Stands pointer node)
    (h' : table.Stands pointer other) : node = other := by
  obtain ⟨i, d, way, entry, rfl, hwalk⟩ := h
  obtain ⟨j, e, way', entry', heq, hwalk'⟩ := h'
  have hresolve := resolve_render entry hwalk
  rw [heq, resolve_render entry' hwalk'] at hresolve
  exact (congrArg Target.node (Except.ok.inj hresolve)).symm

end DefinitionTable

end SwaggerTypes
