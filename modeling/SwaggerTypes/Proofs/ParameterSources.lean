import SwaggerTypes.Proofs.AddressableDefinitions
import SwaggerTypes.Proofs.EffectiveParameters
import SwaggerTypes.Proofs.ParameterChains
import SwaggerTypes.Proofs.WrittenParameters
/-!
# Where parameters are read from

Each parameter that holds for an operation comes with a pointer: that of its place in the list, or,
where a reference stands there, the text of the reference. So the pointer is that of the parameter
itself as long as no more than one reference leads to it; behind a second reference the pointer
still names the first one, and below it nothing is found that the schema of the parameter could be
about.
-/

namespace SwaggerTypes

/-! ## Pointers as references are read -/

theorem Text.pieces_append_separator (separator : Char) (cs more : List Char) :
    pieces separator (cs ++ separator :: more) = pieces separator cs ++ pieces separator more := by
  induction cs with
  | nil =>
      obtain ⟨first, rest, hmore⟩ := List.exists_cons_of_ne_nil (pieces_ne_nil separator more)
      rw [List.nil_append, pieces_cons, hmore]
      simp [consPiece, pieces]
  | cons c cs ih =>
      obtain ⟨first, rest, hcs⟩ := List.exists_cons_of_ne_nil (pieces_ne_nil separator cs)
      rw [List.cons_append, pieces_cons, pieces_cons, ih, hcs]
      by_cases hc : c = separator <;> simp [consPiece, hc]

namespace Pointer

variable {pointer : String} {segments : List String}

theorem parse_extend (h : parse pointer = .ok segments) (more : List String) :
    parse (extend pointer more) = .ok (segments ++ more) := by
  unfold parse at h
  split at h
  · next path hlist =>
    cases h
    have hpieces : Text.pieces '/' (path ++ more.flatMap fun s => '/' :: (escape s).toList) =
        Text.pieces '/' path ++ more.map fun s => (escape s).toList := by
      cases more with
      | nil => simp
      | cons s more =>
          rw [List.flatMap_cons, List.cons_append, Text.pieces_append_separator, pieces_segments]
    unfold parse
    rw [toList_extend, hlist, List.cons_append, List.cons_append]
    simp only [hpieces, List.map_append, List.map_map, Function.comp_def, unescape_escape,
      List.map_id']
  · cases h
  · cases h

theorem escape_eq_self {segment : String} (h : ∀ c ∈ segment.toList, c ≠ '~' ∧ c ≠ '/') :
    escape segment = segment := by
  have hself : ∀ cs : List Char, (∀ c ∈ cs, c ≠ '~' ∧ c ≠ '/') → cs.flatMap escapeChar = cs := by
    intro cs hcs
    induction cs with
    | nil => rfl
    | cons c cs ih =>
        obtain ⟨⟨htilde, hslash⟩, hrest⟩ := List.forall_mem_cons.mp hcs
        rw [List.flatMap_cons, ih hrest]
        simp [escapeChar]
  rw [escape, hself _ h, String.ofList_toList]

theorem escape_toString (i : Nat) : escape (toString i) = toString i := by
  refine escape_eq_self fun c hc => ?_
  have hdigit := isDigit_of_mem_toString hc
  constructor
  · rintro rfl
    exact absurd hdigit (by decide)
  · rintro rfl
    exact absurd hdigit (by decide)

end Pointer

namespace Value

variable {document v : Value} {pointer : String} {segments : List String}

def at? (document : Value) (pointer : String) : Option Value :=
  match Pointer.parse pointer with
  | .ok segments => document.locate segments
  | .error _ => none

theorem at?_of_parse (h : Pointer.parse pointer = .ok segments) :
    document.at? pointer = document.locate segments := by
  rw [at?, h]

theorem at?_render (h : segments ≠ []) :
    document.at? (Pointer.render segments) = document.locate segments :=
  at?_of_parse (Pointer.parse_render h)

theorem at?_extend (h : document.at? pointer = some v) (more : List String) :
    document.at? (Pointer.extend pointer more) = v.locate more := by
  cases hparse : Pointer.parse pointer with
  | error cause =>
      rw [at?, hparse] at h
      cases h
  | ok segments =>
      rw [at?_of_parse hparse] at h
      rw [at?_of_parse (Pointer.parse_extend hparse more), locate_append, h, Option.bind_some]

def HasParameter (document : Value) (pointer : String) (parameter : Parameter) : Prop :=
  ∃ v, document.at? pointer = some v ∧ v.WritesParameter parameter

/-- The pointer goes through a record that is written as a list of its fields: the components, or an
operation. -/
inductive ThroughList (document : Value) : String → Prop
  | components {pointer : String} {below : List String} {items : List Value}
      (hparse : Pointer.parse pointer = .ok ("components" :: below))
      (hlist : document.locate ["components"] = some (.array items)) : ThroughList document pointer
  | operation {pointer path method : String} {below : List String} {items : List Value}
      (hparse : Pointer.parse pointer = .ok ("paths" :: path :: method :: below))
      (hmethod : method ∈ methods)
      (hlist : document.locate ["paths", path, method] = some (.array items)) :
      ThroughList document pointer

/-- The first segment tells what the list is that a pointer goes through. -/
theorem ThroughList.of_parse {first : String} {below : List String}
    (h : document.ThroughList pointer) (hparse : Pointer.parse pointer = .ok (first :: below)) :
    (first = "components" ∧ ∃ items, document.locate ["components"] = some (.array items)) ∨
      first = "paths" ∧ ∃ path method more items, below = path :: method :: more ∧
        method ∈ methods ∧ document.locate ["paths", path, method] = some (.array items) := by
  cases h with
  | components hparse' hlist =>
      obtain ⟨hfirst, -⟩ := List.cons.inj (Except.ok.inj (hparse.symm.trans hparse'))
      exact .inl ⟨hfirst, _, hlist⟩
  | operation hparse' hmethod hlist =>
      obtain ⟨hfirst, hbelow⟩ := List.cons.inj (Except.ok.inj (hparse.symm.trans hparse'))
      exact .inr ⟨hfirst, _, _, _, _, hbelow, hmethod, hlist⟩

end Value

/-! ## From the slot to the parameter -/

theorem ParameterSlot.exists_passes {table : Entries ParameterSlot} {slot : ParameterSlot}
    {parameter : Parameter} (h : slot.follow table [] = .ok parameter) :
    ∃ keys, Passes table slot keys (.inline parameter) := by
  obtain ⟨keys, last, hchain, -, -, hsettles⟩ := exists_settles table [] slot
  rw [h] at hsettles
  cases hsettles
  exact ⟨keys, hchain⟩

namespace SchemaModel

variable {document : Value} {model : SchemaModel} {op : Operation} {list : List PlacedParameter}
  {placed : PlacedParameter} {slot : ParameterSlot} {keys : List String}

/-- A parameter is the one that a slot of the path or of the operation stands for: the references
from there go through these reusable parameters. -/
structure ComesFrom (model : SchemaModel) (op : Operation) (placed : PlacedParameter)
    (slot : ParameterSlot) (keys : List String) : Prop where
  listed : ∃ index : Nat,
    op.pathParameters[index]? = some slot ∧ placed.pointer = sourceOf op.itemPointer index slot ∨
    op.parameters[index]? = some slot ∧ placed.pointer = sourceOf op.pointer index slot
  passes : ParameterSlot.Passes model.parameters slot keys (.inline placed.parameter)

theorem mem_parameterList {owner : String} {slots : List ParameterSlot}
    (h : model.parameterList owner slots = .ok list) :
    ∀ placed ∈ list, ∃ (index : Nat) (slot : ParameterSlot), slots[index]? = some slot ∧
      model.LeadsTo owner (slot, index) placed := by
  rw [parameterList_eq] at h
  refine foldlM_invariant (fun list => ∀ placed ∈ list, ∃ (index : Nat) (slot : ParameterSlot),
    slots[index]? = some slot ∧ model.LeadsTo owner (slot, index) placed) h
    (fun _ hplaced => nomatch hplaced) ?_
  rintro before ⟨slot, index⟩ hmem after hbefore hstep placed hplaced
  obtain ⟨parameter, hresolve, hstep⟩ := bind_eq_ok.mp hstep
  split at hstep
  · cases hstep
  · cases hstep
    rcases List.mem_append.mp hplaced with hplaced | hplaced
    · exact hbefore placed hplaced
    · obtain rfl := List.mem_singleton.mp hplaced
      exact ⟨index, slot, List.mk_mem_zipIdx_iff_getElem?.mp hmem, hresolve, rfl⟩

/-- The parameters that hold for an operation come from the slots of its path and from its own. -/
theorem exists_comesFrom (h : model.effectiveParameters op = .ok list) (hplaced : placed ∈ list) :
    ∃ slot keys, model.ComesFrom op placed slot keys := by
  obtain ⟨shared, hshared, h⟩ := bind_eq_ok.mp h
  obtain ⟨own, hown, heq⟩ := bind_eq_ok.mp h
  cases heq
  rcases PlacedParameter.mem_foldl_override hplaced with hmem | hmem
  · obtain ⟨index, slot, hslot, hleads⟩ := mem_parameterList hshared placed hmem
    obtain ⟨keys, hpasses⟩ := ParameterSlot.exists_passes hleads.parameter
    exact ⟨slot, keys, ⟨index, .inl ⟨hslot, hleads.pointer⟩⟩, hpasses⟩
  · obtain ⟨index, slot, hslot, hleads⟩ := mem_parameterList hown placed hmem
    obtain ⟨keys, hpasses⟩ := ParameterSlot.exists_passes hleads.parameter
    exact ⟨slot, keys, ⟨index, .inr ⟨hslot, hleads.pointer⟩⟩, hpasses⟩

/-! ## What stands at the pointer -/

/-- A slot is written at the pointer, or the pointer goes through a list and leads nowhere. -/
def Found (document : Value) (pointer : String) (slot : ParameterSlot) : Prop :=
  (∃ w, document.at? pointer = some w ∧ w.WritesSlot slot ∧ ¬ document.ThroughList pointer) ∨
    document.at? pointer = none ∧ document.ThroughList pointer

theorem sourceOf_inline (segments : List String) (index : Nat) (parameter : Parameter) :
    sourceOf (Pointer.render segments) index (.inline parameter) =
      Pointer.render (segments ++ ["parameters", toString index]) := by
  have hname : Pointer.escape "parameters" = "parameters" := by decide
  have hslashes : "/parameters/" = "/parameters" ++ "/" := by decide
  rw [Pointer.render_append, sourceOf, Pointer.extend, List.map_cons, List.map_cons, hname,
    Pointer.escape_toString]
  simp only [List.map_nil, String.join_cons, String.join_nil, String.append_empty]
  rw [hslashes]
  simp only [String.append_assoc]
  rfl

theorem operation_pointer (h : op.ReadFrom document) :
    op.pointer = Pointer.render ["paths", op.path, op.method] := by
  have hmethod : ∀ method ∈ methods, Pointer.escape method = method := by decide
  rw [Operation.pointer, h.item, show ["paths", op.path, op.method] =
    ["paths", op.path] ++ [op.method] from rfl, Pointer.render_append, Pointer.extend]
  simp [hmethod _ h.method, String.append_assoc]

/-- A parameter that is written in the list of a path stands at its position there. -/
theorem found_of_shared (h : op.ReadFrom document) {index : Nat} {parameter : Parameter}
    (hslot : op.pathParameters[index]? = some (.inline parameter)) :
    Found document (sourceOf op.itemPointer index (.inline parameter)) (.inline parameter) := by
  obtain ⟨w, hlocate, hw⟩ := h.shared index _ hslot
  have hparse : Pointer.parse (Pointer.render ["paths", op.path, "parameters", toString index]) =
      .ok ["paths", op.path, "parameters", toString index] := Pointer.parse_render (by simp)
  rw [h.item, sourceOf_inline]
  refine .inl ⟨w, ?_, hw, ?_⟩
  · rw [List.cons_append, List.cons_append, List.nil_append, Value.at?_of_parse hparse]
    exact hlocate
  · intro hthrough
    rcases hthrough.of_parse hparse with ⟨hfirst, -⟩ | ⟨-, _, _, _, _, hbelow, hmethod, -⟩
    · exact absurd hfirst (by decide)
    · cases hbelow
      exact absurd hmethod (by decide)

/-- One that is written in the list of an operation does so too, unless the operation is a list. -/
theorem found_of_own (h : op.ReadFrom document) {index : Nat} {parameter : Parameter}
    (hslot : op.parameters[index]? = some (.inline parameter)) :
    Found document (sourceOf op.pointer index (.inline parameter)) (.inline parameter) := by
  have hparse : Pointer.parse
      (Pointer.render ["paths", op.path, op.method, "parameters", toString index]) =
      .ok ["paths", op.path, op.method, "parameters", toString index] :=
    Pointer.parse_render (by simp)
  have hbelow {items : List Value}
      (hlist : document.locate ["paths", op.path, op.method] = some (.array items)) :
      document.locate ["paths", op.path, op.method, "parameters", toString index] = none :=
    Value.locate_array_of_key hlist (by decide)
  rw [operation_pointer h, sourceOf_inline]
  show Found document (Pointer.render ["paths", op.path, op.method, "parameters", toString index]) _
  rcases h.own with ⟨items, hlist⟩ | hlisted
  · refine .inr ⟨?_, .operation hparse h.method hlist⟩
    rw [Value.at?_of_parse hparse]
    exact hbelow hlist
  · obtain ⟨w, hlocate, hw⟩ := hlisted index _ hslot
    refine .inl ⟨w, ?_, hw, ?_⟩
    · rw [Value.at?_of_parse hparse]
      exact hlocate
    · intro hthrough
      rcases hthrough.of_parse hparse with ⟨hfirst, -⟩ | ⟨-, _, _, _, _, heq, -, hlist⟩
      · exact absurd hfirst (by decide)
      · cases heq
        cases (hbelow hlist).symm.trans hlocate

/-- What a reference leads to first stands at the pointer that the reference is. -/
theorem found_of_reference (hmodel : model.PlacedIn document) {pointer key : String}
    {next : ParameterSlot}
    (h : ParameterSlot.Refers model.parameters (.reference pointer) key next) :
    Found document pointer next := by
  obtain ⟨hparse, hnext⟩ := h
  obtain ⟨segments, hrender, hhas⟩ := hmodel.reusable _ (Entries.mem_of_get? hnext)
  obtain rfl := Pointer.render_inj (Pointer.ne_nil_of_parse hparse) hrender
  cases hhas with
  | plain hlocate hw =>
      refine .inl ⟨_, (Value.at?_of_parse hparse).trans hlocate, hw, fun hthrough => ?_⟩
      rcases hthrough.of_parse hparse with ⟨hfirst, -⟩ | ⟨hfirst, -⟩
      · exact absurd hfirst (by decide)
      · exact absurd hfirst (by decide)
  | component hlocate hw =>
      refine .inl ⟨_, (Value.at?_of_parse hparse).trans hlocate, hw, fun hthrough => ?_⟩
      rcases hthrough.of_parse hparse with ⟨-, items, hlist⟩ | ⟨hfirst, -⟩
      · cases (Value.locate_array_of_key hlist (by decide)).symm.trans hlocate
      · exact absurd hfirst (by decide)
  | listed hlist =>
      refine .inr ⟨(Value.at?_of_parse hparse).trans ?_, .components hparse hlist⟩
      exact Value.locate_array_of_key hlist (by decide)

/-- What stands at the pointer of a parameter is the slot that one reference leads to, if there is a
reference, and the other references go on from there. -/
theorem ComesFrom.exists_found (hmodel : model.PlacedIn document) (hop : op.ReadFrom document)
    (h : model.ComesFrom op placed slot keys) :
    ∃ found rest, Found document placed.pointer found ∧
      ParameterSlot.Passes model.parameters found rest (.inline placed.parameter) ∧
      (rest = [] ↔ keys.length ≤ 1) := by
  obtain ⟨⟨index, hlisted⟩, hpasses⟩ := h
  cases hpasses with
  | refl =>
      refine ⟨_, [], ?_, .refl, by simp⟩
      rcases hlisted with ⟨hslot, hpointer⟩ | ⟨hslot, hpointer⟩
      · rw [hpointer]
        exact found_of_shared hop hslot
      · rw [hpointer]
        exact found_of_own hop hslot
  | @head _ next _ key rest hfirst hrest =>
      refine ⟨next, rest, ?_, hrest, by simp⟩
      cases slot with
      | inline parameter => cases hfirst
      | reference pointer =>
          have hpointer : placed.pointer = pointer := by
            rcases hlisted with ⟨-, hpointer⟩ | ⟨-, hpointer⟩ <;> exact hpointer
          rw [hpointer]
          exact found_of_reference hmodel hfirst

/-- A parameter is written at its pointer exactly if no more than one reference leads to it, and the
pointer goes through no list. -/
theorem ComesFrom.hasParameter_iff (hmodel : model.PlacedIn document) (hop : op.ReadFrom document)
    (h : model.ComesFrom op placed slot keys) :
    document.HasParameter placed.pointer placed.parameter ↔
      keys.length ≤ 1 ∧ ¬ document.ThroughList placed.pointer := by
  obtain ⟨found, rest, hfound, hpasses, hrest⟩ := h.exists_found hmodel hop
  rw [← hrest]
  constructor
  · rintro ⟨v, hv, hparameter⟩
    rcases hfound with ⟨w, hw, hslot, hthrough⟩ | ⟨hnone, -⟩
    · cases hv.symm.trans hw
      refine ⟨?_, hthrough⟩
      cases hpasses with
      | refl => rfl
      | head hfirst =>
          obtain ⟨-, -⟩ := hfirst
          exact absurd hparameter hslot.not_writesParameter
    · cases hv.symm.trans hnone
  · rintro ⟨rfl, hthrough⟩
    cases hpasses
    rcases hfound with ⟨w, hw, hslot, -⟩ | ⟨-, habsurd⟩
    · exact ⟨w, hw, Value.writesSlot_inline.mp hslot⟩
    · exact absurd habsurd hthrough

end SchemaModel

end SwaggerTypes
