import SwaggerTypes.Proofs.Budget
import SwaggerTypes.Proofs.WellFormed
/-!
# The parameters that hold for an operation

An operation has parameters of its own and shares those of its path. Here both lists are laid out
before anything is merged: what each slot leads to, and where it is read from. A list that has a
parameter twice is a fault of the document. Otherwise the list in force is said at once, without the
steps that build it: each shared parameter, or its own counterpart where there is one, and then what
only the operation has. A query interface has one property for each query parameter among them.
-/

namespace SwaggerTypes

/-! ## Overriding -/

namespace PlacedParameter

variable {shared own list : List PlacedParameter} {a b placed : PlacedParameter}

/-- What holds in the place of a shared parameter: the one of the operation of the same name and
location, if there is one. -/
def winner (own : List PlacedParameter) (a : PlacedParameter) : PlacedParameter :=
  (own.find? fun b => a.parameter.same b.parameter).getD a

/-- The parameters in force: the shared ones, each overridden in its place, and then those that the
operation alone has. -/
def overridden (shared own : List PlacedParameter) : List PlacedParameter :=
  shared.map (winner own) ++ own.filter fun b => !occurs shared b.parameter

theorem winner_nil : winner [] a = a := rfl

theorem winner_cons_of_same (h : a.parameter.same b.parameter = true) :
    winner (b :: own) a = b := by
  simp [winner, h]

theorem winner_cons_of_not_same (h : a.parameter.same b.parameter = false) :
    winner (b :: own) a = winner own a := by
  simp [winner, h]

theorem winner_eq_self (h : ∀ b ∈ own, a.parameter.same b.parameter = false) :
    winner own a = a := by
  have hnone : (own.find? fun b => a.parameter.same b.parameter) = none :=
    List.find?_eq_none.mpr fun b hb => by simp [h b hb]
  rw [winner, hnone]
  rfl

/-- One parameter overrides the same one of a list, or is put behind the list. -/
theorem override_eq (h : Distinct list) :
    placed.override list =
      list.map (winner [placed]) ++ if occurs list placed.parameter then [] else [placed] := by
  induction list with
  | nil => rfl
  | cons r rest ih =>
      obtain ⟨hr, hrest⟩ := List.pairwise_cons.mp h
      rw [override, List.map_cons]
      cases hsame : r.parameter.same placed.parameter with
      | true =>
          have hoccurs : occurs (r :: rest) placed.parameter = true := by simp [occurs, hsame]
          have hkept : rest.map (winner [placed]) = rest := by
            refine (List.map_congr_left fun q hq => ?_).trans (List.map_id rest)
            have hne := Parameter.same_congr hsame ▸ hr q hq
            exact winner_eq_self (by simpa [Parameter.same_comm q.parameter] using hne)
          rw [winner_cons_of_same hsame, hkept, if_pos hoccurs, List.append_nil]
          rfl
      | false =>
          have hoccurs : occurs (r :: rest) placed.parameter = occurs rest placed.parameter := by
            simp [occurs, hsame]
          rw [winner_cons_of_not_same hsame, winner_nil, hoccurs, ih hrest]
          rfl

theorem occurs_override (c : Parameter) :
    occurs (placed.override list) c = (occurs list c || placed.parameter.same c) := by
  induction list with
  | nil => simp [override, occurs]
  | cons r rest ih =>
      rw [override]
      cases hsame : r.parameter.same placed.parameter with
      | true =>
          have hplaced : r.parameter.same c = placed.parameter.same c := Parameter.same_congr hsame
          simp only [if_true, occurs, List.any_cons, hplaced]
          rw [Bool.or_right_comm, Bool.or_self]
      | false =>
          rw [occurs] at ih
          simp only [Bool.false_eq_true, if_false, occurs, List.any_cons, ih, Bool.or_assoc]

/-- Overriding one by one gives the parameters in force. -/
theorem foldl_override_eq (hshared : Distinct shared) (hown : Distinct own) :
    own.foldl (fun list placed => placed.override list) shared = overridden shared own := by
  induction own generalizing shared with
  | nil => simp [overridden, funext fun a => winner_nil (a := a)]
  | cons b own ih =>
      obtain ⟨hb, hrest⟩ := List.pairwise_cons.mp hown
      have hkept : winner own b = b := winner_eq_self hb
      have hwinner (a : PlacedParameter) : winner own (winner [b] a) = winner (b :: own) a := by
        cases hsame : a.parameter.same b.parameter with
        | true => rw [winner_cons_of_same hsame, winner_cons_of_same hsame, hkept]
        | false => rw [winner_cons_of_not_same hsame, winner_cons_of_not_same hsame, winner_nil]
      have hothers : (own.filter fun c => !occurs (b.override shared) c.parameter) =
          own.filter fun c => !occurs shared c.parameter :=
        List.filter_congr fun c hc => by rw [occurs_override, hb c hc, Bool.or_false]
      have hwinners : (shared.map (winner [b])).map (winner own) = shared.map (winner (b :: own)) :=
        List.map_map.trans (List.map_congr_left fun a _ => hwinner a)
      rw [List.foldl_cons, ih (distinct_override hshared) hrest, overridden, overridden, hothers,
        override_eq hshared, List.map_append, hwinners, List.append_assoc]
      congr 1
      cases hoccurs : occurs shared b.parameter with
      | true => simp [hoccurs]
      | false => simp [hoccurs, hkept]

end PlacedParameter

/-! ## Lists of slots -/

namespace SchemaModel

variable {model : SchemaModel} {owner : String} {op : Operation}
  {shared own list : List PlacedParameter}

structure LeadsTo (model : SchemaModel) (owner : String) (slot : ParameterSlot × Nat)
    (placed : PlacedParameter) : Prop where
  parameter : model.resolveParameter slot.1 = .ok placed.parameter
  pointer : placed.pointer = sourceOf owner slot.2 slot.1

def Leads (model : SchemaModel) (owner : String) (slots : List ParameterSlot)
    (list : List PlacedParameter) : Prop :=
  List.Forall₂ (model.LeadsTo owner) slots.zipIdx list

theorem Leads.eq {slots : List ParameterSlot} {list' : List PlacedParameter}
    (h : model.Leads owner slots list) (h' : model.Leads owner slots list') : list = list' := by
  refine List.right_unique_forall₂' ?_ h h'
  intro slot a b ha hb
  have hparameter := Except.ok.inj (ha.parameter.symm.trans hb.parameter)
  have hpointer := ha.pointer.trans hb.pointer.symm
  cases a
  cases b
  cases hparameter
  cases hpointer
  rfl

theorem exists_leads {slots : List ParameterSlot}
    (h : ∀ slot ∈ slots, ∃ parameter, model.resolveParameter slot = .ok parameter) :
    ∃ list, model.Leads owner slots list := by
  have hall : ∀ e ∈ slots.zipIdx, ∃ placed, model.LeadsTo owner e placed := by
    intro e he
    obtain ⟨parameter, hresolve⟩ := h e.1 (List.fst_mem_of_mem_zipIdx he)
    exact ⟨⟨sourceOf owner e.2 e.1, parameter⟩, hresolve, rfl⟩
  unfold Leads
  generalize slots.zipIdx = entries at hall
  induction entries with
  | nil => exact ⟨[], .nil⟩
  | cons e rest ih =>
      obtain ⟨placed, hplaced⟩ := hall e List.mem_cons_self
      obtain ⟨list, hlist⟩ := ih fun e he => hall e (List.mem_cons_of_mem _ he)
      exact ⟨placed :: list, .cons hplaced hlist⟩

def addSlot (model : SchemaModel) (owner : String) (before : List PlacedParameter)
    (slot : ParameterSlot × Nat) : Outcome (List PlacedParameter) := do
  let parameter ← model.resolveParameter slot.1
  if PlacedParameter.occurs before parameter then
    throw (.malformed (.duplicateParameter parameter.name owner))
  return before ++ [⟨sourceOf owner slot.2 slot.1, parameter⟩]

theorem parameterList_eq (slots : List ParameterSlot) :
    model.parameterList owner slots = slots.zipIdx.foldlM (model.addSlot owner) [] := rfl

theorem LeadsTo.addSlot_eq {slot : ParameterSlot × Nat} {placed : PlacedParameter}
    (h : model.LeadsTo owner slot placed) (before : List PlacedParameter) :
    model.addSlot owner before slot =
      if PlacedParameter.occurs before placed.parameter then
        .error (.malformed (.duplicateParameter placed.parameter.name owner))
      else .ok (before ++ [placed]) := by
  rw [addSlot, h.parameter, ← h.pointer]
  show (if _ then _ else _) = _
  split <;> rfl

/-- Reading goes on to the end of the list unless a parameter stands in it twice. -/
theorem foldlM_addSlot {slots : List (ParameterSlot × Nat)}
    (hlist : List.Forall₂ (model.LeadsTo owner) slots list) {before : List PlacedParameter}
    (hbefore : PlacedParameter.Distinct before) :
    (PlacedParameter.Distinct (before ++ list) →
      slots.foldlM (model.addSlot owner) before = .ok (before ++ list)) ∧
    (¬ PlacedParameter.Distinct (before ++ list) → ∃ placed ∈ list,
      slots.foldlM (model.addSlot owner) before =
        .error (.malformed (.duplicateParameter placed.parameter.name owner))) := by
  induction hlist generalizing before with
  | nil =>
      rw [List.append_nil]
      exact ⟨fun _ => rfl, fun h => absurd hbefore h⟩
  | @cons slot placed slots list hplaced _ ih =>
      rw [List.foldlM_cons, hplaced.addSlot_eq]
      cases hoccurs : PlacedParameter.occurs before placed.parameter with
      | true =>
          obtain ⟨a, ha, hsame⟩ := List.any_eq_true.mp hoccurs
          refine ⟨fun h => ?_, fun _ => ⟨placed, List.mem_cons_self, rfl⟩⟩
          have hne := (List.pairwise_append.mp h).2.2 a ha placed List.mem_cons_self
          exact absurd (hsame.symm.trans hne) (by decide)
      | false =>
          obtain ⟨hok, herror⟩ := ih (PlacedParameter.distinct_snoc hbefore hoccurs)
          rw [List.append_assoc, List.singleton_append] at hok herror
          refine ⟨hok, fun h => ?_⟩
          obtain ⟨q, hq, hfails⟩ := herror h
          exact ⟨q, List.mem_cons_of_mem _ hq, hfails⟩

theorem Leads.parameterList_eq_ok {slots : List ParameterSlot} (h : model.Leads owner slots list)
    (hdistinct : PlacedParameter.Distinct list) : model.parameterList owner slots = .ok list := by
  rw [parameterList_eq]
  exact (foldlM_addSlot h List.Pairwise.nil).1 hdistinct

theorem Leads.parameterList_eq_error {slots : List ParameterSlot}
    (h : model.Leads owner slots list) (hdistinct : ¬ PlacedParameter.Distinct list) :
    ∃ placed ∈ list, model.parameterList owner slots =
      .error (.malformed (.duplicateParameter placed.parameter.name owner)) := by
  rw [parameterList_eq]
  exact (foldlM_addSlot h List.Pairwise.nil).2 hdistinct

theorem effectiveParameters_eq (hshared : model.Leads op.itemPointer op.pathParameters shared)
    (hown : model.Leads op.pointer op.parameters own) (hs : PlacedParameter.Distinct shared)
    (ho : PlacedParameter.Distinct own) :
    model.effectiveParameters op = .ok (PlacedParameter.overridden shared own) := by
  rw [effectiveParameters, hshared.parameterList_eq_ok hs, hown.parameterList_eq_ok ho,
    ← PlacedParameter.foldl_override_eq hs ho]
  rfl

end SchemaModel

/-! ## Query interfaces -/

/-- A pass that puts its answers into another form is the pass itself, with the form given last. -/
theorem mapM_zipWith {α β γ : Type} {f : α → Synthesis β} (g : α → β → γ) (l : List α) :
    (l.mapM fun a => do return g a (← f a)) = do return List.zipWith g l (← l.mapM f) := by
  induction l with
  | nil => rfl
  | cons a l ih => simp only [List.mapM_cons, ih, bind_assoc, pure_bind, List.zipWith_cons_cons]

namespace PlacedParameter

/-- The properties of a query interface for the given types, as its order asks. -/
structure QueryProperties (sorted : Bool) (query : List PlacedParameter) (types : List TypeExpr)
    (qs : List (Property TypeExpr)) : Prop where
  written : sorted = false → qs = List.zipWith property query types
  perm : qs.Perm (List.zipWith property query types)
  bytes : sorted = true → (qs.map (·.name)).Pairwise Text.BytesLt

variable {query : List PlacedParameter} {types : List TypeExpr}

theorem names_zipWith_property (h : types.length = query.length) :
    (List.zipWith property query types).map (·.name) =
      query.map fun placed => placed.parameter.name := by
  rw [List.map_zipWith]
  induction query generalizing types with
  | nil => rfl
  | cons placed query ih =>
      cases types with
      | nil => cases h
      | cons t types => exact congrArg _ (ih (Nat.succ.inj h))

/-- Names that are all different are in their strict order once they are sorted. -/
theorem queryProperties_arrange {sorted : Bool} (h : types.length = query.length)
    (hnames : (query.map fun placed => placed.parameter.name).Nodup) :
    QueryProperties sorted query types
      (ObjectType.arrange sorted { properties := List.zipWith property query types }).properties := by
  cases sorted with
  | false => exact ⟨fun _ => rfl, .rfl, nofun⟩
  | true =>
      have hperm := ObjectType.perm_sortProperties { properties := List.zipWith property query types }
      have hnodup := names_zipWith_property h ▸ hnames
      exact ⟨nofun, hperm, fun _ =>
        (ObjectType.pairwise_sortProperties hnodup).imp Text.bytesLt_of_lt⟩

end PlacedParameter

namespace Setting

variable {s : Setting} {model : SchemaModel} {op : Operation}

def parameterTypes (s : Setting) (list : List PlacedParameter) : Synthesis (List TypeExpr) :=
  list.mapM fun placed => s.typeOf placed.place placed.parameter.schema

theorem mapM_queryProperty (list : List PlacedParameter) :
    list.mapM s.queryProperty =
      do return List.zipWith PlacedParameter.property list (← s.parameterTypes list) :=
  mapM_zipWith PlacedParameter.property list

/-- The interface of the query parameters among those in force, whose schemas have the given types. -/
theorem run_queryDeclaration {list : List PlacedParameter} {st st' : Progress}
    {types : List TypeExpr} (heffective : model.effectiveParameters op = .ok list)
    (htypes : (s.parameterTypes (PlacedParameter.ofQuery list)).run st = .ok (types, st')) :
    ∃ found st'', (s.queryDeclaration model op).run st = .ok (found, st'') ∧
      (found.isSome = true ↔ PlacedParameter.ofQuery list ≠ []) ∧
      ∀ d, found = some d → d.body = .interface (ObjectType.arrange s.sorted
        { properties := List.zipWith PlacedParameter.property (PlacedParameter.ofQuery list) types }) := by
  rw [queryDeclaration_of_ok heffective]
  split
  · next hnone => exact ⟨none, st, rfl, by simp [hnone], nofun⟩
  · next hsome =>
    have hrun : ((PlacedParameter.ofQuery list).mapM s.queryProperty).run st =
        .ok (List.zipWith PlacedParameter.property (PlacedParameter.ofQuery list) types, st') := by
      rw [mapM_queryProperty, StateT.run_bind, htypes]
      rfl
    let object := ObjectType.arrange s.sorted
      { properties := List.zipWith PlacedParameter.property (PlacedParameter.ofQuery list) types }
    let name := (nextName st'.taken op.queryName op.pointer).1
    refine ⟨some { name, body := .interface object }, st'.takeName op.queryName op.pointer, ?_,
      by simp [hsome], ?_⟩
    · rw [StateT.run_bind, hrun]
      rfl
    · rintro d heq
      cases heq
      rfl

/-- Where all slots of an operation lead to a parameter, it is a fault if the path or the operation has
one twice. Otherwise, once the schemas of the query parameters in force have types, there is an
interface exactly if there are such parameters, and it has one property for each. -/
theorem queryDeclaration_of_slots
    (hslots : ∀ slot ∈ op.pathParameters ++ op.parameters,
      ∃ parameter, model.resolveParameter slot = .ok parameter) :
    ∃ shared own, model.Leads op.itemPointer op.pathParameters shared ∧
      model.Leads op.pointer op.parameters own ∧
      (¬ PlacedParameter.Distinct shared → ∃ placed ∈ shared, ∀ st,
        (s.queryDeclaration model op).run st =
          .error (.malformed (.duplicateParameter placed.parameter.name op.itemPointer))) ∧
      (PlacedParameter.Distinct shared → ¬ PlacedParameter.Distinct own → ∃ placed ∈ own, ∀ st,
        (s.queryDeclaration model op).run st =
          .error (.malformed (.duplicateParameter placed.parameter.name op.pointer))) ∧
      (PlacedParameter.Distinct shared → PlacedParameter.Distinct own → ∀ query,
        query = PlacedParameter.ofQuery (PlacedParameter.overridden shared own) →
        ∀ st types st', (s.parameterTypes query).run st = .ok (types, st') →
          types.length = query.length ∧ ∃ found st'',
            (s.queryDeclaration model op).run st = .ok (found, st'') ∧
            (found.isSome = true ↔ ∃ placed ∈ PlacedParameter.overridden shared own,
              placed.parameter.location = .query) ∧
            ∀ d, found = some d → ∃ qs, d.body = .interface { properties := qs } ∧
              PlacedParameter.QueryProperties s.sorted query types qs) := by
  obtain ⟨shared, hshared⟩ : ∃ shared, model.Leads op.itemPointer op.pathParameters shared :=
    SchemaModel.exists_leads fun slot hslot => hslots slot (List.mem_append_left _ hslot)
  obtain ⟨own, hown⟩ : ∃ own, model.Leads op.pointer op.parameters own :=
    SchemaModel.exists_leads fun slot hslot => hslots slot (List.mem_append_right _ hslot)
  refine ⟨shared, own, hshared, hown, fun hs => ?_, fun hs ho => ?_,
    fun hs ho query hquery st types st' htypes => ?_⟩
  · obtain ⟨placed, hplaced, hfails⟩ := hshared.parameterList_eq_error hs
    refine ⟨placed, hplaced, fun st => ?_⟩
    rw [queryDeclaration, SchemaModel.effectiveParameters, hfails]
    rfl
  · obtain ⟨placed, hplaced, hfails⟩ := hown.parameterList_eq_error ho
    refine ⟨placed, hplaced, fun st => ?_⟩
    rw [queryDeclaration, SchemaModel.effectiveParameters, hshared.parameterList_eq_ok hs, hfails]
    rfl
  · subst hquery
    have heffective := SchemaModel.effectiveParameters_eq hshared hown hs ho
    have hlength := (forall₂_of_mapM htypes).length_eq.symm
    obtain ⟨found, st'', hrun, hsome, hbody⟩ := run_queryDeclaration heffective htypes
    have hnames := PlacedParameter.nodup_queryNames
      (SchemaModel.effectiveParameters_distinct heffective)
    refine ⟨hlength, found, st'', hrun, ?_, fun d hd => ⟨_, ?_,
      PlacedParameter.queryProperties_arrange hlength hnames⟩⟩
    · rw [hsome, PlacedParameter.ofQuery, Ne, List.filter_eq_nil_iff]
      simp
    · rw [hbody d hd]
      cases s.sorted <;> rfl

end Setting

/-! ## A listing with a page size -/

theorem ParameterSlot.follow_reference {table : Entries ParameterSlot} {visited : List String}
    {pointer : String} {segments : List String} {next : ParameterSlot}
    (hparse : parsePointer pointer = .ok segments) (hnew : Pointer.render segments ∉ visited)
    (hnext : table.get? (Pointer.render segments) = some next) :
    (ParameterSlot.reference pointer).follow table visited =
      next.follow table (Pointer.render segments :: visited) := by
  rw [follow, hparse]
  simp only [hnew, dite_false]
  split
  · next hnone =>
    rw [hnext] at hnone
    cases hnone
  · next found hfound =>
    rw [hnext] at hfound
    cases hfound
    rfl

def pageSize (required : Bool) : Parameter where
  name := "size"
  location := .query
  required := required
  description := none
  schema := .bare (.primitive .integer none)
  nested := false

def sizeHeader : Parameter := { pageSize false with location := .header }

def petTag : Parameter where
  name := "tag"
  location := .query
  required := false
  description := some "Only these."
  schema := .bare (.primitive .string none)
  nested := false

def petParameters : SchemaModel where
  definitions := .ofList []
  parameters := [("#/parameters/size", .inline (pageSize false))]

/-- A listing that shares the reusable page size with its path and requires it itself. -/
def petListing : Operation where
  path := "/pets"
  method := "get"
  operationId := none
  itemPointer := "#/paths/~1pets"
  pathParameters := [.inline sizeHeader, .reference "#/parameters/size"]
  parameters := [.inline petTag, .inline (pageSize true)]

theorem petParameters_inline (parameter : Parameter) :
    petParameters.resolveParameter (.inline parameter) = .ok parameter := by
  rw [SchemaModel.resolveParameter, ParameterSlot.follow]

theorem petParameters_reference :
    petParameters.resolveParameter (.reference "#/parameters/size") = .ok (pageSize false) := by
  have hparse : parsePointer "#/parameters/size" = .ok ["parameters", "size"] := by rfl
  rw [SchemaModel.resolveParameter, ParameterSlot.follow_reference hparse (by simp) (by rfl),
    ParameterSlot.follow]

/-- The page size stands where its path puts it, as the operation has it. -/
theorem petListing_query :
    (∀ slot ∈ petListing.pathParameters ++ petListing.parameters,
      ∃ parameter, petParameters.resolveParameter slot = .ok parameter) ∧
    ∃ d st, ((petParameters.setting false).queryDeclaration petParameters petListing).run
        petParameters.start = .ok (some d, st) ∧
      d.body = .interface { properties :=
        [{ name := "size", type := .base .number, optional := false },
         { name := "tag", type := .base .string, optional := true, doc := some "Only these." }] } := by
  have hslots : ∀ slot ∈ petListing.pathParameters ++ petListing.parameters,
      ∃ parameter, petParameters.resolveParameter slot = .ok parameter := by
    simp only [petListing, List.cons_append, List.nil_append, List.forall_mem_cons]
    exact ⟨⟨_, petParameters_inline _⟩, ⟨_, petParameters_reference⟩,
      ⟨_, petParameters_inline _⟩, ⟨_, petParameters_inline _⟩, nofun⟩
  obtain ⟨shared, own, hshared, hown, -, -, hquery⟩ :=
    Setting.queryDeclaration_of_slots (s := petParameters.setting false) hslots
  have hs : shared = [⟨"#/paths/~1pets/parameters/0", sizeHeader⟩,
      ⟨"#/parameters/size", pageSize false⟩] :=
    hshared.eq (.cons ⟨petParameters_inline _, rfl⟩ (.cons ⟨petParameters_reference, rfl⟩ .nil))
  have ho : own = [⟨"#/paths/~1pets/get/parameters/0", petTag⟩,
      ⟨"#/paths/~1pets/get/parameters/1", pageSize true⟩] :=
    hown.eq (.cons ⟨petParameters_inline _, rfl⟩ (.cons ⟨petParameters_inline _, rfl⟩ .nil))
  subst hs ho
  obtain ⟨-, found, st, hrun, hsome, hbody⟩ := hquery (by simp [PlacedParameter.Distinct]; decide)
    (by simp [PlacedParameter.Distinct]; decide) _ rfl petParameters.start
    [.base .number, .base .string] petParameters.start (by rfl)
  have hsize : found.isSome = true :=
    hsome.mpr ⟨_, List.mem_cons_of_mem _ List.mem_cons_self, rfl⟩
  obtain ⟨d, rfl⟩ := Option.isSome_iff_exists.mp hsize
  obtain ⟨qs, hd, hqs⟩ := hbody d rfl
  refine ⟨hslots, d, st, hrun, ?_⟩
  rw [hd, hqs.written rfl]
  rfl

end SwaggerTypes
