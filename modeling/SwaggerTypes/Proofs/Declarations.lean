import SwaggerTypes.Proofs.Budget
import SwaggerTypes.Proofs.Reach
/-!
# Finished declarations

When a build ends, every definition has its declaration, under its own name, made from the type that
a run found for its root; the query interfaces stand behind these declarations.
-/

namespace SwaggerTypes

namespace Setting

variable {s : Setting} {model : SchemaModel} {p : Place} {task : Task} {st st' : Progress}
  {log : List Begun} {finding : Finding}

/-- What came of a declaration that was begun: a run on the root of its definition, and the
declaration made from the type that the run found. -/
def Declared (s : Setting) (model : SchemaModel) (st : Progress) (b : Begun) : Prop :=
  ∃ d t st₁ log st₂, s.definitions.entries[b.index]? = some d ∧ s.Orderly b.place.chain st₁ ∧
    s.Run model b.place (.schema d.root) st₁ log (.type t) st₂ ∧
    st.slots[b.index]? = some (.done (s.declarationOf b.index d t))

theorem Declared.advance {b : Begun} (h : s.Declared model st b) (hs : st.Advances st') :
    s.Declared model st' b := by
  obtain ⟨d, t, st₁, log, st₂, entry, ho, run, hdone⟩ := h
  exact ⟨d, t, st₁, log, st₂, entry, ho, run, hs.done hdone⟩

theorem Declared.setSlot {b : Begun} {i : Nat} {slot : Slot} (h : s.Declared model st b)
    (hi : i ≠ b.index) : s.Declared model (st.setSlot i slot) b := by
  obtain ⟨d, t, st₁, log, st₂, entry, ho, run, hdone⟩ := h
  exact ⟨d, t, st₁, log, st₂, entry, ho, run, (Progress.slots_setSlot_ne _ hi).trans hdone⟩

/-- A run declares all it begins. -/
theorem Run.declares (h : s.Run model p task st log finding st') (ho : s.Orderly p.chain st) :
    ∀ b ∈ log, s.Declared model st' b := by
  refine Run.orderly_induction (R := fun _ log st' => ∀ b ∈ log, s.Declared model st' b)
    ?same ?takeName ?append ?declaration h ho
  case same => exact fun _ b hb => nomatch hb
  case takeName => exact id
  case append =>
    intro st st₁ st₂ log₁ log₂ hfin h₁ h₂ b hb
    rcases List.mem_append.mp hb with hb | hb
    · exact (h₁ b hb).advance hfin.advances
    · exact h₂ b hb
  case declaration =>
    intro st st₁ b log d t entry ho run hfin ih b' hb
    rcases List.mem_cons.mp hb with rfl | hb
    · refine ⟨d, t, _, _, _, entry, ho, run, Progress.slots_setSlot_self _ ?_⟩
      rw [(run.finishes ho).advances.length_eq, ho.length]
      exact (List.getElem?_eq_some_iff.mp entry).1
    · have hne := (List.nodup_cons.mp hfin.nodup).1
      exact (ih b' hb).setSlot fun hi => hne (List.mem_map.mpr ⟨b', hb, hi.symm⟩)

theorem Run.definition_done {i : Nat} {t : TypeExpr} (hi : i < s.definitions.entries.length)
    (h : s.Run model {} (.definition i) st log (.type t) st')
    (ho : s.Orderly ({} : Place).chain st) : st'.IsDone i := by
  have hfin := h.finishes ho
  cases h with
  | knownDefinition known =>
      refine known.resolve_right fun hnone => ?_
      exact absurd (List.getElem?_eq_none_iff.mp hnone) (Nat.not_le_of_lt hi)
  | newDefinition => exact (hfin.done_iff i).mpr (.inr List.mem_cons_self)
  | guardedCycle _ _ cycle | aliasCycle _ _ cycle => cases cycle

theorem Run.definitions_done {indices : List Nat}
    (h : s.Run model {} (.definitions indices) st log finding st')
    (ho : s.Orderly ({} : Place).chain st) :
    ∀ i ∈ indices, i < s.definitions.entries.length → st'.IsDone i := by
  induction indices generalizing st log with
  | nil => exact fun i hi => nomatch hi
  | cons j rest ih =>
      cases h with
      | definitions first second =>
          intro i hi hlt
          have h₁ := ho.advance (first.finishes ho).advances
          rcases List.mem_cons.mp hi with rfl | hi
          · exact (second.finishes h₁).advances.isDone (first.definition_done hlt ho)
          · exact ih second h₁ i hi hlt

/-- After a build every definition is declared. -/
theorem Run.build_done {withQuery : Bool} (h : s.Run model {} (.build withQuery) st log finding st')
    (ho : s.Orderly ({} : Place).chain st) {i : Nat} (hi : i < s.definitions.entries.length) :
    st'.IsDone i := by
  cases h with
  | build run => exact run.definitions_done ho i (List.mem_range.mpr hi) hi
  | queryBuild _ first second =>
      have h₁ := ho.advance (first.finishes ho).advances
      exact (second.finishes h₁).advances.isDone
        (first.definitions_done ho i (List.mem_range.mpr hi) hi)

end Setting

/-! ## Names of query interfaces -/

def Finding.declared : Finding → List Declaration
  | .declarations ds => ds
  | _ => []

/-- The names of declarations that are made between two points: none was taken before, all are taken
afterwards, and no two are the same. -/
structure Progress.Names (st : Progress) (ds : List Declaration) (st' : Progress) : Prop where
  kept : st.taken ⊆ st'.taken
  fresh : ∀ d ∈ ds, d.name ∉ st.taken
  taken : ∀ d ∈ ds, d.name ∈ st'.taken
  nodup : (ds.map Declaration.name).Nodup

namespace Progress.Names

theorem nil {st st' : Progress} (h : st.taken ⊆ st'.taken) : st.Names [] st' :=
  ⟨h, fun _ hd => (List.not_mem_nil hd).elim, fun _ hd => (List.not_mem_nil hd).elim,
    List.nodup_nil⟩

theorem after {st st₁ st₂ : Progress} {ds : List Declaration} (h : st.taken ⊆ st₁.taken)
    (h' : st₁.Names ds st₂) : st.Names ds st₂ :=
  ⟨List.Subset.trans h h'.kept, fun d hd hmem => h'.fresh d hd (h hmem), h'.taken, h'.nodup⟩

theorem cons {st st' : Progress} {d : Declaration} {ds : List Declaration} {base pointer : String}
    (hd : d.name = (nextName st.taken base pointer).1)
    (h : (st.takeName base pointer).Names ds st') : st.Names (d :: ds) st' where
  kept := fun _ hn => h.kept (List.mem_cons_of_mem _ hn)
  fresh := by
    intro e he hmem
    rcases List.mem_cons.mp he with rfl | he
    · exact nextName_not_mem _ _ _ (hd ▸ hmem)
    · exact h.fresh e he (List.mem_cons_of_mem _ hmem)
  taken := by
    intro e he
    rcases List.mem_cons.mp he with rfl | he
    · exact h.kept (hd ▸ List.mem_cons_self)
    · exact h.taken e he
  nodup := by
    rw [List.map_cons, List.nodup_cons]
    refine ⟨fun hmem => ?_, h.nodup⟩
    obtain ⟨e, he, hname⟩ := List.mem_map.mp hmem
    exact h.fresh e he (by rw [hname, hd]; exact List.mem_cons_self)

end Progress.Names

namespace Setting

variable {s : Setting} {model : SchemaModel} {p : Place} {task : Task} {st st' : Progress}
  {log : List Begun} {finding : Finding}

theorem Run.names (h : s.Run model p task st log finding st') :
    st.Names finding.declared st' := by
  induction h with
  | any | primitive | enum | unsupported | noProperties | closed | unrestricted | noMembers
  | skippedMember | recursiveReference | knownDefinition | guardedCycle | aliasCycle
  | noDefinitions | noParameters | noOperations => exact .nil (List.Subset.refl _)
  | array _ ih | objectSchema _ ih | referenceSchema _ ih | composite _ ih | typed _ ih
  | liftedMember _ _ ih | objectMember _ _ ih | plainMember _ _ ih | rootReference _ _ _ ih
  | deepReference _ _ _ _ ih | newDefinition _ _ _ _ ih | build _ ih => exact .nil ih.kept
  | plainOperation _ _ _ ih => exact ih
  | object _ _ ih₁ ih₂ | properties _ _ ih₁ ih₂ | members _ _ ih₁ ih₂ | definitions _ _ ih₁ ih₂
  | parameters _ _ ih₁ ih₂ => exact .nil (List.Subset.trans ih₁.kept ih₂.kept)
  | queryOperation _ _ _ _ ih₁ ih₂ => exact .after ih₁.kept (.cons rfl ih₂)
  | queryBuild _ _ _ ih₁ ih₂ => exact .after ih₁.kept ih₂

theorem Run.declared_interface (h : s.Run model p task st log finding st') :
    ∀ d ∈ finding.declared, ∃ o, d.body = .interface o := by
  induction h with
  | plainOperation _ _ _ ih | queryBuild _ _ _ _ ih => exact ih
  | queryOperation _ _ _ _ _ ih =>
      intro d hd
      rcases List.mem_cons.mp hd with rfl | hd
      · exact ⟨_, rfl⟩
      · exact ih d hd
  | _ => exact fun _ hd => (List.not_mem_nil hd).elim

end Setting

/-! ## Builds -/

namespace SchemaModel

theorem finished_eq {slots : List Slot} (h : ∀ i < slots.length, ∃ d, slots[i]? = some (.done d)) :
    slots = (finished slots).map Slot.done := by
  induction slots with
  | nil => rfl
  | cons slot rest ih =>
      obtain ⟨d, hd⟩ := h 0 (Nat.zero_lt_succ _)
      obtain rfl : slot = .done d := by simpa using hd
      show _ = Slot.done d :: (finished rest).map Slot.done
      rw [← ih fun i hi => by simpa using h (i + 1) (Nat.succ_lt_succ hi)]

/-- What a build that succeeds consists of: a run of it with every definition declared on the way,
one declaration for each definition, and the query interfaces behind them. -/
structure Built (model : SchemaModel) (sorted withQuery : Bool) (b : Build) (log : List Begun)
    (st : Progress) (queries : List Declaration) : Prop where
  run : (model.setting sorted).Run model {} (.build withQuery) model.start log
    (.declarations queries) st
  result : b = ⟨finished st.slots ++ queries, st.warnings⟩
  slots : st.slots = (finished st.slots).map Slot.done
  length : (finished st.slots).length = model.definitions.entries.length
  begun : ∀ {i : Nat}, i < model.definitions.entries.length → ∃ p, ⟨i, p⟩ ∈ log
  declared : ∀ e ∈ log, (model.setting sorted).Declared model st e

theorem built_of_ok {model : SchemaModel} {sorted withQuery : Bool} {b : Build}
    (h : model.build sorted withQuery = .ok b) :
    ∃ log st queries, Built model sorted withQuery b log st queries := by
  have houtcome := model.build_outcome sorted withQuery
  rw [h] at houtcome
  obtain ⟨log, queries, st, run, rfl⟩ := houtcome
  have ho := model.start_orderly sorted
  have hfin := run.finishes ho
  have hlen : st.slots.length = model.definitions.entries.length :=
    (ho.advance hfin.advances).length
  have hslots := finished_eq fun i hi => run.build_done ho (hlen ▸ hi)
  refine ⟨log, st, queries, run, rfl, hslots, ?_, fun {i} hi => ?_, run.declares ho⟩
  · rw [← hlen, hslots, List.length_map, ← hslots]
  · rcases (hfin.done_iff i).mp (run.build_done ho hi) with ⟨d, hd⟩ | hmem
    · cases model.start_pending hd
    · obtain ⟨e, he, rfl⟩ := List.mem_map.mp hmem
      exact ⟨e.place, he⟩

namespace Built

variable {model : SchemaModel} {sorted withQuery : Bool} {b : Build} {log : List Begun}
  {st : Progress} {queries : List Declaration}

theorem declarations_eq (h : Built model sorted withQuery b log st queries) :
    b.declarations = finished st.slots ++ queries := by
  rw [h.result]

/-- The declaration in a slot stands at the position of its definition. -/
theorem getElem?_of_done (h : Built model sorted withQuery b log st queries) {i : Nat}
    {d : Declaration} (hd : st.slots[i]? = some (.done d)) : b.declarations[i]? = some d := by
  rw [h.slots, List.getElem?_map, Option.map_eq_some_iff] at hd
  obtain ⟨e, he, heq⟩ := hd
  cases heq
  rw [h.declarations_eq, List.getElem?_append_left (List.getElem?_eq_some_iff.mp he).1, he]

/-- What became of a definition: a run over its root, and a declaration from what it found. -/
theorem definition (h : Built model sorted withQuery b log st queries) {i : Nat} {d : Definition}
    (hd : model.definitions.entries[i]? = some d) :
    ∃ p t st₁ log' st₂, ⟨i, p⟩ ∈ log ∧ (model.setting sorted).Orderly p.chain st₁ ∧
      (model.setting sorted).Run model p (.schema d.root) st₁ log' (.type t) st₂ ∧
      st.slots[i]? = some (.done ((model.setting sorted).declarationOf i d t)) ∧
      b.declarations[i]? = some ((model.setting sorted).declarationOf i d t) := by
  obtain ⟨p, hb⟩ := h.begun (List.getElem?_eq_some_iff.mp hd).1
  obtain ⟨d', t, st₁, log', st₂, entry, ho, run, hdone⟩ := h.declared _ hb
  have heq : some d' = some d := entry.symm.trans hd
  cases heq
  exact ⟨p, t, st₁, log', st₂, hb, ho, run, hdone, h.getElem?_of_done hdone⟩

theorem lt_or_interface (h : Built model sorted withQuery b log st queries) {i : Nat}
    {d : Declaration} (hd : b.declarations[i]? = some d) :
    i < model.definitions.entries.length ∨ ∃ o, d.body = .interface o := by
  rcases Nat.lt_or_ge i model.definitions.entries.length with hi | hi
  · exact .inl hi
  · rw [h.declarations_eq, List.getElem?_append_right (h.length ▸ hi)] at hd
    exact .inr (h.run.declared_interface d (List.mem_of_getElem? hd))

theorem names_eq (h : Built model sorted withQuery b log st queries) :
    (finished st.slots).map Declaration.name = (model.setting sorted).names := by
  have hnamed := named_takeNames model.definitions.entries
  refine List.ext_getElem? fun i => ?_
  cases hentry : model.definitions.entries[i]? with
  | none =>
      have hi := List.getElem?_eq_none_iff.mp hentry
      rw [List.getElem?_eq_none_iff.mpr, List.getElem?_eq_none_iff.mpr]
      · exact hnamed.length ▸ hi
      · rwa [List.length_map, h.length]
  | some d =>
      have hi := (List.getElem?_eq_some_iff.mp hentry).1
      obtain ⟨p, t, _, _, _, -, -, -, hdone, -⟩ := h.definition hentry
      rw [h.slots, List.getElem?_map, Option.map_eq_some_iff] at hdone
      obtain ⟨e, he, heq⟩ := hdone
      cases heq
      have hn : i < (model.setting sorted).names.length := hnamed.length ▸ hi
      rw [List.getElem?_map, he, List.getElem?_eq_getElem hn]
      simp [Setting.declarationOf, Setting.nameOf, List.getElem?_eq_getElem hn]

theorem nodup_names (h : Built model sorted withQuery b log st queries) :
    (b.declarations.map Declaration.name).Nodup := by
  have hnamed := named_takeNames model.definitions.entries
  have hqueries := h.run.names
  rw [h.declarations_eq, List.map_append, h.names_eq, List.nodup_append]
  refine ⟨hnamed.nodup, hqueries.nodup, ?_⟩
  rintro n hn _ hmem rfl
  obtain ⟨d, hd, rfl⟩ := List.mem_map.mp hmem
  refine hqueries.fresh d hd ?_
  rw [show model.start.taken = _ from hnamed.taken]
  exact List.mem_reverse.mpr hn

theorem position_of_name (h : Built model sorted withQuery b log st queries) {i j : Nat}
    {e : Declaration} (hi : i < model.definitions.entries.length) (he : b.declarations[j]? = some e)
    (hname : e.name = (model.setting sorted).nameOf i) : j = i := by
  obtain ⟨_, t, _, _, _, -, -, -, -, hd⟩ := h.definition (List.getElem?_eq_getElem hi)
  have hj := (List.getElem?_eq_some_iff.mp he).1
  refine (List.getElem?_inj (by simpa using hj) h.nodup_names).mp ?_
  rw [List.getElem?_map, List.getElem?_map, he, hd]
  simpa [Setting.declarationOf] using hname

end Built

end SchemaModel

end SwaggerTypes
