import Mathlib.Logic.Relation
import SwaggerTypes.Proofs.Composed
import SwaggerTypes.Proofs.Declarations
/-!
# Cycles of aliases

A type alias must not lean on itself: a name that stands in it outside of items, properties and index
signatures has to be expanded at once. A reference back to an open definition is cut when no part of
a value lies between, and kept as a name when one does. The name that is kept can still stand loosely
in its own declaration, if that declaration was begun behind the part. Such names are the only ones
that do not lead to declarations finished before, so every circle has one of them.
-/

namespace SwaggerTypes

/-! ## Loose names -/

mutual

/-- The names in a type outside of items, properties and index signatures. -/
def TypeExpr.looseNames : TypeExpr → List String
  | .named name => [name]
  | .union members | .intersection members => looseNamesAll members
  | .base _ | .array _ | .object _ | .literal _ => []
termination_by structural t => t

def TypeExpr.looseNamesAll : List TypeExpr → List String
  | [] => []
  | t :: ts => t.looseNames ++ looseNamesAll ts
termination_by structural ts => ts

end

def Declaration.looseNames (d : Declaration) : List String :=
  match d.body with
  | .interface _ => []
  | .synonym t => t.looseNames

/-- The declaration at one position is an alias that leans on the one at another position. -/
def LeansOn (ds : List Declaration) (i j : Nat) : Prop :=
  ∃ d e, ds[i]? = some d ∧ ds[j]? = some e ∧ e.name ∈ d.looseNames

/-- Whether a declaration leans on another one shows in the names alone. -/
theorem leansOn_of_table {ds : List Declaration} {table : List (String × List String)}
    (h : ds.map (fun d => (d.name, d.looseNames)) = table) {i j : Nat} {d e : String × List String}
    (hi : table[i]? = some d) (hj : table[j]? = some e) (hname : e.1 ∈ d.2) : LeansOn ds i j := by
  subst h
  rw [List.getElem?_map, Option.map_eq_some_iff] at hi hj
  obtain ⟨d, hd, rfl⟩ := hi
  obtain ⟨e, he, rfl⟩ := hj
  exact ⟨d, e, hd, he, hname⟩

def Circular (ds : List Declaration) : Prop := ∃ i, Relation.TransGen (LeansOn ds) i i

namespace TypeExpr

theorem mem_looseNamesAll {name : String} {ts : List TypeExpr} :
    name ∈ looseNamesAll ts ↔ ∃ t ∈ ts, name ∈ t.looseNames := by
  induction ts with
  | nil => simp [looseNamesAll]
  | cons t ts ih => simp [looseNamesAll, ih]

/-- What is said of all loose names of a type is said of its parts; objects have none. -/
theorem merged_looseNames (P : String → Prop) : Merged fun t => ∀ name ∈ t.looseNames, P name where
  base _ _ hn := nomatch hn
  union ms := by
    simp only [looseNames, mem_looseNamesAll]
    exact ⟨fun h t ht name hn => h name ⟨t, ht, hn⟩, fun h name ⟨t, ht, hn⟩ => h t ht name hn⟩
  intersection ms := by
    simp only [looseNames, mem_looseNamesAll]
    exact ⟨fun h t ht name hn => h name ⟨t, ht, hn⟩, fun h name ⟨t, ht, hn⟩ => h t ht name hn⟩
  merge _ _ _ _ _ hn := nomatch hn
  arrange _ _ _ _ hn := nomatch hn

theorem mem_looseNames_orNull {name : String} {t : TypeExpr} {nullable : Bool}
    (h : name ∈ (t.orNull nullable).looseNames) : name ∈ t.looseNames :=
  (merged_looseNames (· ∈ t.looseNames)).orNull (fun _ hn => hn) nullable name h

theorem looseNames_ofLiterals (values : List Literal) : (ofLiterals values).looseNames = [] :=
  List.eq_nil_iff_forall_not_mem.mpr <|
    (merged_looseNames fun _ => False).ofLiterals fun _ _ _ hn => nomatch hn

end TypeExpr

namespace Operand

def looseNames : Operand → List String
  | .type t => t.looseNames
  | .object _ => []

theorem looseNames_alone (o : Operand) : o.alone.looseNames = o.looseNames := by
  cases o <;> rfl

theorem mem_looseNames_combine {name : String} {sorted union : Bool} {os : List Operand}
    (h : name ∈ (combine sorted union os).looseNames) : ∃ o ∈ os, name ∈ o.looseNames := by
  have hmerged := TypeExpr.merged_looseNames fun name => ∃ o ∈ os, name ∈ o.looseNames
  refine hmerged.combine sorted union (fun o ho name hn => ?_) name h
  rw [looseNames_alone] at hn
  exact ⟨o, ho, hn⟩

end Operand

def Finding.looseNames : Finding → List String
  | .type t => t.looseNames
  | .operands os => os.flatMap Operand.looseNames
  | _ => []

namespace Setting

variable {s : Setting} {model : SchemaModel} {p : Place} {task : Task} {st st' : Progress}
  {log : List Begun} {finding : Finding}

/-! ## Where loose names lead -/

/-- A name that may stand loosely at a place: of a declaration that is done, or of one that is open
with a part of a value in between. -/
def Settled (s : Setting) (p : Place) (st : Progress) (name : String) : Prop :=
  ∃ i d, s.definitions.entries[i]? = some d ∧ name = s.nameOf i ∧
    (st.IsDone i ∨ ∃ frame ∈ p.chain, frame.pointer = d.pointer ∧ frame.depth < p.depth)

theorem Settled.advance {name : String} (h : s.Settled p st name) (hs : st.Advances st') :
    s.Settled p st' name := by
  obtain ⟨i, d, entry, rfl, hi⟩ := h
  exact ⟨i, d, entry, rfl, hi.imp_left hs.isDone⟩

/-- Every loose name that a task finds is settled where the task was started. -/
theorem Run.settled (h : s.Run model p task st log finding st') :
    s.Orderly p.chain st → (∀ i, task = .definition i → i < s.definitions.entries.length) →
      ∀ name ∈ finding.looseNames, s.Settled p st' name := by
  induction h with
  | any | unsupported =>
      intro _ _ name hn
      exact nomatch TypeExpr.mem_looseNames_orNull hn
  | primitive =>
      intro _ _ name hn
      exact nomatch TypeExpr.mem_looseNames_orNull hn
  | enum =>
      intro _ _ name hn
      have := TypeExpr.mem_looseNames_orNull hn
      rw [TypeExpr.looseNames_ofLiterals] at this
      cases this
  | array | objectSchema =>
      intro _ _ name hn
      exact nomatch TypeExpr.mem_looseNames_orNull hn
  | referenceSchema _ ih =>
      intro h _ name hn
      exact ih h (fun _ heq => nomatch heq) name (TypeExpr.mem_looseNames_orNull hn)
  | composite _ ih =>
      intro h _ name hn
      have hc := Operand.mem_looseNames_combine (TypeExpr.mem_looseNames_orNull hn)
      exact ih h (fun _ heq => nomatch heq) name (List.mem_flatMap.mpr hc)
  | members first second ih₁ ih₂ =>
      intro h _ name hn
      have h₁ := h.advance (first.finishes h).advances
      simp only [Finding.looseNames, List.flatMap_append, List.mem_append] at hn
      rcases hn with hn | hn
      · have hs := ih₁ h (fun _ heq => nomatch heq) name hn
        exact hs.advance (second.finishes h₁).advances
      · exact ih₂ h₁ (fun _ heq => nomatch heq) name hn
  | liftedMember _ _ ih =>
      intro h _ name hn
      exact ih h (fun _ heq => nomatch heq) name hn
  | plainMember _ _ ih =>
      intro h _ name hn
      simp only [Finding.looseNames, List.flatMap_cons, List.flatMap_nil, List.append_nil] at hn
      exact ih h (fun _ heq => nomatch heq) name hn
  | rootReference resolved _ _ ih =>
      intro h _ name hn
      obtain ⟨d, _, entry, -⟩ := DefinitionTable.resolve_ok resolved
      have hi := (List.getElem?_eq_some_iff.mp entry).1
      exact ih h (fun i heq => by cases heq; exact hi) name hn
  | deepReference _ _ entered _ ih =>
      intro h _ name hn
      obtain ⟨i, d, entry, rfl, hi⟩ := ih (h.enter entered) (fun _ heq => nomatch heq) name hn
      refine ⟨i, d, entry, rfl, hi.imp_right ?_⟩
      obtain ⟨-, rfl⟩ := Chain.enter_entered entered
      rintro ⟨frame, hf, hp, hlt⟩
      rcases List.mem_cons.mp hf with rfl | hf
      · exact absurd hlt (Nat.lt_irrefl _)
      · exact ⟨frame, hf, hp, hlt⟩
  | knownDefinition known =>
      intro h hi name hn
      obtain rfl := List.mem_singleton.mp hn
      have hlt := hi _ rfl
      refine ⟨_, _, List.getElem?_eq_getElem hlt, rfl, .inl ?_⟩
      refine known.resolve_right fun hnone => ?_
      exact absurd (List.getElem?_eq_none_iff.mp hnone) (Nat.not_le_of_lt hlt)
  | newDefinition unfinished entry entered run ih =>
      intro h _ name hn
      obtain rfl := List.mem_singleton.mp hn
      have hfin := (Run.newDefinition unfinished entry entered run).finishes h
      exact ⟨_, _, entry, rfl, .inl ((hfin.done_iff _).mpr (.inr List.mem_cons_self))⟩
  | guardedCycle _ entry cycle =>
      intro _ _ name hn
      obtain rfl := List.mem_singleton.mp hn
      obtain ⟨frame, hf, hp, hlt⟩ := Chain.enter_cycle cycle
      exact ⟨_, _, entry, rfl, .inr ⟨frame, hf, hp, of_decide_eq_true hlt.symm⟩⟩
  | _ => exact fun _ _ name hn => nomatch hn

/-! ## Finished declarations lean on earlier ones -/

/-- The declaration of one definition was begun inside that of another, with a part of a value in
between. -/
def BegunInside (s : Setting) (log : List Begun) (i j : Nat) : Prop :=
  ∃ b ∈ log, b.index = i ∧ ∃ d, s.definitions.entries[j]? = some d ∧
    ∃ frame ∈ b.place.chain, frame.pointer = d.pointer ∧ frame.depth < b.place.depth

/-- The declarations that are done can be ranked: each loose name of one leads to a declaration of
lower rank, unless the one was begun inside the other. -/
def Ranked (s : Setting) (log : List Begun) (st : Progress) (rank : Nat → Nat) : Prop :=
  ∀ i d, st.slots[i]? = some (.done d) → ∀ name ∈ d.looseNames,
    ∃ j < s.definitions.entries.length, name = s.nameOf j ∧
      (s.BegunInside log i j ∨ (st.IsDone j ∧ rank j < rank i))

def Rankable (s : Setting) (log : List Begun) (st : Progress) : Prop :=
  ∃ rank bound, s.Ranked log st rank ∧ ∀ i, st.IsDone i → rank i < bound

theorem Rankable.of_done {full : List Begun} (h : s.Rankable full st)
    (hs : ∀ (i : Nat) (d : Declaration),
      st'.slots[i]? = some (.done d) ↔ st.slots[i]? = some (.done d)) :
    s.Rankable full st' := by
  simpa only [Rankable, Ranked, Progress.IsDone, hs] using h

theorem Rankable.begin {full : List Begun} (h : s.Rankable full st) {i : Nat}
    (unfinished : ¬ st.IsDone i) : s.Rankable full (st.setSlot i .inProgress) := by
  refine h.of_done fun j d => ?_
  by_cases hij : i = j
  · subst hij
    constructor
    · intro hd
      simp [Progress.setSlot, List.getElem?_set] at hd
    · exact fun hd => absurd ⟨d, hd⟩ unfinished
  · rw [Progress.slots_setSlot_ne _ hij]

theorem looseNames_declarationOf {name : String} {i : Nat} {d : Definition} {t : TypeExpr}
    (h : name ∈ (s.declarationOf i d t).looseNames) : name ∈ t.looseNames := by
  unfold declarationOf DeclarationBody.ofType Declaration.looseNames at h
  cases hi : d.root.isInterface <;> cases t <;> simp_all

/-- The declaration that has just been finished is given the highest rank. -/
theorem Rankable.finish {full : List Begun} {b : Begun} {d : Definition} {t : TypeExpr}
    (h : s.Rankable full st) (hb : b ∈ full) (hslot : st.slots[b.index]? = some .inProgress)
    (hloose : ∀ name ∈ t.looseNames, s.Settled b.place st name) :
    s.Rankable full (st.setSlot b.index (.done (s.declarationOf b.index d t))) := by
  obtain ⟨rank, bound, hrank, hbound⟩ := h
  have hself := Progress.slots_setSlot_self (.done (s.declarationOf b.index d t))
    (List.getElem?_eq_some_iff.mp hslot).1
  have hne : ∀ {j}, st.IsDone j → b.index ≠ j := by
    rintro j ⟨e, he⟩ rfl
    rw [hslot] at he
    cases he
  have hdone : ∀ {j}, st.IsDone j →
      (st.setSlot b.index (.done (s.declarationOf b.index d t))).IsDone j := by
    rintro j ⟨e, he⟩
    exact ⟨e, (Progress.slots_setSlot_ne _ (hne ⟨e, he⟩)).trans he⟩
  refine ⟨fun j => if b.index = j then bound else rank j, bound + 1, ?_, ?_⟩
  · intro i e hi name hn
    by_cases hbi : b.index = i
    · subst hbi
      rw [hself, Option.some.injEq, Slot.done.injEq] at hi
      subst hi
      obtain ⟨j, d', entry, rfl, hj⟩ := hloose name (looseNames_declarationOf hn)
      refine ⟨j, (List.getElem?_eq_some_iff.mp entry).1, rfl, ?_⟩
      rcases hj with hj | hj
      · refine .inr ⟨hdone hj, ?_⟩
        simpa [hne hj] using hbound j hj
      · exact .inl ⟨b, hb, rfl, d', entry, hj⟩
    · rw [Progress.slots_setSlot_ne _ hbi] at hi
      obtain ⟨j, hj, rfl, hlate | ⟨hjd, hlt⟩⟩ := hrank i e hi name hn
      · exact ⟨j, hj, rfl, .inl hlate⟩
      · refine ⟨j, hj, rfl, .inr ⟨hdone hjd, ?_⟩⟩
        simpa [hne hjd, hbi] using hlt
  · rintro i ⟨e, he⟩
    by_cases hbi : b.index = i
    · simp [hbi]
    · rw [Progress.slots_setSlot_ne _ hbi] at he
      simpa [hbi] using Nat.lt_succ_of_lt (hbound i ⟨e, he⟩)

/-- A run keeps the finished declarations rankable. -/
theorem Run.rankable {full : List Begun} (h : s.Run model p task st log finding st')
    (ho : s.Orderly p.chain st) : log ⊆ full → s.Rankable full st → s.Rankable full st' := by
  refine Run.orderly_induction
    (R := fun st log st' => log ⊆ full → s.Rankable full st → s.Rankable full st')
    ?same ?takeName ?append ?declaration h ho
  case same => exact fun hs _ hr => hr.of_done fun _ _ => by rw [hs]
  case takeName => exact fun ih hsub hr => ih hsub (hr.of_done fun _ _ => Iff.rfl)
  case append =>
    intro st st₁ st₂ log₁ log₂ _ h₁ h₂ hsub hr
    rw [List.append_subset] at hsub
    exact h₂ hsub.2 (h₁ hsub.1 hr)
  case declaration =>
    intro st st₁ b log d t entry ho run hfin ih hsub hr
    rw [List.cons_subset] at hsub
    have hpending := hfin.pending b.index List.mem_cons_self
    have hslot := Progress.slots_setSlot_self .inProgress
      (List.getElem?_eq_some_iff.mp hpending).1
    have hbegin := hr.begin (Progress.not_isDone_of_eq hpending (by simp))
    exact (ih hsub.2 hbegin).finish hsub.1 ((run.finishes ho).advances.inProgress hslot)
      (run.settled ho fun _ heq => nomatch heq)

end Setting

/-! ## Circles -/

namespace SchemaModel

variable {model : SchemaModel} {sorted withQuery : Bool} {b : Build} {log : List Begun}
  {st : Progress} {queries : List Declaration}

namespace Built

/-- There is a ranking by which every alias leans on aliases of lower rank, or on one that it was
begun inside of. -/
theorem ranking (h : Built model sorted withQuery b log st queries) :
    ∃ rank : Nat → Nat, ∀ i j, LeansOn b.declarations i j →
      (model.setting sorted).BegunInside log i j ∨ rank j < rank i := by
  have hstart : (model.setting sorted).Rankable log model.start := by
    refine ⟨fun _ => 0, 1, fun i d hd => ?_, fun _ _ => Nat.zero_lt_one⟩
    cases model.start_pending hd
  obtain ⟨rank, -, hrank, -⟩ :=
    h.run.rankable (model.start_orderly sorted) (List.Subset.refl _) hstart
  refine ⟨rank, ?_⟩
  rintro i j ⟨d, e, hd, he, hname⟩
  rcases h.lt_or_interface hd with hi | ⟨o, ho⟩
  · obtain ⟨_, t, _, _, _, -, -, -, hdone, hd'⟩ := h.definition (List.getElem?_eq_getElem hi)
    rw [hd, Option.some.injEq] at hd'
    subst hd'
    obtain ⟨k, hk, hnk, hlate⟩ := hrank i _ hdone e.name hname
    obtain rfl := h.position_of_name hk he hnk
    exact hlate.imp_right And.right
  · rw [Declaration.looseNames, ho] at hname
    cases hname

end Built

/-- A build that succeeds has a circle of aliases exactly when some alias leans on a declaration
that it was begun inside of, behind a part of a value, and that comes back to it. All other circles
have been cut. -/
theorem circular_iff_begun_inside (h : model.build sorted withQuery = .ok b) :
    ∃ log st queries, Built model sorted withQuery b log st queries ∧
      (Circular b.declarations ↔ ∃ i j, (model.setting sorted).BegunInside log i j ∧
        LeansOn b.declarations i j ∧ Relation.ReflTransGen (LeansOn b.declarations) j i) := by
  obtain ⟨log, st, queries, hb⟩ := built_of_ok h
  refine ⟨log, st, queries, hb, ?_, ?_⟩
  · rintro ⟨i, hcircle⟩
    obtain ⟨rank, hrank⟩ := hb.ranking
    by_contra hnone
    -- along the circle every step goes down
    have hdown : ∀ {k l}, Relation.TransGen (LeansOn b.declarations) k l →
        Relation.ReflTransGen (LeansOn b.declarations) l k → rank l < rank k := by
      intro k l hkl
      induction hkl with
      | single hstep =>
          intro hback
          exact (hrank _ _ hstep).resolve_left fun hin => hnone ⟨_, _, hin, hstep, hback⟩
      | tail hpath hstep ih =>
          intro hback
          have hlast := (hrank _ _ hstep).resolve_left fun hin =>
            hnone ⟨_, _, hin, hstep, hback.trans hpath.to_reflTransGen⟩
          exact Nat.lt_trans hlast (ih (.head hstep hback))
    exact Nat.lt_irrefl _ (hdown hcircle .refl)
  · rintro ⟨i, j, -, hstep, hback⟩
    exact ⟨i, .head' hstep hback⟩

/-- Two aliases that lean on each other: `A` is a list of `B` or `B` itself, and `B` is `A`. The list
comes first, so `B` is begun behind an item of `A`. -/
def mutualAliases : SchemaModel where
  definitions :=
    { entries :=
        [⟨.definitions, "A", .bare <| .composite .anyOf
            [.bare (.array (.bare (.reference "#/definitions/B"))),
              .bare (.reference "#/definitions/B")]⟩,
          ⟨.definitions, "B", .bare (.reference "#/definitions/A")⟩]
      nodup := by decide }

theorem mutualAliases_names :
    (mutualAliases.build false false).toOption.map
      (fun b => b.declarations.map fun d => (d.name, d.looseNames)) =
        some [("A", ["B"]), ("B", ["A"])] := by
  decide +kernel

theorem mutualAliases_circle : ∃ b, mutualAliases.build false false = .ok b ∧
    Relation.TransGen (LeansOn b.declarations) 0 0 := by
  obtain ⟨b, hbuild, htable⟩ := eq_ok_of_toOption_map mutualAliases_names
  refine ⟨b, hbuild, .tail (.single ?_) (b := 1) ?_⟩
  · exact leansOn_of_table htable rfl rfl (by simp)
  · exact leansOn_of_table htable rfl rfl (by simp)

theorem circular_mutualAliases : ∃ b, mutualAliases.build false false = .ok b ∧
    Circular b.declarations := by
  obtain ⟨b, hb, hcircle⟩ := mutualAliases_circle
  exact ⟨b, hb, 0, hcircle⟩

theorem mutualAliases_begun_inside : ∃ b log st queries,
    mutualAliases.build false false = .ok b ∧ Built mutualAliases false false b log st queries ∧
      ∃ i j, (mutualAliases.setting false).BegunInside log i j ∧ LeansOn b.declarations i j ∧
        Relation.ReflTransGen (LeansOn b.declarations) j i := by
  obtain ⟨b, hb, hcircle⟩ := mutualAliases_circle
  obtain ⟨log, st, queries, hbuilt, hiff⟩ := circular_iff_begun_inside hb
  exact ⟨b, log, st, queries, hb, hbuilt, hiff.mp ⟨0, hcircle⟩⟩

end SchemaModel

end SwaggerTypes
