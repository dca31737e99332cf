import SwaggerTypes.Proofs.Resolution
import SwaggerTypes.Proofs.Run
/-!
# Slots

While a run goes on, a slot is in progress only if the pointer of its definition is open. So a
declaration is begun only where its slot is pending, it is done when the run ends, and nothing else
changes a slot: a definition is declared once at most.
-/

namespace SwaggerTypes

namespace Progress

/-- Slots that were not pending are as before, and those that were are as before or done. -/
def Advances (st st' : Progress) : Prop :=
  ∀ i : Nat, st'.slots[i]? = st.slots[i]? ∨ (st.slots[i]? = some .pending ∧ st'.IsDone i)

theorem Advances.of_slots {st st' : Progress} (h : st'.slots = st.slots) : st.Advances st' :=
  fun _ => .inl (by rw [h])

theorem Advances.trans {st st₁ st₂ : Progress} (h : st.Advances st₁) (h' : st₁.Advances st₂) :
    st.Advances st₂ := by
  intro i
  rcases h' i with h₂ | ⟨hp, hd⟩
  · rcases h i with h₁ | ⟨hp, d, hd⟩
    · exact .inl (h₂.trans h₁)
    · exact .inr ⟨hp, d, h₂.trans hd⟩
  · rcases h i with h₁ | ⟨hp', -⟩
    · exact .inr ⟨h₁ ▸ hp, hd⟩
    · exact .inr ⟨hp', hd⟩

theorem Advances.done {st st' : Progress} (h : st.Advances st') {i : Nat} {d : Declaration}
    (hd : st.slots[i]? = some (.done d)) : st'.slots[i]? = some (.done d) := by
  rcases h i with h | ⟨hp, -⟩
  · exact h.trans hd
  · rw [hd] at hp
    cases hp

theorem Advances.inProgress {st st' : Progress} (h : st.Advances st') {i : Nat}
    (hi : st.slots[i]? = some .inProgress) : st'.slots[i]? = some .inProgress := by
  rcases h i with h | ⟨hp, -⟩
  · exact h.trans hi
  · rw [hi] at hp
    cases hp

theorem Advances.isDone {st st' : Progress} (h : st.Advances st') {i : Nat} :
    st.IsDone i → st'.IsDone i
  | ⟨d, hd⟩ => ⟨d, h.done hd⟩

theorem Advances.of_not_done {st st' : Progress} (h : st.Advances st') {i : Nat}
    (hd : ¬ st'.IsDone i) : st'.slots[i]? = st.slots[i]? :=
  (h i).resolve_right fun h => hd h.2

theorem Advances.length_eq {st st' : Progress} (h : st.Advances st') :
    st'.slots.length = st.slots.length := by
  have hnone : ∀ i : Nat, st'.slots[i]? = none ↔ st.slots[i]? = none := by
    intro i
    rcases h i with h | ⟨hp, d, hd⟩
    · rw [h]
    · rw [hp, hd]
      simp
  simp only [List.getElem?_eq_none_iff] at hnone
  exact Nat.le_antisymm ((hnone _).mpr (Nat.le_refl _)) ((hnone _).mp (Nat.le_refl _))

theorem not_isDone_of_eq {st : Progress} {i : Nat} {slot : Slot} (h : st.slots[i]? = some slot)
    (hs : ∀ d, slot ≠ .done d) : ¬ st.IsDone i := by
  rintro ⟨d, hd⟩
  rw [h, Option.some.injEq] at hd
  exact hs d hd

theorem slots_setSlot_self {st : Progress} {i : Nat} (slot : Slot) (h : i < st.slots.length) :
    (st.setSlot i slot).slots[i]? = some slot := by
  simp [setSlot, h]

theorem slots_setSlot_ne {st : Progress} {i j : Nat} (slot : Slot) (h : i ≠ j) :
    (st.setSlot i slot).slots[j]? = st.slots[j]? := by
  simp [setSlot, h]

end Progress

/-- What a part of a run does to the slots: the declarations in `log` were pending, are done
afterwards, and no others have become so; none is begun twice. -/
structure Progress.Finishes (st : Progress) (log : List Begun) (st' : Progress) : Prop where
  advances : st.Advances st'
  pending : ∀ i ∈ log.map Begun.index, st.slots[i]? = some .pending
  done_iff : ∀ i, st'.IsDone i ↔ st.IsDone i ∨ i ∈ log.map Begun.index
  nodup : (log.map Begun.index).Nodup

namespace Progress.Finishes

theorem nil {st st' : Progress} (h : st'.slots = st.slots) : st.Finishes [] st' where
  advances := .of_slots h
  pending := by simp
  done_iff := by simp [IsDone, h]
  nodup := List.nodup_nil

theorem append {st st₁ st₂ : Progress} {log₁ log₂ : List Begun} (h₁ : st.Finishes log₁ st₁)
    (h₂ : st₁.Finishes log₂ st₂) : st.Finishes (log₁ ++ log₂) st₂ where
  advances := h₁.advances.trans h₂.advances
  pending := by
    intro i hi
    rw [List.map_append, List.mem_append] at hi
    rcases hi with hi | hi
    · exact h₁.pending i hi
    · have hp := h₂.pending i hi
      rw [← h₁.advances.of_not_done (not_isDone_of_eq hp (by simp)), hp]
  done_iff := by
    intro i
    rw [h₂.done_iff, h₁.done_iff, List.map_append, List.mem_append, or_assoc]
  nodup := by
    rw [List.map_append, List.nodup_append]
    refine ⟨h₁.nodup, h₂.nodup, ?_⟩
    rintro i hi _ hj rfl
    exact not_isDone_of_eq (h₂.pending i hj) (by simp) ((h₁.done_iff i).mpr (.inr hi))

theorem of_takeName {st st' : Progress} {log : List Begun} {base pointer : String}
    (h : (st.takeName base pointer).Finishes log st') : st.Finishes log st' := by
  have hn : st.Finishes [] (st.takeName base pointer) := .nil rfl
  exact hn.append h

/-- A declaration is done after its slot was in progress for the time between. -/
theorem declaration {st st₁ : Progress} {log : List Begun} {b : Begun} {d : Declaration}
    (hp : st.slots[b.index]? = some .pending)
    (h : (st.setSlot b.index .inProgress).Finishes log st₁) :
    st.Finishes (b :: log) (st₁.setSlot b.index (.done d)) := by
  have hlt : b.index < st.slots.length := (List.getElem?_eq_some_iff.mp hp).1
  have hin := slots_setSlot_self .inProgress hlt
  have hdone := slots_setSlot_self (.done d)
    (List.getElem?_eq_some_iff.mp (h.advances.inProgress hin)).1
  have hother : ∀ {j}, b.index ≠ j →
      ((st₁.setSlot b.index (.done d)).IsDone j ↔ st₁.IsDone j) ∧
        ((st.setSlot b.index .inProgress).IsDone j ↔ st.IsDone j) := by
    intro j hj
    simp only [IsDone, slots_setSlot_ne _ hj, and_self]
  have hnot : b.index ∉ log.map Begun.index := by
    intro hi
    have := h.pending _ hi
    rw [hin] at this
    cases this
  refine ⟨?_, ?_, ?_, ?_⟩
  · intro j
    by_cases hj : b.index = j
    · subst hj
      exact .inr ⟨hp, d, hdone⟩
    · rw [slots_setSlot_ne _ hj, (hother hj).1]
      simpa only [slots_setSlot_ne _ hj] using h.advances j
  · intro j hmem
    rw [List.map_cons, List.mem_cons] at hmem
    rcases hmem with rfl | hmem
    · exact hp
    · have hj : b.index ≠ j := fun e => hnot (e ▸ hmem)
      simpa only [slots_setSlot_ne _ hj] using h.pending j hmem
  · intro j
    rw [List.map_cons, List.mem_cons]
    by_cases hj : b.index = j
    · subst hj
      exact ⟨fun _ => .inr (.inl rfl), fun _ => ⟨d, hdone⟩⟩
    · rw [(hother hj).1, h.done_iff, (hother hj).2]
      simp [Ne.symm hj]
  · rw [List.map_cons, List.nodup_cons]
    exact ⟨hnot, h.nodup⟩

end Progress.Finishes

namespace Setting

variable {s : Setting} {model : SchemaModel}

/-- Every definition has a slot, and one in progress only while its pointer is open. -/
structure Orderly (s : Setting) (chain : Chain) (st : Progress) : Prop where
  length : st.slots.length = s.definitions.entries.length
  opened : ∀ {i : Nat} {d : Definition}, st.slots[i]? = some .inProgress →
    s.definitions.entries[i]? = some d → d.pointer ∈ chain.pointers

namespace Orderly

variable {chain : Chain} {st st' : Progress}

theorem advance (h : s.Orderly chain st) (hs : st.Advances st') : s.Orderly chain st' where
  length := hs.length_eq.trans h.length
  opened := by
    intro i d hi hd
    have hnot := Progress.not_isDone_of_eq hi (by simp)
    exact h.opened ((hs.of_not_done hnot).symm.trans hi) hd

theorem takeName {base pointer : String} (h : s.Orderly chain st) :
    s.Orderly chain (st.takeName base pointer) :=
  ⟨h.length, h.opened⟩

theorem pending (h : s.Orderly chain st) {i : Nat} {d : Definition}
    (entry : s.definitions.entries[i]? = some d) (hd : ¬ st.IsDone i)
    (hnew : d.pointer ∉ chain.pointers) : st.slots[i]? = some .pending := by
  have hi : i < st.slots.length := h.length ▸ (List.getElem?_eq_some_iff.mp entry).1
  rcases hslot : st.slots[i] with _ | _ | declaration
  · rw [List.getElem?_eq_getElem hi, hslot]
  · exact absurd (h.opened (by rw [List.getElem?_eq_getElem hi, hslot]) entry) hnew
  · exact absurd ⟨declaration, by rw [List.getElem?_eq_getElem hi, hslot]⟩ hd

/-- Inside a declaration its own slot is in progress. -/
theorem openDefinition (h : s.Orderly chain st) {i : Nat} {d : Definition} {opened : Chain} {depth : Nat}
    (entry : s.definitions.entries[i]? = some d)
    (entered : chain.enter d.pointer depth = .entered opened) :
    s.Orderly opened (st.setSlot i .inProgress) := by
  obtain ⟨-, rfl⟩ := Chain.enter_entered entered
  refine ⟨by simpa [Progress.setSlot] using h.length, ?_⟩
  intro j e hj he
  rw [Chain.pointers_cons, List.mem_cons]
  by_cases hij : i = j
  · subst hij
    rw [entry, Option.some.injEq] at he
    exact .inl (he ▸ rfl)
  · rw [Progress.slots_setSlot_ne _ hij] at hj
    exact .inr (h.opened hj he)

theorem enter (h : s.Orderly chain st) {pointer : String} {opened : Chain} {depth : Nat}
    (entered : chain.enter pointer depth = .entered opened) : s.Orderly opened st := by
  obtain ⟨-, rfl⟩ := Chain.enter_entered entered
  exact ⟨h.length, fun hi hd => List.mem_cons_of_mem _ (h.opened hi hd)⟩

end Orderly

/-- A run declares what it begins, and nothing else. -/
theorem Run.finishes {p : Place} {task : Task} {st st' : Progress} {log : List Begun}
    {finding : Finding} (h : s.Run model p task st log finding st') :
    s.Orderly p.chain st → st.Finishes log st' := by
  induction h with
  | any | primitive | enum | unsupported | noProperties | closed | unrestricted | noMembers
  | skippedMember | recursiveReference | knownDefinition | guardedCycle | aliasCycle
  | noDefinitions | noParameters | noOperations => exact fun _ => .nil rfl
  | array _ ih | objectSchema _ ih | referenceSchema _ ih | composite _ ih | typed _ ih
  | liftedMember _ _ ih | objectMember _ _ ih | plainMember _ _ ih | rootReference _ _ _ ih
  | plainOperation _ _ _ ih | build _ ih => exact ih
  | deepReference _ _ entered _ ih => exact fun h => ih (h.enter entered)
  | object _ _ ih₁ ih₂ | properties _ _ ih₁ ih₂ | members _ _ ih₁ ih₂ | definitions _ _ ih₁ ih₂
  | parameters _ _ ih₁ ih₂ | queryBuild _ _ _ ih₁ ih₂ =>
      intro h
      have h₁ := ih₁ h
      exact h₁.append (ih₂ (h.advance h₁.advances))
  | queryOperation _ _ _ _ ih₁ ih₂ =>
      intro h
      have h₁ := ih₁ h
      exact h₁.append (ih₂ (h.advance h₁.advances).takeName).of_takeName
  | newDefinition unfinished entry entered _ ih =>
      intro h
      have hp := h.pending entry unfinished (Chain.enter_entered entered).1
      exact .declaration hp (ih (h.openDefinition entry entered))

/-- What holds of the slots along every run from an orderly progress: it is enough to look at steps
that leave the slots alone, at names taken in between, at one part after another, and at a declaration
around a run over the root of its definition. -/
theorem Run.orderly_induction {R : Progress → List Begun → Progress → Prop}
    (same : ∀ {st st' : Progress}, st'.slots = st.slots → R st [] st')
    (takeName : ∀ {st st' : Progress} {log : List Begun} {base pointer : String},
      R (st.takeName base pointer) log st' → R st log st')
    (append : ∀ {st st₁ st₂ : Progress} {log₁ log₂ : List Begun}, st₁.Finishes log₂ st₂ →
      R st log₁ st₁ → R st₁ log₂ st₂ → R st (log₁ ++ log₂) st₂)
    (declaration : ∀ {st st₁ : Progress} {b : Begun} {log : List Begun} {d : Definition}
      {t : TypeExpr}, s.definitions.entries[b.index]? = some d →
      s.Orderly b.place.chain (st.setSlot b.index .inProgress) →
      s.Run model b.place (.schema d.root) (st.setSlot b.index .inProgress) log (.type t) st₁ →
      st.Finishes (b :: log) (st₁.setSlot b.index (.done (s.declarationOf b.index d t))) →
      R (st.setSlot b.index .inProgress) log st₁ →
      R st (b :: log) (st₁.setSlot b.index (.done (s.declarationOf b.index d t))))
    {p : Place} {task : Task} {st st' : Progress} {log : List Begun} {finding : Finding}
    (h : s.Run model p task st log finding st') : s.Orderly p.chain st → R st log st' := by
  induction h with
  | any | primitive | enum | unsupported | noProperties | closed | unrestricted | noMembers
  | skippedMember | recursiveReference | knownDefinition | guardedCycle | aliasCycle
  | noDefinitions | noParameters | noOperations => exact fun _ => same rfl
  | array _ ih | objectSchema _ ih | referenceSchema _ ih | composite _ ih | typed _ ih
  | liftedMember _ _ ih | objectMember _ _ ih | plainMember _ _ ih | rootReference _ _ _ ih
  | plainOperation _ _ _ ih | build _ ih => exact ih
  | deepReference _ _ entered _ ih => exact fun h => ih (h.enter entered)
  | object first second ih₁ ih₂ | properties first second ih₁ ih₂ | members first second ih₁ ih₂
  | definitions first second ih₁ ih₂ | parameters first second ih₁ ih₂
  | queryBuild _ first second ih₁ ih₂ =>
      intro h
      have h₁ := h.advance (first.finishes h).advances
      exact append (second.finishes h₁) (ih₁ h) (ih₂ h₁)
  | queryOperation _ _ first second ih₁ ih₂ =>
      intro h
      have h₁ := h.advance (first.finishes h).advances
      have hfin := second.finishes h₁.takeName
      exact append hfin.of_takeName (ih₁ h) (takeName (ih₂ h₁.takeName))
  | newDefinition unfinished entry entered run ih =>
      intro h
      have hopen := h.openDefinition entry entered
      exact declaration entry hopen run
        ((Run.newDefinition unfinished entry entered run).finishes h) (ih hopen)

end Setting

end SwaggerTypes
