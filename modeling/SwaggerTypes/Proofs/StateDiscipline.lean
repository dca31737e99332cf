import SwaggerTypes.Proofs.AddressableDefinitions
import SwaggerTypes.Proofs.RoutineAgreement
/-!
# The discipline of the state

Whatever a routine does and however it ends, it leaves the place as it was. While nothing has failed, the
slots in progress are those of the definitions whose pointers are open, no pointer is open twice, and the
depths at which they were opened ascend up to the depth at hand. A declaration that is done stays as it
is. All this holds whenever a routine is entered and whenever one has answered; in between a definition
is opened first and then marked.
-/

namespace SwaggerTypes

/-! ## States -/

/-- The open references ascend: no pointer is open twice, and each was opened at a depth that is at least
that of those around it and at most the one at hand. -/
structure Chain.Ascends (chain : Chain) (depth : Nat) : Prop where
  nodup : chain.pointers.Nodup
  pairwise : chain.Pairwise fun inner outer => outer.depth ≤ inner.depth
  depth_le : ∀ frame ∈ chain, frame.depth ≤ depth

/-- There is a slot for each definition, and those in progress are the ones of open definitions. -/
structure DefinitionTable.Marks (table : DefinitionTable) (chain : Chain) (slots : List Slot) :
    Prop where
  length : slots.length = table.entries.length
  inProgress_iff : ∀ {i : Nat} {d : Definition}, table.entries[i]? = some d →
    (slots[i]? = some .inProgress ↔ d.pointer ∈ chain.pointers)

structure Disciplined (table : DefinitionTable) (p : Place) (st : Progress) : Prop where
  ascends : p.chain.Ascends p.depth
  marks : table.Marks p.chain st.slots

def Progress.KeepsDone (st st' : Progress) : Prop :=
  ∀ (i : Nat) (d : Declaration), st.slots[i]? = some (.done d) → st'.slots[i]? = some (.done d)

/-- All states written down are disciplined, and declarations that are done in one of them stay as they
are up to the state at hand. -/
structure Synthesizer.Recorded (table : DefinitionTable) (m : Synthesizer) : Prop where
  disciplined : ∀ x ∈ m.history, Disciplined table x.1 x.2
  kept : m.history.Pairwise fun earlier later => earlier.2.KeepsDone later.2
  current : ∀ x ∈ m.history, x.2.KeepsDone m.toProgress

structure Synthesizer.Sound (table : DefinitionTable) (m : Synthesizer) : Prop where
  disciplined : Disciplined table m.toPlace m.toProgress
  recorded : m.Recorded table

theorem Progress.KeepsDone.of_slots {st st' : Progress} (h : st'.slots = st.slots) :
    st.KeepsDone st' := fun _ _ hd => h ▸ hd

theorem Progress.KeepsDone.trans {st st₁ st₂ : Progress} (h : st.KeepsDone st₁)
    (h' : st₁.KeepsDone st₂) : st.KeepsDone st₂ := fun i d hd => h' i d (h i d hd)

theorem Progress.KeepsDone.setSlot {st : Progress} {i : Nat} {slot : Slot} (h : ¬ st.IsDone i) :
    st.KeepsDone (st.setSlot i slot) := by
  intro j d hd
  have hij : i ≠ j := fun heq => h ⟨d, heq ▸ hd⟩
  rwa [slots_setSlot_ne slot hij]

namespace Chain.Ascends

variable {chain opened : Chain} {pointer : String} {depth depth' : Nat}

theorem mono (h : chain.Ascends depth) (hle : depth ≤ depth') : chain.Ascends depth' :=
  ⟨h.nodup, h.pairwise, fun frame hframe => Nat.le_trans (h.depth_le frame hframe) hle⟩

theorem enter (h : chain.Ascends depth) (entered : chain.enter pointer depth = .entered opened) :
    opened.Ascends depth := by
  obtain ⟨hnew, rfl⟩ := Chain.enter_entered entered
  refine ⟨List.nodup_cons.mpr ⟨hnew, h.nodup⟩, List.pairwise_cons.mpr ⟨h.depth_le, h.pairwise⟩, ?_⟩
  intro frame hframe
  rcases List.mem_cons.mp hframe with rfl | hframe
  · exact Nat.le_refl _
  · exact h.depth_le frame hframe

end Chain.Ascends

namespace DefinitionTable

variable {table : DefinitionTable} {chain opened : Chain} {slots : List Slot} {pointer : String}
  {depth : Nat}

/-- A reference into the middle of a definition does not have the pointer of a definition. -/
theorem pointer_ne_of_deep {target : Target} (resolved : table.resolve pointer = .ok target)
    (deep : target.isRoot = false) (d : Definition) : d.pointer ≠ target.pointer := by
  obtain ⟨e, way, -, -, hroot, hpointer⟩ := resolve_found resolved
  intro heq
  have hsegments : d.home.segments ++ d.name :: [] = e.home.segments ++ e.name :: way :=
    Pointer.render_inj (by simp) (heq.trans hpointer)
  have hsplit := congrArg Home.split? hsegments
  rw [Home.split?_append, Home.split?_append, Option.some.injEq, Prod.mk.injEq,
    Prod.mk.injEq] at hsplit
  rw [← hsplit.2.2, deep] at hroot
  cases hroot

/-- A reference that is no definition's makes no difference to the slots. -/
theorem marks_enter_iff (hother : ∀ d ∈ table.entries, d.pointer ≠ pointer)
    (entered : chain.enter pointer depth = .entered opened) (slots : List Slot) :
    table.Marks opened slots ↔ table.Marks chain slots := by
  obtain ⟨-, rfl⟩ := Chain.enter_entered entered
  have hmem : ∀ {i : Nat} {d : Definition}, table.entries[i]? = some d →
      (d.pointer ∈ Chain.pointers (⟨pointer, depth⟩ :: chain) ↔ d.pointer ∈ chain.pointers) := by
    intro i d entry
    rw [Chain.pointers_cons, List.mem_cons]
    exact or_iff_right (hother d (List.mem_of_getElem? entry))
  exact ⟨fun h => ⟨h.length, fun entry => (h.inProgress_iff entry).trans (hmem entry)⟩,
    fun h => ⟨h.length, fun entry => (h.inProgress_iff entry).trans (hmem entry).symm⟩⟩

theorem pointer_ne_of_ne {i j : Nat} {d e : Definition} (hd : table.entries[i]? = some d)
    (he : table.entries[j]? = some e) (hij : i ≠ j) : e.pointer ≠ d.pointer := by
  intro heq
  have hi : (table.entries.map Definition.pointer)[i]? = some d.pointer := by
    rw [List.getElem?_map, hd]
    rfl
  have hj : (table.entries.map Definition.pointer)[j]? = some d.pointer := by
    rw [List.getElem?_map, he, Option.map_some, heq]
  have hlt := (List.getElem?_eq_some_iff.mp hi).1
  exact hij ((List.getElem?_inj hlt table.nodup_pointers).mp (hi.trans hj.symm))

theorem Marks.open (h : table.Marks chain slots) {i : Nat} {d : Definition}
    (entry : table.entries[i]? = some d)
    (entered : chain.enter d.pointer depth = .entered opened) :
    table.Marks opened (slots.set i .inProgress) := by
  obtain ⟨-, rfl⟩ := Chain.enter_entered entered
  have hi : i < slots.length := h.length ▸ (List.getElem?_eq_some_iff.mp entry).1
  refine ⟨by simpa using h.length, fun {j e} he => ?_⟩
  rw [Chain.pointers_cons, List.mem_cons]
  by_cases hij : i = j
  · subst hij
    cases entry.symm.trans he
    simp [hi]
  · rw [List.getElem?_set_ne hij, h.inProgress_iff he]
    exact (or_iff_right (pointer_ne_of_ne entry he hij)).symm

theorem Marks.close (h : table.Marks opened slots) {i : Nat} {d : Definition}
    {declaration : Declaration} (entry : table.entries[i]? = some d)
    (entered : chain.enter d.pointer depth = .entered opened) :
    table.Marks chain (slots.set i (.done declaration)) := by
  obtain ⟨hnew, rfl⟩ := Chain.enter_entered entered
  have hi : i < slots.length := h.length ▸ (List.getElem?_eq_some_iff.mp entry).1
  refine ⟨by simpa using h.length, fun {j e} he => ?_⟩
  by_cases hij : i = j
  · subst hij
    cases entry.symm.trans he
    simp [hi, hnew]
  · rw [List.getElem?_set_ne hij, h.inProgress_iff he, Chain.pointers_cons, List.mem_cons]
    exact or_iff_right (pointer_ne_of_ne entry he hij)

end DefinitionTable

namespace Synthesizer

variable {table : DefinitionTable} {m m' : Synthesizer}

theorem Recorded.advance (h : m.Recorded table) (hhistory : m'.history = m.history)
    (hdone : m.toProgress.KeepsDone m'.toProgress) : m'.Recorded table where
  disciplined := hhistory ▸ h.disciplined
  kept := hhistory ▸ h.kept
  current := by
    rw [hhistory]
    exact fun x hx => (h.current x hx).trans hdone

theorem Sound.observe (h : m.Sound table) :
    ({ m with history := m.history ++ [(m.toPlace, m.toProgress)] } : Synthesizer).Sound table where
  disciplined := h.disciplined
  recorded := by
    refine ⟨?_, ?_, ?_⟩
    · intro x hx
      rcases List.mem_append.mp hx with hx | hx
      · exact h.recorded.disciplined x hx
      · obtain rfl := List.mem_singleton.mp hx
        exact h.disciplined
    · refine List.pairwise_append.mpr ⟨h.recorded.kept, List.pairwise_singleton .., ?_⟩
      intro x hx y hy
      obtain rfl := List.mem_singleton.mp hy
      exact h.recorded.current x hx
    · intro x hx
      rcases List.mem_append.mp hx with hx | hx
      · exact h.recorded.current x hx
      · obtain rfl := List.mem_singleton.mp hx
        exact .of_slots rfl

end Synthesizer

/-! ## Routines that keep the discipline -/

/-- From a state, a routine leaves the place as it was, however it ends, and the discipline holds all
along. -/
structure Routine.KeepsAt {α : Type} (table : DefinitionTable) (x : Routine α) (m : Synthesizer) :
    Prop where
  place : (x.outcome m).2.toPlace = m.toPlace
  recorded : m.Sound table → (x.outcome m).2.Recorded table
  marks : ∀ a, m.Sound table → (x.outcome m).1 = .ok a → table.Marks m.chain (x.outcome m).2.slots

structure Routine.Keeps {α : Type} (table : DefinitionTable) (x : Routine α) : Prop where
  keepsAt : ∀ m, x.KeepsAt table m

namespace Routine.KeepsAt

variable {α β : Type} {table : DefinitionTable} {x : Routine α} {f : α → Routine β}
  {m : Synthesizer}

theorem sound (h : x.KeepsAt table m) {a : α} (hm : m.Sound table)
    (ha : (x.outcome m).1 = .ok a) : (x.outcome m).2.Sound table where
  disciplined := by
    rw [h.place]
    exact ⟨hm.disciplined.ascends, h.marks a hm ha⟩
  recorded := h.recorded hm

theorem bind (hx : x.KeepsAt table m)
    (hf : ∀ a, (x.outcome m).1 = .ok a → (f a).KeepsAt table (x.outcome m).2) :
    (x >>= f).KeepsAt table m := by
  rcases bind_cases x f m with ⟨fault, -, heq⟩ | ⟨a, ha, heq⟩
  · refine ⟨?_, fun hm => ?_, fun b hm hb => ?_⟩
    · rw [heq]
      exact hx.place
    · rw [heq]
      exact hx.recorded hm
    · rw [heq] at hb
      cases hb
  · have hrest := hf a ha
    refine ⟨?_, fun hm => ?_, fun b hm hb => ?_⟩
    · rw [heq, hrest.place, hx.place]
    · rw [heq]
      exact hrest.recorded (hx.sound hm ha)
    · rw [heq] at hb ⊢
      have hmarks := hrest.marks b (hx.sound hm ha) hb
      rwa [show (x.outcome m).2.chain = m.chain from congrArg Place.chain hx.place] at hmarks

theorem observed
    (h : x.KeepsAt table { m with history := m.history ++ [(m.toPlace, m.toProgress)] }) :
    (Routine.observed x).KeepsAt table m := by
  have houtcome := outcome_observed (m := m) (x := x)
  simp only at houtcome
  refine ⟨?_, fun hm => ?_, fun a hm ha => ?_⟩
  · have hplace := h.place
    rw [houtcome]
    revert hplace
    rcases x.outcome _ with ⟨fault | a, m'⟩ <;> exact id
  · have hrecorded := h.recorded hm.observe
    have hsound := fun a => h.sound (a := a) hm.observe
    rw [houtcome]
    revert hrecorded hsound
    rcases x.outcome _ with ⟨fault | a, m'⟩
    · exact fun hrecorded _ => hrecorded
    · exact fun _ hsound => (hsound a rfl).observe.recorded
  · have hmarks := fun a => h.marks a hm.observe
    rw [houtcome] at ha ⊢
    revert hmarks ha
    rcases x.outcome _ with ⟨fault | b, m'⟩
    · exact fun ha _ => nomatch ha
    · exact fun _ hmarks => hmarks b rfl

/-- A reference is opened for a routine that keeps to the place and leaves the slots as they have to be
when the reference is closed. -/
theorem visit {pointer : String} {again : Bool → Routine α}
    (hplace : ∀ m, (x.outcome m).2.toPlace = m.toPlace)
    (hinside : ∀ chain, m.Sound table → m.chain.enter pointer m.depth = .entered chain →
      (x.outcome { m with chain }).2.Recorded table ∧
        ∀ a, (x.outcome { m with chain }).1 = .ok a →
          table.Marks m.chain (x.outcome { m with chain }).2.slots)
    (hagain : ∀ guarded, (again guarded).KeepsAt table m) :
    (Routine.visit pointer x again).KeepsAt table m := by
  cases hvisit : m.chain.enter pointer m.depth with
  | cycle guarded =>
      have houtcome : (Routine.visit pointer x again).outcome m = (again guarded).outcome m := by
        rw [outcome_visit, hvisit]
      refine ⟨?_, fun hm => ?_, fun a hm ha => ?_⟩
      · exact houtcome ▸ (hagain guarded).place
      · exact houtcome ▸ (hagain guarded).recorded hm
      · rw [houtcome] at ha ⊢
        exact (hagain guarded).marks a hm ha
  | entered chain =>
      have houtcome : (Routine.visit pointer x again).outcome m = _ :=
        outcome_visit_entered hvisit (hplace _)
      refine ⟨?_, fun hm => ?_, fun a hm ha => ?_⟩
      · rw [houtcome]
      · rw [houtcome]
        exact (hinside chain hm hvisit).1.advance rfl (.of_slots rfl)
      · rw [houtcome] at ha ⊢
        exact (hinside chain hm hvisit).2 a ha

end Routine.KeepsAt

namespace Routine.Keeps

variable {α β : Type} {table : DefinitionTable} {x : Routine α} {f : α → Routine β}

theorem ofOutcome (r : Outcome α) : (ofOutcome r).Keeps table :=
  ⟨fun _ => ⟨rfl, fun hm => hm.recorded, fun _ hm _ => hm.disciplined.marks⟩⟩

theorem pure (a : α) : (Pure.pure a : Routine α).Keeps table := ofOutcome (.ok a)

theorem bind (hx : x.Keeps table) (hf : ∀ a, (f a).Keeps table) : (x >>= f).Keeps table :=
  ⟨fun m => (hx.keepsAt m).bind fun a _ => (hf a).keepsAt _⟩

theorem mapM {g : α → Routine β} {l : List α} (h : ∀ a ∈ l, (g a).Keeps table) :
    (l.mapM g).Keeps table := by
  induction l with
  | nil => exact List.mapM_nil (f := g) ▸ pure []
  | cons a l ih =>
      rw [List.mapM_cons]
      have hrest := ih fun b hb => h b (List.mem_cons_of_mem _ hb)
      exact (h a List.mem_cons_self).bind fun b => hrest.bind fun bs => pure (b :: bs)

theorem forM {g : α → Routine PUnit} {l : List α} (h : ∀ a ∈ l, (g a).Keeps table) :
    (l.forM g).Keeps table := by
  induction l with
  | nil => exact pure ()
  | cons a l ih =>
      have hrest := ih fun b hb => h b (List.mem_cons_of_mem _ hb)
      exact (h a List.mem_cons_self).bind fun _ => hrest

theorem step {g : Place → Synthesis α}
    (hg : ∀ p st a st', (g p).run st = .ok (a, st') → st'.slots = st.slots) :
    (Routine.step g).Keeps table := by
  refine ⟨fun m => ?_⟩
  have hcases : (∃ fault, (Routine.step g).outcome m = (.error fault, m)) ∨
      ∃ a st, (Routine.step g).outcome m = (.ok a, { m with toProgress := st }) ∧
        st.slots = m.slots := by
    rw [outcome_step]
    cases hrun : (g m.toPlace).run m.toProgress with
    | error fault => exact .inl ⟨fault, rfl⟩
    | ok r => exact .inr ⟨r.1, r.2, rfl, hg _ _ _ _ hrun⟩
  refine ⟨?_, fun hm => ?_, fun a hm _ => ?_⟩ <;>
    rcases hcases with ⟨fault, heq⟩ | ⟨b, st, heq, hst⟩ <;> rw [heq]
  · exact hm.recorded
  · exact hm.recorded.advance rfl (.of_slots hst)
  · exact hm.disciplined.marks
  · exact hst ▸ hm.disciplined.marks

theorem observed (h : x.Keeps table) : (Routine.observed x).Keeps table :=
  ⟨fun _ => (h.keepsAt _).observed⟩

/-- A routine that moves the place ahead of another one, without touching what is open, and back. -/
theorem moved {y : Routine α} (h : x.Keeps table) (ahead : Place → Place)
    (houtcome : ∀ m : Synthesizer,
      (x.outcome { m with toPlace := ahead m.toPlace }).2.toPlace = ahead m.toPlace →
      y.outcome m =
        let r := x.outcome { m with toPlace := ahead m.toPlace }
        (r.1, { r.2 with toPlace := m.toPlace }))
    (hchain : ∀ p, (ahead p).chain = p.chain) (hdepth : ∀ p, p.depth ≤ (ahead p).depth) :
    y.Keeps table := by
  refine ⟨fun m => ?_⟩
  have hahead := h.keepsAt { m with toPlace := ahead m.toPlace }
  have hsound : m.Sound table →
      ({ m with toPlace := ahead m.toPlace } : Synthesizer).Sound table := by
    intro hm
    refine ⟨⟨?_, ?_⟩, hm.recorded.advance rfl (.of_slots rfl)⟩
    · exact hchain m.toPlace ▸ hm.disciplined.ascends.mono (hdepth m.toPlace)
    · exact hchain m.toPlace ▸ hm.disciplined.marks
  refine ⟨?_, fun hm => ?_, fun a hm ha => ?_⟩
  · rw [houtcome m hahead.place]
  · rw [houtcome m hahead.place]
    exact (hahead.recorded (hsound hm)).advance rfl (.of_slots rfl)
  · rw [houtcome m hahead.place] at ha ⊢
    exact hchain m.toPlace ▸ hahead.marks a (hsound hm) ha

theorem descend {segments : List String} {part : Bool} (h : x.Keeps table) :
    (Routine.descend segments part x).Keeps table := by
  refine h.moved (fun p => p.below segments part) (fun _ => outcome_descend)
    (fun _ => rfl) fun p => ?_
  cases part
  · exact Nat.le_refl _
  · exact Nat.le_succ _

theorem relocate (h : x.Keeps table) (location : String) :
    (Routine.relocate location x).Keeps table :=
  h.moved (fun p => { p with location }) (fun _ => outcome_relocate) (fun _ => rfl)
    fun _ => Nat.le_refl _

end Routine.Keeps

/-! ## The routines of a synthesis -/

namespace Setting

open Routine (Keeps)

variable {s : Setting} {mapType : Node → Routine TypeExpr} {table : DefinitionTable}

theorem keeps_warn (kind : WarningKind) (message : String) :
    (Routine.step fun p => Synthesis.warn p kind message).Keeps table :=
  .step fun _ _ _ _ hrun => by cases hrun; rfl

theorem keeps_takeName (base pointer : String) :
    (Routine.step fun _ => Synthesis.takeName base pointer).Keeps table :=
  .step fun _ _ _ _ hrun => by cases hrun; rfl

theorem keeps_mapProperty (h : ∀ node, (mapType node).Keeps table) (required : List String)
    (name : String) (node : Node) : (mapProperty mapType required name node).Keeps table :=
  (h node).descend.bind fun _ => .pure _

theorem keeps_mapIndex (h : ∀ node, (mapType node).Keeps table) (additional : Additional Node) :
    (mapIndex mapType additional).Keeps table := by
  cases additional with
  | closed | unrestricted => exact .pure _
  | typed node => exact (h node).descend.bind fun _ => .pure _

theorem keeps_mapObject (h : ∀ node, (mapType node).Keeps table) (required : List String)
    (properties : List (String × Node)) (additional : Additional Node) :
    (s.mapObject mapType required properties additional).Keeps table := by
  refine .observed (.bind (.mapM fun (name, node) _ => ?_) fun _ => ?_)
  · exact keeps_mapProperty h required name node
  · exact (keeps_mapIndex h additional).bind fun _ => .pure _

theorem keeps_mapOperand (h : ∀ node, (mapType node).Keeps table) (joining : Joining)
    (way : List String) (member : Node) :
    (s.mapOperand mapType joining way member).Keeps table := by
  have hplain : (do return [Operand.type (← Routine.descend way false (mapType member))] :
      Routine (List Operand)).Keeps table := (h member).descend.bind fun _ => .pure _
  unfold mapOperand
  split
  · split
    · exact .pure _
    · exact hplain
  · exact (keeps_mapObject h ..).descend.bind fun _ => .pure _
  · exact hplain

theorem keeps_mapComposite (h : ∀ node, (mapType node).Keeps table) (keyword : Composition)
    (members : List Node) : (s.mapComposite mapType keyword members).Keeps table := by
  refine .observed ?_
  dsimp only
  split
  · exact (Keeps.mapM fun (way, member) _ => (h member).descend).bind fun _ => .pure _
  · exact (Keeps.mapM fun (way, member) _ => keeps_mapOperand h _ way member).bind fun _ => .pure _

theorem keeps_mapBody (h : ∀ node, (mapType node).Keeps table) (root : Node) :
    (s.mapBody mapType root).Keeps table := by
  unfold mapBody
  split
  · exact (keeps_mapObject h ..).bind fun _ => .pure _
  · exact (h root).bind fun _ => .pure _

/-- A definition is declared: its slot is in progress while the body is made, and done then. -/
theorem outcome_synthesize {i : Nat} {d : Definition} {m : Synthesizer} :
    (s.synthesize mapType i d).outcome m =
      let opened := { m with toProgress := m.toProgress.setSlot i .inProgress }
      match (Routine.relocate d.pointer (s.mapBody mapType d.root)).outcome opened with
      | (.ok body, m') =>
        let slot := .done { name := s.nameOf i, doc := d.root.description, body }
        (.ok (), { m' with toProgress := m'.toProgress.setSlot i slot })
      | (.error fault, m') => (.error fault, m') := by
  have hbody := Routine.outcome_bind (m := { m with toProgress := m.toProgress.setSlot i .inProgress })
    (x := Routine.relocate d.pointer (s.mapBody mapType d.root)) (f := fun body =>
      Routine.step fun _ => Synthesis.setSlot i
        (.done { name := s.nameOf i, doc := d.root.description, body }))
  refine Eq.trans hbody ?_
  dsimp only
  rcases Routine.outcome _ _ with ⟨fault | body, m'⟩ <;> rfl

theorem place_synthesize (h : ∀ node, (mapType node).Keeps table) {i : Nat} {d : Definition}
    (m : Synthesizer) : ((s.synthesize mapType i d).outcome m).2.toPlace = m.toPlace := by
  have hplace := ((keeps_mapBody (s := s) h d.root).relocate d.pointer).keepsAt
    { m with toProgress := m.toProgress.setSlot i .inProgress } |>.place
  rw [outcome_synthesize]
  dsimp only
  revert hplace
  rcases Routine.outcome _ _ with ⟨fault | body, m'⟩ <;> exact id

/-- A definition that is not done is declared: it is open while its slot is in progress, and its slot is
done when it is closed. -/
theorem synthesize_opened (h : ∀ node, (mapType node).Keeps s.definitions) {i : Nat} {d : Definition}
    (entry : s.definitions.entries[i]? = some d) {m : Synthesizer} (hm : m.Sound s.definitions)
    (unfinished : ¬ m.IsDone i) {chain : Chain}
    (entered : m.chain.enter d.pointer m.depth = .entered chain) :
    let r := (s.synthesize mapType i d).outcome { m with chain }
    r.2.Recorded s.definitions ∧ (r.1 = .ok () → s.definitions.Marks m.chain r.2.slots) := by
  have hopened : ({ m with chain, toProgress := m.toProgress.setSlot i .inProgress } :
      Synthesizer).Sound s.definitions :=
    ⟨⟨hm.disciplined.ascends.enter entered, hm.disciplined.marks.open entry entered⟩,
      hm.recorded.advance rfl (.setSlot unfinished)⟩
  have hbody := ((keeps_mapBody (s := s) h d.root).relocate d.pointer).keepsAt
    { m with chain, toProgress := m.toProgress.setSlot i .inProgress }
  have hrecorded := hbody.recorded hopened
  have hmarks := fun body => hbody.marks body hopened
  have hself : d.pointer ∈ chain.pointers := by
    obtain ⟨-, rfl⟩ := Chain.enter_entered entered
    exact List.mem_cons_self
  rw [outcome_synthesize]
  dsimp only
  revert hrecorded hmarks
  rcases Routine.outcome _ _ with ⟨fault | body, m'⟩
  · exact fun hrecorded _ => ⟨hrecorded, nofun⟩
  · intro hrecorded hmarks
    have hclosed := hmarks body rfl
    have hprogress : ¬ m'.IsDone i :=
      Progress.not_isDone_of_eq ((hclosed.inProgress_iff entry).mpr hself) (by simp)
    exact ⟨hrecorded.advance rfl (.setSlot hprogress), fun _ => hclosed.close entry entered⟩

theorem keeps_referenceDefinition (h : ∀ node, (mapType node).Keeps s.definitions) (i : Nat) :
    (s.referenceDefinition mapType i).Keeps s.definitions := by
  refine .observed ⟨fun m => ?_⟩
  have hslot : (Routine.step fun _ => Synthesis.slot? i).KeepsAt s.definitions m :=
    (Keeps.step fun _ _ _ _ hrun => by cases hrun; rfl).keepsAt m
  refine hslot.bind fun slot hread => ?_
  obtain rfl : m.slots[i]? = slot := Except.ok.inj hread
  show Routine.KeepsAt s.definitions _ m
  dsimp only
  split
  · exact (Keeps.pure _).keepsAt m
  · exact (Keeps.pure _).keepsAt m
  · next d entry hdone =>
    have unfinished : ¬ m.IsDone i := fun ⟨declaration, hd⟩ => hdone declaration hd
    refine .visit (fun m => ?_) (fun chain hm entered => ?_) fun guarded => ?_
    · rw [Routine.outcome_map]
      exact place_synthesize h m
    · obtain ⟨hrecorded, hmarks⟩ := synthesize_opened h entry hm unfinished entered
      rw [Routine.outcome_map]
      refine ⟨hrecorded, fun t ht => hmarks ?_⟩
      revert ht
      rcases ((s.synthesize mapType i d).outcome { m with chain }).1 with fault | _
      · exact nofun
      · exact fun _ => rfl
    · split
      · exact (Keeps.pure _).keepsAt m
      · exact ((keeps_warn ..).bind fun _ => .pure _).keepsAt m

theorem keeps_mapReference (h : ∀ node, (mapType node).Keeps s.definitions) (pointer : String) :
    (s.mapReference mapType pointer).Keeps s.definitions := by
  refine ⟨fun m => .bind ((Keeps.ofOutcome _).keepsAt m) fun target htarget => ?_⟩
  have resolved : s.definitions.resolve pointer = .ok target := htarget
  split
  · exact (keeps_referenceDefinition h _).keepsAt _
  · next deep =>
    have hinlined := (h target.node).relocate target.pointer
    refine .visit (fun m => (hinlined.keepsAt m).place) (fun chain hm entered => ?_) fun _ => ?_
    · have hother : ∀ d ∈ s.definitions.entries, d.pointer ≠ target.pointer := fun d _ =>
        DefinitionTable.pointer_ne_of_deep resolved (Bool.eq_false_iff.mpr deep) d
      have hmarks := DefinitionTable.marks_enter_iff hother entered
      have hopened : ({ m with chain } : Synthesizer).Sound s.definitions :=
        ⟨⟨hm.disciplined.ascends.enter entered, (hmarks _).mpr hm.disciplined.marks⟩,
          hm.recorded.advance rfl (.of_slots rfl)⟩
      have hat := hinlined.keepsAt { m with chain }
      exact ⟨hat.recorded hopened, fun t ht => (hmarks _).mp (hat.marks t hopened ht)⟩
    · exact ((keeps_warn ..).bind fun _ => .pure _).keepsAt _

theorem keeps_mapKind (h : ∀ node, (mapType node).Keeps s.definitions) (kind : Kind Node) :
    (s.mapKind mapType kind).Keeps s.definitions := by
  cases kind with
  | any | primitive | enum => exact .pure _
  | array items => exact (h items).descend.bind fun _ => .pure _
  | object properties required additional => exact (keeps_mapObject h ..).bind fun _ => .pure _
  | reference pointer => exact keeps_mapReference h pointer
  | composite keyword members => exact keeps_mapComposite h keyword members
  | unsupported construct => exact (keeps_warn ..).bind fun _ => .pure _

/-- The induction is on how many schemas may be at hand at once. -/
theorem keeps_mapType (s : Setting) (calls : Nat) (node : Node) :
    (s.mapType calls node).Keeps s.definitions := by
  induction calls generalizing node with
  | zero => exact .ofOutcome (.error .exhausted)
  | succ calls ih => exact .observed ((keeps_mapKind ih node.kind).bind fun _ => .pure _)

theorem keeps_mapParameter (s : Setting) (calls : Nat) (placed : PlacedParameter) :
    (s.mapParameter calls placed).Keeps s.definitions :=
  (keeps_mapType s calls _).descend.relocate _ |>.bind fun _ => .pure _

theorem keeps_mapOperation (s : Setting) (calls : Nat) (model : SchemaModel) (op : Operation) :
    (s.mapOperation calls model op).Keeps s.definitions := by
  refine (Keeps.ofOutcome _).bind fun parameters => ?_
  dsimp only
  split
  · exact .pure _
  · refine (Keeps.mapM fun placed _ => keeps_mapParameter s calls placed).bind fun _ => ?_
    exact (keeps_takeName ..).bind fun _ => .pure _

theorem keeps_mapAll (s : Setting) (calls : Nat) (model : SchemaModel) (withQuery : Bool) :
    (s.mapAll calls model withQuery).Keeps s.definitions := by
  have hdefinition := fun i => keeps_referenceDefinition (keeps_mapType s calls) i
  refine (Keeps.forM fun i _ => (hdefinition i).bind fun _ => .pure _).bind fun _ => ?_
  split
  · split
    · exact .ofOutcome (.error _)
    · exact (Keeps.mapM fun op _ => keeps_mapOperation s calls model op).bind fun _ => .pure _
  · exact .pure _

end Setting

/-! ## The run of a build -/

namespace SchemaModel

variable (model : SchemaModel)

/-- At the start nothing is open and nothing in progress. -/
theorem synthesizer_sound : model.synthesizer.Sound model.definitions where
  disciplined := by
    refine ⟨⟨List.nodup_nil, .nil, nofun⟩, ⟨?_, fun {i d} _ => ?_⟩⟩
    · show model.start.slots.length = _
      rw [start_slots, List.length_map]
    · exact ⟨fun hslot => (nomatch model.start_pending hslot), nofun⟩
  recorded := ⟨nofun, .nil, nofun⟩

/-- Wherever the routines for a type, a definition, an object and a composition begin, they leave the
location, the depth and the open references as they were, whether they answer or fail. In the run for all
declarations of a model, whenever one of them is entered or has answered, the slots in progress are those
of the open definitions, the open pointers are pairwise distinct, and the depths at which they were opened
ascend up to the one at hand; and a declaration that is done is there in all states to come, and in the
last one. With enough calls that run is the build of the model. -/
theorem routines_disciplined (sorted withQuery : Bool) (calls : Nat) :
    let s := model.setting sorted
    let run := fun calls => (s.mapAll calls model withQuery).outcome model.synthesizer
    (∀ m : Synthesizer,
      (∀ node, ((s.mapType calls node).outcome m).2.toPlace = m.toPlace) ∧
      (∀ index, ((s.referenceDefinition (s.mapType calls) index).outcome m).2.toPlace = m.toPlace) ∧
      (∀ required properties additional,
        ((s.mapObject (s.mapType calls) required properties additional).outcome m).2.toPlace =
          m.toPlace) ∧
      (∀ keyword members,
        ((s.mapComposite (s.mapType calls) keyword members).outcome m).2.toPlace = m.toPlace)) ∧
    (∀ state ∈ (run calls).2.history, Disciplined model.definitions state.1 state.2) ∧
    ((run calls).2.history.Pairwise fun earlier later => earlier.2.KeepsDone later.2) ∧
    (∀ state ∈ (run calls).2.history, state.2.KeepsDone (run calls).2.toProgress) ∧
    (∃ enough, ∀ more,
      (run (enough + more)).1.map (fun queries => Build.mk
        (finished (run (enough + more)).2.slots ++ queries) (run (enough + more)).2.warnings) =
      model.build sorted withQuery) := by
  intro s run
  have hkeeps := Setting.keeps_mapType s calls
  have hrecorded :=
    ((Setting.keeps_mapAll s calls model withQuery).keepsAt model.synthesizer).recorded
      model.synthesizer_sound
  refine ⟨fun m => ⟨fun node => ?_, fun index => ?_, ?_, ?_⟩, hrecorded.disciplined, hrecorded.kept,
    hrecorded.current, model.calls, fun more => ?_⟩
  · exact ((hkeeps node).keepsAt m).place
  · exact ((Setting.keeps_referenceDefinition hkeeps index).keepsAt m).place
  · exact fun required properties additional =>
      ((Setting.keeps_mapObject hkeeps required properties additional).keepsAt m).place
  · exact fun keyword members => ((Setting.keeps_mapComposite hkeeps keyword members).keepsAt m).place
  · have hbuild := model.mapAll_eq_build sorted withQuery (Nat.le_add_right model.calls more)
    rw [← hbuild, Routine.result]
    show (run (model.calls + more)).1.map _ = ((run (model.calls + more)).1.map _).map _
    cases (run (model.calls + more)).1 <;> rfl

end SchemaModel

end SwaggerTypes
