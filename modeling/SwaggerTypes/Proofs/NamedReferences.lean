import SwaggerTypes.Proofs.CircularWarnings
/-!
# References by name

Where every reference leads to a whole definition and no definition is an alias of itself, nothing is
cut: each reference becomes the name of its definition, whatever has been declared by then. So what a
schema becomes depends on the schema alone, and what is warned about in it as well. The synthesis comes
to a definition from anywhere, and once; the warnings of a run are those of what it reads and those of
the definitions that it begins on the way.
-/

namespace SwaggerTypes

open Relation (TransGen)

/-! ## Computations that only report -/

def Progress.report (st : Progress) (ws : List Warning) : Progress :=
  { st with warnings := st.warnings ++ ws }

namespace Synthesis

/-- A computation yields a result and reports some warnings, whatever the progress, and changes nothing
else. -/
def Yields {α : Type} (x : Synthesis α) (a : α) (ws : List Warning) : Prop :=
  ∀ st : Progress, x.run st = .ok (a, st.report ws)

namespace Yields

variable {α β : Type} {x : Synthesis α} {f : α → Synthesis β} {a : α} {b : β}
  {ws ws' : List Warning}

theorem pure (a : α) : Yields (Pure.pure a) a [] := by
  intro st
  rw [Progress.report, List.append_nil]
  rfl

theorem bind (hx : Yields x a ws) (hf : Yields (f a) b ws') : Yields (x >>= f) b (ws ++ ws') := by
  intro st
  rw [StateT.run_bind, hx st]
  refine (hf (st.report ws)).trans ?_
  simp [Progress.report]

theorem map {g : α → β} (hx : Yields x a ws) : Yields (do return g (← x)) (g a) ws := by
  have h := hx.bind (f := fun a => Pure.pure (g a)) (pure (g a))
  rwa [List.append_nil] at h

theorem warn (p : Place) (kind : WarningKind) (message : String) :
    Yields (Synthesis.warn p kind message) () [⟨kind, p.location, message⟩] :=
  fun _ => rfl

theorem unique {a' : α} (h : Yields x a ws) (h' : Yields x a' ws') : a = a' ∧ ws = ws' := by
  have heq := (h { slots := [] }).symm.trans (h' { slots := [] })
  injection heq with heq
  injection heq with ha hst
  exact ⟨ha, by simpa [Progress.report] using congrArg Progress.warnings hst⟩

end Yields

end Synthesis

/-! ## Schemas with their references by name -/

def followName (names : String → String) : Place → String → Synthesis TypeExpr :=
  fun _ r => return .named (names r)

namespace Setting

open Synthesis (Yields)

variable {s : Setting} {model : SchemaModel} {names : String → String} {p q : Place} {task : Task}
  {st st' st₁ st₂ : Progress} {log log₁ log₂ : List Begun} {finding : Finding}
  {ws ws₁ ws₂ : List Warning}

/-- A task finds something and reports warnings, when every reference stands for a name. Of the place
only the pointer matters, and of the progress nothing. -/
def Reads (s : Setting) (names : String → String) (location : String) :
    Task → Finding → List Warning → Prop
  | .schema node, .type t, ws => ∀ p : Place, p.location = location →
      Yields (node.type s.sorted (followName names) p) t ws
  | .object required ps additional, .object o, ws => ∀ p : Place, p.location = location →
      Yields
        (do
          let properties ← Node.propertyTypes s.sorted (followName names) p required ps
          let index ← Node.indexType s.sorted (followName names) p additional
          return ObjectType.arrange s.sorted ⟨properties, index⟩) o ws
  | .properties required ps, .properties qs, ws => ∀ p : Place, p.location = location →
      Yields (Node.propertyTypes s.sorted (followName names) p required ps) qs ws
  | .others additional, .others index, ws => ∀ p : Place, p.location = location →
      Yields (Node.indexType s.sorted (followName names) p additional) index ws
  | .members joining lifted way i ms, .operands os, ws => ∀ p : Place, p.location = location →
      Yields (Node.operands s.sorted (followName names) p joining lifted way i ms) os ws
  | .member joining lifted way node, .operands os, ws => ∀ p : Place, p.location = location →
      Yields (Node.operand s.sorted (followName names) p joining lifted way node) os ws
  | .reference r, .type t, ws => t = .named (names r) ∧ ws = []
  | .definition i, .type t, ws => t = .named (s.nameOf i) ∧ ws = []
  | _, _, ws => ws = []

theorem yields_type {kind : Kind Node} {doc : Option String} {nullable : Bool} {t : TypeExpr}
    (h : Yields (Node.kindType s.sorted (followName names) p kind) t ws) :
    Yields (Node.type s.sorted (followName names) p ⟨kind, doc, nullable⟩) (t.orNull nullable) ws := by
  rw [type_eq]
  exact h.map

theorem location_below (way : List String) (part : Bool) (h : q.location = p.location) :
    (q.below way part).location = (p.below way part).location := by
  simp only [Place.below, h]

/-! ## Declarations of roots -/

def rootWarnings (sorted : Bool) (names : String → String) (d : Definition) : List Warning :=
  match (d.root.type sorted (followName names) { location := d.pointer }).run { slots := [] } with
  | .ok (_, st) => st.warnings
  | .error _ => []

theorem rootWarnings_eq {d : Definition} {t : TypeExpr}
    (h : s.Reads names d.pointer (.schema d.root) (.type t) ws) :
    rootWarnings s.sorted names d = ws := by
  rw [rootWarnings, h { location := d.pointer } rfl { slots := [] }]
  rfl

def begunWarnings (s : Setting) (names : String → String) (log : List Begun) : List Warning :=
  ((log.map Begun.index).filterMap (s.definitions.entries[·]?)).flatMap (rootWarnings s.sorted names)

theorem begunWarnings_append :
    s.begunWarnings names (log₁ ++ log₂) =
      s.begunWarnings names log₁ ++ s.begunWarnings names log₂ := by
  simp only [begunWarnings, List.map_append, List.filterMap_append, List.flatMap_append]

theorem begunWarnings_cons {b : Begun} {d : Definition}
    (entry : s.definitions.entries[b.index]? = some d) :
    s.begunWarnings names (b :: log) =
      rootWarnings s.sorted names d ++ s.begunWarnings names log := by
  simp only [begunWarnings, List.map_cons, List.filterMap_cons, entry, List.flatMap_cons]

/-- Each declaration that is done is made from what its root reads as. -/
def DeclaresRoots (s : Setting) (names : String → String) (st : Progress) : Prop :=
  ∀ (i : Nat) (d : Definition) (declaration : Declaration), s.definitions.entries[i]? = some d →
    st.slots[i]? = some (.done declaration) →
      ∃ t ws, s.Reads names d.pointer (.schema d.root) (.type t) ws ∧
        declaration = s.declarationOf i d t

theorem DeclaresRoots.setSlot {i : Nat} {slot : Slot} (h : s.DeclaresRoots names st)
    (hslot : ∀ d declaration, s.definitions.entries[i]? = some d → slot = .done declaration →
      ∃ t ws, s.Reads names d.pointer (.schema d.root) (.type t) ws ∧
        declaration = s.declarationOf i d t) :
    s.DeclaresRoots names (st.setSlot i slot) := by
  intro j d declaration entry hdone
  by_cases hij : i = j
  · subst hij
    have hlt := (List.getElem?_eq_some_iff.mp hdone).1
    rw [Progress.setSlot, List.length_set] at hlt
    rw [Progress.slots_setSlot_self _ hlt, Option.some.injEq] at hdone
    exact hslot d declaration entry hdone
  · rw [Progress.slots_setSlot_ne _ hij] at hdone
    exact h j d declaration entry hdone

/-- Between two points a run has read something that reports `ws` and has begun the definitions in
`log`: there are the warnings of both, and the declarations are made from roots. -/
structure Accounts (s : Setting) (names : String → String) (st : Progress) (ws : List Warning)
    (log : List Begun) (st' : Progress) : Prop where
  warnings : st'.warnings.Perm (st.warnings ++ ws ++ s.begunWarnings names log)
  declared : s.DeclaresRoots names st → s.DeclaresRoots names st'

namespace Accounts

theorem report (ws : List Warning) : s.Accounts names st ws [] (st.report ws) where
  warnings := by simp [Progress.report, begunWarnings]
  declared := id

theorem refl : s.Accounts names st [] [] st where
  warnings := by simp [begunWarnings]
  declared := id

theorem append (h₁ : s.Accounts names st ws₁ log₁ st₁) (h₂ : s.Accounts names st₁ ws₂ log₂ st₂) :
    s.Accounts names st (ws₁ ++ ws₂) (log₁ ++ log₂) st₂ where
  warnings := by
    refine h₂.warnings.trans ?_
    rw [begunWarnings_append]
    have hfirst := (h₁.warnings.append_right ws₂).append_right (s.begunWarnings names log₂)
    refine hfirst.trans ?_
    -- the warnings read later move before those of the definitions begun earlier
    simp only [List.append_assoc, List.perm_append_left_iff]
    rw [← List.append_assoc, ← List.append_assoc]
    exact List.perm_append_comm.append_right _
  declared := h₂.declared ∘ h₁.declared

theorem declaration {b : Begun} {d : Definition} {t : TypeExpr}
    (entry : s.definitions.entries[b.index]? = some d)
    (hreads : s.Reads names d.pointer (.schema d.root) (.type t) ws)
    (h : s.Accounts names (st.setSlot b.index .inProgress) ws log st') :
    s.Accounts names st [] (b :: log)
      (st'.setSlot b.index (.done (s.declarationOf b.index d t))) where
  warnings := by
    rw [begunWarnings_cons entry, rootWarnings_eq hreads, List.append_nil, ← List.append_assoc]
    exact h.warnings
  declared := by
    refine fun hst => (h.declared (hst.setSlot ?_)).setSlot ?_
    · exact fun _ _ _ heq => nomatch heq
    · intro e declaration hentry heq
      cases entry.symm.trans hentry
      cases heq
      exact ⟨t, ws, hreads, rfl⟩

end Accounts

/-! ## Where nothing is cut -/

/-- Every reference of the definitions leads to a whole definition and stands for its name, and no
definition leads back to itself by members and references alone. -/
structure Straight (s : Setting) (names : String → String) : Prop where
  root : ∀ r ∈ s.definitions.references, ∃ target, s.definitions.resolve r = .ok target ∧
    target.isRoot = true ∧ s.nameOf target.definition = names r
  acyclic : ∀ d ∈ s.definitions.entries,
    ¬ TransGen s.definitions.Expands (d.pointer, d.root) (d.pointer, d.root)

structure Inner (s : Setting) (model : SchemaModel) (c : Call) : Prop where
  ofSchemas : OfSchemas c.task
  references : c.task.references model ⊆ s.definitions.references
  level : s.Level c

theorem Calls.inner {c d : Call} (h : s.Calls model c log d) (hc : s.Inner model c) :
    s.Inner model d where
  ofSchemas := h.ofSchemas hc.ofSchemas
  references := by
    intro r hr
    rcases List.mem_append.mp (h.references hr) with hr | hr
    · exact hc.references hr
    · exact hr
  level := h.level hc.level

theorem Straight.not_cycle (hs : s.Straight names) {i : Nat} {d : Definition}
    (hc : s.Inner model ⟨p, .definition i, st⟩) (unfinished : ¬ st.IsDone i)
    (entry : s.definitions.entries[i]? = some d) : p.chain.enter d.pointer p.depth ≠ .cycle false := by
  intro cycle
  have raised : s.Raises model ⟨p, .definition i, st⟩ _ := .aliasCycle unfinished entry cycle
  obtain ⟨r, target, e, reference, closes, -⟩ := raised.closes hc.level rfl
  exact hs.acyclic e (List.mem_of_getElem? closes.entry) closes.cycle

/-- No reference leads into the middle of a definition there. -/
theorem Straight.isRoot (hs : s.Straight names) {r : String} {target : Target}
    (hc : s.Inner model ⟨p, .reference r, st⟩) (resolved : s.definitions.resolve r = .ok target) :
    target.isRoot = true ∧ s.nameOf target.definition = names r := by
  obtain ⟨other, hother, hroot, hname⟩ := hs.root r (hc.references List.mem_cons_self)
  cases hother.symm.trans resolved
  exact ⟨hroot, hname⟩

/-- A run in which nothing is cut finds what its task reads as, and accounts for the warnings by that
and by the definitions that it begins. -/
theorem Run.reads (hs : s.Straight names) (h : s.Run model p task st log finding st') :
    s.Inner model ⟨p, task, st⟩ →
      ∃ ws, s.Reads names p.location task finding ws ∧ s.Accounts names st ws log st' := by
  induction h with
  | any =>
      refine fun _ => ⟨[], fun p hp => yields_type ?_, .refl⟩
      rw [Node.kindType]
      exact .pure _
  | primitive =>
      refine fun _ => ⟨[], fun p hp => yields_type ?_, .refl⟩
      rw [Node.kindType]
      exact .pure _
  | enum =>
      refine fun _ => ⟨[], fun p hp => yields_type ?_, .refl⟩
      rw [Node.kindType]
      exact .pure _
  | unsupported =>
      refine fun _ => ⟨_, fun p hp => yields_type ?_, .report _⟩
      rw [Node.kindType, ← hp]
      exact (Yields.warn p _ _).map (g := fun _ => TypeExpr.any)
  | array _ ih =>
      intro hc
      obtain ⟨ws, hreads, haccounts⟩ := ih (Calls.inner .array hc)
      refine ⟨ws, fun p hp => yields_type ?_, haccounts⟩
      rw [Node.kindType]
      exact (hreads _ (location_below _ _ hp)).map
  | objectSchema _ ih =>
      intro hc
      obtain ⟨ws, hreads, haccounts⟩ := ih (Calls.inner .objectSchema hc)
      refine ⟨ws, fun p hp => yields_type ?_, haccounts⟩
      simpa only [Node.kindType, bind_assoc, pure_bind] using (hreads p hp).map
  | referenceSchema _ ih =>
      intro hc
      obtain ⟨ws, ⟨rfl, rfl⟩, haccounts⟩ := ih (Calls.inner .referenceSchema hc)
      refine ⟨[], fun p hp => yields_type ?_, haccounts⟩
      rw [Node.kindType]
      exact .pure _
  | composite _ ih =>
      intro hc
      obtain ⟨ws, hreads, haccounts⟩ := ih (Calls.inner .composite hc)
      refine ⟨ws, fun p hp => yields_type ?_, haccounts⟩
      rw [Node.kindType]
      exact (hreads p hp).map
  | object first _ ih₁ ih₂ =>
      intro hc
      obtain ⟨ws₁, hreads₁, haccounts₁⟩ := ih₁ (Calls.inner .objectProperties hc)
      obtain ⟨ws₂, hreads₂, haccounts₂⟩ := ih₂ (Calls.inner (.objectOthers first) hc)
      refine ⟨ws₁ ++ ws₂, fun p hp => ?_, haccounts₁.append haccounts₂⟩
      exact (hreads₁ p hp).bind (hreads₂ p hp).map
  | noProperties =>
      refine fun _ => ⟨[], fun p hp => ?_, .refl⟩
      rw [Node.propertyTypes]
      exact .pure _
  | properties first _ ih₁ ih₂ =>
      intro hc
      obtain ⟨ws₁, hreads₁, haccounts₁⟩ := ih₁ (Calls.inner .firstProperty hc)
      obtain ⟨ws₂, hreads₂, haccounts₂⟩ := ih₂ (Calls.inner (.restProperties first) hc)
      refine ⟨ws₁ ++ ws₂, fun p hp => ?_, haccounts₁.append haccounts₂⟩
      rw [Node.propertyTypes]
      exact (hreads₁ _ (location_below _ _ hp)).bind (hreads₂ p hp).map
  | closed =>
      refine fun _ => ⟨[], fun p hp => ?_, .refl⟩
      rw [Node.indexType]
      exact .pure _
  | unrestricted =>
      refine fun _ => ⟨[], fun p hp => ?_, .refl⟩
      rw [Node.indexType]
      exact .pure _
  | typed _ ih =>
      intro hc
      obtain ⟨ws, hreads, haccounts⟩ := ih (Calls.inner .typed hc)
      refine ⟨ws, fun p hp => ?_, haccounts⟩
      rw [Node.indexType]
      exact (hreads _ (location_below _ _ hp)).map
  | noMembers =>
      refine fun _ => ⟨[], fun p hp => ?_, .refl⟩
      rw [Node.operands]
      exact .pure _
  | members first _ ih₁ ih₂ =>
      intro hc
      obtain ⟨ws₁, hreads₁, haccounts₁⟩ := ih₁ (Calls.inner .firstMember hc)
      obtain ⟨ws₂, hreads₂, haccounts₂⟩ := ih₂ (Calls.inner (.restMembers first) hc)
      refine ⟨ws₁ ++ ws₂, fun p hp => ?_, haccounts₁.append haccounts₂⟩
      rw [Node.operands]
      exact (hreads₁ p hp).bind (hreads₂ p hp).map
  | liftedMember same _ ih =>
      intro hc
      obtain ⟨ws, hreads, haccounts⟩ := ih (Calls.inner (.liftedMember same) hc)
      refine ⟨ws, fun p hp => ?_, haccounts⟩
      simpa [Node.operand, same] using hreads p hp
  | objectMember meets _ ih =>
      intro hc
      obtain ⟨ws, hreads, haccounts⟩ := ih (Calls.inner (.objectMember meets) hc)
      refine ⟨ws, fun p hp => ?_, haccounts⟩
      simpa [Node.operand, meets] using
        (hreads _ (location_below _ _ hp)).map (g := fun o => [Operand.object o])
  | skippedMember skips =>
      refine fun _ => ⟨[], fun p hp => ?_, .refl⟩
      simpa [Node.operand, skips] using Yields.pure []
  | plainMember alone _ ih =>
      intro hc
      obtain ⟨ws, hreads, haccounts⟩ := ih (Calls.inner (.plainMember alone) hc)
      refine ⟨ws, fun p hp => ?_, haccounts⟩
      rw [operand_of_standsAlone alone]
      exact (hreads _ (location_below _ _ hp)).map
  | rootReference resolved root _ ih =>
      intro hc
      obtain ⟨ws, ⟨rfl, rfl⟩, haccounts⟩ := ih (Calls.inner (.rootReference resolved root) hc)
      exact ⟨[], ⟨congrArg TypeExpr.named (hs.isRoot hc resolved).2, rfl⟩, haccounts⟩
  | deepReference resolved deep | recursiveReference resolved deep =>
      intro hc
      have hroot := (hs.isRoot hc resolved).1
      rw [deep] at hroot
      cases hroot
  | knownDefinition | guardedCycle => exact fun _ => ⟨[], ⟨rfl, rfl⟩, .refl⟩
  | newDefinition unfinished entry entered _ ih =>
      intro hc
      obtain ⟨ws, hreads, haccounts⟩ := ih (Calls.inner (.newDefinition unfinished entry entered) hc)
      exact ⟨[], ⟨rfl, rfl⟩, .declaration entry hreads haccounts⟩
  | aliasCycle unfinished entry cycle =>
      exact fun hc => absurd cycle (hs.not_cycle hc unfinished entry)
  | noDefinitions => exact fun _ => ⟨[], rfl, .refl⟩
  | definitions first _ ih₁ ih₂ =>
      intro hc
      obtain ⟨ws₁, ⟨-, rfl⟩, haccounts₁⟩ := ih₁ (Calls.inner .firstDefinition hc)
      obtain ⟨ws₂, rfl, haccounts₂⟩ := ih₂ (Calls.inner (.restDefinitions first) hc)
      exact ⟨[], rfl, haccounts₁.append haccounts₂⟩
  | build _ ih =>
      intro hc
      obtain ⟨ws, rfl, haccounts⟩ := ih (Calls.inner .build hc)
      exact ⟨[], rfl, haccounts⟩
  | noParameters | parameters | noOperations | plainOperation | queryOperation =>
      exact fun hc => hc.ofSchemas.elim
  | queryBuild => exact fun hc => nomatch hc.ofSchemas

end Setting

end SwaggerTypes
