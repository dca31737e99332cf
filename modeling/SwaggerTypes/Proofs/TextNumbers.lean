import SwaggerTypes.Proofs.ListedValues
/-!
# Numbers in texts

A document that is read from a text has numbers of JSON only: an integer that does not fit into 64 bits is
refused or read as a floating point number, and an infinity becomes null. References and merge keys copy
data and make up none.
-/

namespace SwaggerTypes

namespace Markup

/-- All integers in a datum, those in keys apart, have 64 bits, with a sign or without one. -/
inductive Datum.InRange : Datum → Prop
  | null : InRange .null
  | bool {b} : InRange (.bool b)
  | integer {n} (range : IntegerRange.of n = .datum) : InRange (.integer n)
  | float {d} : InRange (.float d)
  | string {s} : InRange (.string s)
  | sequence {items} (h : ∀ d ∈ items, InRange d) : InRange (.sequence items)
  | mapping {entries} (h : ∀ e ∈ entries, InRange e.2) : InRange (.mapping entries)
  | tagged {name content} (h : InRange content) : InRange (.tagged name content)

namespace Datum

/-! ## Words -/

theorem inRange_null? {text : String} {d : Datum} (h : null? text = some d) : d.InRange := by
  unfold null? at h
  split at h
  · cases h
    exact .null
  · cases h

theorem inRange_bool? {text : String} {d : Datum} (h : bool? text = some d) : d.InRange := by
  unfold bool? at h
  split at h
  · cases h
    exact .bool
  · split at h
    · cases h
      exact .bool
    · cases h

theorem inRange_ofWord {text : String} {d : Datum} (h : ofWord text = some d) : d.InRange := by
  unfold ofWord at h
  by_cases hempty : text = ""
  · rw [if_pos hempty] at h
    cases h
    exact .null
  rw [if_neg hempty] at h
  extract_lets number numeric at h
  have hnumber : number.InRange := by
    unfold number
    split
    · exact .string
    · split
      · exact .float
      · exact .string
  have hnumeric : ∀ d, numeric = some d → d.InRange := by
    intro d hd
    unfold numeric at hd
    split at hd
    · cases hd
      exact hnumber
    · split at hd
      · next hrange =>
        cases hd
        exact .integer hrange
      · cases hd
      · cases hd
        exact hnumber
  simp only [Option.orElse_eq_orElse, Option.orElse_eq_or, Option.or_eq_some_iff,
    Option.or_eq_none_iff] at h
  rcases h with (hnull | ⟨-, hbool⟩) | ⟨-, hrest⟩
  · exact inRange_null? hnull
  · exact inRange_bool? hbool
  · exact hnumeric d hrest

theorem inRange_ofTagged {tag : TagBytes} {text : String} {d : Datum}
    (h : ofTagged tag text = some d) : d.InRange := by
  unfold ofTagged at h
  split at h
  · exact inRange_bool? h
  · exact inRange_null? h
  · obtain ⟨d, -, rfl⟩ := Option.map_eq_some_iff.mp h
    exact .float
  · split at h
    · split at h
      · next hrange =>
        cases h
        exact .integer hrange
      · cases h
      · cases h
    · cases h
  · cases h
    exact .string

end Datum

namespace Node

/-! ## Nodes -/

theorem inRange_withTag {p : Properties} {content : Datum} (h : content.InRange) :
    (withTag p content).InRange := by
  unfold withTag
  split
  · exact .tagged h
  · exact h

theorem inRange_scalarDatum {p : Properties} {text : String} {plain : Bool} {d : Datum}
    (h : scalarDatum p text plain = some d) : d.InRange := by
  have hword : ∀ d, (if plain then Datum.ofWord text else some (.string text)) = some d →
      d.InRange := by
    intro d hd
    split at hd
    · exact Datum.inRange_ofWord hd
    · cases hd
      exact .string
  unfold scalarDatum at h
  dsimp only at h
  split at h
  · exact hword d h
  · split at h
    · obtain ⟨content, hcontent, rfl⟩ := Option.map_eq_some_iff.mp h
      exact inRange_withTag (hword content hcontent)
    · exact Datum.inRange_ofTagged h

def Expansion.Gives {α : Type} (x : Expansion α) (Q : α → Prop) : Prop :=
  ∀ n a n', x.run n = some (a, n') → Q a

namespace Expansion.Gives

variable {α β : Type} {x : Expansion α} {f : α → Expansion β} {Q : α → Prop} {R : β → Prop} {a : α}

theorem pure (h : Q a) : Gives (Pure.pure a) Q := by
  intro n b n' hrun
  cases hrun
  exact h

theorem fails : Gives (failure : Expansion α) Q := by
  intro n a n' hrun
  cases hrun

theorem bind (hx : x.Gives Q) (hf : ∀ a, Q a → (f a).Gives R) : (x >>= f).Gives R := by
  intro n b n' hrun
  rw [StateT.run_bind] at hrun
  obtain ⟨⟨a, m⟩, ha, hb⟩ := Option.bind_eq_some_iff.mp hrun
  exact hf a (hx n a m ha) m b n' hb

theorem any (x : Expansion α) : x.Gives fun _ => True := fun _ _ _ _ => trivial

theorem ofOption {r : Option α} (h : ∀ a, r = some a → Q a) : Gives (liftM r : Expansion α) Q := by
  intro n a n' hrun
  cases r with
  | none => cases hrun
  | some b =>
      cases hrun
      exact h _ rfl

theorem mapM {l : List α} (h : ∀ a ∈ l, (f a).Gives R) : Gives (l.mapM f) fun bs => ∀ b ∈ bs, R b := by
  induction l with
  | nil => exact .pure nofun
  | cons a l ih =>
      obtain ⟨ha, hl⟩ := List.forall_mem_cons.mp h
      rw [List.mapM_cons]
      refine ha.bind fun b hb => (ih hl).bind fun bs hbs => .pure ?_
      exact List.forall_mem_cons.mpr ⟨hb, hbs⟩

end Expansion.Gives

/-- The datum of a node, wherever its references lead. -/
theorem expand_inRange (targets : Targets) (depth : Nat) :
    ∀ node, (expand targets depth node).Gives Datum.InRange := by
  induction depth with
  | zero =>
      intro node
      unfold expand
      refine (Expansion.Gives.any _).bind fun target _ => ?_
      cases target with
      | scalar p text plain => exact .ofOption fun d hd => inRange_scalarDatum hd
      | _ => exact .fails
  | succ depth ih =>
      intro node
      unfold expand
      refine (Expansion.Gives.any _).bind fun target _ => ?_
      cases target with
      | scalar p text plain => exact .ofOption fun d hd => inRange_scalarDatum hd
      | sequence p items =>
          refine (Expansion.Gives.mapM fun item _ => ih item).bind fun data hdata => ?_
          exact .pure (inRange_withTag (.sequence hdata))
      | mapping p entries =>
          have hentries : ((entries.mapM fun e => do
              return (← expand targets depth e.1, ← expand targets depth e.2) :
                Expansion (List (Datum × Datum)))).Gives fun data => ∀ e ∈ data, e.2.InRange := by
            refine .mapM fun e _ => ?_
            refine (Expansion.Gives.any _).bind fun key _ => (ih e.2).bind fun value hvalue => ?_
            exact .pure hvalue
          refine hentries.bind fun data hdata => ?_
          split
          · exact .pure (inRange_withTag (.mapping hdata))
          · exact .fails
      | reference => exact .fails

end Node

namespace Datum

/-! ## Merge keys -/

theorem mem_of_takeMerge? {entries rest : Mapping} {merge : Datum}
    (h : takeMerge? entries = some (merge, rest)) :
    (∃ e ∈ entries, e.2 = merge) ∧ ∀ e ∈ rest, e ∈ entries := by
  obtain ⟨i, -, h⟩ := Option.bind_eq_some_iff.mp h
  obtain ⟨e, he, h⟩ := Option.bind_eq_some_iff.mp h
  obtain ⟨last, hlast, h⟩ := Option.bind_eq_some_iff.mp h
  cases h
  refine ⟨⟨e, List.mem_of_getElem? he, rfl⟩, fun f hf => ?_⟩
  rcases List.mem_or_eq_of_mem_set ((List.dropLast_sublist _).subset hf) with hf | rfl
  · exact hf
  · exact List.mem_of_getLast? hlast

theorem mem_foldl_addNew {entries more : Mapping} {e : Datum × Datum}
    (h : e ∈ more.foldl addNew entries) : e ∈ entries ∨ e ∈ more := by
  induction more generalizing entries with
  | nil => exact .inl h
  | cons f more ih =>
      rcases ih h with h | h
      · unfold addNew at h
        split at h
        · exact .inl h
        · rcases List.mem_append.mp h with h | h
          · exact .inl h
          · exact .inr (List.mem_singleton.mp h ▸ List.mem_cons_self)
      · exact .inr (List.mem_cons_of_mem _ h)

theorem mergeEntries?_inRange {merge : Datum} {entries : Mapping} (hmerge : merge.InRange)
    (h : mergeEntries? merge = some entries) : ∀ e ∈ entries, e.2.InRange := by
  cases hmerge with
  | mapping hentries =>
      cases h
      exact hentries
  | sequence hitems =>
      obtain ⟨lists, hlists, rfl⟩ := Option.map_eq_some_iff.mp h
      intro e he
      obtain ⟨list, hlist, he⟩ := List.mem_flatten.mp he
      obtain ⟨item, hitem, hread⟩ := mem_of_mapM_some hlists list hlist
      cases hitems item hitem with
      | mapping hentries =>
          cases hread
          exact hentries e he
      | _ => cases hread
  | _ => cases h

theorem mergeHere?_inRange {entries merged : Mapping} (hentries : ∀ e ∈ entries, e.2.InRange)
    (h : mergeHere? entries = some merged) : ∀ e ∈ merged, e.2.InRange := by
  unfold mergeHere? at h
  split at h
  · cases h
    exact hentries
  · next merge rest htake =>
    obtain ⟨more, hmore, rfl⟩ := Option.map_eq_some_iff.mp h
    obtain ⟨⟨f, hf, rfl⟩, hrest⟩ := mem_of_takeMerge? htake
    intro e he
    rcases mem_foldl_addNew he with he | he
    · exact hentries e (hrest e he)
    · exact mergeEntries?_inRange (hentries f hf) hmore e he

theorem mergeWithin_inRange {fuel : Nat} {d d' : Datum} (hd : d.InRange)
    (h : mergeWithin fuel d = some d') : d'.InRange := by
  induction fuel generalizing d d' with
  | zero => cases h
  | succ fuel ih =>
      cases hd with
      | sequence hitems =>
          obtain ⟨merged, hmerged, rfl⟩ := Option.map_eq_some_iff.mp h
          refine .sequence fun item hitem => ?_
          obtain ⟨before, hbefore, hread⟩ := mem_of_mapM_some hmerged item hitem
          exact ih (hitems before hbefore) hread
      | mapping hentries =>
          obtain ⟨here, hhere, h⟩ := Option.bind_eq_some_iff.mp h
          obtain ⟨merged, hmerged, heq⟩ := Option.bind_eq_some_iff.mp h
          cases heq
          refine .mapping fun e he => ?_
          obtain ⟨before, hbefore, hread⟩ := mem_of_mapM_some hmerged e he
          obtain ⟨value, hvalue, rfl⟩ := Option.map_eq_some_iff.mp hread
          exact ih (mergeHere?_inRange hentries hhere before hbefore) hvalue
      | tagged hcontent =>
          obtain ⟨content, hmerged, rfl⟩ := Option.map_eq_some_iff.mp h
          exact .tagged (ih hcontent hmerged)
      | null =>
          cases h
          exact .null
      | bool =>
          cases h
          exact .bool
      | integer range =>
          cases h
          exact .integer range
      | float =>
          cases h
          exact .float
      | string =>
          cases h
          exact .string

/-! ## Values -/

theorem itemValues?_eq (items : List Datum) : itemValues? items = items.mapM value? := by
  induction items with
  | nil => rfl
  | cons item items ih =>
      rw [itemValues?, ih, List.mapM_cons]
      rfl

def field? (e : Datum × Datum) : Option (String × Value) := do
  let key ← keyText? e.1
  let v ← value? e.2
  some (key, v)

theorem entryValues?_eq (entries : Mapping) : entryValues? entries = entries.mapM field? := by
  induction entries with
  | nil => rfl
  | cons e entries ih =>
      rw [entryValues?, ih, List.mapM_cons, field?]
      cases keyText? e.1 with
      | none => rfl
      | some key => cases value? e.2 <;> rfl

theorem InRange.hasJsonNumbers {d : Datum} (hd : d.InRange) :
    ∀ {v}, d.value? = some v → v.hasJsonNumbers = true := by
  induction hd with
  | null | bool | string =>
      intro v h
      cases h
      rfl
  | integer range =>
      intro v h
      cases h
      unfold IntegerRange.of at range
      split at range
      · next hbounds => simpa [Value.hasJsonNumbers] using hbounds
      · split at range <;> cases range
  | float =>
      intro v h
      cases h
      split
      · next hfinite => exact hfinite
      · rfl
  | sequence _ ih =>
      intro v h
      obtain ⟨vs, hvs, rfl⟩ := Option.map_eq_some_iff.mp h
      rw [Value.hasJsonNumbers, Value.itemsJsonNumbers_eq, List.all_eq_true]
      intro w hw
      rw [itemValues?_eq] at hvs
      obtain ⟨item, hitem, hread⟩ := mem_of_mapM_some hvs w hw
      exact ih item hitem hread
  | mapping _ ih =>
      intro v h
      obtain ⟨fields, hfields, rfl⟩ := Option.map_eq_some_iff.mp h
      rw [Value.hasJsonNumbers, Value.fieldsJsonNumbers_eq, List.all_eq_true]
      intro field hfield
      rw [entryValues?_eq] at hfields
      obtain ⟨e, he, hfield⟩ := mem_of_mapM_some hfields field (Entries.mem_ofList hfield)
      obtain ⟨key, -, hfield⟩ := Option.bind_eq_some_iff.mp hfield
      obtain ⟨v, hread, heq⟩ := Option.bind_eq_some_iff.mp hfield
      cases heq
      exact ih e he hread
  | tagged _ ih =>
      intro v h
      obtain ⟨content, hcontent, rfl⟩ := Option.map_eq_some_iff.mp h
      rw [Value.hasJsonNumbers, Value.fieldsJsonNumbers_eq, List.all_eq_true]
      exact List.forall_mem_singleton.mpr (ih hcontent)

end Datum

end Markup

/-- The numbers of a document that is read from a text are those of JSON. -/
theorem Value.hasJsonNumbers_of_text {text : String} {document : Value}
    (h : Value.ofText? text = some document) : document.hasJsonNumbers = true := by
  obtain ⟨node, -, h⟩ := Option.bind_eq_some_iff.mp h
  obtain ⟨d, hd, h⟩ := Option.bind_eq_some_iff.mp h
  obtain ⟨merged, hmerged, hvalue⟩ := Option.bind_eq_some_iff.mp h
  obtain ⟨⟨_, n⟩, hrun, rfl⟩ := Option.map_eq_some_iff.mp hd
  have hexpanded := Markup.Node.expand_inRange _ _ node _ _ _ hrun
  exact (Markup.Datum.mergeWithin_inRange hexpanded hmerged).hasJsonNumbers hvalue

end SwaggerTypes
