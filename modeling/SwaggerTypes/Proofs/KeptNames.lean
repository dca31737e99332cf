import SwaggerTypes.Proofs.RenamedDeclarations
/-!
# Kept names

Names are handed out in the order of the definitions. A definition is declared under its sanitized key
unless an earlier one has the same sanitized key or was renamed to that very name. The second happens
only behind a collision of sanitized keys: the name is a key that two earlier definitions share, with
digits behind it.
-/

namespace SwaggerTypes

def IsShared (ds : List Definition) (key : String) : Prop :=
  ∃ a b, [a, b].Sublist ds ∧ Text.sanitize a.name = key ∧ Text.sanitize b.name = key

def IsNumbered (key name : String) : Prop :=
  ∃ digits, name = key ++ digits ∧ digits ≠ "" ∧ ∀ c ∈ digits.toList, c.isDigit = true

theorem isNumbered_toString (key : String) (n : Nat) : IsNumbered key (key ++ toString n) := by
  refine ⟨toString n, rfl, fun hempty => ?_, fun c hc => Pointer.isDigit_of_mem_toString hc⟩
  have hlist : (toString n).toList = Nat.toDigits 10 n := by simp
  rw [hempty] at hlist
  exact Nat.toDigits_ne_nil hlist.symm

theorem IsNumbered.numbered {key name : String} (h : IsNumbered key name) (n : Nat) :
    IsNumbered key (name ++ toString n) := by
  obtain ⟨digits, rfl, hne, hdigits⟩ := h
  refine ⟨digits ++ toString n, String.append_assoc .., fun hempty => ?_, fun c hc => ?_⟩
  · exact hne (String.append_eq_empty_iff.mp hempty).1
  · rcases List.mem_append.mp (String.toList_append ▸ hc) with hc | hc
    · exact hdigits c hc
    · exact Pointer.isDigit_of_mem_toString hc

theorem IsShared.mono {ds es : List Definition} {key : String} (h : IsShared ds key)
    (hsub : ds.Sublist es) : IsShared es key := by
  obtain ⟨a, b, hab, ha, hb⟩ := h
  exact ⟨a, b, hab.trans hsub, ha, hb⟩

namespace SchemaModel

/-- What comes behind some definitions changes nothing about their names. -/
theorem takeNames_take (ds : List Definition) (i : Nat) :
    (takeNames (ds.take i)).1 = (takeNames ds).1.take i := by
  induction ds using List.reverseRecOn with
  | nil => simp [takeNames]
  | append_singleton ds d ih =>
      have hlength := (named_takeNames ds).length
      rcases Nat.lt_or_ge ds.length i with hlt | hle
      · have hall : (ds ++ [d]).length ≤ i := by
          rw [List.length_append, List.length_singleton]
          exact hlt
        have hnames := (named_takeNames (ds ++ [d])).length
        rw [List.take_of_length_le hall, List.take_of_length_le (hnames ▸ hall)]
      · rw [takeNames_concat, List.take_append_of_le_length hle, ih,
          List.take_append_of_le_length (hlength ▸ hle)]

/-- A definition is given the next name after those of the definitions before it. -/
theorem getElem?_takeNames {ds : List Definition} {i : Nat} {d : Definition}
    (entry : ds[i]? = some d) :
    (takeNames ds).1[i]? =
      some (nextName ((takeNames ds).1.take i).reverse (Text.sanitize d.name) d.pointer).1 := by
  obtain ⟨hi, rfl⟩ := List.getElem?_eq_some_iff.mp entry
  have hsucc := takeNames_take ds (i + 1)
  have hlength : (takeNames (ds.take i)).1.length = i := by
    rw [(named_takeNames _).length, List.length_take, Nat.min_eq_left (Nat.le_of_lt hi)]
  have hlast : (takeNames (ds.take (i + 1))).1[i]? = (takeNames ds).1[i]? := by
    rw [hsucc, List.getElem?_take_of_lt (Nat.lt_succ_self i)]
  rw [← hlast, ← takeNames_take, ← (named_takeNames (ds.take i)).taken,
    List.take_succ_eq_append_getElem hi, takeNames_concat]
  exact (List.getElem?_append_right (Nat.le_of_eq hlength)).trans (by rw [hlength, Nat.sub_self]; rfl)

/-- Whatever names are given, each sanitized key is one of them. -/
theorem sanitize_mem_takeNames {ds : List Definition} {d : Definition} (h : d ∈ ds) :
    Text.sanitize d.name ∈ (takeNames ds).1 := by
  induction ds using List.reverseRecOn with
  | nil => cases h
  | append_singleton ds e ih =>
      rw [takeNames_concat]
      rcases List.mem_append.mp h with h | h
      · exact List.mem_append_left _ (ih h)
      · obtain rfl := List.mem_singleton.mp h
        have htaken := (named_takeNames ds).taken
        by_cases hmem : Text.sanitize d.name ∈ (takeNames ds).2.taken
        · rw [htaken, List.mem_reverse] at hmem
          exact List.mem_append_left _ hmem
        · rw [nextName_of_not_mem _ hmem]
          exact List.mem_append_right _ (List.mem_singleton_self _)

/-- A name that is given is a sanitized key, or one that two definitions share with digits behind. -/
theorem key_or_numbered {ds : List Definition} {name : String} (h : name ∈ (takeNames ds).1) :
    (∃ d ∈ ds, Text.sanitize d.name = name) ∨ ∃ key, IsShared ds key ∧ IsNumbered key name := by
  induction ds using List.reverseRecOn generalizing name with
  | nil => cases h
  | append_singleton ds d ih =>
      have hsub : ds.Sublist (ds ++ [d]) := List.sublist_append_left ..
      rw [takeNames_concat] at h
      rcases List.mem_append.mp h with h | h
      · rcases ih h with ⟨e, he, hname⟩ | ⟨key, hshared, hnumbered⟩
        · exact .inl ⟨e, hsub.subset he, hname⟩
        · exact .inr ⟨key, hshared.mono hsub, hnumbered⟩
      · have hname := List.mem_singleton.mp h
        have hgiven : d.request.Given name := ⟨_, hname⟩
        rcases hgiven.base_or_numbered with hbase | ⟨n, hn⟩
        · exact .inl ⟨d, by simp, hbase.symm⟩
        · by_cases hmem : Text.sanitize d.name ∈ (takeNames ds).2.taken
          · rw [(named_takeNames ds).taken, List.mem_reverse] at hmem
            rcases ih hmem with ⟨e, he, hkey⟩ | ⟨key, hshared, hnumbered⟩
            · have hpair : [e, d].Sublist (ds ++ [d]) :=
                (List.singleton_sublist.mpr he).append (List.Sublist.refl [d])
              exact .inr ⟨_, ⟨e, d, hpair, hkey, rfl⟩, hn ▸ isNumbered_toString _ n⟩
            · exact .inr ⟨key, hshared.mono hsub, hn ▸ hnumbered.numbered n⟩
          · rw [nextName_of_not_mem _ hmem] at hname
            exact .inl ⟨d, by simp, hname.symm⟩

/-- A definition keeps its sanitized key exactly when no earlier definition has been given it. -/
theorem keeps_key_iff {ds : List Definition} {i : Nat} {d : Definition} (entry : ds[i]? = some d) :
    (takeNames ds).1[i]? = some (Text.sanitize d.name) ↔
      Text.sanitize d.name ∉ (takeNames ds).1.take i := by
  rw [getElem?_takeNames entry, Option.some.injEq]
  constructor
  · intro hkept hmem
    exact nextName_ne_base d.pointer (List.mem_reverse.mpr hmem) hkept
  · intro hfree
    rw [nextName_of_not_mem _ (mt List.mem_reverse.mp hfree)]

/-- The name under which a definition is declared. It is the sanitized key exactly when no earlier
definition has the same sanitized key and none was renamed to it; and where none has the same sanitized
key, one was renamed to it only if two of them share a sanitized key that is this one without some digits
at its end. -/
theorem declared_under_key {ds : List Definition} {i : Nat} {d : Definition}
    (entry : ds[i]? = some d) :
    ((takeNames ds).1[i]? = some (Text.sanitize d.name) ↔
      ∀ j < i, ∀ e, ds[j]? = some e →
        Text.sanitize e.name ≠ Text.sanitize d.name ∧
          (takeNames ds).1[j]? ≠ some (Text.sanitize d.name)) ∧
    ((∀ j < i, ∀ e, ds[j]? = some e → Text.sanitize e.name ≠ Text.sanitize d.name) →
      (takeNames ds).1[i]? ≠ some (Text.sanitize d.name) →
      ∃ key, IsShared (ds.take i) key ∧ IsNumbered key (Text.sanitize d.name)) ∧
    ∀ (model : SchemaModel) (sorted withQuery : Bool) (b : Build),
      model.definitions.entries = ds → model.build sorted withQuery = .ok b →
      b.declarations[i]?.map Declaration.name = (takeNames ds).1[i]? := by
  have hi : i < ds.length := (List.getElem?_eq_some_iff.mp entry).1
  have hlength := (named_takeNames ds).length
  have hearlier : ∀ {e}, e ∈ ds.take i ↔ ∃ j < i, ds[j]? = some e := by
    intro e
    simp only [List.mem_take_iff_getElem, List.getElem?_eq_some_iff]
    grind
  refine ⟨?kept, ?renamed, ?declared⟩
  case kept =>
    rw [keeps_key_iff entry]
    constructor
    · intro hfree j hj e he
      refine ⟨fun hkey => hfree ?_, fun hname => hfree ?_⟩
      · rw [← takeNames_take, ← hkey]
        exact sanitize_mem_takeNames (hearlier.mpr ⟨j, hj, he⟩)
      · exact List.mem_of_getElem? ((List.getElem?_take_of_lt hj).trans hname)
    · intro hothers hmem
      obtain ⟨j, hj⟩ := List.getElem?_of_mem hmem
      have hlt : j < i := by
        have hbound := (List.getElem?_eq_some_iff.mp hj).1
        rw [List.length_take] at hbound
        omega
      rw [List.getElem?_take_of_lt hlt] at hj
      exact (hothers j hlt _ (List.getElem?_eq_getElem (Nat.lt_trans hlt hi))).2 hj
  case renamed =>
    intro hdifferent hrenamed
    rw [ne_eq, keeps_key_iff entry, not_not, ← takeNames_take] at hrenamed
    rcases key_or_numbered hrenamed with ⟨e, he, hkey⟩ | hnumbered
    · obtain ⟨j, hj, hentry⟩ := hearlier.mp he
      exact absurd hkey (hdifferent j hj e hentry)
    · exact hnumbered
  case declared =>
    rintro model sorted withQuery b rfl hbuild
    obtain ⟨log, st, queries, hb⟩ := built_of_ok hbuild
    have hnames := (declarations_of_build hbuild).1
    rw [← hnames, List.getElem?_map, List.getElem?_take_of_lt hi]

/-- Two definitions that collide, one whose key is the name that the second of them gets, and one that
has nothing to do with them. -/
def numberedPet : SchemaModel where
  definitions :=
    { entries := ["Pet", "Pet!", "Pet2", "Owner"].map fun name => ⟨.definitions, name, .bare .any⟩
      nodup := by decide }

theorem numberedPet_names :
    (numberedPet.build false false).toOption.map (fun b => b.declarations.map Declaration.name) =
      some ["Pet", "Pet2", "Pet22", "Owner"] := by
  decide +kernel

theorem numberedPet_keys :
    numberedPet.definitions.entries.map (fun d => Text.sanitize d.name) =
      ["Pet", "Pet", "Pet2", "Owner"] := by
  decide +kernel

theorem numberedPet_key {i : Nat} {d : Definition}
    (entry : numberedPet.definitions.entries[i]? = some d) :
    ["Pet", "Pet", "Pet2", "Owner"][i]? = some (Text.sanitize d.name) := by
  rw [← numberedPet_keys, List.getElem?_map, entry]
  rfl

theorem numberedPet_other {i : Nat} {d : Definition}
    (entry : numberedPet.definitions.entries[i]? = some d) (hi : i ≠ 2) :
    Text.sanitize d.name ≠ "Pet2" := by
  intro heq
  have hkey := numberedPet_key entry
  rw [heq] at hkey
  match i with
  | 0 | 1 | 3 => simp at hkey
  | 2 => exact hi rfl
  | i + 4 => simp at hkey

/-- A definition whose sanitized key differs from all others need not be declared under it. -/
theorem pet2_renamed : ∃ b d, numberedPet.build false false = .ok b ∧
    numberedPet.definitions.entries[2]? = some d ∧
    (∀ j e, numberedPet.definitions.entries[j]? = some e → j ≠ 2 →
      Text.sanitize e.name ≠ Text.sanitize d.name) ∧
    b.declarations[2]?.map Declaration.name ≠ some (Text.sanitize d.name) := by
  obtain ⟨b, hbuild, hnames⟩ := eq_ok_of_toOption_map numberedPet_names
  have hpet2 := Option.some.inj (numberedPet_key (i := 2) rfl)
  refine ⟨b, _, hbuild, rfl, fun j e he hj => ?_, ?_⟩
  · rw [← hpet2]
    exact numberedPet_other he hj
  · rw [← List.getElem?_map, hnames, ← hpet2]
    decide

/-- The third definition is declared as `Pet22`; the key that two definitions before it share is `Pet2`
without its digit. -/
theorem numberedPet_declared : ∃ b d, numberedPet.build false false = .ok b ∧
    numberedPet.definitions.entries[2]? = some d ∧ Text.sanitize d.name = "Pet2" ∧
    b.declarations[2]?.map Declaration.name = some "Pet22" ∧
    (takeNames numberedPet.definitions.entries).1[2]? = some "Pet22" ∧
    ∃ key, IsShared (numberedPet.definitions.entries.take 2) key ∧ IsNumbered key "Pet2" := by
  obtain ⟨b, hbuild, hnames⟩ := eq_ok_of_toOption_map numberedPet_names
  have hpet2 := Option.some.inj (numberedPet_key (i := 2) rfl)
  have entry : numberedPet.definitions.entries[2]? = some _ := rfl
  obtain ⟨-, hrenamed, hdeclared⟩ := declared_under_key entry
  have hname : b.declarations[2]?.map Declaration.name = some "Pet22" := by
    rw [← List.getElem?_map, hnames]
    rfl
  have htaken := (hdeclared numberedPet false false b rfl hbuild).symm.trans hname
  rw [← hpet2, htaken] at hrenamed
  exact ⟨b, _, hbuild, rfl, hpet2.symm, hname, htaken,
    hrenamed (fun j hj e he => numberedPet_other he (Nat.ne_of_lt hj)) (by decide)⟩

end SchemaModel

end SwaggerTypes
