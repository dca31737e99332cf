import SwaggerTypes.Proofs.Operands
import SwaggerTypes.Proofs.Run
import SwaggerTypes.Proofs.Validity
/-!
# Values of a type

Which values belong to a type expression among given declarations. An object type asks for the
properties that are not optional and says nothing about other keys, unless it has an index signature.
A name stands for its declaration. Every way of putting types together keeps the values it should.
-/

namespace SwaggerTypes

def BaseType.accepts : BaseType → Value → Bool
  | .string, .string _ => true
  | .number, .integer _ | .number, .float _ => true
  | .boolean, .bool _ => true
  | .null, .null => true
  | .any, _ => true
  | _, _ => false

def Declaration.type (d : Declaration) : TypeExpr :=
  match d.body with
  | .interface o => .object o
  | .synonym t => t

/-- `Member ds t v`: the value belongs to the type, names being those of the declarations `ds`. -/
inductive Member (ds : List Declaration) : TypeExpr → Value → Prop
  | base {type v} (h : BaseType.accepts type v = true) : Member ds (.base type) v
  | array {t vs} (h : ∀ v ∈ vs, Member ds t v) : Member ds (.array t) (.array vs)
  | union {ts t v} (ht : t ∈ ts) (h : Member ds t v) : Member ds (.union ts) v
  | intersection {ts v} (h : ∀ t ∈ ts, Member ds t v) : Member ds (.intersection ts) v
  | object {o : ObjectType TypeExpr} {fields}
      (declared : ∀ p ∈ o.properties, ∀ v, Entries.get? p.name fields = some v →
        Member ds p.type v)
      (present : ∀ p ∈ o.properties, p.optional = false → ∃ v, Entries.get? p.name fields = some v)
      (others : ∀ t name v, o.index = some t → Entries.get? name fields = some v →
        name ∉ o.properties.map Property.name → Member ds t v) :
      Member ds (.object o) (.object fields)
  | literal {l v} (h : Literal.denotes l v = true) : Member ds (.literal l) v
  | named {name d v} (found : ds.find? (·.name = name) = some d) (h : Member ds d.type v) :
      Member ds (.named name) v

theorem Literal.exists_distinct {v : Value} {values : List Literal} :
    ∀ kept : List Literal, (∃ l ∈ kept ++ values, l.denotes v = true) →
      ∃ k ∈ values.foldl (fun kept l => if kept.any (·.same l) then kept else kept ++ [l]) kept,
        k.denotes v = true := by
  induction values with
  | nil =>
      rintro kept ⟨l, hl, hv⟩
      exact ⟨l, by simpa using hl, hv⟩
  | cons w ws ih =>
      rintro kept ⟨l, hl, hv⟩
      rw [List.foldl_cons]
      apply ih
      rcases List.mem_append.mp hl with hl | hl
      · refine ⟨l, List.mem_append_left _ ?_, hv⟩
        split
        · exact hl
        · exact List.mem_append_left _ hl
      · rcases List.mem_cons.mp hl with rfl | hl
        · split
          · next hany =>
            obtain ⟨k, hk, hsame⟩ := List.any_eq_true.mp hany
            exact ⟨k, List.mem_append_left _ hk, Literal.denotes_of_same hsame hv⟩
          · exact ⟨l, by simp, hv⟩
        · exact ⟨l, List.mem_append_right _ hl, hv⟩

variable {ds : List Declaration} {v : Value}

namespace Member

theorem any : Member ds .any v := .base rfl

theorem nullable {t : TypeExpr} (h : Member ds t v) : Member ds t.nullable v := by
  cases t with
  | base type =>
      cases type with
      | any | null => exact h
      | string | number | boolean => exact .union List.mem_cons_self h
  | array | object | literal | named | intersection => exact .union List.mem_cons_self h
  | union ts =>
      cases h with
      | union ht h =>
          refine .union ?_ h
          split
          · exact ht
          · exact List.mem_append_left _ ht

theorem null_nullable {t : TypeExpr} : Member ds t.nullable .null := by
  have hnull : Member ds TypeExpr.null .null := .base rfl
  cases t with
  | base type =>
      cases type with
      | any | null => exact .base rfl
      | string | number | boolean => exact .union (by simp) hnull
  | array | object | literal | named | intersection => exact .union (by simp) hnull
  | union ts =>
      simp only [TypeExpr.nullable]
      split
      · next hany =>
        obtain ⟨t, ht, hnt⟩ := List.any_eq_true.mp hany
        refine .union ht ?_
        cases t with
        | base type =>
            cases type with
            | null => exact .base rfl
            | _ => cases hnt
        | _ => cases hnt
      · exact .union (by simp) hnull

theorem orNull {t : TypeExpr} {nullable : Bool} (h : Member ds t v) :
    Member ds (t.orNull nullable) v := by
  cases nullable with
  | false => exact h
  | true => exact h.nullable

theorem null_orNull {t : TypeExpr} : Member ds (t.orNull true) .null := null_nullable

theorem unionOf {ts : List TypeExpr} {t : TypeExpr} (ht : t ∈ ts) (h : Member ds t v) :
    Member ds (TypeExpr.unionOf ts) v := by
  match ts with
  | [one] =>
      rw [List.mem_singleton.mp ht] at h
      exact h
  | _ :: _ :: _ => exact .union ht h

theorem intersectionOf {ts : List TypeExpr} (h : ∀ t ∈ ts, Member ds t v) :
    Member ds (TypeExpr.intersectionOf ts) v := by
  match ts with
  | [] => exact any
  | [one] => exact h one List.mem_cons_self
  | _ :: _ :: _ => exact .intersection h

theorem agree {l r : TypeExpr} (hl : Member ds l v) (hr : Member ds r v) :
    Member ds (l.agree r) v := by
  unfold TypeExpr.agree
  split
  · exact hl
  · cases l with
    | intersection ts =>
        cases hl with
        | intersection hts =>
            refine .intersection fun t ht => ?_
            split at ht
            · exact hts t ht
            · rcases List.mem_append.mp ht with ht | ht
              · exact hts t ht
              · exact List.mem_singleton.mp ht ▸ hr
    | _ =>
        refine .intersection fun t ht => ?_
        rcases List.mem_cons.mp ht with rfl | ht
        · exact hl
        · exact List.mem_singleton.mp ht ▸ hr

theorem ofLiterals {values : List Literal} {l : Literal} (hl : l ∈ values)
    (h : l.denotes v = true) : Member ds (TypeExpr.ofLiterals values) v := by
  obtain ⟨k, hk, hv⟩ := Literal.exists_distinct [] ⟨l, hl, h⟩
  have hmem : TypeExpr.literal k ∈ (Literal.distinct values).map TypeExpr.literal :=
    List.mem_map_of_mem hk
  have hkv : Member ds (.literal k) v := .literal hv
  unfold TypeExpr.ofLiterals
  split
  · next one hone =>
    rw [hone, List.mem_singleton] at hmem
    exact hmem ▸ hkv
  · exact .union hmem hkv

end Member

/-! ## Objects -/

structure Property.Allows (ds : List Declaration) (p : Property TypeExpr)
    (fields : Entries Value) : Prop where
  declared : ∀ v, Entries.get? p.name fields = some v → Member ds p.type v
  present : p.optional = false → ∃ v, Entries.get? p.name fields = some v

theorem Member.object_iff {o : ObjectType TypeExpr} :
    Member ds (.object o) v ↔ ∃ fields, v = .object fields ∧
      (∀ p ∈ o.properties, p.Allows ds fields) ∧
        ∀ t name w, o.index = some t → Entries.get? name fields = some w →
          name ∉ o.properties.map Property.name → Member ds t w := by
  constructor
  · intro h
    cases h with
    | object declared present others =>
        exact ⟨_, rfl, fun p hp => ⟨declared p hp, present p hp⟩, others⟩
  · rintro ⟨fields, rfl, hp, others⟩
    exact .object (fun p hmem => (hp p hmem).declared) (fun p hmem => (hp p hmem).present) others

namespace ObjectType

variable {fields : Entries Value}

theorem merge_allows {p q : Property TypeExpr} (hname : q.name = p.name) (hp : p.Allows ds fields)
    (hq : q.Allows ds fields) : (q.merge p).Allows ds fields where
  declared := fun w hw => .agree (hq.declared w hw) (hp.declared w (hname ▸ hw))
  present := by
    intro hopt
    rcases Bool.and_eq_false_iff.mp hopt with hopt | hopt
    · exact hq.present hopt
    · obtain ⟨w, hw⟩ := hp.present hopt
      exact ⟨w, by rw [← hw, ← hname]; rfl⟩

theorem addProperty_allows {ps : List (Property TypeExpr)} {p : Property TypeExpr}
    (hp : p.Allows ds fields) (hps : ∀ q ∈ ps, q.Allows ds fields) :
    ∀ q ∈ addProperty ps p, q.Allows ds fields := by
  induction ps with
  | nil =>
      intro q hq
      exact List.mem_singleton.mp hq ▸ hp
  | cons r rs ih =>
      intro q hq
      have hr := hps r List.mem_cons_self
      have hrs := fun q hq => hps q (List.mem_cons_of_mem _ hq)
      rw [addProperty] at hq
      split at hq
      · next hname =>
        rcases List.mem_cons.mp hq with rfl | hq
        · exact merge_allows hname hp hr
        · exact hrs q hq
      · rcases List.mem_cons.mp hq with rfl | hq
        · exact hr
        · exact ih hrs q hq

/-- A property that is added puts its name behind the others unless it is one of them. -/
theorem names_addProperty (ps : List (Property TypeExpr)) (p : Property TypeExpr) :
    (addProperty ps p).map Property.name =
      if p.name ∈ ps.map Property.name then ps.map Property.name
      else ps.map Property.name ++ [p.name] := by
  induction ps with
  | nil => rfl
  | cons q qs ih =>
      rw [addProperty]
      by_cases hname : q.name = p.name
      · simp [hname, Property.merge]
      · have hne : p.name ≠ q.name := fun heq => hname heq.symm
        rw [if_neg hname, List.map_cons, ih]
        by_cases hmem : p.name ∈ qs.map Property.name
        · rw [if_pos hmem, if_pos (by simpa [hne] using hmem)]
          rfl
        · rw [if_neg hmem, if_neg (by simpa [hne] using hmem)]
          rfl

theorem subset_names_addProperty (ps : List (Property TypeExpr)) (p : Property TypeExpr) :
    p.name :: ps.map Property.name ⊆ (addProperty ps p).map Property.name := by
  rw [names_addProperty]
  split
  · next hmem => exact List.cons_subset.mpr ⟨hmem, fun _ h => h⟩
  · exact List.cons_subset.mpr ⟨List.mem_append_right _ List.mem_cons_self, List.subset_append_left _ _⟩

theorem foldl_addProperty_allows {ps qs : List (Property TypeExpr)}
    (hps : ∀ q ∈ ps, q.Allows ds fields) (hqs : ∀ q ∈ qs, q.Allows ds fields) :
    ∀ q ∈ qs.foldl addProperty ps, q.Allows ds fields := by
  induction qs generalizing ps with
  | nil => exact hps
  | cons r rs ih =>
      exact ih (addProperty_allows (hqs r List.mem_cons_self) hps)
        fun q hq => hqs q (List.mem_cons_of_mem _ hq)

theorem names_foldl_addProperty (ps qs : List (Property TypeExpr)) :
    ps.map Property.name ++ qs.map Property.name ⊆
      (qs.foldl addProperty ps).map Property.name := by
  induction qs generalizing ps with
  | nil => simp
  | cons r rs ih =>
      have hstep := List.cons_subset.mp (subset_names_addProperty ps r)
      have hrest := List.append_subset.mp (ih (addProperty ps r))
      refine List.append_subset.mpr ⟨List.Subset.trans hstep.2 hrest.1, ?_⟩
      exact List.cons_subset.mpr ⟨hrest.1 hstep.1, hrest.2⟩

end ObjectType

namespace Member

/-- A value of two objects belongs to the one merged from them. Each index signature is asked about
fewer keys there. -/
theorem merge {a b : ObjectType TypeExpr} (ha : Member ds (.object a) v)
    (hb : Member ds (.object b) v) : Member ds (.object (a.merge b)) v := by
  obtain ⟨fields, rfl, hpa, hia⟩ := object_iff.mp ha
  obtain ⟨_, hfields, hpb, hib⟩ := object_iff.mp hb
  cases hfields
  refine object_iff.mpr ⟨fields, rfl, ObjectType.foldl_addProperty_allows hpa hpb, ?_⟩
  intro t name w hindex hw hname
  -- a key that the merged object does not declare is declared by neither
  have hsub := List.append_subset.mp
    (ObjectType.names_foldl_addProperty a.properties b.properties)
  have hna : name ∉ a.properties.map Property.name := fun h => hname (hsub.1 h)
  have hnb : name ∉ b.properties.map Property.name := fun h => hname (hsub.2 h)
  obtain ⟨pa, ia⟩ := a
  obtain ⟨pb, ib⟩ := b
  cases ia with
  | none => exact hib t name w (by simpa [ObjectType.merge] using hindex) hw hnb
  | some x =>
      cases ib with
      | none =>
          exact hia t name w (by simpa [ObjectType.merge] using hindex) hw hna
      | some y =>
          obtain rfl : x.agree y = t := by simpa [ObjectType.merge] using hindex
          exact .agree (hia x name w rfl hw hna) (hib y name w rfl hw hnb)

theorem foldl_merge {o : ObjectType TypeExpr} {rest : List (ObjectType TypeExpr)}
    (ho : Member ds (.object o) v) (hrest : ∀ a ∈ rest, Member ds (.object a) v) :
    Member ds (.object (rest.foldl ObjectType.merge o)) v := by
  induction rest generalizing o with
  | nil => exact ho
  | cons a rest ih =>
      exact ih (ho.merge (hrest a List.mem_cons_self))
        fun b hb => hrest b (List.mem_cons_of_mem _ hb)

theorem arrange {o : ObjectType TypeExpr} {sorted : Bool} (h : Member ds (.object o) v) :
    Member ds (.object (o.arrange sorted)) v := by
  cases sorted with
  | false => exact h
  | true =>
      obtain ⟨fields, rfl, hp, hi⟩ := object_iff.mp h
      refine object_iff.mpr ⟨fields, rfl, fun p hmem => hp p (List.mem_mergeSort.mp hmem), ?_⟩
      intro t name w hindex hw hname
      refine hi t name w hindex hw fun hmem => hname ?_
      obtain ⟨p, hpm, rfl⟩ := List.mem_map.mp hmem
      exact List.mem_map_of_mem (List.mem_mergeSort.mpr hpm)

end Member

/-! ## Compositions -/

/-- The type of an operand, an object still to be merged included. -/
def Operand.whole : Operand → TypeExpr
  | .type t => t
  | .object o => .object o

/-- A value fits the operands of a composition: one type of a union, every operand of an
intersection. -/
def Operand.Fits (ds : List Declaration) (union : Bool) (os : List Operand) (v : Value) : Prop :=
  if union then ∃ t, .type t ∈ os ∧ Member ds t v else ∀ o ∈ os, Member ds o.whole v

theorem Member.mergedObject {os : List Operand} {o : ObjectType TypeExpr}
    (h : ∀ o ∈ os, Member ds o.whole v) (ho : Operand.mergedObject? os = some o) :
    Member ds (.object o) v := by
  have hall : ∀ a ∈ os.filterMap Operand.object?, Member ds (.object a) v :=
    fun a ha => h _ (Operand.mem_filterMap_object?.mp ha)
  unfold Operand.mergedObject? at ho
  split at ho
  · cases ho
  · next first rest heq =>
    cases ho
    rw [heq] at hall
    exact foldl_merge (hall first List.mem_cons_self)
      fun a ha => hall a (List.mem_cons_of_mem _ ha)

/-- A value that fits the operands belongs to the type made of them. -/
theorem Member.combine {sorted union : Bool} {os : List Operand} (h : Operand.Fits ds union os v) :
    Member ds (Operand.combine sorted union os) v := by
  cases union with
  | true =>
      obtain ⟨t, ht, hv⟩ := h
      exact unionOf (Operand.mem_filterMap_type?.mpr ht) hv
  | false =>
      have hall : ∀ o ∈ os, Member ds o.whole v := h
      show Member ds (Operand.intersection sorted os) v
      rw [Operand.intersection_eq]
      apply intersectionOf
      intro t ht
      rcases Operand.mem_of_mem_place ht with hm | ho
      · obtain ⟨o, ho, rfl⟩ := Operand.mem_merged hm
        exact (mergedObject hall ho).arrange
      · exact hall _ ho

end SwaggerTypes
