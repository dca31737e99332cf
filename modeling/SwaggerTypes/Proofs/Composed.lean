import SwaggerTypes.Proofs.Operands
import SwaggerTypes.Proofs.Run
/-!
# Types put together

What is said of a type is often said of its parts: it holds of a union or an intersection when it
holds of the members. Such a property passes from the types that a synthesis finds to all that is made
of them, whether `null` is added, literals are listed, operands are joined or objects are merged.
-/

namespace SwaggerTypes

/-- A property of types that holds of compositions when it holds of their members. -/
structure TypeExpr.Composed (C : TypeExpr → Prop) : Prop where
  base : ∀ type, C (.base type)
  union : ∀ ms, C (.union ms) ↔ ∀ t ∈ ms, C t
  intersection : ∀ ms, C (.intersection ms) ↔ ∀ t ∈ ms, C t

structure TypeExpr.Merged (C : TypeExpr → Prop) : Prop extends TypeExpr.Composed C where
  merge : ∀ a b, C (.object a) → C (.object b) → C (.object (a.merge b))
  arrange : ∀ sorted o, C (.object o) → C (.object (o.arrange sorted))

structure TypeExpr.Hereditary (C : TypeExpr → Prop) : Prop extends TypeExpr.Composed C where
  array : ∀ t, C t → C (.array t)
  object : ∀ o : ObjectType TypeExpr, C (.object o) ↔
    (∀ p ∈ o.properties, C p.type) ∧ ∀ t, o.index = some t → C t

theorem Literal.mem_of_mem_distinct {values : List Literal} {value : Literal}
    (h : value ∈ distinct values) : value ∈ values := by
  have hfold : ∀ (rest kept : List Literal),
      value ∈ rest.foldl (fun kept v => if kept.any (·.same v) then kept else kept ++ [v]) kept →
        value ∈ kept ∨ value ∈ rest := by
    intro rest
    induction rest with
    | nil => exact fun kept hmem => .inl hmem
    | cons v rest ih =>
        intro kept hmem
        simp only [List.foldl_cons] at hmem
        rcases ih _ hmem with hkept | hrest
        · split at hkept
          · exact .inl hkept
          · rcases List.mem_append.mp hkept with hkept | hv
            · exact .inl hkept
            · exact .inr (List.mem_singleton.mp hv ▸ List.mem_cons_self)
        · exact .inr (List.mem_cons_of_mem _ hrest)
  exact (hfold values [] h).resolve_left (List.not_mem_nil)

/-- The type that an operand stands for by itself. -/
def Operand.alone : Operand → TypeExpr
  | .type t => t
  | .object o => .object o

/-- Adding `null` leaves a type as it is, puts it next to `null`, or adds a member to a union. -/
theorem TypeExpr.nullable_cases (t : TypeExpr) :
    t.nullable = t ∨ t.nullable = .union [t, .null] ∨
      ∃ ms, t = .union ms ∧ t.nullable = .union (ms ++ [.null]) := by
  cases t with
  | base type =>
      cases type with
      | null | any => exact .inl rfl
      | string | number | boolean => exact .inr (.inl rfl)
  | union ms =>
      by_cases hnull : ms.any isNull = true
      · exact .inl (by simp [nullable, hnull])
      · exact .inr (.inr ⟨ms, rfl, by simp [nullable, hnull]⟩)
  | array | intersection | object | literal | named => exact .inr (.inl rfl)

namespace TypeExpr.Composed

variable {C : TypeExpr → Prop} {t u : TypeExpr}

theorem nullable (hC : Composed C) (h : C t) : C t.nullable := by
  have hnull : C .null := hC.base .null
  rcases t.nullable_cases with heq | heq | ⟨ms, rfl, heq⟩
  · rwa [heq]
  · rw [heq, hC.union]
    simp [h, hnull]
  · rw [hC.union] at h
    rw [heq, hC.union]
    intro m hm
    rcases List.mem_append.mp hm with hm | hm
    · exact h m hm
    · exact List.mem_singleton.mp hm ▸ hnull

theorem orNull (hC : Composed C) (h : C t) (nullable : Bool) : C (t.orNull nullable) := by
  cases nullable with
  | false => exact h
  | true => exact hC.nullable h

theorem unionOf (hC : Composed C) {ts : List TypeExpr} (h : ∀ t ∈ ts, C t) : C (unionOf ts) := by
  match ts, h with
  | [], _ => exact hC.base .any
  | [one], h => exact h one List.mem_cons_self
  | _ :: _ :: _, h => exact (hC.union _).mpr h

theorem intersectionOf (hC : Composed C) {ts : List TypeExpr} (h : ∀ t ∈ ts, C t) :
    C (intersectionOf ts) := by
  match ts, h with
  | [], _ => exact hC.base .any
  | [one], h => exact h one List.mem_cons_self
  | _ :: _ :: _, h => exact (hC.intersection _).mpr h

theorem ofLiterals (hC : Composed C) {values : List Literal}
    (h : ∀ value ∈ values, C (.literal value)) : C (ofLiterals values) := by
  have hall : ∀ t ∈ (Literal.distinct values).map TypeExpr.literal, C t := by
    intro t ht
    obtain ⟨value, hvalue, rfl⟩ := List.mem_map.mp ht
    exact h value (Literal.mem_of_mem_distinct hvalue)
  unfold TypeExpr.ofLiterals
  split
  · next one heq => exact hall one (heq ▸ List.mem_cons_self)
  · exact (hC.union _).mpr hall

theorem intersect (hC : Composed C) (ht : C t) (hu : C u) : C (t.intersect u) := by
  unfold TypeExpr.intersect
  split
  · next ms =>
    rw [hC.intersection] at ht ⊢
    intro m hm
    split at hm
    · exact ht m hm
    · rcases List.mem_append.mp hm with hm | hm
      · exact ht m hm
      · exact List.mem_singleton.mp hm ▸ hu
  · rw [hC.intersection]
    simp [ht, hu]

theorem agree (hC : Composed C) (ht : C t) (hu : C u) : C (t.agree u) := by
  unfold TypeExpr.agree
  split
  · exact ht
  · exact hC.intersect ht hu

end TypeExpr.Composed

/-! ## Objects -/

namespace ObjectType

theorem mem_addProperty {p q : Property TypeExpr} {ps : List (Property TypeExpr)}
    (h : q ∈ addProperty ps p) : q ∈ ps ∨ q = p ∨ ∃ r ∈ ps, q.type = r.type.agree p.type := by
  induction ps with
  | nil => exact .inr (.inl (List.mem_singleton.mp h))
  | cons r rest ih =>
      unfold addProperty at h
      split at h
      · rcases List.mem_cons.mp h with rfl | h
        · exact .inr (.inr ⟨r, List.mem_cons_self, rfl⟩)
        · exact .inl (List.mem_cons_of_mem _ h)
      · rcases List.mem_cons.mp h with rfl | h
        · exact .inl List.mem_cons_self
        · rcases ih h with hq | hq | ⟨r', hr', hq⟩
          · exact .inl (List.mem_cons_of_mem _ hq)
          · exact .inr (.inl hq)
          · exact .inr (.inr ⟨r', List.mem_cons_of_mem _ hr', hq⟩)

theorem mem_arrange {sorted : Bool} {o : ObjectType TypeExpr} {p : Property TypeExpr} :
    p ∈ (o.arrange sorted).properties ↔ p ∈ o.properties := by
  cases sorted with
  | false => exact Iff.rfl
  | true => exact List.mem_mergeSort

theorem index_arrange (sorted : Bool) (o : ObjectType TypeExpr) :
    (o.arrange sorted).index = o.index := by
  cases sorted <;> rfl

end ObjectType

/-- A property that holds of an object when it holds of the types in it is kept by merged and by
ordered objects. -/
theorem TypeExpr.Composed.merged {C : TypeExpr → Prop} (hC : Composed C)
    (object : ∀ o : ObjectType TypeExpr, C (.object o) ↔
      (∀ p ∈ o.properties, C p.type) ∧ ∀ t, o.index = some t → C t) : Merged C where
  toComposed := hC
  merge := by
    intro a b ha hb
    rw [object] at ha hb ⊢
    constructor
    · suffices hfold : ∀ l : List (Property TypeExpr), (∀ p ∈ l, C p.type) →
          ∀ ps, (∀ p ∈ ps, C p.type) → ∀ p ∈ l.foldl ObjectType.addProperty ps, C p.type from
        hfold b.properties hb.1 a.properties ha.1
      intro l
      induction l with
      | nil => exact fun _ ps hps => hps
      | cons q l ih =>
          intro hl ps hps
          rw [List.foldl_cons]
          apply ih fun p hp => hl p (List.mem_cons_of_mem _ hp)
          intro p hp
          rcases ObjectType.mem_addProperty hp with hp | rfl | ⟨r, hr, htype⟩
          · exact hps p hp
          · exact hl p List.mem_cons_self
          · rw [htype]
            exact hC.agree (hps r hr) (hl q List.mem_cons_self)
    · intro t ht
      unfold ObjectType.merge at ht
      cases hx : a.index with
      | none =>
          rw [hx] at ht
          exact hb.2 t (by simpa using ht)
      | some x =>
          cases hy : b.index with
          | none =>
              rw [hx, hy] at ht
              exact ha.2 t (hx.trans (by simpa using ht))
          | some y =>
              rw [hx, hy] at ht
              obtain rfl : x.agree y = t := by simpa using ht
              exact hC.agree (ha.2 x hx) (hb.2 y hy)
  arrange := by
    intro sorted o ho
    rw [object] at ho ⊢
    refine ⟨fun p hp => ho.1 p (ObjectType.mem_arrange.mp hp), fun t ht => ?_⟩
    rw [ObjectType.index_arrange] at ht
    exact ho.2 t ht

theorem TypeExpr.Hereditary.merged {C : TypeExpr → Prop} (hC : Hereditary C) : Merged C :=
  hC.toComposed.merged hC.object

namespace TypeExpr.Merged

variable {C : TypeExpr → Prop}

theorem mergedObject (hC : Merged C) {os : List Operand} {o : ObjectType TypeExpr}
    (h : ∀ o ∈ os, C o.alone) (ho : Operand.mergedObject? os = some o) : C (.object o) := by
  have hall : ∀ a ∈ os.filterMap Operand.object?, C (.object a) := fun a ha =>
    h _ (Operand.mem_filterMap_object?.mp ha)
  unfold Operand.mergedObject? at ho
  split at ho
  · cases ho
  · next first rest hlist =>
    rw [Option.some.injEq] at ho
    subst ho
    rw [hlist] at hall
    suffices hfold : ∀ (l : List (ObjectType TypeExpr)) (a : ObjectType TypeExpr), C (.object a) →
        (∀ b ∈ l, C (.object b)) → C (.object (l.foldl ObjectType.merge a)) from
      hfold rest first (hall first List.mem_cons_self) fun b hb =>
        hall b (List.mem_cons_of_mem _ hb)
    intro l
    induction l with
    | nil => exact fun _ ha _ => ha
    | cons b l ih =>
        intro a ha hl
        rw [List.foldl_cons]
        apply ih _ (hC.merge a b ha (hl b List.mem_cons_self))
        exact fun c hc => hl c (List.mem_cons_of_mem _ hc)

theorem combine (hC : Merged C) {os : List Operand} (sorted union : Bool)
    (h : ∀ o ∈ os, C o.alone) : C (Operand.combine sorted union os) := by
  cases union with
  | true => exact hC.unionOf fun t ht => h _ (Operand.mem_filterMap_type?.mp ht)
  | false =>
      show C (Operand.intersection sorted os)
      rw [Operand.intersection_eq]
      apply hC.intersectionOf
      intro t ht
      rcases Operand.mem_of_mem_place ht with hm | ho
      · obtain ⟨o, ho, rfl⟩ := Operand.mem_merged hm
        exact hC.arrange sorted o (hC.mergedObject h ho)
      · exact h _ ho

end TypeExpr.Merged

end SwaggerTypes
