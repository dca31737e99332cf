import Mathlib.Data.List.Forall2
import SwaggerTypes.Proofs.Validity
import SwaggerTypes.Types.Expr
/-!
# Types that are the same

Whether two types are the same is asked when objects are merged. It is decided part by part, is
symmetric and transitive, and is kept when both types are rebuilt from their parts in the same way. It
is no equality: a NaN among the literals is the same as nothing, and the two zeros are the same.
-/

namespace SwaggerTypes

namespace Decimal.Double

theorem same_symm {a b : Double} (h : a.same b = true) : b.same a = true := by
  obtain ⟨hnan, hmagnitude, hsign⟩ := same_iff.mp h
  refine same_iff.mpr ⟨?_, hmagnitude.symm, ?_⟩
  · rw [← hnan]
    unfold isNaN
    rw [hmagnitude]
  · rcases hsign with hsign | hzero
    · exact .inl hsign.symm
    · exact .inr (hmagnitude ▸ hzero)

end Decimal.Double

namespace Literal

theorem same_symm {k l : Literal} (h : k.same l = true) : l.same k = true := by
  cases k <;> cases l <;> simp only [same, decide_eq_true_eq, Bool.false_eq_true] at h ⊢
  case float => exact Decimal.Double.same_symm h
  all_goals exact h.symm

theorem same_trans {k l m : Literal} (h : k.same l = true) (h' : l.same m = true) :
    k.same m = true := by
  cases k <;> cases l <;> cases m <;>
    simp only [same, decide_eq_true_eq, Bool.false_eq_true] at h h' ⊢
  case float => exact Decimal.Double.same_trans h h'
  all_goals exact h.trans h'

end Literal

/-! ## Parts of a type -/

def ObjectType.map (f : TypeExpr → TypeExpr) (o : ObjectType TypeExpr) : ObjectType TypeExpr where
  properties := o.properties.map fun p => { p with type := f p.type }
  index := o.index.map f

namespace TypeExpr

@[elab_as_elim]
theorem induction {motive : TypeExpr → Prop} (base : ∀ type, motive (.base type))
    (literal : ∀ value, motive (.literal value)) (named : ∀ name, motive (.named name))
    (array : ∀ t, motive t → motive (.array t))
    (union : ∀ ts, (∀ t ∈ ts, motive t) → motive (.union ts))
    (intersection : ∀ ts, (∀ t ∈ ts, motive t) → motive (.intersection ts))
    (object : ∀ o : ObjectType TypeExpr, (∀ p ∈ o.properties, motive p.type) →
      (∀ t ∈ o.index, motive t) → motive (.object o)) (t : TypeExpr) : motive t := by
  refine TypeExpr.rec (motive_1 := motive) (motive_2 := fun ts => ∀ t ∈ ts, motive t)
    (motive_3 := fun o => motive (.object o)) (motive_4 := fun ps => ∀ p ∈ ps, motive p.type)
    (motive_5 := fun index => ∀ t ∈ index, motive t) (motive_6 := fun p => motive p.type)
    base array union intersection (fun _ h => h) literal named (fun _ h => nomatch h)
    (fun _ _ => fun h hs => List.forall_mem_cons.mpr ⟨h, hs⟩)
    (fun ps index => object ⟨ps, index⟩) (fun _ h => nomatch h)
    (fun _ _ => fun h hs => List.forall_mem_cons.mpr ⟨h, hs⟩) (fun _ h => nomatch h)
    (fun _ h t ht => Option.some.inj ht ▸ h) (fun _ _ _ _ _ h => h) t

variable (meet : List TypeExpr → TypeExpr) (object : ObjectType TypeExpr → TypeExpr)

mutual

/-- A type put together anew from its parts, intersections and objects in the given ways. -/
def rebuild : TypeExpr → TypeExpr
  | .base type => .base type
  | .literal value => .literal value
  | .named name => .named name
  | .array t => .array (rebuild t)
  | .union ts => .union (rebuildAll ts)
  | .intersection ts => meet (rebuildAll ts)
  | .object ⟨properties, some t⟩ => object ⟨rebuildProperties properties, some (rebuild t)⟩
  | .object ⟨properties, none⟩ => object ⟨rebuildProperties properties, none⟩
termination_by structural t => t

def rebuildAll : List TypeExpr → List TypeExpr
  | [] => []
  | t :: ts => rebuild t :: rebuildAll ts
termination_by structural ts => ts

def rebuildProperties : List (Property TypeExpr) → List (Property TypeExpr)
  | [] => []
  | ⟨name, type, optional, doc, format⟩ :: ps =>
    ⟨name, rebuild type, optional, doc, format⟩ :: rebuildProperties ps
termination_by structural ps => ps

end

variable {meet object}

theorem rebuildAll_eq (ts : List TypeExpr) :
    rebuildAll meet object ts = ts.map (rebuild meet object) := by
  induction ts with
  | nil => rfl
  | cons t ts ih => rw [rebuildAll, ih, List.map_cons]

theorem rebuildProperties_eq (ps : List (Property TypeExpr)) :
    rebuildProperties meet object ps =
      ps.map fun p => { p with type := rebuild meet object p.type } := by
  induction ps with
  | nil => rfl
  | cons p ps ih => rw [rebuildProperties, ih, List.map_cons]

theorem rebuild_union (ts : List TypeExpr) :
    rebuild meet object (.union ts) = .union (ts.map (rebuild meet object)) := by
  rw [rebuild, rebuildAll_eq]

theorem rebuild_intersection (ts : List TypeExpr) :
    rebuild meet object (.intersection ts) = meet (ts.map (rebuild meet object)) := by
  rw [rebuild, rebuildAll_eq]

theorem rebuild_object (o : ObjectType TypeExpr) :
    rebuild meet object (.object o) = object (o.map (rebuild meet object)) := by
  obtain ⟨ps, index⟩ := o
  cases index <;> rw [rebuild, rebuildProperties_eq] <;> rfl

/-! ## Sameness, constructor by constructor -/

def Same (t u : TypeExpr) : Prop := t.same u = true

end TypeExpr

/-- Properties that differ at most in their types, and these as `R` tells. -/
structure Property.Related (R : TypeExpr → TypeExpr → Prop) (p q : Property TypeExpr) : Prop where
  name : p.name = q.name
  type : R p.type q.type
  optional : p.optional = q.optional
  doc : p.doc = q.doc
  format : p.format = q.format

structure ObjectType.Related (R : TypeExpr → TypeExpr → Prop) (a b : ObjectType TypeExpr) : Prop where
  properties : List.Forall₂ (Property.Related R) a.properties b.properties
  index : Option.Rel R a.index b.index

section

variable {R S T : TypeExpr → TypeExpr → Prop}

theorem forall₂_comp {α : Type} {R S T : α → α → Prop} (hcomp : ∀ {a b c}, R a b → S b c → T a c)
    {as bs cs : List α} (h : List.Forall₂ R as bs) (h' : List.Forall₂ S bs cs) :
    List.Forall₂ T as cs := by
  induction h generalizing cs with
  | nil =>
      cases h'
      exact .nil
  | cons hab _ ih =>
      cases h' with
      | cons hbc hs => exact .cons (hcomp hab hbc) (ih hs)

theorem forall_mem_of_forall₂ {α : Type} {R : α → α → Prop} {P Q : α → Prop}
    (himp : ∀ {a b}, R a b → P a → Q b) {as bs : List α} (h : List.Forall₂ R as bs)
    (hall : ∀ a ∈ as, P a) : ∀ b ∈ bs, Q b := by
  induction h with
  | nil => exact fun _ hb => nomatch hb
  | cons hab _ ih =>
      obtain ⟨ha, has⟩ := List.forall_mem_cons.mp hall
      exact List.forall_mem_cons.mpr ⟨himp hab ha, ih has⟩

theorem map_eq_of_forall₂ {α β γ : Type} {R : α → β → Prop} {f : α → γ} {g : β → γ}
    (himp : ∀ a b, R a b → f a = g b) {as : List α} {bs : List β} (h : List.Forall₂ R as bs) :
    as.map f = bs.map g := by
  induction h with
  | nil => rfl
  | cons hab _ ih => rw [List.map_cons, List.map_cons, himp _ _ hab, ih]

namespace Property.Related

variable {p q r : Property TypeExpr}

theorem imp (h : p.Related R q) (himp : R p.type q.type → S p.type q.type) : p.Related S q :=
  ⟨h.name, himp h.type, h.optional, h.doc, h.format⟩

theorem flip (h : p.Related R q) (hflip : R p.type q.type → S q.type p.type) : q.Related S p :=
  ⟨h.name.symm, hflip h.type, h.optional.symm, h.doc.symm, h.format.symm⟩

theorem comp (hcomp : ∀ {t u v}, R t u → S u v → T t v) (h : p.Related R q)
    (h' : q.Related S r) : p.Related T r :=
  ⟨h.name.trans h'.name, hcomp h.type h'.type, h.optional.trans h'.optional, h.doc.trans h'.doc,
    h.format.trans h'.format⟩

end Property.Related

namespace ObjectType.Related

variable {a b c : ObjectType TypeExpr}

theorem flip (hflip : ∀ {t u}, R t u → S u t) (h : a.Related R b) : b.Related S a := by
  obtain ⟨hproperties, hindex⟩ := h
  refine ⟨.flip (hproperties.imp fun p q h => h.flip hflip), ?_⟩
  generalize a.index = i, b.index = j at hindex
  cases hindex with
  | none => exact .none
  | some h => exact .some (hflip h)

theorem comp (hcomp : ∀ {t u v}, R t u → S u v → T t v) (h : a.Related R b) (h' : b.Related S c) :
    a.Related T c := by
  obtain ⟨hproperties, hindex⟩ := h
  obtain ⟨hproperties', hindex'⟩ := h'
  refine ⟨forall₂_comp (.comp hcomp) hproperties hproperties', ?_⟩
  generalize a.index = i, b.index = j, c.index = k at hindex hindex'
  cases hindex with
  | none =>
      cases hindex'
      exact .none
  | some h =>
      cases hindex' with
      | some h' => exact .some (hcomp h h')

/-- Objects stay related when their types are replaced by related ones. -/
theorem map {f g : TypeExpr → TypeExpr} (hmap : ∀ {t u}, R t u → S (f t) (g u))
    (h : a.Related R b) : (a.map f).Related S (b.map g) := by
  obtain ⟨hproperties, hindex⟩ := h
  refine ⟨List.forall₂_map_left_iff.mpr (List.forall₂_map_right_iff.mpr ?_), ?_⟩
  · exact hproperties.imp fun p q h => ⟨h.name, hmap h.type, h.optional, h.doc, h.format⟩
  · unfold ObjectType.map
    generalize a.index = i, b.index = j at hindex
    cases hindex with
    | none => exact .none
    | some h => exact .some (hmap h)

end ObjectType.Related

end

namespace TypeExpr

variable {t u v : TypeExpr} {ts us : List TypeExpr}

theorem sameAll_iff : sameAll ts us = true ↔ List.Forall₂ Same ts us := by
  induction ts generalizing us with
  | nil => cases us <;> simp [sameAll]
  | cons t ts ih => cases us <;> simp [sameAll, ih, Same]

theorem sameProperties_iff {ps qs : List (Property TypeExpr)} :
    sameProperties ps qs = true ↔ List.Forall₂ (Property.Related Same) ps qs := by
  induction ps generalizing qs with
  | nil => cases qs <;> simp [sameProperties]
  | cons p ps ih =>
      cases qs with
      | nil => simp [sameProperties]
      | cons q qs =>
          simp only [sameProperties, Bool.and_eq_true, decide_eq_true_eq, ih, List.forall₂_cons]
          refine and_congr_left' ⟨fun h => ?_, fun h => ?_⟩
          · obtain ⟨⟨⟨⟨hname, htype⟩, hoptional⟩, hdoc⟩, hformat⟩ := h
            exact ⟨hname, htype, hoptional, hdoc, hformat⟩
          · exact ⟨⟨⟨⟨h.name, h.type⟩, h.optional⟩, h.doc⟩, h.format⟩

theorem same_base {type : BaseType} : Same (.base type) u ↔ u = .base type := by
  cases u <;> simp [Same, same, eq_comm]

theorem same_literal {value : Literal} :
    Same (.literal value) u ↔ ∃ other, u = .literal other ∧ value.same other = true := by
  cases u <;> simp [Same, same]

theorem same_named {name : String} : Same (.named name) u ↔ u = .named name := by
  cases u <;> simp [Same, same, eq_comm]

theorem same_array : Same (.array t) u ↔ ∃ v, u = .array v ∧ t.Same v := by
  cases u <;> simp [Same, same]

theorem same_union : Same (.union ts) u ↔ ∃ us, u = .union us ∧ List.Forall₂ Same ts us := by
  cases u <;> simp [Same, same, ← sameAll_iff]

theorem same_intersection :
    Same (.intersection ts) u ↔ ∃ us, u = .intersection us ∧ List.Forall₂ Same ts us := by
  cases u <;> simp [Same, same, ← sameAll_iff]

theorem same_object {a : ObjectType TypeExpr} :
    Same (.object a) u ↔ ∃ b, u = .object b ∧ a.Related Same b := by
  obtain ⟨ps, index⟩ := a
  constructor
  · intro h
    cases u with
    | object b =>
        obtain ⟨qs, index'⟩ := b
        refine ⟨_, rfl, ?_⟩
        cases index <;> cases index' <;> simp only [Same, same, Bool.and_eq_true,
          Bool.false_eq_true, sameProperties_iff] at h
        · exact ⟨h, .none⟩
        · exact ⟨h.1, .some h.2⟩
    | _ => cases index <;> cases h
  · rintro ⟨⟨qs, index'⟩, rfl, hproperties, hindex⟩
    cases hindex with
    | none => exact sameProperties_iff.mpr hproperties
    | some hindex => exact Bool.and_eq_true_iff.mpr ⟨sameProperties_iff.mpr hproperties, hindex⟩

/-- An induction over two types that are the same and all parts of them. -/
@[elab_as_elim]
theorem Same.induction {motive : TypeExpr → TypeExpr → Prop}
    (base : ∀ type, motive (.base type) (.base type))
    (literal : ∀ k l : Literal, k.same l = true → motive (.literal k) (.literal l))
    (named : ∀ name, motive (.named name) (.named name))
    (array : ∀ t u, t.Same u → motive t u → motive (.array t) (.array u))
    (union : ∀ ts us, List.Forall₂ (fun t u => t.Same u ∧ motive t u) ts us →
      motive (.union ts) (.union us))
    (intersection : ∀ ts us, List.Forall₂ (fun t u => t.Same u ∧ motive t u) ts us →
      motive (.intersection ts) (.intersection us))
    (object : ∀ a b : ObjectType TypeExpr, a.Related (fun t u => t.Same u ∧ motive t u) b →
      motive (.object a) (.object b)) (h : t.Same u) : motive t u := by
  have hall : ∀ {ts us : List TypeExpr}, (∀ t ∈ ts, ∀ {u}, t.Same u → motive t u) →
      List.Forall₂ Same ts us → List.Forall₂ (fun t u => t.Same u ∧ motive t u) ts us :=
    fun ih h => ((List.forall₂_and_left _ _).mpr ⟨ih, h⟩).imp fun _ _ h => ⟨h.2, h.1 h.2⟩
  induction t using TypeExpr.induction generalizing u with
  | base type => exact same_base.mp h ▸ base type
  | literal value =>
      obtain ⟨other, rfl, hvalue⟩ := same_literal.mp h
      exact literal value other hvalue
  | named name => exact same_named.mp h ▸ named name
  | array t ih =>
      obtain ⟨v, rfl, hv⟩ := same_array.mp h
      exact array t v hv (ih hv)
  | union ts ih =>
      obtain ⟨us, rfl, hus⟩ := same_union.mp h
      exact union ts us (hall ih hus)
  | intersection ts ih =>
      obtain ⟨us, rfl, hus⟩ := same_intersection.mp h
      exact intersection ts us (hall ih hus)
  | object a ihp ihi =>
      obtain ⟨⟨qs, index'⟩, rfl, hproperties, hindex⟩ := same_object.mp h
      obtain ⟨ps, index⟩ := a
      refine object _ _ ⟨?_, ?_⟩
      · refine ((List.forall₂_and_left _ _).mpr ⟨ihp, hproperties⟩).imp fun p q h => ?_
        exact h.2.imp fun htype => ⟨htype, h.1 htype⟩
      · cases hindex with
        | none => exact .none
        | some hindex => exact .some ⟨hindex, ihi _ rfl hindex⟩

theorem Same.symm (h : t.Same u) : u.Same t := by
  refine Same.induction ?base ?literal ?named ?array ?union ?intersection ?object h
  case base => exact fun _ => same_base.mpr rfl
  case literal => exact fun _ _ hvalue => Literal.same_symm hvalue
  case named => exact fun _ => same_named.mpr rfl
  case array => exact fun _ _ _ ih => ih
  case union => exact fun ts _ ih => same_union.mpr ⟨ts, rfl, .flip (ih.imp fun _ _ h => h.2)⟩
  case intersection =>
    exact fun ts _ ih => same_intersection.mpr ⟨ts, rfl, .flip (ih.imp fun _ _ h => h.2)⟩
  case object => exact fun a _ ih => same_object.mpr ⟨a, rfl, ih.flip And.right⟩

theorem Same.trans (h : t.Same u) (h' : u.Same v) : t.Same v := by
  refine Same.induction (motive := fun t u => ∀ v, u.Same v → t.Same v) ?base ?literal ?named ?array
    ?union ?intersection ?object h v h'
  case base | named => exact fun _ _ h => h
  case literal =>
    intro k l hkl v h
    obtain ⟨m, rfl, hlm⟩ := same_literal.mp h
    exact Literal.same_trans hkl hlm
  case array =>
    intro t u _ ih v h
    obtain ⟨v, rfl, hv⟩ := same_array.mp h
    exact ih v hv
  case union =>
    intro ts us ih v h
    obtain ⟨vs, rfl, hvs⟩ := same_union.mp h
    exact same_union.mpr ⟨vs, rfl, forall₂_comp (fun h => h.2 _) ih hvs⟩
  case intersection =>
    intro ts us ih v h
    obtain ⟨vs, rfl, hvs⟩ := same_intersection.mp h
    exact same_intersection.mpr ⟨vs, rfl, forall₂_comp (fun h => h.2 _) ih hvs⟩
  case object =>
    intro a b ih v h
    obtain ⟨c, rfl, hc⟩ := same_object.mp h
    exact same_object.mpr ⟨c, rfl, ih.comp (fun h => h.2 _) hc⟩

theorem Same.rebuilt {meet : List TypeExpr → TypeExpr} {object : ObjectType TypeExpr → TypeExpr}
    (hmeet : ∀ {ts us}, List.Forall₂ Same ts us → (meet ts).Same (meet us))
    (hobject : ∀ {a b : ObjectType TypeExpr}, a.Related Same b → (object a).Same (object b))
    (h : t.Same u) : (t.rebuild meet object).Same (u.rebuild meet object) := by
  have hall : ∀ {ts us : List TypeExpr}, List.Forall₂ (fun t u => t.Same u ∧
      (t.rebuild meet object).Same (u.rebuild meet object)) ts us →
        List.Forall₂ Same (ts.map (rebuild meet object)) (us.map (rebuild meet object)) :=
    fun h => List.forall₂_map_left_iff.mpr (List.forall₂_map_right_iff.mpr (h.imp fun _ _ h => h.2))
  refine Same.induction ?base ?literal ?named ?array ?union ?intersection ?object h
  case base => exact fun _ => same_base.mpr rfl
  case literal => exact fun _ _ hvalue => hvalue
  case named => exact fun _ => same_named.mpr rfl
  case array => exact fun _ _ _ ih => ih
  case union =>
    intro ts us ih
    rw [rebuild_union, rebuild_union]
    exact same_union.mpr ⟨_, rfl, hall ih⟩
  case intersection =>
    intro ts us ih
    rw [rebuild_intersection, rebuild_intersection]
    exact hmeet (hall ih)
  case object =>
    intro a b ih
    rw [rebuild_object, rebuild_object]
    exact hobject (ih.map And.right)

end TypeExpr
end SwaggerTypes
