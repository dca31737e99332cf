import SwaggerTypes.Proofs.Operands
import SwaggerTypes.Proofs.RepeatedMembers
import SwaggerTypes.Proofs.Run
/-!
# Types that differ in the order of properties

A type made from sorted parts is the sorted type made from the parts as they are, up to members of
intersections that repeat. This is shown for one way of putting types together after the other. Only
the types that merging puts together can differ by such members, and those are parts of objects; so
the outermost constructor of any other type is the same in both.
-/

namespace SwaggerTypes

/-- A type put together from parts with ordered properties, next to the same put together from the
parts as they are. They reduce to the same type once both are ordered, and a steady type is only
ordered. -/
structure TypeExpr.Reordered (t t' : TypeExpr) : Prop where
  reduced : t'.reduced = t.ordered.reduced
  eq : t.Steady → t' = t.ordered

/-- What of a type decides how it takes `null` and how it is declared. -/
inductive TypeExpr.Frame where
  | base (type : BaseType)
  | union (hasNull : Bool)
  | object
  | other

namespace TypeExpr

variable {t t' u u' : TypeExpr} {ts ts' : List TypeExpr}

def frame : TypeExpr → Frame
  | .base type => .base type
  | .union ms => .union (ms.any isNull)
  | .object _ => .object
  | _ => .other

theorem eq_base_of_frame {type : BaseType} (h : t.frame = .base type) : t = .base type := by
  cases t <;> simp_all [frame]

theorem eq_union_of_frame {hasNull : Bool} (h : t.frame = .union hasNull) :
    ∃ ms, t = .union ms ∧ ms.any isNull = hasNull := by
  cases t <;> simp_all [frame]

theorem frame_eq_object : t.frame = .object ↔ ∃ o, t = .object o := by
  cases t <;> simp [frame]

theorem nullable_of_frame (h : t.frame = .object ∨ t.frame = .other) :
    t.nullable = .union [t, .null] := by
  cases t <;> simp_all [frame, nullable]

structure Aligned (t t' : TypeExpr) : Prop extends Reordered t t' where
  frame : t'.frame = t.frame

theorem Reordered.agree (ht : t.Reordered t') (hu : u.Reordered u') :
    (t.agree u).Reordered (t'.agree u') where
  reduced := by
    rw [reduced_eq_meet, reduced_eq_meet, parts_agree, parts_ordered_agree]
    unfold parts
    rw [ht.reduced, hu.reduced]
  eq := by
    intro h
    obtain ⟨hst, hsu, hsettled⟩ := h.of_agree
    rw [ht.eq hst, hu.eq hsu, ordered_agree hsettled]

namespace Aligned

theorem of_ordered (h : t.ordered = t) : t.Aligned t where
  reduced := by rw [h]
  eq := fun _ => h.symm
  frame := rfl

theorem base {type : BaseType} : (TypeExpr.base type).Aligned (.base type) := of_ordered rfl

theorem array (h : t.Aligned t') : (TypeExpr.array t).Aligned (.array t') where
  reduced := congrArg TypeExpr.array h.reduced
  eq := by
    intro hs
    cases hs with
    | array of => exact congrArg TypeExpr.array (h.eq of)
  frame := rfl

theorem eq_map (h : List.Forall₂ Aligned ts ts') (hs : ∀ t ∈ ts, t.Steady) :
    ts' = ts.map TypeExpr.ordered := by
  have hall := (List.forall₂_and_left _ _).mpr ⟨hs, h⟩
  rw [map_eq_of_forall₂ (f := TypeExpr.ordered) (g := id) (fun _ _ hab => (hab.2.eq hab.1).symm) hall,
    List.map_id]

theorem isNull (h : t.Aligned t') : t.isNull = t'.isNull := by
  have hframe := h.frame
  cases t <;> cases t' <;> simp_all [TypeExpr.frame, TypeExpr.isNull]

theorem union (h : List.Forall₂ Aligned ts ts') : (TypeExpr.union ts).Aligned (.union ts') where
  reduced := by
    rw [reduced_union, ordered_union, reduced_union, List.map_map,
      map_eq_of_forall₂ (f := reduced ∘ ordered) (fun _ _ hab => hab.reduced.symm) h]
  eq := by
    intro hs
    cases hs with
    | union members => rw [ordered_union, eq_map h members]
  frame := by
    have hnull := map_eq_of_forall₂ (fun _ _ hab => isNull hab) h
    have hany : ∀ ts : List TypeExpr, ts.any TypeExpr.isNull = (ts.map TypeExpr.isNull).any id := by
      intro ts
      rw [List.any_map]
      rfl
    rw [TypeExpr.frame, TypeExpr.frame, hany, hany, hnull]

theorem intersection (h : List.Forall₂ Aligned ts ts') :
    (TypeExpr.intersection ts).Aligned (.intersection ts') where
  reduced := by
    have hparts := map_eq_of_forall₂ (g := parts)
      (fun _ _ hab => congrArg members hab.reduced.symm) h
    rw [ordered_intersection, reduced_intersection, reduced_intersection, List.flatMap_def, ← hparts,
      List.flatMap_def, List.map_map]
    rfl
  eq := by
    intro hs
    cases hs with
    | intersection members => rw [ordered_intersection, eq_map h members]
  frame := rfl

theorem unionOf (h : List.Forall₂ Aligned ts ts') : (unionOf ts).Aligned (unionOf ts') := by
  cases h with
  | nil => exact base
  | cons hhead htail =>
      cases htail with
      | nil => exact hhead
      | cons hsecond htail => exact union (.cons hhead (.cons hsecond htail))

theorem intersectionOf (h : List.Forall₂ Aligned ts ts') :
    (intersectionOf ts).Aligned (intersectionOf ts') := by
  cases h with
  | nil => exact base
  | cons hhead htail =>
      cases htail with
      | nil => exact hhead
      | cons hsecond htail => exact intersection (.cons hhead (.cons hsecond htail))

theorem ofLiterals (values : List Literal) :
    (TypeExpr.ofLiterals values).Aligned (.ofLiterals values) := by
  refine of_ordered ?_
  unfold TypeExpr.ofLiterals
  generalize Literal.distinct values = literals
  match literals with
  | [] | [one] => rfl
  | one :: two :: rest =>
      show (TypeExpr.union ((one :: two :: rest).map .literal)).ordered =
        .union ((one :: two :: rest).map .literal)
      rw [ordered_union, List.map_map]
      rfl

theorem union_snoc (h : (TypeExpr.union ts).Aligned (.union ts')) :
    (TypeExpr.union (ts ++ [.null])).Aligned (.union (ts' ++ [.null])) where
  reduced := by
    have hreduced := h.reduced
    rw [ordered_union, reduced_union, reduced_union] at hreduced
    rw [ordered_union, reduced_union, reduced_union, List.map_append, List.map_append,
      List.map_append, TypeExpr.union.inj hreduced]
    rfl
  eq := by
    intro hs
    cases hs with
    | union members =>
      have heq := h.eq (.union (List.forall_mem_append.mp members).1)
      rw [ordered_union] at heq
      rw [ordered_union, List.map_append, TypeExpr.union.inj heq]
      rfl
  frame := by simp [TypeExpr.frame, TypeExpr.null, TypeExpr.isNull]

theorem nullable (h : t.Aligned t') : t.nullable.Aligned t'.nullable := by
  have hframe := h.frame
  cases hcase : t.frame with
  | base type =>
      obtain rfl := eq_base_of_frame hcase
      obtain rfl := eq_base_of_frame (hframe.trans hcase)
      cases type <;> exact of_ordered rfl
  | union hasNull =>
      obtain ⟨ms, rfl, hms⟩ := eq_union_of_frame hcase
      obtain ⟨ms', rfl, hms'⟩ := eq_union_of_frame (hframe.trans hcase)
      rw [TypeExpr.nullable, TypeExpr.nullable, hms, hms']
      cases hasNull with
      | false => exact h.union_snoc
      | true => exact h
  | object =>
      rw [nullable_of_frame (.inl hcase), nullable_of_frame (.inl (hframe.trans hcase))]
      exact union (.cons h (.cons base .nil))
  | other =>
      rw [nullable_of_frame (.inr hcase), nullable_of_frame (.inr (hframe.trans hcase))]
      exact union (.cons h (.cons base .nil))

theorem orNull (h : t.Aligned t') (nullable : Bool) :
    (t.orNull nullable).Aligned (t'.orNull nullable) := by
  cases nullable with
  | false => exact h
  | true => exact h.nullable

end Aligned

end TypeExpr

/-! ## Objects -/

/-- Objects whose properties differ in the order of different names, and in the order of properties
inside of their types. -/
structure ObjectType.Reordered (o o' : ObjectType TypeExpr) : Prop where
  rows : ∀ name, List.Forall₂ (Property.Related TypeExpr.Reordered) (row name o.properties)
    (row name o'.properties)
  index : Option.Rel TypeExpr.Reordered o.index o'.index

namespace ObjectType

variable {a a' b b' o o' : ObjectType TypeExpr}

theorem Related.reordered (h : o.Related TypeExpr.Reordered o') : o.Reordered o' :=
  ⟨forall₂_row Property.Related.name h.properties, h.index⟩

/-- Putting such objects into order as asked for leaves them as they are related. -/
theorem Reordered.arrange (h : o.Reordered o') : (o.arrange false).Reordered (o'.arrange true) where
  rows := by
    intro name
    show List.Forall₂ _ (row name o.properties) (row name o'.sortProperties.properties)
    rw [row_sortProperties]
    exact h.rows name
  index := h.index

theorem Reordered.sortProperties {S : TypeExpr → TypeExpr → Prop} (h : o.Reordered o')
    (hproperties : ∀ p ∈ o.properties, ∀ t', p.type.Reordered t' → S p.type.ordered t')
    (hindex : ∀ t ∈ o.index, ∀ t', t.Reordered t' → S t.ordered t') :
    (o.map TypeExpr.ordered).sortProperties.Related S o'.sortProperties where
  properties := by
    refine forall₂_sortProperties fun name => ?_
    rw [row_map, List.forall₂_map_left_iff]
    refine ((List.forall₂_and_left _ _).mpr ⟨fun p hp => (mem_row.mp hp).1, h.rows name⟩).imp ?_
    rintro p p' ⟨hp, hrelated⟩
    exact ⟨hrelated.name, hproperties p hp p'.type hrelated.type, hrelated.optional, hrelated.doc,
      hrelated.format⟩
  index := by
    obtain ⟨-, hrel⟩ := h
    obtain ⟨ps, index⟩ := o
    obtain ⟨ps', index'⟩ := o'
    cases hrel with
    | none => exact .none
    | some h => exact .some (hindex _ rfl _ h)

theorem Related.eq (h : a.Related Eq b) : a = b := by
  obtain ⟨hproperties, hindex⟩ := h
  obtain ⟨ps, index⟩ := a
  obtain ⟨qs, index'⟩ := b
  have hps : ps = qs := by
    rw [← List.forall₂_eq_eq_eq]
    refine hproperties.imp fun p q h => ?_
    obtain ⟨hname, htype, hoptional, hdoc, hformat⟩ := h
    cases p
    cases q
    simp_all
  cases hindex with
  | none => rw [hps]
  | some h => rw [hps, h]

/-- Once both are put into order as asked for, such objects are aligned types. -/
theorem Reordered.aligned (h : o.Reordered o') :
    (TypeExpr.object (o.arrange false)).Aligned (.object (o'.arrange true)) where
  reduced := by
    have hrelated : (o.map TypeExpr.ordered).sortProperties.Related
        (fun t t' => t.reduced = t'.reduced) o'.sortProperties :=
      h.sortProperties (fun _ _ _ ht => ht.reduced.symm) fun _ _ _ ht => ht.reduced.symm
    show (TypeExpr.object o'.sortProperties).reduced = (TypeExpr.object o).ordered.reduced
    rw [TypeExpr.ordered_object, TypeExpr.reduced_object, TypeExpr.reduced_object,
      (hrelated.map (f := TypeExpr.reduced) (g := TypeExpr.reduced) fun ht => ht).eq]
  eq := by
    intro hs
    cases hs with
    | object properties index =>
      have hrelated : (o.map TypeExpr.ordered).sortProperties.Related Eq o'.sortProperties :=
        h.sortProperties (fun p hp _ ht => (ht.eq (properties p hp)).symm)
          fun t ht _ htype => (htype.eq (index t ht)).symm
      show TypeExpr.object o'.sortProperties = (TypeExpr.object o).ordered
      rw [TypeExpr.ordered_object, hrelated.eq]
  frame := rfl

/-- Objects that are merged property by property correspond when the objects do. -/
theorem Reordered.merge (ha : a.Reordered a') (hb : b.Reordered b') :
    (a.merge b).Reordered (a'.merge b') where
  rows := by
    intro name
    show List.Forall₂ _ (row name (b.properties.foldl addProperty a.properties))
      (row name (b'.properties.foldl addProperty a'.properties))
    rw [row_foldl_addProperty, row_foldl_addProperty]
    refine List.rel_foldl ?_ (ha.rows name) (hb.rows name)
    intro ps ps' hps p p' hp
    cases hps with
    | nil => exact .cons hp .nil
    | cons hq hqs =>
        refine .cons ⟨hq.name, hq.type.agree hp.type, ?_, ?_, hq.format⟩ hqs
        · exact congrArg₂ (· && ·) hq.optional hp.optional
        · exact congrArg₂ (· <|> ·) hq.doc hp.doc
  index := by
    obtain ⟨-, hindexa⟩ := ha
    obtain ⟨-, hindexb⟩ := hb
    obtain ⟨ps, ia⟩ := a
    obtain ⟨ps', ia'⟩ := a'
    obtain ⟨qs, ib⟩ := b
    obtain ⟨qs', ib'⟩ := b'
    cases hindexa with
    | none =>
        cases hindexb with
        | none => exact .none
        | some hb => exact .some hb
    | some ha =>
        cases hindexb with
        | none => exact .some ha
        | some hb => exact .some (ha.agree hb)

theorem Reordered.isEmpty (h : o.Reordered o') : o.isEmpty = o'.isEmpty := by
  have hlength : o.properties.length = o'.properties.length := by
    rw [← (perm_sortProperties o).length_eq, ← (perm_sortProperties o').length_eq]
    exact (forall₂_sortProperties h.rows).length_eq
  have hproperties : o.properties.isEmpty = o'.properties.isEmpty := by
    rw [Bool.eq_iff_iff, List.isEmpty_iff_length_eq_zero, List.isEmpty_iff_length_eq_zero, hlength]
  have hindex : o.index.isNone = o'.index.isNone := by
    obtain ⟨-, hrel⟩ := h
    generalize o.index = index, o'.index = index' at hrel
    cases hrel <;> rfl
  rw [ObjectType.isEmpty, ObjectType.isEmpty, hproperties, hindex]

end ObjectType

/-! ## Compositions -/

inductive Operand.Reordered : Operand → Operand → Prop
  | type {t t' : TypeExpr} (h : t.Aligned t') : Reordered (.type t) (.type t')
  | object {o o' : ObjectType TypeExpr} (h : o.Reordered o') : Reordered (.object o) (.object o')

namespace Operand

variable {os os' : List Operand}

theorem forall₂_types (h : List.Forall₂ Operand.Reordered os os') :
    List.Forall₂ TypeExpr.Aligned (os.filterMap type?) (os'.filterMap type?) := by
  refine List.rel_filterMap ?_ h
  intro o o' ho
  cases ho with
  | type h => exact .some h
  | object h => exact .none

theorem forall₂_objects (h : List.Forall₂ Operand.Reordered os os') :
    List.Forall₂ ObjectType.Reordered (os.filterMap object?) (os'.filterMap object?) := by
  refine List.rel_filterMap ?_ h
  intro o o' ho
  cases ho with
  | type h => exact .none
  | object h => exact .some h

theorem forall₂_place {ts ts' : List TypeExpr} (hts : List.Forall₂ TypeExpr.Aligned ts ts')
    (h : List.Forall₂ Operand.Reordered os os') :
    List.Forall₂ TypeExpr.Aligned (place ts os) (place ts' os') := by
  induction h with
  | nil => exact .nil
  | cons ho hos ih =>
      cases ho with
      | type ht => exact .cons ht ih
      | object _ => exact List.rel_append hts (forall₂_types hos)

theorem rel_mergedObject? (h : List.Forall₂ Operand.Reordered os os') :
    Option.Rel ObjectType.Reordered (mergedObject? os) (mergedObject? os') := by
  have hobjects := forall₂_objects h
  unfold mergedObject?
  generalize os.filterMap object? = objects, os'.filterMap object? = objects' at hobjects
  cases hobjects with
  | nil => exact .none
  | cons hfirst hrest => exact .some (List.rel_foldl (fun _ _ ha _ _ hb => ha.merge hb) hfirst hrest)

theorem forall₂_merged (h : List.Forall₂ Operand.Reordered os os') :
    List.Forall₂ TypeExpr.Aligned (merged false os) (merged true os') := by
  have hempty : (os.filterMap type?).isEmpty = (os'.filterMap type?).isEmpty := by
    have htypes := forall₂_types h
    generalize os.filterMap type? = ts, os'.filterMap type? = ts' at htypes
    cases htypes <;> rfl
  have hmerged := rel_mergedObject? h
  unfold merged
  rw [hempty]
  generalize mergedObject? os = o, mergedObject? os' = o' at hmerged
  cases hmerged with
  | none => exact .nil
  | some ho =>
      simp only [ho.isEmpty]
      split
      · exact .nil
      · exact .cons ho.aligned .nil

/-- Operands that differ in the order of properties are combined to types that do. -/
theorem aligned_combine (union : Bool) (h : List.Forall₂ Operand.Reordered os os') :
    (combine false union os).Aligned (combine true union os') := by
  cases union with
  | true => exact .unionOf (forall₂_types h)
  | false => exact .intersectionOf (forall₂_place (forall₂_merged h) h)

end Operand

end SwaggerTypes
