import Mathlib.Order.Basic
import SwaggerTypes.Proofs.TypeSameness
import SwaggerTypes.Synthesis.Definitions
/-!
# Properties in the order of their names

The properties of one name are a row of the list that they are in. Sorting keeps every row as it is,
and merging works on each row alone; so two lists can be compared row by row while they are in
different orders, and what is known of their rows tells all about the sorted lists.
-/

namespace SwaggerTypes

namespace ObjectType

variable {a b o : ObjectType TypeExpr} {p : Property TypeExpr} {ps qs : List (Property TypeExpr)}
  {name : String}

def row (name : String) (ps : List (Property TypeExpr)) : List (Property TypeExpr) :=
  ps.filter fun p => p.name = name

theorem row_cons_self : row p.name (p :: ps) = p :: row p.name ps :=
  List.filter_cons_of_pos (decide_eq_true rfl)

theorem row_cons_of_ne (h : p.name ≠ name) : row name (p :: ps) = row name ps :=
  List.filter_cons_of_neg (by simpa using h)

theorem mem_row : p ∈ row name ps ↔ p ∈ ps ∧ p.name = name := by
  rw [row, List.mem_filter, decide_eq_true_eq]

theorem row_map (f : TypeExpr → TypeExpr) :
    row name (o.map f).properties = (row name o.properties).map fun p => { p with type := f p.type } :=
  List.filter_map ..

/-! ## Sorting -/

/-- No property stands behind one of a larger name. -/
def Ordered (ps : List (Property TypeExpr)) : Prop := ps.Pairwise fun p q => p.name ≤ q.name

theorem perm_sortProperties (o : ObjectType TypeExpr) :
    o.sortProperties.properties.Perm o.properties := List.mergeSort_perm _ _

theorem name_le_trans (p q r : Property TypeExpr) (h : decide (p.name ≤ q.name) = true)
    (h' : decide (q.name ≤ r.name) = true) : decide (p.name ≤ r.name) = true :=
  decide_eq_true (String.le_trans (of_decide_eq_true h) (of_decide_eq_true h'))

theorem name_le_total (p q : Property TypeExpr) :
    (decide (p.name ≤ q.name) || decide (q.name ≤ p.name)) = true := by
  simpa only [Bool.or_eq_true, decide_eq_true_eq] using String.le_total p.name q.name

theorem sortProperties_singleton (p : Property TypeExpr) (index : Option TypeExpr) :
    (ObjectType.mk [p] index).sortProperties = ⟨[p], index⟩ := by
  rw [sortProperties, List.mergeSort_singleton]

theorem ordered_sortProperties (o : ObjectType TypeExpr) : Ordered o.sortProperties.properties :=
  (List.pairwise_mergeSort name_le_trans name_le_total o.properties).imp of_decide_eq_true

/-- Sorting keeps properties of one name in their order. -/
theorem row_sortProperties (o : ObjectType TypeExpr) :
    row name o.sortProperties.properties = row name o.properties := by
  have hordered : (row name o.properties).Pairwise fun p q => decide (p.name ≤ q.name) = true := by
    refine List.pairwise_of_forall_mem_list fun p hp q hq => decide_eq_true ?_
    have hsame : p.name = q.name := (mem_row.mp hp).2.trans (mem_row.mp hq).2.symm
    exact hsame ▸ String.le_refl p.name
  have hsub : (row name o.properties).Sublist o.sortProperties.properties :=
    List.sublist_mergeSort name_le_trans name_le_total hordered List.filter_sublist
  have hrow : (row name o.properties).Sublist (row name o.sortProperties.properties) := by
    have hfilter := hsub.filter fun p => p.name = name
    rwa [List.filter_eq_self.mpr fun p hp => decide_eq_true (mem_row.mp hp).2] at hfilter
  exact (hrow.eq_of_length ((perm_sortProperties o).filter _).length_eq.symm).symm

theorem Ordered.head_le {q : Property TypeExpr} (h : Ordered (p :: ps)) (hq : q ∈ p :: ps) :
    p.name ≤ q.name := by
  rcases List.mem_cons.mp hq with rfl | hq
  · exact String.le_refl _
  · exact (List.pairwise_cons.mp h).1 q hq

section

variable {R : Property TypeExpr → Property TypeExpr → Prop}

/-- Ordered lists that are related row by row are related as they stand. -/
theorem forall₂_of_rows (hps : Ordered ps) (hqs : Ordered qs)
    (hrows : ∀ name, List.Forall₂ R (row name ps) (row name qs)) : List.Forall₂ R ps qs := by
  induction ps generalizing qs with
  | nil =>
      cases qs with
      | nil => exact .nil
      | cons q qs => nomatch row_cons_self ▸ hrows q.name
  | cons p ps ih =>
      cases qs with
      | nil => nomatch row_cons_self ▸ hrows p.name
      | cons q qs =>
          have hle : q.name ≤ p.name := by
            obtain ⟨r, rs, -, -, hr⟩ := List.forall₂_cons_left_iff.mp (row_cons_self ▸ hrows p.name)
            obtain ⟨hmem, hname⟩ := mem_row.mp (hr ▸ List.mem_cons_self)
            exact hname ▸ hqs.head_le hmem
          have hge : p.name ≤ q.name := by
            obtain ⟨r, rs, -, -, hr⟩ := List.forall₂_cons_right_iff.mp (row_cons_self ▸ hrows q.name)
            obtain ⟨hmem, hname⟩ := mem_row.mp (hr ▸ List.mem_cons_self)
            exact hname ▸ hps.head_le hmem
          have heq : p.name = q.name := String.le_antisymm hge hle
          have hrow := hrows p.name
          rw [row_cons_self, heq, row_cons_self] at hrow
          obtain ⟨hpq, htail⟩ := List.forall₂_cons.mp hrow
          refine .cons hpq (ih (List.pairwise_cons.mp hps).2 (List.pairwise_cons.mp hqs).2 ?_)
          intro name
          by_cases h : q.name = name
          · exact h ▸ htail
          · have hrow := hrows name
            rwa [row_cons_of_ne (heq ▸ h), row_cons_of_ne h] at hrow

/-- Objects related row by row are related property by property once they are sorted. -/
theorem forall₂_sortProperties
    (h : ∀ name, List.Forall₂ R (row name a.properties) (row name b.properties)) :
    List.Forall₂ R a.sortProperties.properties b.sortProperties.properties := by
  refine forall₂_of_rows (ordered_sortProperties a) (ordered_sortProperties b) fun name => ?_
  rw [row_sortProperties, row_sortProperties]
  exact h name

theorem forall₂_row (hname : ∀ {p q}, R p q → p.name = q.name) (h : List.Forall₂ R ps qs)
    (name : String) : List.Forall₂ R (row name ps) (row name qs) := by
  refine List.rel_filter ?_ h
  intro p q hpq
  simp only [decide_eq_true_eq, hname hpq]

end

theorem Related.sortProperties {R : TypeExpr → TypeExpr → Prop} (h : a.Related R b) :
    a.sortProperties.Related R b.sortProperties :=
  ⟨forall₂_sortProperties (forall₂_row Property.Related.name h.properties), h.index⟩

/-! ## Merging -/

def join (ps : List (Property TypeExpr)) (p : Property TypeExpr) : List (Property TypeExpr) :=
  match ps with
  | [] => [p]
  | q :: qs => q.merge p :: qs

theorem row_addProperty :
    row name (addProperty ps p) = if p.name = name then join (row name ps) p else row name ps := by
  induction ps with
  | nil =>
      by_cases h : p.name = name
      · simp [addProperty, row, join, h]
      · simp [addProperty, row, h]
  | cons q qs ih =>
      rw [addProperty]
      by_cases hq : q.name = p.name
      · by_cases h : p.name = name
        · simp [row, join, Property.merge, hq, h]
        · simp [row, Property.merge, hq, h]
      · by_cases h : q.name = name
        · have hp : ¬ p.name = name := fun hp => hq (h.trans hp.symm)
          rw [if_neg hq, if_neg hp, ← h, row_cons_self, row_cons_self, h, ih, if_neg hp]
        · rw [if_neg hq, row_cons_of_ne h, row_cons_of_ne h, ih]

/-- Adding properties one after the other adds those of one name to the row of the name. -/
theorem row_foldl_addProperty :
    row name (qs.foldl addProperty ps) = (row name qs).foldl join (row name ps) := by
  induction qs generalizing ps with
  | nil => rfl
  | cons q qs ih =>
      rw [List.foldl_cons, ih, row_addProperty]
      by_cases h : q.name = name
      · subst h
        rw [if_pos rfl, row_cons_self, List.foldl_cons]
      · rw [if_neg h, row_cons_of_ne h]

end ObjectType

/-! ## Types with their properties in order -/

namespace TypeExpr

/-- A type with the properties of every object in it ordered by name. -/
def ordered : TypeExpr → TypeExpr := rebuild .intersection fun o => .object o.sortProperties

theorem ordered_union (ts : List TypeExpr) : (union ts).ordered = .union (ts.map ordered) :=
  rebuild_union ts

theorem ordered_intersection (ts : List TypeExpr) :
    (intersection ts).ordered = .intersection (ts.map ordered) := rebuild_intersection ts

theorem ordered_object (o : ObjectType TypeExpr) :
    (object o).ordered = .object (o.map ordered).sortProperties := rebuild_object o

theorem Same.ordered {t u : TypeExpr} (h : t.Same u) : t.ordered.Same u.ordered :=
  h.rebuilt (fun hall => same_intersection.mpr ⟨_, rfl, hall⟩)
    fun hab => same_object.mpr ⟨_, rfl, hab.sortProperties⟩

end TypeExpr

def Declaration.mapType (f : TypeExpr → TypeExpr) (d : Declaration) : Declaration :=
  { d with
    body := match d.body with
      | .interface o => .ofType true (f (.object o))
      | .synonym t => .ofType false (f t) }

def Declaration.ordered : Declaration → Declaration := mapType TypeExpr.ordered

end SwaggerTypes
