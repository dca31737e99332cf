import SwaggerTypes.Proofs.RepeatedMembers
import SwaggerTypes.Proofs.WellFormed
/-!
# Objects merged into one

Objects are merged property by property: a property that several of them declare stands where the first
one declares it. Its type has the conjuncts that they give it, it is optional if all of them say so, and
the first documentation is kept. The conjuncts of a type are what is left of it when intersections are
opened at all depths; a conjunct that is the same as another one may be left out.
-/

namespace SwaggerTypes

/-! ## Conjuncts -/

namespace TypeExpr

variable {t u : TypeExpr} {ts us vs : List TypeExpr}

mutual

/-- The types that a type is the intersection of, none of them an intersection itself. -/
def conjuncts : TypeExpr → List TypeExpr
  | .intersection ts => conjunctsOfAll ts
  | t => [t]
termination_by structural t => t

def conjunctsOfAll : List TypeExpr → List TypeExpr
  | [] => []
  | t :: ts => conjuncts t ++ conjunctsOfAll ts
termination_by structural ts => ts

end

theorem conjunctsOfAll_eq (ts : List TypeExpr) : conjunctsOfAll ts = ts.flatMap conjuncts := by
  induction ts with
  | nil => rfl
  | cons t ts ih => rw [conjunctsOfAll, ih, List.flatMap_cons]

theorem conjuncts_intersection (ts : List TypeExpr) :
    (intersection ts).conjuncts = ts.flatMap conjuncts := by
  rw [conjuncts, conjunctsOfAll_eq]

theorem flatMap_members (t : TypeExpr) : t.members.flatMap conjuncts = t.conjuncts := by
  cases t with
  | intersection ts => exact (conjuncts_intersection ts).symm
  | _ => rfl

theorem Same.conjuncts (h : t.Same u) : List.Forall₂ Same t.conjuncts u.conjuncts := by
  induction t using TypeExpr.induction generalizing u with
  | intersection ts ih =>
      obtain ⟨us, rfl, hall⟩ := same_intersection.mp h
      rw [conjuncts_intersection, conjuncts_intersection]
      clear h
      induction hall with
      | nil => exact .nil
      | cons hhead _ ihtail =>
          obtain ⟨hfirst, hrest⟩ := List.forall_mem_cons.mp ih
          exact List.rel_append (hfirst hhead) (ihtail hrest)
  | object o =>
      obtain ⟨b, rfl, -⟩ := same_object.mp h
      exact .cons h .nil
  | _ => cases u <;> first | exact .cons h .nil | cases h

/-- One list has the types of another one, of several that are the same perhaps only some. -/
structure Covers (ts us : List TypeExpr) : Prop where
  subset : ts ⊆ us
  same : ∀ u ∈ us, u ∈ ts ∨ ∃ t ∈ ts, t.Same u

theorem Covers.refl (ts : List TypeExpr) : Covers ts ts := ⟨fun _ h => h, fun _ h => .inl h⟩

theorem Covers.trans (h : Covers ts us) (h' : Covers us vs) : Covers ts vs := by
  refine ⟨fun t ht => h'.subset (h.subset ht), fun v hv => ?_⟩
  rcases h'.same v hv with hu | ⟨u, hu, huv⟩
  · exact h.same v hu
  · rcases h.same u hu with ht | ⟨t, ht, htu⟩
    · exact .inr ⟨u, ht, huv⟩
    · exact .inr ⟨t, ht, Same.trans htu huv⟩

theorem Covers.append (h : Covers ts us) (vs : List TypeExpr) : Covers (ts ++ vs) (us ++ vs) := by
  refine ⟨List.append_subset.mpr ⟨List.subset_append_of_subset_left _ h.subset,
    List.subset_append_right _ _⟩, fun v hv => ?_⟩
  rcases List.mem_append.mp hv with hv | hv
  · exact (h.same v hv).imp (List.mem_append_left _) fun ⟨t, ht, hsame⟩ =>
      ⟨t, List.mem_append_left _ ht, hsame⟩
  · exact .inl (List.mem_append_right _ hv)

theorem exists_conjunct_of_repeats (h : t.repeats u = true) :
    ∀ v ∈ u.conjuncts, ∃ k ∈ t.conjuncts, k.Same v := by
  intro v hv
  obtain ⟨m, rfl | hm, k, hk, hkv⟩ := exists_same_of_repeats Same.conjuncts h v hv
  · exact ⟨k, hk, hkv⟩
  · exact ⟨k, flatMap_members t ▸ List.mem_flatMap.mpr ⟨m, hm, hk⟩, hkv⟩

theorem covers_agree (t u : TypeExpr) : Covers (t.agree u).conjuncts (t.conjuncts ++ u.conjuncts) := by
  rw [agree_eq]
  split
  · next h =>
    refine ⟨List.subset_append_left _ _, fun v hv => ?_⟩
    exact (List.mem_append.mp hv).imp_right (exists_conjunct_of_repeats h v)
  · rw [conjuncts_intersection, List.flatMap_append, flatMap_members, List.flatMap_singleton]
    exact .refl _

end TypeExpr

/-! ## One property from several -/

namespace Property

open TypeExpr (Covers)

variable {p : Property TypeExpr} {ps : List (Property TypeExpr)}

theorem optional_foldl_merge : (ps.foldl merge p).optional = (p :: ps).all (·.optional) := by
  induction ps generalizing p with
  | nil => exact (Bool.and_true _).symm
  | cons q ps ih =>
      rw [List.foldl_cons, ih, List.all_cons, List.all_cons, List.all_cons, ← Bool.and_assoc]
      rfl

theorem doc_foldl_merge : (ps.foldl merge p).doc = (p :: ps).findSome? (·.doc) := by
  induction ps generalizing p with
  | nil => cases hdoc : p.doc <;> simp [hdoc]
  | cons q ps ih =>
      rw [List.foldl_cons, ih, List.findSome?_cons, List.findSome?_cons, List.findSome?_cons]
      cases hdoc : p.doc <;> simp [merge, hdoc]

theorem covers_foldl_merge :
    Covers (ps.foldl merge p).type.conjuncts ((p :: ps).flatMap fun q => q.type.conjuncts) := by
  induction ps generalizing p with
  | nil =>
      rw [List.flatMap_singleton]
      exact .refl _
  | cons q ps ih =>
      refine ih.trans ?_
      simp only [List.flatMap_cons, ← List.append_assoc]
      exact (TypeExpr.covers_agree p.type q.type).append _

end Property

/-! ## One object from several -/

theorem eraseDups_snoc (names : List String) (name : String) :
    (names ++ [name]).eraseDups =
      if name ∈ names then names.eraseDups else names.eraseDups ++ [name] := by
  rw [List.eraseDups_append]
  by_cases h : name ∈ names <;> simp [List.removeAll, h, List.eraseDups_cons]

theorem nodup_eraseDups (names : List String) : names.eraseDups.Nodup := by
  induction names using List.reverseRecOn with
  | nil => exact List.nodup_nil
  | append_singleton names name ih =>
      rw [eraseDups_snoc]
      split
      · exact ih
      · next hnew =>
        refine List.nodup_append.mpr ⟨ih, List.nodup_singleton _, fun a ha b hb heq => hnew ?_⟩
        exact List.mem_singleton.mp hb ▸ heq ▸ List.mem_eraseDups.mp ha

theorem perm_eraseDups {l l' : List String} (h : l.Perm l') : l.eraseDups.Perm l'.eraseDups :=
  (List.perm_ext_iff_of_nodup (nodup_eraseDups l) (nodup_eraseDups l')).mpr
    fun a => by rw [List.mem_eraseDups, List.mem_eraseDups, h.mem_iff]

namespace ObjectType

open TypeExpr (Covers)

variable {o : ObjectType TypeExpr} {os : List (ObjectType TypeExpr)} {p q : Property TypeExpr}
  {ps qs : List (Property TypeExpr)} {name : String}

theorem properties_foldl_merge :
    (os.foldl merge o).properties = (os.flatMap (·.properties)).foldl addProperty o.properties := by
  induction os generalizing o with
  | nil => rfl
  | cons a os ih => rw [List.foldl_cons, ih, List.flatMap_cons, List.foldl_append]; rfl

/-- Properties that are added one by one have their names in the order in which these come first. -/
theorem names_foldl_addProperty_eq (qs : List (Property TypeExpr)) :
    (qs.foldl addProperty []).map Property.name = (qs.map Property.name).eraseDups := by
  induction qs using List.reverseRecOn with
  | nil => rfl
  | append_singleton qs q ih =>
      rw [List.foldl_append, List.foldl_cons, List.foldl_nil, names_addProperty, ih,
        List.map_append, List.map_singleton, eraseDups_snoc]
      simp only [List.mem_eraseDups]

theorem foldl_addProperty_of_nodup (h : (qs.map Property.name).Nodup) :
    qs.foldl addProperty [] = qs := by
  induction qs using List.reverseRecOn with
  | nil => rfl
  | append_singleton qs q ih =>
      rw [List.map_append, List.map_singleton] at h
      obtain ⟨hqs, -, hnew⟩ := List.nodup_append.mp h
      rw [List.foldl_append, ih hqs, List.foldl_cons, List.foldl_nil]
      have hne : ∀ r ∈ qs, r.name ≠ q.name := fun r hr =>
        hnew r.name (List.mem_map_of_mem hr) q.name List.mem_cons_self
      clear h hnew hqs ih
      induction qs with
      | nil => rfl
      | cons r qs ih =>
          obtain ⟨hr, hrest⟩ := List.forall_mem_cons.mp hne
          rw [addProperty, if_neg hr, ih hrest]
          rfl

theorem foldl_join (p : Property TypeExpr) (ps : List (Property TypeExpr)) :
    (p :: ps).foldl join [] = [ps.foldl Property.merge p] := by
  show ps.foldl join [p] = _
  induction ps generalizing p with
  | nil => rfl
  | cons q ps ih => exact ih (p.merge q)

theorem row_of_mem (h : (ps.map Property.name).Nodup) (hq : q ∈ ps) : row q.name ps = [q] := by
  induction ps with
  | nil => cases hq
  | cons p ps ih =>
      rw [List.map_cons] at h
      obtain ⟨hp, hrest⟩ := List.nodup_cons.mp h
      rcases List.mem_cons.mp hq with rfl | hq
      · have hnone : row q.name ps = [] :=
          List.filter_eq_nil_iff.mpr fun r hr hname =>
            hp (of_decide_eq_true hname ▸ List.mem_map_of_mem hr)
        rw [row_cons_self, hnone]
      · have hne : p.name ≠ q.name := fun heq => hp (heq ▸ List.mem_map_of_mem hq)
        rw [row_cons_of_ne hne, ih hrest hq]

/-- A property of the merged object is put together from those of its name. -/
theorem eq_foldl_merge_of_mem (hq : q ∈ qs.foldl addProperty []) :
    ∃ first rest, row q.name qs = first :: rest ∧ q = rest.foldl Property.merge first := by
  have hnodup := names_foldl_addProperty_eq qs ▸ nodup_eraseDups (qs.map Property.name)
  have hrow : [q] = (row q.name qs).foldl join [] :=
    (row_of_mem hnodup hq).symm.trans row_foldl_addProperty
  cases hcase : row q.name qs with
  | nil =>
      rw [hcase] at hrow
      cases hrow
  | cons first rest =>
      rw [hcase, foldl_join] at hrow
      exact ⟨first, rest, rfl, List.singleton_inj.mp hrow⟩

theorem index_foldl_merge_eq_none :
    (os.foldl merge o).index = none ↔ ∀ a ∈ o :: os, a.index = none := by
  induction os generalizing o with
  | nil => simp
  | cons b os ih =>
      have hmerge : (o.merge b).index = none ↔ o.index = none ∧ b.index = none := by
        unfold merge
        cases ho : o.index <;> cases hb : b.index <;> simp
      simp only [List.foldl_cons, ih, List.forall_mem_cons, hmerge, and_assoc]

theorem covers_index_foldl_merge {t : TypeExpr} (h : (os.foldl merge o).index = some t) :
    Covers t.conjuncts (((o :: os).filterMap (·.index)).flatMap TypeExpr.conjuncts) := by
  induction os generalizing o with
  | nil =>
      have ho : o.index = some t := h
      rw [List.filterMap_cons_some ho]
      simpa using Covers.refl t.conjuncts
  | cons b os ih =>
      refine (ih h).trans ?_
      unfold merge
      cases ho : o.index with
      | none => cases hb : b.index <;> simp [ho, hb, Covers.refl]
      | some x =>
          cases hb : b.index with
          | none => simp [ho, hb, Covers.refl]
          | some y =>
              simpa [ho, hb, ← List.append_assoc] using (TypeExpr.covers_agree x y).append _

end ObjectType

end SwaggerTypes
