import SwaggerTypes.Proofs.PropertyOrder
/-!
# Members that repeat

An intersection is a list of members, and a member that is there already says nothing new. A type is
reduced when intersections in intersections are opened and only the first of several members that are
the same is kept. What two sources of a property give is, reduced, always their members one after
the other; whether the second source is added or found to agree does not show.
-/

namespace SwaggerTypes

namespace TypeExpr

variable {t u : TypeExpr} {ts us kept : List TypeExpr}

def members : TypeExpr → List TypeExpr
  | .intersection ms => ms
  | t => [t]

theorem members_cases (t : TypeExpr) :
    (∃ ms, t = intersection ms) ∨ t.members = [t] ∧ ∀ ms, t ≠ intersection ms := by
  cases t with
  | intersection ms => exact .inl ⟨ms, rfl⟩
  | _ => exact .inr ⟨rfl, nofun⟩

def meet : List TypeExpr → TypeExpr
  | [one] => one
  | ms => .intersection ms

def repeats (t u : TypeExpr) : Bool := t.same u || t.members.any (·.same u)

/-- What two sources give is the first of them, or the members of the first with the second. -/
theorem agree_eq (t u : TypeExpr) :
    t.agree u = if t.repeats u then t else .intersection (t.members ++ [u]) := by
  unfold agree repeats
  by_cases hsame : t.same u = true
  · simp [hsame]
  · cases t <;> simp [hsame, intersect, members]
    split <;> rfl

/-! ## Keeping the first of the same types -/

def keep (kept : List TypeExpr) (t : TypeExpr) : List TypeExpr :=
  if kept.any (·.same t) then kept else kept ++ [t]

def distinct (ts : List TypeExpr) : List TypeExpr := ts.foldl keep []

theorem distinct_append : distinct (ts ++ us) = us.foldl keep (distinct ts) := List.foldl_append ..

theorem foldl_keep_of_repeated (h : ∀ u ∈ us, ∃ t ∈ kept, t.Same u) : us.foldl keep kept = kept := by
  induction us with
  | nil => rfl
  | cons u us ih =>
      obtain ⟨hu, hus⟩ := List.forall_mem_cons.mp h
      rw [List.foldl_cons, keep, if_pos (List.any_eq_true.mpr hu), ih hus]

theorem foldl_keep_of_distinct (h : us.Pairwise fun t u => ¬ t.Same u)
    (hkept : ∀ t ∈ kept, ∀ u ∈ us, ¬ t.Same u) : us.foldl keep kept = kept ++ us := by
  induction us generalizing kept with
  | nil => exact (List.append_nil _).symm
  | cons u us ih =>
      obtain ⟨hu, hus⟩ := List.pairwise_cons.mp h
      have hnew : ¬ kept.any (·.same u) = true := by
        rw [List.any_eq_true]
        rintro ⟨t, ht, hsame⟩
        exact hkept t ht u List.mem_cons_self hsame
      rw [List.foldl_cons, keep, if_neg hnew, ih hus, List.append_assoc]
      · rfl
      · intro t ht v hv
        rcases List.mem_append.mp ht with ht | ht
        · exact hkept t ht v (List.mem_cons_of_mem _ hv)
        · exact List.mem_singleton.mp ht ▸ hu v hv

theorem pairwise_foldl_keep (h : kept.Pairwise fun t u => ¬ t.Same u) :
    (ts.foldl keep kept).Pairwise fun t u => ¬ t.Same u := by
  induction ts generalizing kept with
  | nil => exact h
  | cons u ts ih =>
      rw [List.foldl_cons]
      apply ih
      unfold keep
      split
      · exact h
      · next hnew =>
        refine List.pairwise_append.mpr ⟨h, List.pairwise_singleton _ _, fun t ht v hv hsame => ?_⟩
        rw [List.mem_singleton.mp hv] at hsame
        exact hnew (List.any_eq_true.mpr ⟨t, ht, hsame⟩)

theorem distinct_distinct (ts : List TypeExpr) : distinct (distinct ts) = distinct ts :=
  foldl_keep_of_distinct (pairwise_foldl_keep .nil) fun _ h => nomatch h

theorem distinct_distinct_append : distinct (distinct ts ++ us) = distinct (ts ++ us) := by
  rw [distinct_append, distinct_distinct, distinct_append]

theorem mem_foldl_keep (h : t ∈ ts.foldl keep kept) : t ∈ kept ∨ t ∈ ts := by
  induction ts generalizing kept with
  | nil => exact .inl h
  | cons u ts ih =>
      rcases ih h with h | h
      · unfold keep at h
        split at h
        · exact .inl h
        · rcases List.mem_append.mp h with h | h
          · exact .inl h
          · exact .inr (List.mem_singleton.mp h ▸ List.mem_cons_self)
      · exact .inr (List.mem_cons_of_mem _ h)

theorem mem_distinct (h : t ∈ distinct ts) : t ∈ ts := (mem_foldl_keep h).resolve_left (by simp)

theorem subset_foldl_keep : kept ⊆ ts.foldl keep kept := by
  induction ts generalizing kept with
  | nil => exact fun _ h => h
  | cons u ts ih =>
      intro t ht
      apply ih
      unfold keep
      split
      · exact ht
      · exact List.mem_append_left _ ht

theorem kept_or_same (h : t ∈ ts) : t ∈ ts.foldl keep kept ∨ ∃ k ∈ ts.foldl keep kept, k.Same t := by
  induction ts generalizing kept with
  | nil => cases h
  | cons u ts ih =>
      rcases List.mem_cons.mp h with rfl | h
      · rw [List.foldl_cons]
        by_cases hany : kept.any (·.same t) = true
        · obtain ⟨k, hk, hsame⟩ := List.any_eq_true.mp hany
          refine .inr ⟨k, subset_foldl_keep ?_, hsame⟩
          rwa [keep, if_pos hany]
        · refine .inl (subset_foldl_keep ?_)
          rw [keep, if_neg hany]
          exact List.mem_append_right _ List.mem_cons_self
      · exact ih h

theorem exists_same_of_mem (ht : t ∈ ts) (h : t.Same u) : ∃ k ∈ distinct ts, k.Same u := by
  rcases kept_or_same ht with hk | ⟨k, hk, hsame⟩
  · exact ⟨t, hk, h⟩
  · exact ⟨k, hk, hsame.trans h⟩

theorem exists_same_of_forall₂ (hall : List.Forall₂ Same ts us) (h : u ∈ us) :
    ∃ t ∈ ts, t.Same u := by
  induction hall with
  | nil => cases h
  | cons hhead _ ih =>
      rcases List.mem_cons.mp h with rfl | h
      · exact ⟨_, List.mem_cons_self, hhead⟩
      · obtain ⟨t, ht, hsame⟩ := ih h
        exact ⟨t, List.mem_cons_of_mem _ ht, hsame⟩

theorem any_same_of_forall₂ (hall : List.Forall₂ Same ts us) (htu : t.Same u)
    (h : us.any (·.same u) = true) : ts.any (·.same t) = true := by
  obtain ⟨v, hv, hsame⟩ := List.any_eq_true.mp h
  obtain ⟨k, hk, hkv⟩ := exists_same_of_forall₂ hall hv
  exact List.any_eq_true.mpr ⟨k, hk, hkv.trans (Same.trans hsame htu.symm)⟩

theorem forall₂_distinct (h : List.Forall₂ Same ts us) :
    List.Forall₂ Same (distinct ts) (distinct us) := by
  refine List.rel_foldl (P := List.Forall₂ Same) ?_ .nil h
  intro kept kept' hkept t u htu
  have hany : kept.any (·.same t) = true ↔ kept'.any (·.same u) = true :=
    ⟨any_same_of_forall₂ (.flip (hkept.imp fun _ _ h => h.symm)) htu.symm,
      any_same_of_forall₂ hkept htu⟩
  unfold keep
  by_cases hkept' : kept'.any (·.same u) = true
  · rwa [if_pos hkept', if_pos (hany.mpr hkept')]
  · rw [if_neg hkept', if_neg (hany.not.mpr hkept')]
    exact List.rel_append hkept (.cons htu .nil)

/-- What same types share, a type that is repeated has in common with what repeats it. -/
theorem exists_same_of_repeats {pieces : TypeExpr → List TypeExpr}
    (hpieces : ∀ {a b : TypeExpr}, a.Same b → List.Forall₂ Same (pieces a) (pieces b))
    (h : t.repeats u = true) :
    ∀ v ∈ pieces u, ∃ m, (m = t ∨ m ∈ t.members) ∧ ∃ k ∈ pieces m, k.Same v := by
  intro v hv
  rcases Bool.or_eq_true_iff.mp h with hsame | hmember
  · exact ⟨t, .inl rfl, exists_same_of_forall₂ (hpieces hsame) hv⟩
  · obtain ⟨m, hm, hsame⟩ := List.any_eq_true.mp hmember
    exact ⟨m, .inr hm, exists_same_of_forall₂ (hpieces hsame) hv⟩

/-! ## Reduced types -/

/-- A type whose intersections are opened where they stand in one another, without members that
repeat. -/
def reduced : TypeExpr → TypeExpr := rebuild (fun ts => meet (distinct (ts.flatMap members))) .object

def parts (t : TypeExpr) : List TypeExpr := t.reduced.members

theorem reduced_union (ts : List TypeExpr) : (union ts).reduced = .union (ts.map reduced) :=
  rebuild_union ts

theorem reduced_object (o : ObjectType TypeExpr) : (object o).reduced = .object (o.map reduced) :=
  rebuild_object o

theorem members_meet (h : ∀ t ∈ ts, t.members = [t]) : (meet ts).members = ts := by
  unfold meet
  split
  · exact h _ List.mem_cons_self
  · rfl

theorem reduced_intersection : (intersection ts).reduced = meet (distinct (ts.flatMap parts)) := by
  rw [reduced, rebuild_intersection, List.flatMap_map]
  rfl

theorem members_of_mem_parts (h : u ∈ t.parts) : u.members = [u] := by
  induction t using TypeExpr.induction generalizing u with
  | base | literal | named | array | union =>
      rw [List.mem_singleton.mp h]
      rfl
  | object o =>
      rw [parts, reduced_object] at h
      rw [List.mem_singleton.mp h]
      rfl
  | intersection ts ih =>
      have hall : ∀ u ∈ distinct (ts.flatMap parts), u.members = [u] := by
        intro u hu
        obtain ⟨t, ht, hu⟩ := List.mem_flatMap.mp (mem_distinct hu)
        exact ih t ht hu
      rw [parts, reduced_intersection, members_meet hall] at h
      exact hall u h

theorem parts_intersection : (intersection ts).parts = distinct (ts.flatMap parts) := by
  rw [parts, reduced_intersection]
  refine members_meet fun u hu => ?_
  obtain ⟨t, -, hu⟩ := List.mem_flatMap.mp (mem_distinct hu)
  exact members_of_mem_parts hu

theorem reduced_eq_meet (t : TypeExpr) : t.reduced = meet t.parts := by
  cases t with
  | intersection ts => rw [parts_intersection, reduced_intersection]
  | object o =>
      rw [parts, reduced_object]
      rfl
  | _ => rfl

theorem distinct_parts (t : TypeExpr) : distinct t.parts = t.parts := by
  cases t with
  | intersection ts => rw [parts_intersection, distinct_distinct]
  | object o =>
      rw [parts, reduced_object]
      rfl
  | _ => rfl

theorem distinct_flatMap_members (t : TypeExpr) : distinct (t.members.flatMap parts) = t.parts := by
  rcases t.members_cases with ⟨ts, rfl⟩ | ⟨hself, -⟩
  · exact parts_intersection.symm
  · rw [hself, List.flatMap_singleton, distinct_parts]

theorem Same.members (h : t.Same u) : List.Forall₂ Same t.members u.members := by
  cases t with
  | intersection ts =>
      obtain ⟨us, rfl, hus⟩ := same_intersection.mp h
      exact hus
  | object o =>
      obtain ⟨b, rfl, -⟩ := same_object.mp h
      exact .cons h .nil
  | _ => cases u <;> first | exact .cons h .nil | cases h

theorem Same.meet (h : List.Forall₂ Same ts us) : (meet ts).Same (meet us) := by
  cases h with
  | nil => exact same_intersection.mpr ⟨_, rfl, .nil⟩
  | cons hhead htail =>
      cases htail with
      | nil => exact hhead
      | cons hsecond htail => exact same_intersection.mpr ⟨_, rfl, .cons hhead (.cons hsecond htail)⟩

theorem Same.reduced (h : t.Same u) : t.reduced.Same u.reduced := by
  refine h.rebuilt (fun hall => .meet (forall₂_distinct ?_)) fun hab => same_object.mpr ⟨_, rfl, hab⟩
  exact List.rel_flatMap hall fun _ _ hsame => hsame.members

theorem Same.parts (h : t.Same u) : List.Forall₂ Same t.parts u.parts := h.reduced.members

theorem parts_snoc (t u : TypeExpr) :
    (intersection (t.members ++ [u])).parts = distinct (t.parts ++ u.parts) := by
  rw [parts_intersection, List.flatMap_append, List.flatMap_singleton, ← distinct_distinct_append,
    distinct_flatMap_members]

/-- What repeats a type has no parts of its own. -/
theorem parts_of_repeats (h : t.repeats u = true) : distinct (t.parts ++ u.parts) = t.parts := by
  rw [distinct_append, distinct_parts]
  refine foldl_keep_of_repeated fun v hv => ?_
  obtain ⟨m, rfl | hm, k, hk, hkv⟩ := exists_same_of_repeats Same.parts h v hv
  · exact ⟨k, hk, hkv⟩
  · rw [← distinct_flatMap_members t]
    exact exists_same_of_mem (List.mem_flatMap.mpr ⟨m, hm, hk⟩) hkv

/-- What two sources give has the parts of the first and then those of the second. -/
theorem parts_agree (t u : TypeExpr) : (t.agree u).parts = distinct (t.parts ++ u.parts) := by
  rw [agree_eq]
  split
  · next h => exact (parts_of_repeats h).symm
  · exact parts_snoc t u

/-! ## Steady types -/

theorem members_ordered (t : TypeExpr) : t.ordered.members = t.members.map ordered := by
  cases t with
  | intersection ts => rw [ordered_intersection, members, members]
  | object o =>
      rw [ordered_object]
      exact congrArg (fun t => [t]) (ordered_object o).symm
  | _ => rfl

theorem repeats_ordered (h : t.repeats u = true) : t.ordered.repeats u.ordered = true := by
  refine Bool.or_eq_true_iff.mpr ((Bool.or_eq_true_iff.mp h).imp Same.ordered fun hmember => ?_)
  obtain ⟨m, hm, hsame⟩ := List.any_eq_true.mp hmember
  rw [members_ordered]
  exact List.any_eq_true.mpr ⟨m.ordered, List.mem_map_of_mem hm, Same.ordered hsame⟩

theorem ordered_snoc (t u : TypeExpr) :
    (intersection (t.members ++ [u])).ordered = .intersection (t.ordered.members ++ [u.ordered]) := by
  rw [members_ordered, ordered_intersection, List.map_append, List.map_singleton]

/-- The parts are the same whether the two sources are put into order before or after. -/
theorem parts_ordered_agree (t u : TypeExpr) :
    (t.agree u).ordered.parts = distinct (t.ordered.parts ++ u.ordered.parts) := by
  rw [agree_eq]
  split
  · next h => exact (parts_of_repeats (repeats_ordered h)).symm
  · rw [ordered_snoc, parts_snoc]

/-- Sources give the same before and after ordering when ordering makes none of them repeat the
other. -/
theorem ordered_agree (h : t.ordered.repeats u.ordered = true → t.repeats u = true) :
    (t.agree u).ordered = t.ordered.agree u.ordered := by
  rw [agree_eq, agree_eq]
  by_cases hr : t.repeats u = true
  · rw [if_pos hr, if_pos (repeats_ordered hr)]
  · rw [if_neg hr, if_neg fun ho => hr (h ho), ordered_snoc]

/-- A type in which ordering the properties makes no member of an intersection repeat those before
it. -/
inductive Steady : TypeExpr → Prop
  | base {type : BaseType} : Steady (.base type)
  | literal {value : Literal} : Steady (.literal value)
  | named {name : String} : Steady (.named name)
  | array {t : TypeExpr} (of : Steady t) : Steady (.array t)
  | union {ts : List TypeExpr} (members : ∀ t ∈ ts, Steady t) : Steady (.union ts)
  | intersection {ts : List TypeExpr} (members : ∀ t ∈ ts, Steady t)
      (settled : ∀ (before m : TypeExpr) (after : List TypeExpr), ts = before.members ++ m :: after →
        before.ordered.repeats m.ordered = true → before.repeats m = true) : Steady (.intersection ts)
  | object {o : ObjectType TypeExpr} (properties : ∀ p ∈ o.properties, Steady p.type)
      (index : ∀ t ∈ o.index, Steady t) : Steady (.object o)

theorem Same.repeats {v w : TypeExpr} (ht : t.Same v) (hu : u.Same w) (h : t.repeats u = true) :
    v.repeats w = true := by
  refine Bool.or_eq_true_iff.mpr ((Bool.or_eq_true_iff.mp h).imp ?_ fun hmember => ?_)
  · exact fun hsame => ht.symm.trans (Same.trans hsame hu)
  · exact any_same_of_forall₂ ht.symm.members hu.symm hmember

/-- Types that are the same as the members of a type are the members of a type that is the same. -/
theorem exists_members (h : List.Forall₂ Same ts u.members) :
    ∃ t : TypeExpr, t.members = ts ∧ t.Same u := by
  rcases u.members_cases with ⟨us, rfl⟩ | ⟨hu, hne⟩
  · exact ⟨intersection ts, rfl, same_intersection.mpr ⟨us, rfl, h⟩⟩
  · rw [hu] at h
    obtain ⟨t, _, hsame, htail, rfl⟩ := List.forall₂_cons_right_iff.mp h
    cases htail
    refine ⟨t, ?_, hsame⟩
    rcases t.members_cases with ⟨ts, rfl⟩ | ⟨ht, -⟩
    · obtain ⟨us, heq, -⟩ := same_intersection.mp hsame
      exact absurd heq (hne us)
    · exact ht

theorem Steady.of_same (h : t.Same u) (ht : t.Steady) : u.Steady := by
  have hall : ∀ {ts us : List TypeExpr},
      List.Forall₂ (fun t u => t.Same u ∧ (t.Steady → u.Steady)) ts us → (∀ t ∈ ts, t.Steady) →
        ∀ u ∈ us, u.Steady := fun h => forall_mem_of_forall₂ And.right h
  refine Same.induction (motive := fun t u => t.Steady → u.Steady) ?base ?literal ?named ?array ?union
    ?intersection ?object h ht
  case base | named => exact fun _ h => h
  case literal => exact fun _ _ _ _ => .literal
  case array =>
    intro t u _ ih h
    cases h with
    | array of => exact .array (ih of)
  case union =>
    intro ts us ih h
    cases h with
    | union members => exact .union (hall ih members)
  case intersection =>
    intro ts us ih h
    cases h with
    | intersection members settled =>
      refine .intersection (hall ih members) fun before m after heq hrepeats => ?_
      subst heq
      have hsame := ih.imp fun _ _ h => h.1
      obtain ⟨before', hbefore, hsamebefore⟩ :=
        exists_members (List.forall₂_take_append ts before.members _ hsame)
      obtain ⟨m', after', hm, -, hrest⟩ :=
        List.forall₂_cons_right_iff.mp (List.forall₂_drop_append ts before.members _ hsame)
      have hts : ts = before'.members ++ m' :: after' := by
        rw [hbefore, ← hrest, List.take_append_drop]
      refine Same.repeats hsamebefore hm (settled before' m' after' hts ?_)
      exact Same.repeats hsamebefore.symm.ordered hm.symm.ordered hrepeats
  case object =>
    rintro ⟨ps, index⟩ ⟨qs, index'⟩ ⟨hproperties, hindex⟩ h
    cases h with
    | object properties index =>
      refine .object (forall_mem_of_forall₂ (fun h => h.type.2) hproperties properties) ?_
      cases hindex with
      | none => exact fun _ h => nomatch h
      | some h => exact fun u hu => Option.some.inj hu ▸ h.2 (index _ rfl)

theorem Steady.member (h : t.Steady) (hm : u ∈ t.members) : u.Steady := by
  rcases t.members_cases with ⟨ts, rfl⟩ | ⟨hself, -⟩
  · cases h with
    | intersection members => exact members u hm
  · rw [hself] at hm
    exact List.mem_singleton.mp hm ▸ h

/-- Sources of a steady type are steady, and ordering makes none of them repeat the other. -/
theorem Steady.of_agree (h : (t.agree u).Steady) :
    t.Steady ∧ u.Steady ∧ (t.ordered.repeats u.ordered = true → t.repeats u = true) := by
  rw [agree_eq] at h
  split at h
  · next hr =>
    refine ⟨h, ?_, fun _ => hr⟩
    rcases Bool.or_eq_true_iff.mp hr with hsame | hmember
    · exact h.of_same hsame
    · obtain ⟨m, hm, hsame⟩ := List.any_eq_true.mp hmember
      exact (h.member hm).of_same hsame
  · cases h with
    | intersection hall hsettled =>
      obtain ⟨ht, hu⟩ := List.forall_mem_append.mp hall
      refine ⟨?_, hu u List.mem_cons_self, hsettled t u [] rfl⟩
      rcases t.members_cases with ⟨ts, rfl⟩ | ⟨hself, -⟩
      · refine .intersection ht fun before m after heq => hsettled before m (after ++ [u]) ?_
        rw [members, heq, List.append_assoc, List.cons_append]
      · exact ht t (hself ▸ List.mem_cons_self)

end TypeExpr
end SwaggerTypes
