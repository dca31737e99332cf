import Mathlib.Logic.Relation
import SwaggerTypes.Proofs.Addresses
/-!
# Hops from reference to reference

A pointer is walked below the definition it names. Where a walk meets a reference and has segments left,
it hops: the segments of the reference take the place of those walked so far. Resolution succeeds exactly
when at most 256 hops lead to a walk that uses up its segments, and reports a loop exactly when the hops
come back to a pointer or go on for longer. What it answers is found again without a hop.
-/

namespace SwaggerTypes

open Relation (ReflTransGen)

namespace Pointer

/-- Different segments never share a text. -/
theorem render_inj {segments other : List String} (hne : segments ≠ [])
    (h : render segments = render other) : segments = other := by
  have hparse := parse_render hne
  rw [h] at hparse
  by_cases hother : other = []
  · subst hother
    cases hparse
  · rw [parse_render hother] at hparse
    exact (Except.ok.inj hparse).symm

end Pointer

namespace Node

/-! ## Walks -/

/-- One step of a walk, from a schema that is no reference to one of its children: it uses up the
segments that address the child. -/
inductive Enters : Node × List String → Node × List String → Prop
  | child {node child : Node} {segment : String} {rest : List String} {used : Nat}
      (hkind : ∀ pointer, node.kind ≠ .reference pointer)
      (h : node.child segment rest.head? = some (child, used)) :
      Enters (node, segment :: rest) (child, (segment :: rest).drop used)

theorem child_used {node child : Node} {segment : String} {next : Option String} {used : Nat}
    (h : node.child segment next = some (child, used)) :
    used = 1 ∨ used = 2 ∧ next.isSome = true := by
  obtain ⟨kind, doc, nullable⟩ := node
  cases kind with
  | object properties required additional =>
      simp only [Node.child] at h
      split at h
      · simp only [Option.bind_eq_bind, Option.bind_eq_some_iff, Option.some.injEq,
          Prod.mk.injEq] at h
        obtain ⟨name, rfl, found, -, -, rfl⟩ := h
        exact .inr ⟨rfl, rfl⟩
      · split at h
        · cases additional with
          | typed schema =>
              cases h
              exact .inl rfl
          | _ => cases h
        · cases h
  | array items =>
      simp only [Node.child, Option.ite_none_right_eq_some] at h
      obtain ⟨-, h⟩ := h
      cases h
      exact .inl rfl
  | composite keyword members =>
      simp only [Node.child, Option.bind_eq_bind, Option.bind_eq_some_iff, Option.some.injEq,
        Prod.mk.injEq] at h
      obtain ⟨wanted, -, index, ⟨name, rfl, -⟩, found, -, -, rfl⟩ := h
      exact .inr ⟨rfl, rfl⟩
  | _ => cases h

theorem Enters.walk {node child : Node} {segments rest : List String}
    (h : Enters (node, segments) (child, rest)) (passed : List String) :
    ∃ passed', node.walk passed segments = child.walk passed' rest := by
  cases h with
  | @child _ _ segment rest used hkind hchild =>
      rw [Node.walk]
      split
      · next hpointer => exact absurd hpointer (hkind _)
      · rw [hchild]
        rcases child_used hchild with rfl | ⟨rfl, hnext⟩
        · exact ⟨_, rfl⟩
        · cases rest with
          | nil => cases hnext
          | cons next below => exact ⟨_, rfl⟩

theorem walk_of_entered {root node : Node} {way rest : List String}
    (h : ReflTransGen Enters (root, way) (node, rest)) (passed : List String) :
    ∃ passed', root.walk passed way = node.walk passed' rest := by
  generalize hstart : (root, way) = start at h
  induction h using ReflTransGen.head_induction_on generalizing root way passed with
  | refl =>
      cases hstart
      exact ⟨passed, rfl⟩
  | @head _ next hfirst _ ih =>
      subst hstart
      obtain ⟨passed₁, hwalk⟩ := hfirst.walk passed
      obtain ⟨passed₂, hrest⟩ := ih passed₁ rfl
      exact ⟨passed₂, hwalk.trans hrest⟩

/-- A walk ends at a schema exactly when steps to children use up its segments there. -/
theorem walk_eq_done_iff {root node : Node} {passed way : List String} :
    root.walk passed way = .done node ↔ ReflTransGen Enters (root, way) (node, []) := by
  constructor
  · intro h
    fun_induction Node.walk root passed way with
    | case1 =>
        cases h
        exact .refl
    | case2 | case3 | case5 => cases h
    | case4 node passed segment rest child hkind hchild ih => exact .head (.child hkind hchild) (ih h)
    | case6 node passed segment child used hused next below hkind hchild ih =>
        have htwo : used = 2 := ((child_used hchild).resolve_left hused).1
        subst htwo
        exact .head (.child hkind hchild) (ih h)
  · intro h
    obtain ⟨passed', hwalk⟩ := walk_of_entered h passed
    rw [hwalk, walk]

/-- A walk goes on behind a reference exactly when steps to children lead there and leave segments. -/
theorem walk_eq_follow_iff {root : Node} {passed way remaining : List String} {pointer : String} :
    root.walk passed way = .follow pointer remaining ↔
      ∃ node, ReflTransGen Enters (root, way) (node, remaining) ∧
        node.kind = .reference pointer ∧ remaining ≠ [] := by
  constructor
  · intro h
    fun_induction Node.walk root passed way with
    | case1 | case3 | case5 => cases h
    | case2 node passed segment rest found hkind =>
        cases h
        exact ⟨node, .refl, hkind, List.cons_ne_nil _ _⟩
    | case4 node passed segment rest child hkind hchild ih =>
        obtain ⟨last, hlast, hrest⟩ := ih h
        exact ⟨last, .head (.child hkind hchild) hlast, hrest⟩
    | case6 node passed segment child used hused next below hkind hchild ih =>
        obtain ⟨last, hlast, hrest⟩ := ih h
        have htwo : used = 2 := ((child_used hchild).resolve_left hused).1
        subst htwo
        exact ⟨last, .head (.child hkind hchild) hlast, hrest⟩
  · rintro ⟨node, h, hkind, hne⟩
    obtain ⟨passed', hwalk⟩ := walk_of_entered h passed
    obtain ⟨segment, rest, rfl⟩ := List.exists_cons_of_ne_nil hne
    rw [hwalk, walk, hkind]

end Node

theorem Home.split?_append (home : Home) (name : String) (way : List String) :
    Home.split? (home.segments ++ name :: way) = some (home, name, way) := by
  cases home <;> rfl

namespace DefinitionTable

variable {table : DefinitionTable}

/-! ## Hops -/

/-- The segments lead to a target without a hop: they name a definition, and the walk below it uses them
up. -/
inductive Ends (table : DefinitionTable) : List String → Target → Prop
  | done {i : Nat} {d : Definition} {way : List String} {node : Node}
      (entry : table.entries[i]? = some d)
      (hwalk : ReflTransGen Node.Enters (d.root, way) (node, [])) :
      Ends table (d.home.segments ++ d.name :: way)
        ⟨i, Pointer.render (d.home.segments ++ d.name :: way), node, way.isEmpty⟩

/-- One hop: the segments name a definition, the walk below it meets a reference with segments left, and
these go on behind the segments of the reference. -/
inductive Hop (table : DefinitionTable) : List String → List String → Prop
  | follow {i : Nat} {d : Definition} {way remaining followed : List String} {node : Node}
      {pointer : String} (entry : table.entries[i]? = some d)
      (hwalk : ReflTransGen Node.Enters (d.root, way) (node, remaining))
      (hkind : node.kind = .reference pointer) (hleft : remaining ≠ [])
      (hparse : Pointer.parse pointer = .ok followed) :
      Hop table (d.home.segments ++ d.name :: way) (followed ++ remaining)

inductive Hops (table : DefinitionTable) : Nat → List String → List String → Prop
  | refl {segments : List String} : Hops table 0 segments segments
  | head {k : Nat} {segments next last : List String} (h : table.Hop segments next)
      (hs : Hops table k next last) : Hops table (k + 1) segments last

def Repeats (table : DefinitionTable) (segments : List String) : Prop :=
  ∃ j k first again, j < k ∧ table.Hops j segments first ∧ table.Hops k segments again ∧
    Pointer.render first = Pointer.render again

theorem parsePointer_eq_ok {pointer : String} {segments : List String} :
    parsePointer pointer = .ok segments ↔ Pointer.parse pointer = .ok segments := by
  unfold parsePointer
  cases Pointer.parse pointer with
  | error fault => exact ⟨nofun, nofun⟩
  | ok found => simp [Except.mapError]

theorem ends_iff {segments : List String} {target : Target} :
    table.Ends segments target ↔ ∃ home name way d i node,
      Home.split? segments = some (home, name, way) ∧ table.find? home name = some (d, i) ∧
        d.root.walk [] way = .done node ∧
        target = ⟨i, Pointer.render segments, node, way.isEmpty⟩ := by
  constructor
  · rintro ⟨entry, hwalk⟩
    exact ⟨_, _, _, _, _, _, Home.split?_append _ _ _, find?_of_getElem? entry,
      Node.walk_eq_done_iff.mpr hwalk, rfl⟩
  · rintro ⟨home, name, way, d, i, node, hsplit, hfind, hwalk, rfl⟩
    obtain rfl := Home.split?_eq_some hsplit
    obtain ⟨rfl, rfl⟩ := key_of_find? hfind
    exact .done (getElem?_of_find? hfind) (Node.walk_eq_done_iff.mp hwalk)

theorem hop_iff {segments next : List String} :
    table.Hop segments next ↔ ∃ home name way d i pointer remaining followed,
      Home.split? segments = some (home, name, way) ∧ table.find? home name = some (d, i) ∧
        d.root.walk [] way = .follow pointer remaining ∧ parsePointer pointer = .ok followed ∧
        next = followed ++ remaining := by
  constructor
  · rintro ⟨entry, hwalk, hkind, hleft, hparse⟩
    exact ⟨_, _, _, _, _, _, _, _, Home.split?_append _ _ _, find?_of_getElem? entry,
      Node.walk_eq_follow_iff.mpr ⟨_, hwalk, hkind, hleft⟩, parsePointer_eq_ok.mpr hparse, rfl⟩
  · rintro ⟨home, name, way, d, i, pointer, remaining, followed, hsplit, hfind, hwalk, hparse, rfl⟩
    obtain rfl := Home.split?_eq_some hsplit
    obtain ⟨rfl, rfl⟩ := key_of_find? hfind
    obtain ⟨node, hentered, hkind, hleft⟩ := Node.walk_eq_follow_iff.mp hwalk
    exact .follow (getElem?_of_find? hfind) hentered hkind hleft (parsePointer_eq_ok.mp hparse)

theorem Hop.unique {segments next other : List String} (h : table.Hop segments next)
    (h' : table.Hop segments other) : next = other := by
  obtain ⟨_, _, _, _, _, _, _, _, hsplit, hfind, hwalk, hparse, rfl⟩ := hop_iff.mp h
  obtain ⟨_, _, _, _, _, _, _, _, hsplit', hfind', hwalk', hparse', rfl⟩ := hop_iff.mp h'
  cases hsplit.symm.trans hsplit'
  cases hfind.symm.trans hfind'
  cases hwalk.symm.trans hwalk'
  cases hparse.symm.trans hparse'
  rfl

theorem Ends.not_hop {segments next : List String} {target : Target}
    (h : table.Ends segments target) : ¬ table.Hop segments next := by
  intro hhop
  obtain ⟨_, _, _, _, _, _, hsplit, hfind, hwalk, -⟩ := ends_iff.mp h
  obtain ⟨_, _, _, _, _, _, _, _, hsplit', hfind', hwalk', -⟩ := hop_iff.mp hhop
  cases hsplit.symm.trans hsplit'
  cases hfind.symm.trans hfind'
  cases hwalk.symm.trans hwalk'

theorem Ends.parse {segments : List String} {target : Target} (h : table.Ends segments target) :
    Pointer.parse target.pointer = .ok segments := by
  cases h with
  | done => exact Pointer.parse_render (by simp)

theorem Hop.ne_nil {segments next : List String} (h : table.Hop segments next) :
    segments ≠ [] ∧ next ≠ [] := by
  cases h with
  | follow _ _ _ hleft _ => simp [hleft]

namespace Hops

variable {j k : Nat} {segments next last other : List String}

theorem trans (h : table.Hops j segments next) (h' : table.Hops k next last) :
    table.Hops (j + k) segments last := by
  induction h with
  | refl => rwa [Nat.zero_add]
  | @head j _ _ _ hop _ ih =>
      rw [Nat.add_right_comm]
      exact .head hop (ih h')

theorem split (h : table.Hops (j + k) segments last) :
    ∃ next, table.Hops j segments next ∧ table.Hops k next last := by
  induction j generalizing segments with
  | zero => exact ⟨segments, .refl, by rwa [Nat.zero_add] at h⟩
  | succ j ih =>
      rw [Nat.add_right_comm] at h
      cases h with
      | head hop hs =>
          obtain ⟨middle, hfirst, hrest⟩ := ih hs
          exact ⟨middle, .head hop hfirst, hrest⟩

theorem unique (h : table.Hops k segments last) (h' : table.Hops k segments other) :
    last = other := by
  induction h with
  | refl =>
      cases h'
      rfl
  | head hop _ ih =>
      cases h' with
      | head hop' hs' =>
          cases hop.unique hop'
          exact ih hs'

theorem ne_nil (h : table.Hops k segments last) (hk : 0 < k) : segments ≠ [] ∧ last ≠ [] := by
  induction h with
  | refl => cases hk
  | @head k _ _ _ hop hs ih =>
      refine ⟨hop.ne_nil.1, ?_⟩
      cases hs with
      | refl => exact hop.ne_nil.2
      | head => exact (ih (Nat.succ_pos _)).2

/-- Hops that come back go on for ever. -/
theorem endless (h : table.Hops (j + 1) segments segments) (k : Nat) :
    ∃ last, table.Hops k segments last := by
  suffices hmany : ∀ n, table.Hops (n * (j + 1)) segments segments by
    obtain ⟨rest, hrest⟩ := Nat.exists_eq_add_of_le (Nat.le_mul_of_pos_right k (Nat.succ_pos j))
    have hround := hmany k
    rw [hrest] at hround
    obtain ⟨last, hlast, -⟩ := hround.split
    exact ⟨last, hlast⟩
  intro n
  induction n with
  | zero =>
      rw [Nat.zero_mul]
      exact .refl
  | succ n ih =>
      rw [Nat.succ_mul]
      exact ih.trans h

theorem not_round {target : Target} (h : table.Hops k segments last)
    (hends : table.Ends last target) : ¬ table.Hops (j + 1) segments segments := by
  intro hround
  obtain ⟨beyond, hbeyond⟩ := hround.endless (k + 1)
  obtain ⟨middle, hmiddle, hmore⟩ := hbeyond.split
  cases h.unique hmiddle
  cases hmore with
  | head hop => exact hends.not_hop hop

end Hops

/-- Hops that come back to a pointer come back to the same segments, and so go on for ever. -/
theorem Repeats.endless {segments : List String} (h : table.Repeats segments) (n : Nat) :
    ∃ last, table.Hops n segments last := by
  obtain ⟨j, k, first, again, hlt, hfirst, hagain, hrender⟩ := h
  obtain ⟨k, rfl⟩ := Nat.exists_eq_add_of_lt hlt
  rw [Nat.add_assoc] at hagain
  obtain ⟨middle, hmiddle, hround⟩ := hagain.split
  cases hfirst.unique hmiddle
  cases Pointer.render_inj (hround.ne_nil (Nat.succ_pos k)).1 hrender
  obtain ⟨last, hlast⟩ := hround.endless n
  have hall := hfirst.trans hlast
  rw [Nat.add_comm] at hall
  obtain ⟨last, hlast, -⟩ := hall.split
  exact ⟨last, hlast⟩

/-! ## Rounds of resolution -/

theorem resolveFrom_visited {visited segments : List String}
    (h : Pointer.render segments ∈ visited) (pointer : String) (walks : Nat) :
    table.resolveFrom pointer walks visited segments =
      .error (.resolution pointer (.loop (Pointer.render segments))) := by
  cases walks with
  | zero => rfl
  | succ walks => simp [resolveFrom, h]

section

variable {visited segments : List String} (hnew : Pointer.render segments ∉ visited)
  (pointer : String) (walks : Nat)

include hnew

theorem resolveFrom_of_ends {target : Target} (h : table.Ends segments target) :
    table.resolveFrom pointer (walks + 1) visited segments = .ok target := by
  obtain ⟨home, name, way, d, i, node, hsplit, hfind, hwalk, rfl⟩ := ends_iff.mp h
  simp [resolveFrom, hnew, hsplit, hfind, hwalk]

theorem resolveFrom_of_hop {next : List String} (h : table.Hop segments next) :
    table.resolveFrom pointer (walks + 1) visited segments =
      table.resolveFrom pointer walks (Pointer.render segments :: visited) next := by
  obtain ⟨home, name, way, d, i, reference, remaining, followed, hsplit, hfind, hwalk, hparse, rfl⟩ :=
    hop_iff.mp h
  simp only [resolveFrom, List.contains_eq_mem, hnew, decide_false, Bool.false_eq_true, if_false,
    hsplit, hfind, hwalk, hparse]
  rfl

theorem resolveFrom_of_stuck (hends : ∀ target, ¬ table.Ends segments target)
    (hhop : ∀ next, ¬ table.Hop segments next) :
    ∃ place reason, table.resolveFrom pointer (walks + 1) visited segments =
      .error (.resolution place reason) ∧ ∀ text, reason ≠ .loop text := by
  simp only [resolveFrom, List.contains_eq_mem, hnew, decide_false, Bool.false_eq_true, if_false]
  split
  · exact ⟨_, _, rfl, fun _ h => by cases h⟩
  · next home name way hsplit =>
    split
    · exact ⟨_, _, rfl, fun _ h => by cases h⟩
    · next d i hfind =>
      split
      · next node hwalk =>
        exact absurd (ends_iff.mpr ⟨_, _, _, _, _, _, hsplit, hfind, hwalk, rfl⟩) (hends _)
      · exact ⟨_, _, rfl, fun _ h => by cases h⟩
      · next reference remaining hwalk =>
        cases hparse : Pointer.parse reference with
        | error fault =>
            rw [parsePointer, hparse]
            exact ⟨_, _, rfl, fun _ h => by cases h⟩
        | ok followed =>
            have hok : parsePointer reference = .ok followed := parsePointer_eq_ok.mpr hparse
            exact absurd (hop_iff.mpr ⟨_, _, _, _, _, _, _, _, hsplit, hfind, hwalk, hok, rfl⟩)
              (hhop _)

end

/-- A target that is answered is the end of fewer hops than walks. -/
theorem hops_of_resolveFrom {pointer : String} {walks : Nat} {visited segments : List String}
    {target : Target} (h : table.resolveFrom pointer walks visited segments = .ok target) :
    ∃ k last, k < walks ∧ table.Hops k segments last ∧ table.Ends last target := by
  induction walks generalizing visited segments with
  | zero => cases h
  | succ walks ih =>
      by_cases hnew : Pointer.render segments ∈ visited
      · rw [resolveFrom_visited hnew] at h
        cases h
      · by_cases hends : ∃ found, table.Ends segments found
        · obtain ⟨found, hfound⟩ := hends
          rw [resolveFrom_of_ends hnew pointer walks hfound] at h
          cases h
          exact ⟨0, segments, Nat.succ_pos _, .refl, hfound⟩
        · by_cases hhop : ∃ next, table.Hop segments next
          · obtain ⟨next, hnext⟩ := hhop
            rw [resolveFrom_of_hop hnew pointer walks hnext] at h
            obtain ⟨k, last, hk, hlast, hend⟩ := ih h
            exact ⟨k + 1, last, Nat.succ_lt_succ hk, .head hnext hlast, hend⟩
          · obtain ⟨place, reason, herror, -⟩ := resolveFrom_of_stuck hnew pointer walks
              (not_exists.mp hends) (not_exists.mp hhop)
            rw [herror] at h
            cases h

/-- The end of fewer hops than walks is answered, if nothing on the way was passed before. -/
theorem resolveFrom_of_hops {walks k : Nat} {visited segments last : List String} {target : Target}
    (h : table.Hops k segments last) (hk : k < walks) (hend : table.Ends last target)
    (hnew : ∀ j passed, j ≤ k → table.Hops j segments passed → Pointer.render passed ∉ visited)
    (pointer : String) : table.resolveFrom pointer walks visited segments = .ok target := by
  induction h generalizing walks visited with
  | refl =>
      obtain ⟨walks, rfl⟩ := Nat.exists_eq_succ_of_ne_zero (Nat.ne_of_gt hk)
      exact resolveFrom_of_ends (hnew 0 _ (Nat.le_refl 0) .refl) pointer walks hend
  | @head k segments next last hop hs ih =>
      obtain ⟨walks, rfl⟩ := Nat.exists_eq_succ_of_ne_zero (Nat.ne_of_gt (Nat.zero_lt_of_lt hk))
      rw [Nat.succ_eq_add_one,
        resolveFrom_of_hop (hnew 0 _ (Nat.zero_le _) .refl) pointer walks hop]
      refine ih (Nat.lt_of_succ_lt_succ hk) hend fun j passed hj hpassed => ?_
      rw [List.mem_cons, not_or]
      refine ⟨fun hrender => ?_, hnew (j + 1) _ (Nat.succ_le_succ hj) (.head hop hpassed)⟩
      -- back at the start, the hops would never end
      have hround := Hops.head hop hpassed
      cases Pointer.render_inj (hround.ne_nil (Nat.succ_pos j)).2 hrender
      exact (Hops.head hop hs).not_round hend hround

/-- A loop is reported after hops that came back, or after as many as there are walks. -/
theorem hops_of_loop {pointer place text : String} {walks : Nat} {visited segments : List String}
    (h : table.resolveFrom pointer walks visited segments =
      .error (.resolution place (.loop text))) :
    place = pointer ∧ ((∃ last, table.Hops walks segments last) ∨ table.Repeats segments ∨
      ∃ k last, table.Hops k segments last ∧ Pointer.render last ∈ visited) := by
  induction walks generalizing visited segments with
  | zero =>
      cases h
      exact ⟨rfl, .inl ⟨segments, .refl⟩⟩
  | succ walks ih =>
      by_cases hnew : Pointer.render segments ∈ visited
      · rw [resolveFrom_visited hnew] at h
        cases h
        exact ⟨rfl, .inr (.inr ⟨0, segments, .refl, hnew⟩)⟩
      · by_cases hends : ∃ found, table.Ends segments found
        · obtain ⟨found, hfound⟩ := hends
          rw [resolveFrom_of_ends hnew pointer walks hfound] at h
          cases h
        · by_cases hhop : ∃ next, table.Hop segments next
          · obtain ⟨next, hnext⟩ := hhop
            rw [resolveFrom_of_hop hnew pointer walks hnext] at h
            obtain ⟨hplace, hcases⟩ := ih h
            refine ⟨hplace, ?_⟩
            rcases hcases with ⟨last, hlast⟩ | hrepeats | ⟨k, last, hlast, hmem⟩
            · exact .inl ⟨last, .head hnext hlast⟩
            · obtain ⟨j, k, first, again, hlt, hfirst, hagain, hrender⟩ := hrepeats
              exact .inr (.inl ⟨j + 1, k + 1, first, again, Nat.succ_lt_succ hlt,
                .head hnext hfirst, .head hnext hagain, hrender⟩)
            · rcases List.mem_cons.mp hmem with hrender | hmem
              · exact .inr (.inl ⟨0, k + 1, segments, last, Nat.succ_pos k, .refl,
                  .head hnext hlast, hrender.symm⟩)
              · exact .inr (.inr ⟨k + 1, last, .head hnext hlast, hmem⟩)
          · obtain ⟨at', reason, herror, hloop⟩ := resolveFrom_of_stuck hnew pointer walks
              (not_exists.mp hends) (not_exists.mp hhop)
            rw [herror] at h
            cases h
            exact absurd rfl (hloop text)

/-- As many hops as walks are reported as a loop. -/
theorem loop_of_hops {walks : Nat} {segments last : List String}
    (h : table.Hops walks segments last) (visited : List String) (pointer : String) :
    ∃ text, table.resolveFrom pointer walks visited segments =
      .error (.resolution pointer (.loop text)) := by
  induction h generalizing visited with
  | refl => exact ⟨_, rfl⟩
  | @head walks segments next last hop _ ih =>
      by_cases hnew : Pointer.render segments ∈ visited
      · exact ⟨_, resolveFrom_visited hnew pointer _⟩
      · rw [resolveFrom_of_hop hnew pointer walks hop]
        exact ih _

theorem resolve_of_parse {pointer : String} {segments : List String}
    (h : Pointer.parse pointer = .ok segments) :
    table.resolve pointer = table.resolveFrom pointer maxWalks [] segments := by
  rw [resolve, parsePointer_eq_ok.mpr h]
  rfl

theorem resolve_of_hops {pointer : String} {segments last : List String} {k : Nat} {target : Target}
    (hparse : Pointer.parse pointer = .ok segments) (hk : k ≤ 256)
    (hlast : table.Hops k segments last) (hend : table.Ends last target) :
    table.resolve pointer = .ok target := by
  rw [resolve_of_parse hparse]
  exact resolveFrom_of_hops hlast (Nat.lt_succ_of_le hk) hend
    (fun _ _ _ _ => List.not_mem_nil) pointer

theorem parsePointer_ne_loop (pointer : String) {place text : String} :
    parsePointer pointer ≠ .error (.resolution place (.loop text)) := by
  unfold parsePointer
  cases Pointer.parse pointer with
  | error fault => exact nofun
  | ok segments => exact nofun

/-- Resolution is bounded following of references. It succeeds exactly when at most 256 hops lead from
the segments of the pointer to their end, and answers with that end; it reports a loop exactly when the
hops come back to a pointer or there are more than 256 of them. The pointer of an answer leads to the same
answer without a hop. -/
theorem resolve_follows_hops (table : DefinitionTable) (pointer : String) :
    (∀ target, table.resolve pointer = .ok target ↔
      ∃ segments k last, Pointer.parse pointer = .ok segments ∧ k ≤ 256 ∧
        table.Hops k segments last ∧ table.Ends last target) ∧
    (∀ place, (∃ text, table.resolve pointer = .error (.resolution place (.loop text))) ↔
      place = pointer ∧ ∃ segments, Pointer.parse pointer = .ok segments ∧
        (table.Repeats segments ∨ ∃ beyond, table.Hops 257 segments beyond)) ∧
    ∀ target, table.resolve pointer = .ok target →
      ∃ segments, Pointer.parse target.pointer = .ok segments ∧ table.Ends segments target ∧
        table.resolve target.pointer = .ok target := by
  refine ⟨fun target => ⟨fun h => ?_, ?_⟩, fun place => ⟨?_, ?_⟩, fun target h => ?_⟩
  · obtain ⟨segments, hparse, hfrom⟩ := bind_eq_ok.mp h
    obtain ⟨k, last, hk, hlast, hend⟩ := hops_of_resolveFrom hfrom
    exact ⟨segments, k, last, parsePointer_eq_ok.mp hparse, Nat.le_of_lt_succ hk, hlast, hend⟩
  · rintro ⟨segments, k, last, hparse, hk, hlast, hend⟩
    exact resolve_of_hops hparse hk hlast hend
  · rintro ⟨text, h⟩
    rcases bind_eq_error.mp h with hparse | ⟨segments, hparse, hfrom⟩
    · exact absurd hparse (parsePointer_ne_loop pointer)
    · obtain ⟨hplace, hmany | hrepeats | ⟨k, last, -, hmem⟩⟩ := hops_of_loop hfrom
      · exact ⟨hplace, segments, parsePointer_eq_ok.mp hparse, .inr hmany⟩
      · exact ⟨hplace, segments, parsePointer_eq_ok.mp hparse, .inl hrepeats⟩
      · cases hmem
  · rintro ⟨rfl, segments, hparse, hloop⟩
    obtain ⟨beyond, hbeyond⟩ : ∃ beyond, table.Hops 257 segments beyond :=
      hloop.elim (fun hrepeats => hrepeats.endless 257) id
    rw [resolve_of_parse hparse]
    exact loop_of_hops hbeyond [] place
  · obtain ⟨first, -, hfrom⟩ := bind_eq_ok.mp h
    obtain ⟨k, last, -, -, hend⟩ := hops_of_resolveFrom hfrom
    have hparse : Pointer.parse target.pointer = .ok last := hend.parse
    exact ⟨last, hparse, hend, resolve_of_hops hparse (Nat.zero_le _) .refl hend⟩

def pedigree : DefinitionTable where
  entries :=
    [⟨.definitions, "Pet",
        .bare (.object [("owner", .bare (.reference "#/definitions/Owner"))] [] .closed)⟩,
      ⟨.definitions, "Owner",
        .bare (.object [("name", .bare (.primitive .string none))] [] .closed)⟩,
      ⟨.definitions, "Line", .bare (.reference "#/definitions/Line/properties/parent")⟩]
  nodup := by decide

theorem pedigree_hop : pedigree.Hop ["definitions", "Pet", "properties", "owner", "properties", "name"]
    ["definitions", "Owner", "properties", "name"] :=
  hop_iff.mpr ⟨.definitions, "Pet", _, _, 0, "#/definitions/Owner", ["properties", "name"], _,
    rfl, rfl, rfl, rfl, rfl⟩

theorem pedigree_ends : pedigree.Ends ["definitions", "Owner", "properties", "name"]
    ⟨1, "#/definitions/Owner/properties/name", .bare (.primitive .string none), false⟩ :=
  ends_iff.mpr ⟨.definitions, "Owner", _, _, 1, _, rfl, rfl, rfl, rfl⟩

/-- From a way into the last definition each hop leads to a longer one. -/
theorem pedigree_endless (n : Nat) (segment : String) (rest : List String) :
    ∃ last, pedigree.Hops n ("definitions" :: "Line" :: segment :: rest) last := by
  induction n generalizing segment rest with
  | zero => exact ⟨_, .refl⟩
  | succ n ih =>
      have hparse : Pointer.parse "#/definitions/Line/properties/parent" =
          .ok ["definitions", "Line", "properties", "parent"] := rfl
      have entry : pedigree.entries[2]? = some pedigree.entries[2] := rfl
      have hop := Hop.follow entry .refl rfl (List.cons_ne_nil segment rest) hparse
      obtain ⟨last, hlast⟩ := ih "properties" ("parent" :: segment :: rest)
      exact ⟨last, .head hop hlast⟩

/-- A pointer that crosses a reference has an answer, whose pointer has the same one; one into the growing
definition is reported as a loop, though no pointer comes back. -/
theorem pedigree_follows_hops :
    (∃ target, pedigree.resolve "#/definitions/Pet/properties/owner/properties/name" = .ok target ∧
      target.pointer = "#/definitions/Owner/properties/name" ∧
      pedigree.resolve target.pointer = .ok target) ∧
    ∃ text, pedigree.resolve "#/definitions/Line/name" =
      .error (.resolution "#/definitions/Line/name" (.loop text)) := by
  constructor
  · obtain ⟨hok, -, hagain⟩ :=
      resolve_follows_hops pedigree "#/definitions/Pet/properties/owner/properties/name"
    have hresolve := (hok _).mpr
      ⟨_, 1, _, rfl, Nat.le_of_ble_eq_true rfl, .head pedigree_hop .refl, pedigree_ends⟩
    obtain ⟨-, -, -, hsame⟩ := hagain _ hresolve
    exact ⟨_, hresolve, rfl, hsame⟩
  · obtain ⟨-, hloop, -⟩ := resolve_follows_hops pedigree "#/definitions/Line/name"
    exact (hloop _).mpr ⟨rfl, ["definitions", "Line", "name"], rfl,
      .inr (pedigree_endless 257 "name" [])⟩

end DefinitionTable

end SwaggerTypes
