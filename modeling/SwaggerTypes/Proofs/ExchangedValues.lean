import SwaggerTypes.Proofs.ChildSchemas
/-!
# Values and nodes that differ in one place

A value with the value at the end of a way exchanged, a node with a part exchanged, and what becomes of
folds and maps when one of their elements is exchanged.
-/

namespace SwaggerTypes

open Relation (ReflTransGen)

/-! ## Values that differ in one place -/

/-- The second value is the first with the value at the end of a way, which is `old`, exchanged for
`new`. -/
inductive Value.Exchange (old new : Value) : List Step → Value → Value → Prop
  | here : Exchange old new [] old new
  | field {name : String} {way : List Step} {w w' : Value} {before after : List (String × Value)}
      (h : Exchange old new way w w') :
      Exchange old new (.key name :: way) (.object (before ++ (name, w) :: after))
        (.object (before ++ (name, w') :: after))
  | item {way : List Step} {w w' : Value} {before after : List Value}
      (h : Exchange old new way w w') :
      Exchange old new (.index before.length :: way) (.array (before ++ w :: after))
        (.array (before ++ w' :: after))

inductive Record.StepTo (r : Record) (field : String) : Step → Prop
  | key : StepTo r field (.key field)
  | place {i : Nat} (h : r.fields[i]? = some field) : StepTo r field (.index i)

/-- The second node is the first with the part at the end of a way, which is `x`, exchanged for `y`.
Where the part is a property, the object may also start or stop to require it. -/
inductive Node.Exchange (x y : Node) : List String → Node → Node → Prop
  | property {name : String} {before after : List (String × Node)} {required required' : List String}
      {additional : Additional Node} {doc : Option String} {nullable : Bool}
      (h : required.filter (· ≠ name) = required'.filter (· ≠ name)) :
      Exchange x y ["properties", name]
        ⟨.object (before ++ (name, x) :: after) required additional, doc, nullable⟩
        ⟨.object (before ++ (name, y) :: after) required' additional, doc, nullable⟩
  | member {keyword : Composition} {before after : List Node} {doc : Option String} {nullable : Bool} :
      Exchange x y [keyword.keyword, toString before.length]
        ⟨.composite keyword (before ++ x :: after), doc, nullable⟩
        ⟨.composite keyword (before ++ y :: after), doc, nullable⟩
  | inside {way : List String} {m m' : Node} {keyword : Composition} {before after : List Node}
      {doc : Option String} {nullable : Bool} (h : Exchange x y way m m') :
      Exchange x y (keyword.keyword :: toString before.length :: way)
        ⟨.composite keyword (before ++ m :: after), doc, nullable⟩
        ⟨.composite keyword (before ++ m' :: after), doc, nullable⟩

/-- Nothing changes but parts `x` that are exchanged for `y`, all at the end of such ways. -/
def Node.Exchanges (x y : Node) (ways : List String → Prop) : Node → Node → Prop :=
  ReflTransGen fun node node' => ∃ way, ways way ∧ Node.Exchange x y way node node'

/-! ## One step exchanged in a fold -/

section

variable {σ β γ ε : Type} {step : σ → β → Except ε σ} {put : γ → σ → σ} {own : β → Prop}

/-- What was put before a run of steps is overwritten by one of them, or it is kept to the end. -/
theorem foldlM_put (hown : ∀ b, own b → ∀ s c, step (put c s) b = step s b)
    (hother : ∀ b, ¬ own b → ∀ s c, step (put c s) b = (step s b).map (put c)) (bs : List β) :
    (∀ s c, bs.foldlM step (put c s) = bs.foldlM step s) ∨
      ∀ s c, bs.foldlM step (put c s) = (bs.foldlM step s).map (put c) := by
  induction bs with
  | nil => exact .inr fun s c => rfl
  | cons b bs ih =>
      by_cases hb : own b
      · refine .inl fun s c => ?_
        rw [List.foldlM_cons, hown b hb, List.foldlM_cons]
      · have hfirst : ∀ s c, (b :: bs).foldlM step (put c s) =
            step s b >>= fun t => bs.foldlM step (put c t) := by
          intro s c
          rw [List.foldlM_cons, hother b hb]
          cases step s b <;> rfl
        rcases ih with hlost | hkept
        · refine .inl fun s c => ?_
          rw [hfirst, List.foldlM_cons]
          simp only [hlost]
        · refine .inr fun s c => ?_
          rw [hfirst, List.foldlM_cons]
          simp only [hkept]
          cases step s b <;> rfl

/-- Two runs that differ in one step, where the one puts `c` and the other `c'`, end alike, or with
`c` and `c'` put to the end of one run. -/
theorem foldlM_exchange (step : σ → β → Except ε σ) (own : β → Prop)
    (hown : ∀ b, own b → ∀ s c, step (put c s) b = step s b)
    (hother : ∀ b, ¬ own b → ∀ s c, step (put c s) b = (step s b).map (put c)) (b b' : β) {c c' : γ}
    (hb : ∀ s, step s b = .ok (put c s)) (hb' : ∀ s, step s b' = .ok (put c' s))
    (before after : List β) (s : σ) :
    (before ++ b :: after).foldlM step s = (before ++ b' :: after).foldlM step s ∨
      ∃ r : Except ε σ, (before ++ b :: after).foldlM step s = r.map (put c) ∧
        (before ++ b' :: after).foldlM step s = r.map (put c') := by
  simp only [List.foldlM_append, List.foldlM_cons]
  cases before.foldlM step s with
  | error e => exact .inl rfl
  | ok t =>
      simp only [hb, hb', bind, Except.bind]
      rcases foldlM_put hown hother after with hlost | hkept
      · exact .inl ((hlost t c).trans (hlost t c').symm)
      · exact .inr ⟨_, hkept t c, hkept t c'⟩

end

/-! ## One element exchanged in a list -/

/-- The second list is the first, or it has `y` in one place where the first has `x`. -/
def SwapIn {α : Type} (x y : α) (l l' : List α) : Prop :=
  l = l' ∨ ∃ before after, l = before ++ x :: after ∧ l' = before ++ y :: after

namespace SwapIn

variable {α β : Type} {x y : α} {l l' : List α}

theorem append (h : SwapIn x y l l') (front back : List α) :
    SwapIn x y (front ++ l ++ back) (front ++ l' ++ back) := by
  rcases h with rfl | ⟨before, after, rfl, rfl⟩
  · exact .inl rfl
  · exact .inr ⟨front ++ before, after ++ back, by simp, by simp⟩

theorem map (h : SwapIn x y l l') (f : α → β) : SwapIn (f x) (f y) (l.map f) (l'.map f) := by
  rcases h with rfl | ⟨before, after, rfl, rfl⟩
  · exact .inl rfl
  · exact .inr ⟨before.map f, after.map f, by simp, by simp⟩

theorem cons (h : SwapIn x y l l') (a : α) : SwapIn x y (a :: l) (a :: l') := by
  simpa using h.append [a] []

/-- A fold keeps a relation that each step keeps, over lists that differ in one element. -/
theorem foldl_related {σ : Type} {R : σ → σ → Prop} {f : σ → α → σ}
    (hstep : ∀ s s' a, R s s' → R (f s a) (f s' a)) (hswap : ∀ s, R (f s x) (f s y))
    (before after : List α) (s : σ) :
    R ((before ++ x :: after).foldl f s) ((before ++ y :: after).foldl f s) := by
  have hrun : ∀ (as : List α) (s s' : σ), R s s' → R (as.foldl f s) (as.foldl f s') := by
    intro as
    induction as with
    | nil => exact fun s s' h => h
    | cons a as ih => exact fun s s' h => ih _ _ (hstep s s' a h)
  simp only [List.foldl_append, List.foldl_cons]
  exact hrun after _ _ (hswap _)

end SwapIn

namespace Entries

variable {α : Type} {name : String} {a b : α}

theorem swap_insert {map map' : Entries α} (h : SwapIn (name, a) (name, b) map map') (key : String)
    (c : α) : SwapIn (name, a) (name, b) (map.insert key c) (map'.insert key c) := by
  rcases h with rfl | ⟨before, after, rfl, rfl⟩
  · exact .inl rfl
  induction before with
  | nil =>
      by_cases hkey : name = key
      · simp only [List.nil_append, insert, if_pos hkey]
        exact .inl rfl
      · simp only [List.nil_append, insert, if_neg hkey]
        exact .inr ⟨[], _, rfl, rfl⟩
  | cons e before ih =>
      obtain ⟨k, d⟩ := e
      by_cases hkey : k = key
      · simp only [List.cons_append, insert, if_pos hkey]
        exact .inr ⟨(k, c) :: before, after, rfl, rfl⟩
      · simp only [List.cons_append, insert, if_neg hkey]
        exact ih.cons (k, d)

theorem swap_inserted (map : Entries α) :
    SwapIn (name, a) (name, b) (map.insert name a) (map.insert name b) := by
  induction map with
  | nil => exact .inr ⟨[], [], rfl, rfl⟩
  | cons e map ih =>
      obtain ⟨k, d⟩ := e
      by_cases hkey : k = name
      · subst hkey
        simp only [insert, if_pos]
        exact .inr ⟨[], map, rfl, rfl⟩
      · simp only [insert, if_neg hkey]
        exact ih.cons (k, d)

/-- With one value exchanged in its list a map changes under that key at most. -/
theorem swap_ofList (before after : List (String × α)) :
    SwapIn (name, a) (name, b) (ofList (before ++ (name, a) :: after))
      (ofList (before ++ (name, b) :: after)) :=
  SwapIn.foldl_related (R := SwapIn (name, a) (name, b))
    (fun _ _ e h => swap_insert h e.1 e.2) swap_inserted before after []

end Entries

def Composition.Inside (keyword : Composition) (ways : List String → Prop) (way : List String) : Prop :=
  ∃ (i : Nat) (inner : List String), ways inner ∧ way = keyword.keyword :: toString i :: inner

namespace Node

variable {x y : Node} {ways ways' : List String → Prop} {way : List String} {node node' : Node}

/-! ## Nodes in other nodes -/

/-- Documentation and nullability play no part in an exchange below a node. -/
theorem Exchange.same_kind (h : Exchange x y way node node') (doc : Option String)
    (nullable : Bool) : Exchange x y way ⟨node.kind, doc, nullable⟩ ⟨node'.kind, doc, nullable⟩ := by
  cases h with
  | property h => exact .property h
  | member => exact .member
  | inside h => exact .inside h

theorem Exchanges.mono (h : Exchanges x y ways node node') (hways : ∀ way, ways way → ways' way) :
    Exchanges x y ways' node node' :=
  ReflTransGen.mono (fun _ _ ⟨way, hway, hex⟩ => ⟨way, hways way hway, hex⟩) _ _ h

theorem Exchanges.lift {f : Node → Node} (h : Exchanges x y ways node node')
    (hf : ∀ way m m', ways way → Exchange x y way m m' →
      ∃ outer, ways' outer ∧ Exchange x y outer (f m) (f m')) :
    Exchanges x y ways' (f node) (f node') :=
  ReflTransGen.lift f (fun _ _ ⟨way, hway, hex⟩ => hf way _ _ hway hex) _ _ h

/-- Exchanges in the members of a composition, one member after the other. -/
theorem Exchanges.members {keyword : Composition} {doc : Option String} {nullable : Bool}
    {ms ms' : List Node} (h : List.Forall₂ (Exchanges x y ways) ms ms') :
    ∀ before, Exchanges x y (keyword.Inside ways)
      ⟨.composite keyword (before ++ ms), doc, nullable⟩
      ⟨.composite keyword (before ++ ms'), doc, nullable⟩ := by
  induction h with
  | nil => exact fun _ => .refl
  | @cons m m' ms ms' hm _ ih =>
      intro before
      have hfirst : Exchanges x y (keyword.Inside ways)
          ⟨.composite keyword (before ++ m :: ms), doc, nullable⟩
          ⟨.composite keyword (before ++ m' :: ms), doc, nullable⟩ :=
        hm.lift (f := fun m => ⟨.composite keyword (before ++ m :: ms), doc, nullable⟩)
          fun way _ _ hway hex =>
            ⟨keyword.keyword :: toString before.length :: way, ⟨_, way, hway, rfl⟩, .inside hex⟩
      have hrest := ih (before ++ [m'])
      rw [List.append_assoc, List.append_assoc] at hrest
      exact hfirst.trans hrest

end Node

namespace Keywords

/-! ## Where a schema keeps its parts -/

def joined (written : Option (List Node)) (constraints : List Node) : Kind Node :=
  match written, constraints with
  | some members, constraints => .composite .allOf (members ++ constraints)
  | none, [] => .any
  | none, [one] => one.kind
  | none, constraints => .composite .allOf constraints

theorem kind_eq_joined (k : Keywords) : k.kind = joined k.allOf k.constraints := rfl

/-- The way from a schema with so many constraints to the one at a position: it is the schema itself, or
it stands behind the written members of `allOf`. -/
def joinedWay (written : Option (List Node)) (count i : Nat) : List String :=
  match written, count with
  | none, 1 => []
  | written, _ => ["allOf", toString ((written.getD []).length + i)]

def constraintWay (k : Keywords) (i : Nat) : List String := joinedWay k.allOf k.constraints.length i

/-- The way from a schema to what has the members of a composition keyword: for `allOf` the schema
itself, for the others a constraint behind the structural part. -/
def compositionWay (k : Keywords) : Composition → List String
  | .allOf => []
  | .oneOf => k.constraintWay k.structuralKind.toList.length
  | .anyOf => k.constraintWay (k.structuralKind.toList.length + k.oneOf.toList.length)

variable {x y : Node} {way : List String} {doc : Option String} {nullable : Bool}

theorem joined_exchange {m m' : Node} (h : Node.Exchange x y way m m') (written : Option (List Node))
    (front back : List Node) :
    Node.Exchange x y (joinedWay written (front ++ m :: back).length front.length ++ way)
      ⟨joined written (front ++ m :: back), doc, nullable⟩
      ⟨joined written (front ++ m' :: back), doc, nullable⟩ := by
  have hinside : ∀ members : List Node, Node.Exchange x y
      (Composition.allOf.keyword :: toString (members.length + front.length) :: way)
      ⟨.composite .allOf (members ++ (front ++ m :: back)), doc, nullable⟩
      ⟨.composite .allOf (members ++ (front ++ m' :: back)), doc, nullable⟩ := by
    intro members
    rw [← List.append_assoc, ← List.append_assoc, ← List.length_append]
    exact .inside h
  cases written with
  | some members => exact hinside members
  | none =>
      match front, back with
      | [], [] => exact h.same_kind doc nullable
      | [], _ :: _ => exact hinside []
      | [_], _ => exact hinside []
      | _ :: _ :: _, _ => exact hinside []

end Keywords

end SwaggerTypes
