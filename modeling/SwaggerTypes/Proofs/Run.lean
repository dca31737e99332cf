import SwaggerTypes.Synthesis.Build
/-!
# Runs of a synthesis

A synthesis of declarations is a recursion through schemas, references and definitions. Here it is
laid out as a relation without a budget: `Run` has one rule for each step and tells what a task
finds, how the progress changes, and which declarations are begun on the way. `Calls` are the direct
recursive calls of a task, each made when the ones before it have been answered, and `Stuck` tells
where a task ends with a fault of its own. Together they describe runs that end, runs that fail, and
how far any run has come.
-/

namespace SwaggerTypes

/-- What a synthesis is busy with. The tasks from `definitions` on start without open references. -/
inductive Task where
  | schema (node : Node)
  | object (required : List String) (properties : List (String × Node))
      (additional : Additional Node)
  | properties (required : List String) (properties : List (String × Node))
  | others (additional : Additional Node)
  | members (joining : Joining) (lifted : Bool) (way : List String) (i : Nat) (members : List Node)
  | member (joining : Joining) (lifted : Bool) (way : List String) (node : Node)
  | reference (pointer : String)
  | definition (index : Nat)
  | definitions (indices : List Nat)
  | parameters (list : List PlacedParameter)
  | operations (operations : List Operation)
  | build (withQuery : Bool)

inductive Finding where
  | type (t : TypeExpr)
  | object (o : ObjectType TypeExpr)
  | properties (ps : List (Property TypeExpr))
  | others (index : Option TypeExpr)
  | operands (os : List Operand)
  | declarations (ds : List Declaration)
  | nothing

structure Begun where
  index : Nat
  place : Place

def TypeExpr.orNull (nullable : Bool) (t : TypeExpr) : TypeExpr :=
  if nullable then t.nullable else t

/-- Whether a member of a composition is an operand of its own: it is neither lifted, nor merged,
nor left out. -/
def Joining.standsAlone (joining : Joining) (lifted : Bool) : Node → Bool
  | ⟨.composite inner _, _, false⟩ => lifted || inner.isUnion != joining.union
  | ⟨.object .., _, false⟩ => joining.union
  | ⟨.any, _, false⟩ => !joining.skipsAny
  | _ => true

namespace Place

def into (p : Place) (pointer : String) (chain : Chain) : Place :=
  { p with location := pointer, chain }

end Place

namespace Progress

def warn (st : Progress) (p : Place) (kind : WarningKind) (message : String) : Progress :=
  { st with warnings := st.warnings ++ [⟨kind, p.location, message⟩] }

def setSlot (st : Progress) (index : Nat) (slot : Slot) : Progress :=
  { st with slots := st.slots.set index slot }

def takeName (st : Progress) (base pointer : String) : Progress :=
  { st with
    taken := (nextName st.taken base pointer).1 :: st.taken
    warnings := st.warnings ++ (nextName st.taken base pointer).2.toList }

def IsDone (st : Progress) (index : Nat) : Prop := ∃ d, st.slots[index]? = some (.done d)

end Progress

def PlacedParameter.ofQuery (list : List PlacedParameter) : List PlacedParameter :=
  list.filter fun placed => placed.parameter.location = .query

namespace PlacedParameter

def place (placed : PlacedParameter) : Place :=
  ({ location := placed.pointer } : Place).below
    (if placed.parameter.nested then ["schema"] else []) true

def property (placed : PlacedParameter) (type : TypeExpr) : Property TypeExpr :=
  { name := placed.parameter.name, type, optional := !placed.parameter.required,
    doc := placed.parameter.description, format := placed.parameter.schema.format }

end PlacedParameter

def Setting.declarationOf (s : Setting) (index : Nat) (d : Definition) (type : TypeExpr) :
    Declaration :=
  { name := s.nameOf index
    doc := d.root.description
    body := .ofType d.root.isInterface type }

structure Call where
  place : Place
  task : Task
  progress : Progress

namespace Setting

variable (s : Setting) (model : SchemaModel)

/-- `s.Run model p task st log finding st'`: at the place `p` and with the progress `st`, the task
comes to an end with `finding` and `st'`; the declarations in `log` are begun meanwhile, in this
order. -/
inductive Run : Place → Task → Progress → List Begun → Finding → Progress → Prop
  | any {p doc nullable st} :
      Run p (.schema ⟨.any, doc, nullable⟩) st [] (.type (TypeExpr.any.orNull nullable)) st
  | primitive {p type format doc nullable st} :
      Run p (.schema ⟨.primitive type format, doc, nullable⟩) st []
        (.type ((TypeExpr.base type.base).orNull nullable)) st
  | enum {p values doc nullable st} :
      Run p (.schema ⟨.enum values, doc, nullable⟩) st []
        (.type ((TypeExpr.ofLiterals values).orNull nullable)) st
  | unsupported {p construct doc nullable st} :
      Run p (.schema ⟨.unsupported construct, doc, nullable⟩) st []
        (.type (TypeExpr.any.orNull nullable))
        (st.warn p .unsupportedConstruct (construct ++ " cannot be expressed; using `any`"))
  | array {p items doc nullable st log t st'}
      (run : Run (p.below ["items"] true) (.schema items) st log (.type t) st') :
      Run p (.schema ⟨.array items, doc, nullable⟩) st log
        (.type ((TypeExpr.array t).orNull nullable)) st'
  | objectSchema {p required ps additional doc nullable st log o st'}
      (run : Run p (.object required ps additional) st log (.object o) st') :
      Run p (.schema ⟨.object ps required additional, doc, nullable⟩) st log
        (.type ((TypeExpr.object o).orNull nullable)) st'
  | referenceSchema {p pointer doc nullable st log t st'}
      (run : Run p (.reference pointer) st log (.type t) st') :
      Run p (.schema ⟨.reference pointer, doc, nullable⟩) st log (.type (t.orNull nullable)) st'
  | composite {p keyword ms doc nullable st log os st'}
      (run : Run p (.members (.of keyword ms) false [keyword.keyword] 0 ms) st log
        (.operands os) st') :
      Run p (.schema ⟨.composite keyword ms, doc, nullable⟩) st log
        (.type ((Operand.combine s.sorted (Joining.of keyword ms).union os).orNull nullable)) st'
  | object {p required ps additional st log₁ qs st₁ log₂ index st₂}
      (first : Run p (.properties required ps) st log₁ (.properties qs) st₁)
      (second : Run p (.others additional) st₁ log₂ (.others index) st₂) :
      Run p (.object required ps additional) st (log₁ ++ log₂)
        (.object (ObjectType.arrange s.sorted ⟨qs, index⟩)) st₂
  | noProperties {p required st} : Run p (.properties required []) st [] (.properties []) st
  | properties {p required name node rest st log₁ t st₁ log₂ qs st₂}
      (first : Run (p.below ["properties", name] true) (.schema node) st log₁ (.type t) st₁)
      (second : Run p (.properties required rest) st₁ log₂ (.properties qs) st₂) :
      Run p (.properties required ((name, node) :: rest)) st (log₁ ++ log₂)
        (.properties (⟨name, t, !required.contains name, node.description, node.format⟩ :: qs)) st₂
  | closed {p st} : Run p (.others .closed) st [] (.others none) st
  | unrestricted {p st} : Run p (.others .unrestricted) st [] (.others (some .any)) st
  | typed {p node st log t st'}
      (run : Run (p.below ["additionalProperties"] true) (.schema node) st log (.type t) st') :
      Run p (.others (.typed node)) st log (.others (some t)) st'
  | noMembers {p joining lifted way i st} :
      Run p (.members joining lifted way i []) st [] (.operands []) st
  | members {p joining lifted way i m rest st log₁ os₁ st₁ log₂ os₂ st₂}
      (first : Run p (.member joining lifted (way ++ [toString i]) m) st log₁ (.operands os₁) st₁)
      (second : Run p (.members joining lifted way (i + 1) rest) st₁ log₂ (.operands os₂) st₂) :
      Run p (.members joining lifted way i (m :: rest)) st (log₁ ++ log₂)
        (.operands (os₁ ++ os₂)) st₂
  /-- A member that is a composition of the same kind stands for its own members. -/
  | liftedMember {p joining way inner ms doc st log os st'} (same : inner.isUnion = joining.union)
      (run : Run p (.members joining true (way ++ [inner.keyword]) 0 ms) st log
        (.operands os) st') :
      Run p (.member joining false way ⟨.composite inner ms, doc, false⟩) st log (.operands os) st'
  | objectMember {p joining lifted way required ps additional doc st log o st'}
      (intersection : joining.union = false)
      (run : Run (p.below way false) (.object joining.required ps additional) st log
        (.object o) st') :
      Run p (.member joining lifted way ⟨.object ps required additional, doc, false⟩) st log
        (.operands [.object o]) st'
  | skippedMember {p joining lifted way doc st} (skips : joining.skipsAny = true) :
      Run p (.member joining lifted way ⟨.any, doc, false⟩) st [] (.operands []) st
  | plainMember {p joining lifted way m st log t st'} (alone : joining.standsAlone lifted m = true)
      (run : Run (p.below way false) (.schema m) st log (.type t) st') :
      Run p (.member joining lifted way m) st log (.operands [.type t]) st'
  | rootReference {p pointer target st log t st'}
      (resolved : s.definitions.resolve pointer = .ok target) (root : target.isRoot = true)
      (run : Run p (.definition target.definition) st log (.type t) st') :
      Run p (.reference pointer) st log (.type t) st'
  | deepReference {p pointer target chain st log t st'}
      (resolved : s.definitions.resolve pointer = .ok target) (deep : target.isRoot = false)
      (entered : p.chain.enter target.pointer p.depth = .entered chain)
      (run : Run (p.into target.pointer chain) (.schema target.node) st log (.type t) st') :
      Run p (.reference pointer) st log (.type t) st'
  | recursiveReference {p pointer target guarded st}
      (resolved : s.definitions.resolve pointer = .ok target) (deep : target.isRoot = false)
      (cycle : p.chain.enter target.pointer p.depth = .cycle guarded) :
      Run p (.reference pointer) st [] (.type .any)
        (st.warn p .unsupportedConstruct
          ("recursive reference `" ++ pointer ++ "` into an unnamed schema; using `any`"))
  | knownDefinition {p i st} (known : st.IsDone i ∨ s.definitions.entries[i]? = none) :
      Run p (.definition i) st [] (.type (.named (s.nameOf i))) st
  | newDefinition {p i d chain st log t st'}
      (unfinished : ¬ st.IsDone i) (entry : s.definitions.entries[i]? = some d)
      (entered : p.chain.enter d.pointer p.depth = .entered chain)
      (run : Run (p.into d.pointer chain) (.schema d.root) (st.setSlot i .inProgress) log
        (.type t) st') :
      Run p (.definition i) st (⟨i, p.into d.pointer chain⟩ :: log) (.type (.named (s.nameOf i)))
        (st'.setSlot i (.done (s.declarationOf i d t)))
  | guardedCycle {p i d st}
      (unfinished : ¬ st.IsDone i) (entry : s.definitions.entries[i]? = some d)
      (cycle : p.chain.enter d.pointer p.depth = .cycle true) :
      Run p (.definition i) st [] (.type (.named (s.nameOf i))) st
  | aliasCycle {p i d st}
      (unfinished : ¬ st.IsDone i) (entry : s.definitions.entries[i]? = some d)
      (cycle : p.chain.enter d.pointer p.depth = .cycle false) :
      Run p (.definition i) st [] (.type .any)
        (st.warn p .circularAlias
          ("reference to `" ++ s.nameOf i ++ "` closes a cycle of type aliases; using `any`"))
  | noDefinitions {st} : Run {} (.definitions []) st [] .nothing st
  | definitions {i rest st log₁ t st₁ log₂ st₂}
      (first : Run {} (.definition i) st log₁ (.type t) st₁)
      (second : Run {} (.definitions rest) st₁ log₂ .nothing st₂) :
      Run {} (.definitions (i :: rest)) st (log₁ ++ log₂) .nothing st₂
  | noParameters {st} : Run {} (.parameters []) st [] (.properties []) st
  | parameters {placed rest st log₁ t st₁ log₂ qs st₂}
      (first : Run placed.place (.schema placed.parameter.schema) st log₁ (.type t) st₁)
      (second : Run {} (.parameters rest) st₁ log₂ (.properties qs) st₂) :
      Run {} (.parameters (placed :: rest)) st (log₁ ++ log₂)
        (.properties (placed.property t :: qs)) st₂
  | noOperations {st} : Run {} (.operations []) st [] (.declarations []) st
  | plainOperation {op list rest st log ds st'}
      (effective : model.effectiveParameters op = .ok list)
      (plain : PlacedParameter.ofQuery list = [])
      (second : Run {} (.operations rest) st log (.declarations ds) st') :
      Run {} (.operations (op :: rest)) st log (.declarations ds) st'
  | queryOperation {op list rest st log₁ qs st₁ log₂ ds st₂}
      (effective : model.effectiveParameters op = .ok list)
      (query : PlacedParameter.ofQuery list ≠ [])
      (first : Run {} (.parameters (PlacedParameter.ofQuery list)) st log₁ (.properties qs) st₁)
      (second : Run {} (.operations rest) (st₁.takeName op.queryName op.pointer) log₂
        (.declarations ds) st₂) :
      Run {} (.operations (op :: rest)) st (log₁ ++ log₂)
        (.declarations
          ({ name := (nextName st₁.taken op.queryName op.pointer).1
             body := .interface (ObjectType.arrange s.sorted { properties := qs }) } :: ds)) st₂
  | build {st log st'}
      (run : Run {} (.definitions (List.range s.definitions.entries.length)) st log
        .nothing st') :
      Run {} (.build false) st log (.declarations []) st'
  | queryBuild {operations st log₁ st₁ log₂ ds st₂} (paths : model.operations = some operations)
      (first : Run {} (.definitions (List.range s.definitions.entries.length)) st log₁
        .nothing st₁)
      (second : Run {} (.operations operations) st₁ log₂ (.declarations ds) st₂) :
      Run {} (.build true) st (log₁ ++ log₂) (.declarations ds) st₂

/-- `s.Calls model c log d`: the task of `c` makes the call `d`, after earlier calls of it have been
answered; `log` are the declarations begun by then, by `c` itself or in these calls. -/
inductive Calls : Call → List Begun → Call → Prop
  | array {p items doc nullable st} :
      Calls ⟨p, .schema ⟨.array items, doc, nullable⟩, st⟩ []
        ⟨p.below ["items"] true, .schema items, st⟩
  | objectSchema {p required ps additional doc nullable st} :
      Calls ⟨p, .schema ⟨.object ps required additional, doc, nullable⟩, st⟩ []
        ⟨p, .object required ps additional, st⟩
  | referenceSchema {p pointer doc nullable st} :
      Calls ⟨p, .schema ⟨.reference pointer, doc, nullable⟩, st⟩ [] ⟨p, .reference pointer, st⟩
  | composite {p keyword ms doc nullable st} :
      Calls ⟨p, .schema ⟨.composite keyword ms, doc, nullable⟩, st⟩ []
        ⟨p, .members (.of keyword ms) false [keyword.keyword] 0 ms, st⟩
  | objectProperties {p required ps additional st} :
      Calls ⟨p, .object required ps additional, st⟩ [] ⟨p, .properties required ps, st⟩
  | objectOthers {p required ps additional st log qs st₁}
      (first : s.Run model p (.properties required ps) st log (.properties qs) st₁) :
      Calls ⟨p, .object required ps additional, st⟩ log ⟨p, .others additional, st₁⟩
  | firstProperty {p required name node rest st} :
      Calls ⟨p, .properties required ((name, node) :: rest), st⟩ []
        ⟨p.below ["properties", name] true, .schema node, st⟩
  | restProperties {p required name node rest st log t st₁}
      (first : s.Run model (p.below ["properties", name] true) (.schema node) st log (.type t) st₁) :
      Calls ⟨p, .properties required ((name, node) :: rest), st⟩ log
        ⟨p, .properties required rest, st₁⟩
  | typed {p node st} :
      Calls ⟨p, .others (.typed node), st⟩ []
        ⟨p.below ["additionalProperties"] true, .schema node, st⟩
  | firstMember {p joining lifted way i m rest st} :
      Calls ⟨p, .members joining lifted way i (m :: rest), st⟩ []
        ⟨p, .member joining lifted (way ++ [toString i]) m, st⟩
  | restMembers {p joining lifted way i m rest st log os st₁}
      (first : s.Run model p (.member joining lifted (way ++ [toString i]) m) st log
        (.operands os) st₁) :
      Calls ⟨p, .members joining lifted way i (m :: rest), st⟩ log
        ⟨p, .members joining lifted way (i + 1) rest, st₁⟩
  | liftedMember {p joining way inner ms doc st} (same : inner.isUnion = joining.union) :
      Calls ⟨p, .member joining false way ⟨.composite inner ms, doc, false⟩, st⟩ []
        ⟨p, .members joining true (way ++ [inner.keyword]) 0 ms, st⟩
  | objectMember {p joining lifted way required ps additional doc st}
      (intersection : joining.union = false) :
      Calls ⟨p, .member joining lifted way ⟨.object ps required additional, doc, false⟩, st⟩ []
        ⟨p.below way false, .object joining.required ps additional, st⟩
  | plainMember {p joining lifted way m st} (alone : joining.standsAlone lifted m = true) :
      Calls ⟨p, .member joining lifted way m, st⟩ [] ⟨p.below way false, .schema m, st⟩
  -- the only calls that open a pointer are the second and the third of these
  | rootReference {p pointer target st}
      (resolved : s.definitions.resolve pointer = .ok target) (root : target.isRoot = true) :
      Calls ⟨p, .reference pointer, st⟩ [] ⟨p, .definition target.definition, st⟩
  | deepReference {p pointer target chain st}
      (resolved : s.definitions.resolve pointer = .ok target) (deep : target.isRoot = false)
      (entered : p.chain.enter target.pointer p.depth = .entered chain) :
      Calls ⟨p, .reference pointer, st⟩ [] ⟨p.into target.pointer chain, .schema target.node, st⟩
  | newDefinition {p i d chain st}
      (unfinished : ¬ st.IsDone i) (entry : s.definitions.entries[i]? = some d)
      (entered : p.chain.enter d.pointer p.depth = .entered chain) :
      Calls ⟨p, .definition i, st⟩ [⟨i, p.into d.pointer chain⟩]
        ⟨p.into d.pointer chain, .schema d.root, st.setSlot i .inProgress⟩
  | firstDefinition {i rest st} :
      Calls ⟨{}, .definitions (i :: rest), st⟩ [] ⟨{}, .definition i, st⟩
  | restDefinitions {i rest st log t st₁}
      (first : s.Run model {} (.definition i) st log (.type t) st₁) :
      Calls ⟨{}, .definitions (i :: rest), st⟩ log ⟨{}, .definitions rest, st₁⟩
  | firstParameter {placed rest st} :
      Calls ⟨{}, .parameters (placed :: rest), st⟩ []
        ⟨placed.place, .schema placed.parameter.schema, st⟩
  | restParameters {placed rest st log t st₁}
      (first : s.Run model placed.place (.schema placed.parameter.schema) st log (.type t) st₁) :
      Calls ⟨{}, .parameters (placed :: rest), st⟩ log ⟨{}, .parameters rest, st₁⟩
  | operation {op list rest st} (effective : model.effectiveParameters op = .ok list)
      (query : PlacedParameter.ofQuery list ≠ []) :
      Calls ⟨{}, .operations (op :: rest), st⟩ []
        ⟨{}, .parameters (PlacedParameter.ofQuery list), st⟩
  | afterPlainOperation {op list rest st} (effective : model.effectiveParameters op = .ok list)
      (plain : PlacedParameter.ofQuery list = []) :
      Calls ⟨{}, .operations (op :: rest), st⟩ [] ⟨{}, .operations rest, st⟩
  | afterOperation {op list rest st log qs st₁}
      (effective : model.effectiveParameters op = .ok list)
      (query : PlacedParameter.ofQuery list ≠ [])
      (first : s.Run model {} (.parameters (PlacedParameter.ofQuery list)) st log
        (.properties qs) st₁) :
      Calls ⟨{}, .operations (op :: rest), st⟩ log
        ⟨{}, .operations rest, st₁.takeName op.queryName op.pointer⟩
  | build {withQuery st} :
      Calls ⟨{}, .build withQuery, st⟩ []
        ⟨{}, .definitions (List.range s.definitions.entries.length), st⟩
  | query {operations st log st₁} (paths : model.operations = some operations)
      (first : s.Run model {} (.definitions (List.range s.definitions.entries.length)) st log
        .nothing st₁) :
      Calls ⟨{}, .build true, st⟩ log ⟨{}, .operations operations, st₁⟩

/-- `s.Reaches model c log d`: a run of `c` comes to the call `d`, the declarations in `log` having
been begun before. It need not come to an end. -/
inductive Reaches (c : Call) : List Begun → Call → Prop
  | refl : Reaches c [] c
  | tail {log d log' e} (before : Reaches c log d) (call : s.Calls model d log' e) :
      Reaches c (log ++ log') e

/-- `s.Stuck model c fault`: the task of `c` itself ends with a fault. -/
inductive Stuck : Call → Fault → Prop
  | dangling {p pointer st fault} (failed : s.definitions.resolve pointer = .error fault) :
      Stuck ⟨p, .reference pointer, st⟩ fault
  | parameters {op rest st fault} (failed : model.effectiveParameters op = .error fault) :
      Stuck ⟨{}, .operations (op :: rest), st⟩ fault
  | noPaths {st log st₁} (absent : model.operations = none)
      (first : s.Run model {} (.definitions (List.range s.definitions.entries.length)) st log
        .nothing st₁) :
      Stuck ⟨{}, .build true, st⟩ (.malformed .noPaths)

end Setting

namespace SchemaModel

variable (model : SchemaModel) (sorted : Bool)

def setting : Setting :=
  { definitions := model.definitions, names := (takeNames model.definitions.entries).1, sorted }

def start : Progress := (takeNames model.definitions.entries).2

def buildCall (withQuery : Bool) : Call := ⟨{}, .build withQuery, model.start⟩

end SchemaModel

end SwaggerTypes
