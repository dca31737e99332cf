/-!
What the command is asked to do. Switches may be joined behind one dash, an option takes the text
behind it or the next argument, and behind `--` every argument is a file name.
-/
namespace SwaggerTypes.CommandLine

inductive Switch where
  | withQuery
  | sortProps
  | standardInput
  | version
  | help

inductive ValueOption where
  | output
  | namespaceName
  | config

structure Arguments where
  input : Option String := none
  withQuery : Bool := false
  sortProps : Bool := false
  output : Option String := none
  namespaceName : Option String := none
  config : Option String := none
  standardInput : Bool := false

inductive Misuse where
  | unexpected (argument : String)
  | noValue (usage : String)
  | repeated (usage : String)
  | valueOfSwitch (value usage : String)

def Misuse.message : Misuse → String
  | unexpected argument => "error: unexpected argument '" ++ argument ++ "' found"
  | noValue usage => "error: a value is required for '" ++ usage ++ "' but none was supplied"
  | repeated usage => "error: the argument '" ++ usage ++ "' cannot be used multiple times"
  | valueOfSwitch value usage =>
    "error: unexpected value '" ++ value ++ "' for '" ++ usage ++ "' found; no more were expected"

namespace Switch

def ofLetter? : Char → Option Switch
  | 'w' => some withQuery
  | 's' => some sortProps
  | 'v' => some version
  | 'h' => some help
  | _ => none

def ofName? : String → Option Switch
  | "with-query" => some withQuery
  | "sort-props" => some sortProps
  | "stdin" => some standardInput
  | "version" => some version
  | "help" => some help
  | _ => none

def usage : Switch → String
  | withQuery => "--with-query"
  | sortProps => "--sort-props"
  | standardInput => "--stdin"
  | version => "--version"
  | help => "--help"

end Switch

namespace ValueOption

def ofLetter? : Char → Option ValueOption
  | 'o' => some output
  | 'n' => some namespaceName
  | 'c' => some config
  | _ => none

def ofName? : String → Option ValueOption
  | "output" => some output
  | "namespace" => some namespaceName
  | "config" => some config
  | _ => none

def usage : ValueOption → String
  | output => "--output <OUTPUT_FILENAME>"
  | namespaceName => "--namespace <NAMESPACE>"
  | config => "--config <CONFIG_FILE>"

def get (o : ValueOption) (a : Arguments) : Option String :=
  match o with
  | output => a.output
  | namespaceName => a.namespaceName
  | config => a.config

def set (o : ValueOption) (value : String) (a : Arguments) : Arguments :=
  match o with
  | output => { a with output := some value }
  | namespaceName => { a with namespaceName := some value }
  | config => { a with config := some value }

/-- Options that name a file need a name. -/
def allows : ValueOption → String → Bool
  | namespaceName, _ => true
  | output, value | config, value => value ≠ ""

end ValueOption

inductive Halt where
  | help
  | version
  | misuse (fault : Misuse)

/-- The last argument with a value, as far as it is read. -/
inductive Pending where
  | nothing
  | option (o : ValueOption) (value : Option String)
  | input (name : String)

/-- The arguments read so far. A value is judged when the next one begins. -/
structure Parse where
  arguments : Arguments := {}
  pending : Pending := .nothing
  /-- Whether the input is given already. -/
  named : Bool := false
  /-- Whether `--` came. -/
  literal : Bool := false

namespace Parse

def assign (o : ValueOption) (value : String) (p : Parse) : Except Halt Parse :=
  if (o.get p.arguments).isSome then .error (.misuse (.repeated o.usage))
  else if o.allows value then .ok { p with arguments := o.set value p.arguments }
  else .error (.misuse (.noValue o.usage))

def settle (p : Parse) : Except Halt Parse :=
  let settled := { p with pending := .nothing }
  match p.pending with
  | .nothing => .ok p
  | .option o none => .error (.misuse (.noValue o.usage))
  | .option o (some value) => settled.assign o value
  | .input "" => .error (.misuse (.noValue "[INPUT_FILENAME]"))
  | .input name => .ok { settled with arguments := { p.arguments with input := some name } }

def turnOn (s : Switch) (p : Parse) : Except Halt Parse := do
  let p ← p.settle
  let a := p.arguments
  let once (on : Bool) (a : Arguments) : Except Halt Parse :=
    if on then .error (.misuse (.repeated s.usage)) else .ok { p with arguments := a }
  match s with
  | .help => .error .help
  | .version => .error .version
  | .withQuery => once a.withQuery { a with withQuery := true }
  | .sortProps => once a.sortProps { a with sortProps := true }
  | .standardInput => once a.standardInput { a with standardInput := true }

def begin (o : ValueOption) (joined : Option String) (p : Parse) : Except Halt Parse := do
  let p ← p.settle
  match joined with
  | some value => p.assign o value
  | none => return { p with pending := .option o none }

/-- Reads the letters behind one dash. Behind the letter of an option stands its value. -/
def letters (p : Parse) : List Char → Except Halt Parse
  | [] => .ok p
  | c :: rest =>
    match Switch.ofLetter? c, ValueOption.ofLetter? c with
    | some s, _ => do (← p.turnOn s).letters rest
    | none, some o => p.begin o <| match rest with
      | [] => none
      | '=' :: value => some (String.ofList value)
      | value => some (String.ofList value)
    | none, none => .error (.misuse (.unexpected ("-" ++ String.ofList [c])))

/-- Reads a name behind two dashes, with the value behind an equals sign. -/
def word (p : Parse) (cs : List Char) : Except Halt Parse :=
  let name := String.ofList (cs.takeWhile (· ≠ '='))
  let value := match cs.dropWhile (· ≠ '=') with
    | _ :: value => some (String.ofList value)
    | [] => none
  match Switch.ofName? name, ValueOption.ofName? name, value with
  | some s, _, none => p.turnOn s
  | some s, _, some value => .error (.misuse (.valueOfSwitch value s.usage))
  | none, some o, value => p.begin o value
  | none, none, _ => .error (.misuse (.unexpected ("--" ++ name)))

def value (p : Parse) (argument : String) : Except Halt Parse :=
  match p.pending, p.literal with
  | .option o none, false => .ok { p with pending := .option o (some argument) }
  | _, _ =>
    if p.named then .error (.misuse (.unexpected argument))
    else do
      let p ← p.settle
      return { p with pending := .input argument, named := true }

def step (p : Parse) (argument : String) : Except Halt Parse :=
  if p.literal then p.value argument
  else match argument.toList with
    | ['-', '-'] => .ok { p with literal := true }
    | '-' :: '-' :: cs => p.word cs
    | '-' :: c :: cs => p.letters (c :: cs)
    | _ => p.value argument

end Parse

def Arguments.ofList (arguments : List String) : Except Halt Arguments := do
  return (← (← arguments.foldlM Parse.step {}).settle).arguments

end SwaggerTypes.CommandLine
