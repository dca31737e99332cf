import SwaggerTypes.CommandLine.Arguments
import SwaggerTypes.CommandLine.OptionFile
import SwaggerTypes.Conversion
import SwaggerTypes.Storage.Path
import SwaggerTypes.Storage.Tree
/-!
The command: it converts a file or the standard input, and prints the declarations or puts them
into a file.
-/
namespace SwaggerTypes.CommandLine

def helpText : String := String.join <| [
    "Generate TypeScript declarations from Swagger/OpenAPI schemas",
    "",
    "Usage: sw2dts [OPTIONS] [INPUT_FILENAME]",
    "",
    "Arguments:",
    "  [INPUT_FILENAME]  Swagger/OpenAPI document (JSON or YAML); standard input when omitted",
    "",
    "Options:",
    "  -w, --with-query                With GET query parameters",
    "  -s, --sort-props                Sort type properties order",
    "  -o, --output <OUTPUT_FILENAME>  Output to file",
    "  -n, --namespace <NAMESPACE>     Use namespace",
    "  -c, --config <CONFIG_FILE>      Read options " ++
      "(namespace, withQuery, sortProps) from a TOML file; flags win",
    "      --stdin                     [Deprecated] Input from standard input",
    "  -v, --version                   Print version",
    "  -h, --help                      Print help"].map (· ++ "\n")

def versionText : String := "sw2dts 0.3.0\n"

/-- How reading the arguments ends when there is nothing to convert: with a text to show, or with
the message of a misuse. -/
inductive Stop where
  | shown (text : String)
  | refused (message : String)

/-- The formats that a command is given its arguments, options and documents in. -/
structure Readers where
  arguments : List String → Except Stop Arguments
  /-- How the arguments are used. -/
  help : String
  settings : String → Option Value
  document : String → Option Value

def Halt.stop : Halt → Stop
  | help => .shown helpText
  | version => .shown versionText
  | misuse fault => .refused (fault.message ++ "\n")

def Readers.builtin : Readers where
  arguments l := (Arguments.ofList l).mapError Halt.stop
  help := helpText
  settings := OptionFile.document?
  document := Value.ofText?

inductive Failure where
  | twoInputs
  | noConfig (path : String) (fault : FileFault)
  | invalidConfig (path : String)
  | noInput (path : String) (fault : FileFault)
  | noStandardInput (fault : FileFault)
  | undecodable (fault : Text.Undecodable)
  | noHelp (fault : FileFault)
  | conversion (fault : Fault)
  | noDirectory (path : String) (fault : FileFault)
  | noOutput (path : String) (fault : FileFault)
  | noStandardOutput (fault : FileFault)

def Failure.message : Failure → String
  | twoInputs => "Invalid parameters!"
  | noConfig path fault => "Failed to read config " ++ path ++ ": " ++ fault.message
  | invalidConfig path => "Invalid config " ++ path ++ ":"
  | noInput path fault => "Failed to read " ++ path ++ ": " ++ fault.message
  | noStandardInput fault => "Failed to read standard input: " ++ fault.message
  | undecodable fault => "Standard input is not valid UTF-8: " ++ fault.message
  | noHelp fault => "Failed to print help: " ++ fault.message
  | conversion fault => fault.message
  | noDirectory path fault => "Failed to create " ++ path ++ ": " ++ fault.message
  | noOutput path fault => "Failed to write " ++ path ++ ": " ++ fault.message
  | noStandardOutput fault => "Failed to write output: " ++ fault.message

structure Ending where
  code : Nat := 0
  errors : String := ""

/-- A character of a logged message. Those that could steer a terminal are written as escapes. -/
def logChar (c : Char) : List Char :=
  match c with
  | '\x1b' => ['\\', 'x', '1', 'b']
  | '\x07' => ['\\', 'x', '0', '7']
  | '\x08' => ['\\', 'x', '0', '8']
  | '\x0c' => ['\\', 'x', '0', 'c']
  | '\x7f' => ['\\', 'x', '7', 'f']
  | c =>
    if '\u0080' ≤ c && c ≤ '\u009f' then
      ['\\', 'u', '\x7b'] ++ Nat.toDigits 16 c.toNat ++ ['\x7d']
    else [c]

def logLine (source message : String) : String :=
  "WARN " ++ source ++ ": " ++ String.ofList (message.toList.flatMap logChar)

def Warning.logLine (w : Warning) : String :=
  CommandLine.logLine "sw2dts_core::emitter" w.message ++
    " kind=" ++ w.kind.label ++ " pointer=" ++ w.pointer ++ "\n"

def deprecation : String := logLine "sw2dts::cli" "'--stdin' option is deprecated." ++ "\n"

/-- Flags win over the options of a file. -/
def Arguments.options (a : Arguments) (file : Options) : Options where
  namespaceName := a.namespaceName <|> file.namespaceName
  withQuery := a.withQuery || file.withQuery
  sortProps := a.sortProps || file.sortProps

variable {m : Type → Type} [Monad m] [Storage m]

def readConfig (readers : Readers) (path : Option String) : ExceptT Failure m Options := do
  match path with
  | none => return {}
  | some path =>
    match ← (Storage.readText path : m _) with
    | .error fault => throw (.noConfig path fault)
    | .ok text =>
      match readers.settings text with
      | none => throw (.invalidConfig path)
      | some settings =>
        match Options.ofValue settings with
        | .error _ => throw (.invalidConfig path)
        | .ok options => return options

/-- The text of the standard input, none if that is empty or comes late. -/
def readStandardInput : ExceptT Failure m (Option String) := do
  match ← (Storage.firstInput : m _) with
  | none => return none
  | some (.error fault) => throw (.noStandardInput fault)
  | some (.ok first) =>
    if first.isEmpty then return none
    match ← (Storage.moreInput : m _) with
    | .error fault => throw (.noStandardInput fault)
    | .ok more =>
      match Text.decode (first ++ more) with
      | .error fault => throw (.undecodable fault)
      | .ok text => return some text

def readInput (path : Option String) : ExceptT Failure m (Option String) := do
  match path with
  | none => readStandardInput
  | some path =>
    match ← (Storage.readText path : m _) with
    | .error fault => throw (.noInput path fault)
    | .ok text => return some text

def printText (failure : FileFault → Failure) (text : String) : ExceptT Failure m Unit := do
  match ← (Storage.print text : m _) with
  | .error fault => throw (failure fault)
  | .ok () => return ()

/-- Prints the declarations, or puts them into a file, making its directories. -/
def deliver (path : Option String) (text : String) : ExceptT Failure m Unit := do
  match path with
  | none => printText .noStandardOutput text
  | some path =>
    let directories := Path.directories path
    match ← (Storage.ensureDirectories directories : m _) with
    | .error fault => throw (.noDirectory (directories.headD "") fault)
    | .ok () =>
      match ← (Storage.write path text : m _) with
      | .error fault => throw (.noOutput path fault)
      | .ok () => return ()

/-- The lines of a log so far go along with what is done next, also if that fails. -/
def report (log : String) (act : ExceptT Failure m Ending) : m Ending := do
  match ← act.run with
  | .ok e => return { e with errors := log ++ e.errors }
  | .error failure => return { code := 1, errors := log ++ failure.message ++ "\n" }

def convertFiles (readers : Readers) (a : Arguments) : m Ending :=
  report (if a.standardInput then deprecation else "") do
    if a.input.isSome && a.standardInput then throw .twoInputs
    let options := a.options (← readConfig readers a.config)
    match ← readInput a.input with
    | none =>
      printText .noHelp readers.help
      return {}
    | some text =>
      match convertTextBy readers.document text options with
      | .error fault => throw (.conversion fault)
      | .ok c =>
        let log := String.join (c.warnings.map Warning.logLine)
        (report log do
          deliver a.output c.output
          return {} : m Ending)

/-- Runs the command. A text that is asked for is shown as far as it can be. -/
def execute (readers : Readers) (arguments : List String) : m Ending := do
  match readers.arguments arguments with
  | .error (.refused message) => return { code := 2, errors := message }
  | .error (.shown text) =>
    let _ ← (Storage.print text : m _)
    return {}
  | .ok a => convertFiles readers a

structure Report extends Ending where
  output : String

/-- Runs the command at a desk whose streams do not fail. -/
def run (arguments : List String) : StateM Desk Report := do
  let start : Session true := { toDesk := ← get }
  let (ending, session) := (execute .builtin arguments : StateM (Session true) Ending).run start
  set session.toDesk
  return { toEnding := ending, output := session.printed }

end SwaggerTypes.CommandLine
