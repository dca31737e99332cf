import SwaggerTypes.Storage.Access
import SwaggerTypes.Storage.Path
/-!
Files below a working directory as data. Outside of it there are the directories above and nothing
else.
-/
namespace SwaggerTypes

inductive TreeEntry where
  | file (content : ByteArray)
  | directory

/-- A place seen from the working directory: the names that lead there, last first. The names `..`
lead to the directories above it, and the name `/` to the outermost one. -/
abbrev Tree.Place := List String

structure Tree where
  entries : List (Tree.Place × TreeEntry) := []

namespace Tree

def isOutside (place : Place) : Bool := place.all (· = "..") || place = ["/"]

def get? (t : Tree) (place : Place) : Option TreeEntry :=
  if isOutside place then some .directory else t.entries.lookup place

def put (t : Tree) (place : Place) (entry : TreeEntry) : Tree :=
  ⟨(place, entry) :: t.entries.filter fun e => e.1 ≠ place⟩

def step (place : Place) (name : String) : Place :=
  if name = "" || name = "." then place
  else if name = ".." then
    match place with
    | [] => [".."]
    | ".." :: _ => ".." :: place
    | ["/"] => place
    | _ :: outer => outer
  else name :: place

/-- Goes from one directory into the next. Names are looked for in directories only. -/
def walk (t : Tree) : Place → List String → Except FileFault Place
  | place, [] => .ok place
  | place, name :: rest =>
    match t.get? place with
    | some .directory => t.walk (step place name) rest
    | some (.file _) => .error .notDirectory
    | none => .error .missing

def origin (path : String) : Place := if Path.isAbsolute path then ["/"] else []

def find (t : Tree) (path : String) : Except FileFault TreeEntry := do
  if path = "" then throw .missing
  match t.get? (← t.walk (origin path) (Path.names path)) with
  | some entry => return entry
  | none => throw .missing

def read (t : Tree) (path : String) : Except FileFault ByteArray := do
  match ← t.find path with
  | .directory => throw .isDirectory
  | .file content => return content

def split (t : Tree) (path : String) : Except FileFault (Place × String) := do
  if path = "" then throw .missing
  let names := (Path.names path).reverse.dropWhile (· = "")
  let directory ← t.walk (origin path) (names.drop 1).reverse
  match t.get? directory with
  | some .directory => return (directory, names.headD ".")
  | some (.file _) => throw .notDirectory
  | none => throw .missing

def write (t : Tree) (path : String) (content : ByteArray) : Except FileFault Tree := do
  let (directory, name) ← t.split path
  if name = "." || name = ".." || path.toList.getLast? = some '/' then throw .isDirectory
  let place := name :: directory
  match t.get? place with
  | some .directory => throw .isDirectory
  | _ => return t.put place (.file content)

def makeDirectory (t : Tree) (path : String) : Except FileFault Tree := do
  let (directory, name) ← t.split path
  if name = "." || name = ".." then throw .present
  let place := name :: directory
  if (t.get? place).isSome then throw .present
  return t.put place .directory

/-- The places of the directories that a place lies in. -/
def enclosing : Place → List Place
  | [] => []
  | _ :: outer => outer :: enclosing outer

/-- The tree of some files, with the directories they lie in. -/
def ofFiles (files : List (String × ByteArray)) : Tree :=
  files.foldl (fun t file =>
    let place := (Path.names file.1).foldl step []
    let t := (enclosing place).foldl (fun t outer => t.put outer .directory) t
    t.put place (.file file.2)) {}

def files (t : Tree) : List (String × ByteArray) :=
  t.entries.filterMap fun
    | (place, .file content) =>
      if place.contains ".." || place.contains "/" then none
      else some (Text.join "/" place.reverse, content)
    | (_, .directory) => none

end Tree

structure Desk where
  tree : Tree
  input : ByteArray

inductive Arrival where
  | ready
  /-- Nothing comes within a second. -/
  | late
  /-- Reading fails, with the first bytes or behind them. -/
  | broken (first : Bool)

/-- A desk with its streams. Of a text that there is no room for, nothing is printed where prints are
whole, else as much as there is room for. -/
structure Session (whole : Bool) extends Desk where
  arrival : Arrival := .ready
  /-- How many characters can be printed, if that is bounded. -/
  room : Option Nat := none
  printed : String := ""

namespace Session

variable {whole : Bool}

def change (f : Tree → Except FileFault Tree) : StateM (Session whole) (Except FileFault Unit) := do
  match f (← get).tree with
  | .ok tree =>
    modify fun s => { s with tree }
    return .ok ()
  | .error fault => return .error fault

def ioFault : FileFault := .other "Input/output error (os error 5)"
def fullFault : FileFault := .other "No space left on device (os error 28)"

def take (size : Nat) : StateM (Session whole) ByteArray := do
  let bytes := (← get).input
  modify fun s => { s with input := bytes.extract size bytes.size }
  return bytes.extract 0 size

/-- What of a text can be printed, and whether that is all of it. -/
def fits (whole : Bool) (room : Option Nat) (text : String) : String × Bool :=
  match room with
  | none => (text, true)
  | some n =>
    if text.length ≤ n then (text, true)
    else if whole then ("", false)
    else (String.ofList (text.toList.take n), false)

instance : Storage (StateM (Session whole)) where
  read path := return (← get).tree.read path
  write path content := change fun t => t.write path content.toUTF8
  makeDirectory path := change fun t => t.makeDirectory path
  firstInput := do
    match (← get).arrival with
    | .late => return none
    | .broken true => return some (.error ioFault)
    | _ => return some (.ok (← take 1))
  moreInput := do
    match (← get).arrival with
    | .broken _ => return .error ioFault
    | _ => return .ok (← take (← get).input.size)
  print text := do
    let (front, all) := fits whole (← get).room text
    modify fun s => { s with
      printed := s.printed ++ front
      room := s.room.map fun n => n - front.length }
    return if all then .ok () else .error fullFault

end Session

end SwaggerTypes
