import SwaggerTypes.Text.Bytes
/-!
What a program can do with files and streams, and how that fails.
-/
namespace SwaggerTypes

inductive FileFault where
  | missing
  | present
  | notDirectory
  | isDirectory
  | notText
  /-- Any other reason. -/
  | other (text : String)

def FileFault.message : FileFault → String
  | missing => "No such file or directory (os error 2)"
  | present => "File exists (os error 17)"
  | notDirectory => "Not a directory (os error 20)"
  | isDirectory => "Is a directory (os error 21)"
  | notText => "stream did not contain valid UTF-8"
  | other text => text

class Storage (m : Type → Type) where
  read : String → m (Except FileFault ByteArray)
  write : String → String → m (Except FileFault Unit)
  /-- Makes a directory inside one that is there. -/
  makeDirectory : String → m (Except FileFault Unit)
  /-- The first bytes of the standard input, unless none come within a second. There are none at its
  end. -/
  firstInput : m (Option (Except FileFault ByteArray))
  /-- The bytes of the standard input that are left. -/
  moreInput : m (Except FileFault ByteArray)
  /-- Writes a text to the standard output and flushes it. -/
  print : String → m (Except FileFault Unit)

namespace Storage

variable {m : Type → Type} [Monad m] [Storage m]

def readText (path : String) : m (Except FileFault String) := do
  match ← read path with
  | .error fault => return .error fault
  | .ok bytes => return (Text.decode bytes).mapError fun _ => .notText

/-- Whether there is a directory: reading says so. -/
def isDirectory (path : String) : m Bool := do
  match ← read path with
  | .error .isDirectory => return true
  | _ => return false

def ensureDirectory (path : String) : m (Except FileFault Unit) := do
  match ← makeDirectory path with
  | .ok () => return .ok ()
  | .error fault => return if ← isDirectory path then .ok () else .error fault

/-- Makes a directory where the outer ones, innermost first, may be missing too. -/
def ensureDirectories : List String → m (Except FileFault Unit)
  | [] => return .ok ()
  | path :: outer => do
    match ← ensureDirectory path with
    | .error .missing =>
      match ← ensureDirectories outer with
      | .ok () => ensureDirectory path
      | .error fault => return .error fault
    | answer => return answer

end Storage

end SwaggerTypes
