import SwaggerTypes.CommandLine.Command
/-!
The program: the command on the files and streams of the system.
-/
namespace SwaggerTypes

/-- Why the system refused something, in the words of a command. -/
def FileFault.ofError : IO.Error → FileFault
  | .noFileOrDirectory .. => .missing
  | .alreadyExists .. => .present
  | .inappropriateType _ code _ => if code = 21 then .isDirectory else .notDirectory
  | e => .other (toString e)

def attempt {α : Type} (act : IO α) : IO (Except FileFault α) := do
  try return .ok (← act)
  catch e => return .error (FileFault.ofError e)

instance : Storage IO where
  read path := attempt (IO.FS.readBinFile path)
  write path content := attempt (IO.FS.writeFile path content)
  makeDirectory path := attempt (IO.FS.createDir path)
  firstInput := do
    let stream ← IO.getStdin
    -- a longer read waits until it has all of its bytes
    let first ← IO.asTask (some <$> attempt (stream.read 1)) .dedicated
    let late ← IO.asTask (IO.sleep 1000 *> return none) .dedicated
    IO.ofExcept (← IO.waitAny [first, late])
  moreInput := attempt do
    let stream ← IO.getStdin
    let mut bytes := ByteArray.empty
    let mut reading := true
    while reading do
      let chunk ← stream.read 65536
      bytes := bytes ++ chunk
      reading := !chunk.isEmpty
    return bytes
  print text := attempt do
    let stream ← IO.getStdout
    stream.putStr text
    stream.flush

end SwaggerTypes

def main (arguments : List String) : IO UInt32 := do
  let ending ← (SwaggerTypes.CommandLine.execute .builtin arguments : IO _)
  (← IO.getStderr).putStr ending.errors
  return UInt32.ofNat ending.code
