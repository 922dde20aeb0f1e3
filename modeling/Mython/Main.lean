import Mython.CommandLine

namespace Mython.CommandLine

/-- The variable that sets the limit on the depth of calls. -/
def depthVariable : String := "MYTHON_MAX_DEPTH"

/-- Everything that a stream still gives. -/
partial def readToEnd (stream : IO.FS.Stream) (sofar : ByteArray) : IO ByteArray := do
  let chunk ← stream.read 65536
  if chunk.isEmpty then return sofar else readToEnd stream (sofar ++ chunk)

/-- A failure to read, as far as it can be told. -/
def readError : IO.Error → ReadError
  | .noFileOrDirectory _ _ _ => .notFound
  | .inappropriateType _ code _ => if code = 21 then .isDirectory else .notDirectory
  | .invalidArgument _ _ "name too long" => .nameTooLong
  | .permissionDenied _ _ _ => .other "Permission denied (os error 13)"
  | e => .other (toString e)

/-- The bytes of a file or of standard input. -/
def readBytes (path : Option String) : IO (Except ReadError ByteArray) := do
  try
    match path with
    | some path => return .ok (← IO.FS.readBinFile path)
    | none => return .ok (← readToEnd (← IO.getStdin) .empty)
  catch e => return .error (readError e)

/-- Runs the command and gives its exit code. -/
def command (args : List String) : IO UInt32 := do
  let bytes ← match input? args with
    | some path => readBytes path
    | none => pure (.ok .empty)
  let exit := respond args (fun _ => bytes) (← IO.getEnv depthVariable) .endless
  (← IO.getStdout).putStr exit.stdout
  (← IO.getStderr).putStr exit.stderr
  return exit.code

end Mython.CommandLine

def main (args : List String) : IO UInt32 := Mython.CommandLine.command args
