import DotLang.CommandLine
/-!
# The program

The program runs the command line tool on real files.
-/

namespace DotLang

/-- What a failed operation of the system says. -/
def faultOf : IO.Error → FileFault
  | .alreadyExists _ code meaning | .otherError code meaning | .resourceBusy code meaning
  | .resourceVanished code meaning | .unsupportedOperation code meaning
  | .hardwareFault code meaning | .unsatisfiedConstraints code meaning
  | .illegalOperation code meaning | .protocolError code meaning | .timeExpired code meaning
  | .interrupted _ code meaning | .noFileOrDirectory _ code meaning
  | .invalidArgument _ code meaning | .permissionDenied _ code meaning
  | .resourceExhausted _ code meaning | .inappropriateType _ code meaning
  | .noSuchThing _ code meaning => .system code.toNat meaning
  | .unexpectedEof => .other "end of file"
  | .userError reason => .other reason

/-- The contents of a file as text. -/
def readContents (path : String) : IO (Except FileFault String) := do
  try
    let file ← IO.FS.Handle.mk path .read
    return decodeText (← file.readBinToEnd)
  catch e => return .error (faultOf e)

/-- Saves a file, and gives the reason if that fails. -/
def saveContents (path content : String) : IO (Option FileFault) := do
  try
    let file ← IO.FS.Handle.mk path .write
    file.putStr content
    file.flush
    return none
  catch e => return some (faultOf e)

/-- Shows a report, with its file saved. -/
def finish (r : Report) : IO UInt32 := do
  let stdout ← IO.getStdout
  let stderr ← IO.getStderr
  stdout.putStr r.stdout
  stdout.flush
  let r ← match r.save with
    | none => pure r
    | some (path, content) => do pure (r.saved path (← saveContents path content))
  stderr.putStr r.stderr
  return UInt32.ofNat r.code

end DotLang

open DotLang in
/-- Runs the tool on its arguments. -/
def main (args : List String) : IO UInt32 := do
  match Options.ofArgs? args with
  | none =>
      (← IO.getStderr).putStrLn "usage: dotgraph [-a] [-e] [-d] [-o FILE] INPUT"
      return 2
  | some o => finish (o.run (← readContents (o.input.getD "")))
