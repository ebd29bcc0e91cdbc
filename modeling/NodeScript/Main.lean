import NodeScript.Cli.Session

/-!
The command line.
-/

namespace NodeScript.Cli

def readFileOr (path : String) : IO (Except String String) := do
  try
    return .ok (← IO.FS.readFile path)
  catch
    | .noFileOrDirectory .. => return .error "No such file or directory (os error 2)"
    | e => return .error (toString e)

def readLineOr (input : IO.FS.Stream) : IO (Option String) := do
  let line ← input.getLine
  return if line.isEmpty then none else some (String.ofList (dropLineEnd line.toList))

partial def Process.perform : Process → IO UInt32
  | exit code => return code.toUInt32
  | write channel text next => do
    let stream ← match channel with
      | .out => IO.getStdout
      | .err => IO.getStderr
    stream.putStr text
    stream.flush
    (next ()).perform
  | readLine next => do (next (← readLineOr (← IO.getStdin))).perform
  | readFile path next => do (next (← readFileOr path)).perform
  | readClock next => do (next (← IO.monoNanosNow)).perform
  | pause milliseconds next => do
    IO.sleep milliseconds.toUInt32
    (next ()).perform

end NodeScript.Cli

def main (arguments : List String) : IO UInt32 :=
  (NodeScript.Cli.process arguments).perform
