/-!
Processes: what a program does with files and a terminal.
-/

namespace NodeScript.Cli

inductive Channel where
  | out | err
  deriving DecidableEq, Repr

inductive Process where
  | exit (code : Nat)
  | write (channel : Channel) (text : String) (next : Unit → Process)
  | readLine (next : Option String → Process)
  | readFile (path : String) (next : Except String String → Process)
  | readClock (next : Nat → Process)
  | pause (milliseconds : Nat) (next : Unit → Process)

structure Transcript where
  exitCode : Nat
  out : String
  err : String
  deriving DecidableEq, Repr

def dropLineEnd (line : List Char) : List Char :=
  (line.reverse.dropWhile fun c => c = '\n' || c = '\r').reverse

def takeLine? (text : List Char) : Option (String × List Char) :=
  if text.isEmpty then
    none
  else
    let (line, rest) := text.span (· ≠ '\n')
    some (String.ofList (dropLineEnd line), rest.drop 1)

def Process.simulate (contents : String → Except String String) (input : List Char) :
    Process → Transcript
  | exit code => ⟨code, "", ""⟩
  | write channel text next =>
    let rest := (next ()).simulate contents input
    match channel with
    | .out => { rest with out := text ++ rest.out }
    | .err => { rest with err := text ++ rest.err }
  | readLine next =>
    match takeLine? input with
    | some (line, input) => (next (some line)).simulate contents input
    | none => (next none).simulate contents input
  | readFile path next => (next (contents path)).simulate contents input
  | readClock next => (next 0).simulate contents input
  | pause _ next => (next ()).simulate contents input

end NodeScript.Cli
