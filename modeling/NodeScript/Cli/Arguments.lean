import NodeScript.Graph.Load

/-!
The arguments of the command line.
-/

namespace NodeScript.Cli

structure Input where
  path : String
  format : GraphFormat
  instrument : Bool
  deriving DecidableEq, Repr

inductive Command where
  | compile (input : Input)
  | run (input : Input) (stepDelay : Int) (events : Bool) (seed : Option Nat)
  deriving DecidableEq, Repr

inductive Name where
  | format | instrument | stepDelay | events | seed
  deriving DecidableEq, Repr

namespace Name

def long : Name → String
  | format => "format"
  | instrument => "instrument"
  | stepDelay => "step-delay"
  | events => "events"
  | seed => "seed"

def short? : Name → Option Char
  | format => some 'f'
  | instrument => some 'i'
  | _ => none

def takesValue : Name → Bool
  | format | stepDelay | seed => true
  | instrument | events => false

end Name

def compileNames : List Name := [.format, .instrument]

def runNames : List Name := [.format, .instrument, .stepDelay, .events, .seed]

structure Given where
  options : List (Name × String)
  paths : List String

def Given.add? (given : Given) (name : Name) (value : String) : Option Given :=
  if (given.options.lookup name).isSome then none
  else some { given with options := given.options ++ [(name, value)] }

def looksNegative (text : List Char) : Bool :=
  match text with
  | '-' :: rest => (Decimal.Numeral.read? rest).isSome && rest.head? ≠ some '+'
      && rest.head? ≠ some '-'
  | _ => false

def isValueOf (name : Name) (text : List Char) : Bool :=
  match text with
  | '-' :: _ :: _ => name = .stepDelay && looksNegative text
  | _ => true

def parseShort? (known : List Name) (given : Given) :
    List Char → List (List Char) → Option (Given × List (List Char))
  | [], arguments => some (given, arguments)
  | letter :: rest, arguments => do
    let name ← known.find? fun name => name.short? = some letter
    if name.takesValue then
      match rest with
      | '=' :: value => return (← given.add? name (String.ofList value), arguments)
      | _ :: _ => return (← given.add? name (String.ofList rest), arguments)
      | [] =>
        match arguments with
        | value :: arguments =>
          guard (isValueOf name value)
          return (← given.add? name (String.ofList value), arguments)
        | [] => none
    else
      parseShort? known (← given.add? name "") rest arguments

def parseLong? (known : List Name) (given : Given) (text : List Char)
    (arguments : List (List Char)) : Option (Given × List (List Char)) := do
  let (word, value) := text.span (· ≠ '=')
  let name ← known.find? fun name => name.long.toList = word
  if name.takesValue then
    match value, arguments with
    | _ :: value, arguments => return (← given.add? name (String.ofList value), arguments)
    | [], value :: arguments =>
      guard (isValueOf name value)
      return (← given.add? name (String.ofList value), arguments)
    | [], [] => none
  else
    guard value.isEmpty
    return (← given.add? name "", arguments)

def parseArguments? (known : List Name) : (bound : Nat) → Given → List (List Char) → Option Given
  | 0, given, _ => some given
  | _, given, [] => some given
  | bound + 1, given, argument :: arguments =>
    match argument with
    | ['-', '-'] => some { given with paths := given.paths ++ arguments.map String.ofList }
    | '-' :: '-' :: text => do
      let (given, arguments) ← parseLong? known given text arguments
      parseArguments? known bound given arguments
    | '-' :: letter :: rest => do
      let (given, arguments) ← parseShort? known given (letter :: rest) arguments
      parseArguments? known bound given arguments
    | path =>
      parseArguments? known bound { given with paths := given.paths ++ [String.ofList path] }
        arguments

def readFormat? : String → Option GraphFormat
  | "canonical" => some .canonical
  | "editor" => some .editor
  | _ => none

def readInt? (low high : Int) (text : String) : Option Int := do
  let (negative, digits) := Decimal.scanSign text.toList
  guard (!digits.isEmpty && digits.all Char.isDigit)
  let magnitude : Int := Decimal.ofDigits digits
  let value := if negative then -magnitude else magnitude
  guard (low ≤ value && value ≤ high)
  return value

def readWord? (text : String) : Option Nat := do
  guard (text.toList.head? ≠ some '-')
  Int.toNat <$> readInt? 0 Word.greatest text

namespace Given

def input? (given : Given) : Option Input := do
  let [path] := given.paths | none
  let format ← match given.options.lookup .format with
    | some text => readFormat? text
    | none => some .canonical
  return { path, format, instrument := (given.options.lookup .instrument).isSome }

def run? (given : Given) : Option Command := do
  let input ← given.input?
  let stepDelay ← match given.options.lookup .stepDelay with
    | some text => readInt? Word.leastSigned Word.greatestSigned text
    | none => some 0
  let seed ← match given.options.lookup .seed with
    | some text => some <$> readWord? text
    | none => some none
  return .run input stepDelay (given.options.lookup .events).isSome seed

end Given

def Command.parse? : List String → Option Command
  | "compile" :: arguments => do
    let given ← parseArguments? compileNames arguments.length ⟨[], []⟩ (arguments.map String.toList)
    Command.compile <$> given.input?
  | "run" :: arguments => do
    let given ← parseArguments? runNames arguments.length ⟨[], []⟩ (arguments.map String.toList)
    given.run?
  | _ => none

def usage : String :=
  "Usage:\n"
    ++ "  compile PATH [-f canonical|editor] [-i]\n"
    ++ "  run PATH [-f canonical|editor] [-i] [--step-delay MS] [--events] [--seed N]\n"

end NodeScript.Cli
