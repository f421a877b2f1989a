import IndexedTyping.Text.Integer
import IndexedTyping.Text.Quoted

/-!
The arguments of the command line.

All arguments are read before any is judged. Then the value of `--fuel` is judged, then the file, then what is
left over.
-/

namespace IndexedTyping.CommandLine

inductive Flag
  | trace
  | showBindings
  | strictOccurs
  | rollback
  | json
  | version
  deriving DecidableEq, Repr

def Flag.ofName? : String → Option Flag
  | "--trace" => some .trace
  | "--show-rewrites" => some .showBindings
  | "--strict-occurs-check" => some .strictOccurs
  | "--rollback-counter" => some .rollback
  | "--json" => some .json
  | "--version" => some .version
  | _ => none

inductive UsageError
  | noSuchOption (name : String)
  | takesNoValue (name : String)
  | needsValue (name : String)
  | fuelNotInteger (text : String)
  | fuelNegative (n : Int)
  | noSuchFile (path : String)
  | isDirectory (path : String)
  | extra (args : List String)
  | noFile
  deriving DecidableEq, Repr

namespace UsageError

def message : UsageError → String
  | noSuchOption x => "No such option: " ++ x
  | takesNoValue x => "Option " ++ Text.quoted x ++ " does not take a value."
  | needsValue x => "Option " ++ Text.quoted x ++ " requires an argument."
  | fuelNotInteger s => "Invalid value for '--fuel': " ++ Text.quoted s ++ " is not a valid integer range."
  | fuelNegative n => "Invalid value for '--fuel': " ++ toString n ++ " is not in the range x>=0."
  | noSuchFile p => "Invalid value for '[FILENAME]': File " ++ Text.quoted p ++ " does not exist."
  | isDirectory p => "Invalid value for '[FILENAME]': File " ++ Text.quoted p ++ " is a directory."
  | extra [a] => "Got unexpected extra argument (" ++ a ++ ")"
  | extra args => "Got unexpected extra arguments (" ++ " ".intercalate args ++ ")"
  | noFile => "Missing argument 'FILENAME'."

def showsUsage : UsageError → Bool
  | takesNoValue _ | needsValue _ => false
  | _ => true

end UsageError

structure Arguments where
  flags : List Flag
  fuel : Option String
  rest : List String
  deriving DecidableEq, Repr

namespace Arguments

def addFlag (a : Arguments) (f : Flag) : Arguments := { a with flags := a.flags ++ [f] }

def addRest (a : Arguments) (more : List String) : Arguments := { a with rest := a.rest ++ more }

def splitValue (arg : String) : String × Option String :=
  let cs := arg.toList
  match cs.dropWhile (· != '=') with
  | [] => (arg, none)
  | _ :: value => (String.ofList (cs.takeWhile (· != '=')), some (String.ofList value))

def isOption (arg : String) : Bool :=
  match arg.toList with
  | '-' :: _ :: _ => true
  | _ => false

/-- No option has a single dash, and only the letter after it is named. -/
def unknownOption (arg name : String) : UsageError :=
  match arg.toList with
  | '-' :: '-' :: _ => .noSuchOption name
  | cs => .noSuchOption (String.ofList (cs.take 2))

def parse (a : Arguments) : List String → Except UsageError Arguments
  | [] => .ok a
  | "--" :: args => .ok (a.addRest args)
  | arg :: args =>
    if isOption arg then
      let (name, value) := splitValue arg
      if name = "--fuel" then
        match value, args with
        | some v, args => parse { a with fuel := some v } args
        | none, v :: args => parse { a with fuel := some v } args
        | none, [] => .error (.needsValue name)
      else
        match Flag.ofName? name, value with
        | some f, none => parse (a.addFlag f) args
        | some _, some _ => .error (.takesNoValue name)
        | none, _ => .error (unknownOption arg name)
    else parse (a.addRest [arg]) args

def ofList (args : List String) : Except UsageError Arguments := parse ⟨[], none, []⟩ args

def fuelValue (a : Arguments) : Except UsageError (Option Nat) :=
  match a.fuel with
  | none => .ok none
  | some s =>
    match Text.integer? s with
    | none => .error (.fuelNotInteger s)
    | some (.ofNat n) => .ok (some n)
    | some n => .error (.fuelNegative n)

end Arguments

end IndexedTyping.CommandLine
