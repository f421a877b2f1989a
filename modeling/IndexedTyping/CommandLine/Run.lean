import IndexedTyping.CommandLine.Arguments
import IndexedTyping.Program.Decode
import IndexedTyping.Program.Encode
import IndexedTyping.Text.Table

namespace IndexedTyping.CommandLine

inductive File
  | missing
  | directory
  | text (s : String)
  deriving DecidableEq, Repr

inductive Crash
  | load (e : LoadError)
  | check (e : CheckError)

structure Result where
  exit : Nat
  out : String
  err : String
  crash : Option Crash

namespace Result

def done (exit : Nat) (out err : String) : Result := ⟨exit, out, err, none⟩

def crashed (out : String) (c : Crash) : Result := ⟨1, out, "", some c⟩

end Result

def version : String := "deptyck version 0.1.0\n"

def usage : String := "Usage: deptyck [OPTIONS] [FILENAME]\nTry 'deptyck --help' for help.\n\n"

def refuse (e : UsageError) : Result :=
  .done 2 "" ((if e.showsUsage then usage else "") ++ "Error: " ++ e.message ++ "\n")

/-- A line may end in a line feed, a carriage return, or both; `acc` holds the characters so far, last first. -/
def unifyLines (acc : List Char) : List Char → List Char
  | [] => acc.reverse
  | '\r' :: '\n' :: rest => unifyLines ('\n' :: acc) rest
  | '\r' :: rest => unifyLines ('\n' :: acc) rest
  | c :: rest => unifyLines (c :: acc) rest

def traceTable (t : Trace) : Text.Table :=
  ⟨"Trace", ("Phase", "Message"),
    t.events.toList.map fun e => (String.join (List.replicate e.depth "  ") ++ e.phase, e.message)⟩

def judgmentTable (c : Context) : Except CheckError Text.Table := do
  let judgments ← c.judgments.reverse.mapM fun j => return (j.term.render, (← c.store.resolve j.type).render)
  return ⟨"Declarations", ("Term", "Type"), judgments⟩

def bindingTable (c : Context) : Text.Table :=
  ⟨"Rewrites", ("Name", "Replacement"), c.store.map fun b => (b.name, b.value.render)⟩

def showDiagnostic (d : Diagnostic) : String :=
  String.join ((["✗ " ++ d.fault.tag, d.message] ++ d.operands.map ("  - " ++ ·)).map (· ++ "\n"))

def showTables (a : Arguments) (path : String) (o : Outcome) : Result :=
  let traced := if a.flags.contains .trace then (traceTable o.context.trace).render else ""
  match o.error? with
  | some e => .done 1 traced (showDiagnostic e.diagnostic)
  | none =>
    match judgmentTable o.context with
    | .error e => .crashed traced (.check e)
    | .ok table =>
      let bindings := if a.flags.contains .showBindings then (bindingTable o.context).render else ""
      .done 0 (traced ++ table.render ++ bindings ++ "✓ " ++ path ++ " checks\n") ""

def showJson (o : Outcome) : Result :=
  match o.toJson with
  | .error e => .crashed "" (.check e)
  | .ok j => .done (if o.ok then 0 else 1) (j.render ++ "\n") ""

def runFile (a : Arguments) (fuel : Option Nat) (path text : String) : Result :=
  match Program.load (String.ofList (unifyLines [] text.toList)) with
  | .error e => if e.isReported then .done 1 "" ((e.report (some path)).text ++ "\n") else .crashed "" (.load e)
  | .ok p =>
    let options : Options :=
      { strictOccurs := a.flags.contains .strictOccurs
        rollback := a.flags.contains .rollback
        fuel := fuel.elim defaultFuel Int.ofNat }
    let o := check options (.new (a.flags.contains .trace)) p
    if a.flags.contains .json then showJson o else showTables a path o

def runArguments (a : Arguments) (files : String → File) : Except UsageError Result := do
  let fuel ← a.fuelValue
  match a.rest with
  | [] => if a.flags.contains .version then return .done 0 version "" else throw .noFile
  | path :: more =>
    match files path with
    | .missing => throw (.noSuchFile path)
    | .directory => throw (.isDirectory path)
    | .text s =>
      if !more.isEmpty then throw (.extra more)
      else if a.flags.contains .version then return .done 0 version ""
      else return runFile a fuel path s

def run (args : List String) (files : String → File) : Result :=
  match Arguments.ofList args >>= (runArguments · files) with
  | .ok r => r
  | .error e => refuse e

end IndexedTyping.CommandLine
