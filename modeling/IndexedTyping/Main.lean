import IndexedTyping.CommandLine.Run

namespace IndexedTyping.CommandLine

def lookFor (path : String) : IO File := do
  try
    return .text (← IO.FS.readFile path)
  catch
    | .noFileOrDirectory .. => return .missing
    | .inappropriateType .. => return .directory
    | e => throw e

def Crash.message : Crash → String
  | .load e => e.message
  | .check e => e.message

end IndexedTyping.CommandLine

open IndexedTyping.CommandLine

def main (args : List String) : IO UInt32 := do
  let path := match Arguments.ofList args with
    | .ok a => a.rest.head?
    | .error _ => none
  let file ← match path with
    | some p => lookFor p
    | none => pure .missing
  let r := run args fun _ => file
  IO.print r.out
  IO.eprint r.err
  if let some c := r.crash then IO.eprintln c.message
  return r.exit.toUInt32
