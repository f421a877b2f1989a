import IndexedTyping.Error
import IndexedTyping.Text.Distance

namespace IndexedTyping

namespace Report

structure Details where
  file : Option String
  location : Option Location
  fault : Option Fault
  expected : Option String
  actual : Option String
  similar : List String
  deriving DecidableEq, Repr

def Details.empty : Details := ⟨none, none, none, none, none, []⟩

def renderLocation : Option Location → String
  | none => "<unknown location>"
  | some l => l.render

def occursIn (part : List Char) : List Char → Bool
  | [] => part.isEmpty
  | c :: cs => part.isPrefixOf (c :: cs) || occursIn part cs

def mentionsArrow (s : String) : Bool := occursIn "->".toList s.toList

def Details.appliesNonFunction (d : Details) : Bool :=
  match d.expected, d.actual with
  | some e, some a => !e.isEmpty && mentionsArrow a && !mentionsArrow e
  | _, _ => false

def Details.hints (d : Details) : List String :=
  match d.fault with
  | some .unbound =>
    let names := ", ".intercalate ((d.similar.take 3).map fun x => "'" ++ x ++ "'")
    (if d.similar.isEmpty then [] else ["Did you mean: " ++ names ++ "?"]) ++
      ["Names must be assumed, defined or bound by an enclosing abstraction before use"]
  | some .mismatch =>
    if d.appliesNonFunction then ["A non-function value is being applied to an argument"] else []
  | some .cyclic => ["The inferred type would be infinite; check for a function applied to itself"]
  | some .notUnknown => ["A name can only be declared primitive or given a signature once"]
  | some .unsupported => ["Module grouping is not supported; declare the statements at top level"]
  | some .ambiguous | some .tooDeep | some .format | none => []

def Details.suggestion? (d : Details) : Option String :=
  if d.hints.isEmpty then none else some ("\n".intercalate (d.hints.map ("Hint: " ++ ·)))

def Details.place? (d : Details) : Option String :=
  match d.location, d.file with
  | some l, _ => some ("at " ++ l.render)
  | none, some f => if f.isEmpty then none else some ("in " ++ f)
  | none, none => none

end Report

/-- A fault with its details, and its text from the first time it was asked for. -/
structure Report where
  message : String
  details : Report.Details
  text? : Option String
  deriving DecidableEq, Repr

namespace Report

def new (message : String) (details : Details) : Report := ⟨message, details, none⟩

def compose (r : Report) : String :=
  "\n".intercalate (["Error: " ++ r.message] ++ r.details.place?.toList ++
    (r.details.suggestion?.map fun s => ["", s]).getD [])

def text (r : Report) : String := r.text?.getD r.compose

def settle (r : Report) : Report := { r with text? := some r.text }

end Report

def CheckError.details (e : CheckError) : Report.Details :=
  let base := { Report.Details.empty with fault := some e.fault, location := e.location? }
  match e with
  | mismatch a b => { base with expected := some a.render, actual := some b.render }
  | unbound e similar => { base with actual := some e.render, similar := similar }
  | _ => base

def CheckError.report (e : CheckError) : Report := .new e.message e.details

end IndexedTyping
