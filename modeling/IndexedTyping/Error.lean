import IndexedTyping.Program.Basic
import IndexedTyping.Store.Binding

namespace IndexedTyping

/-- * `mismatch`: two types cannot be made equal.
* `unbound`: a term has no judgment; `similar` are names that have one.
* `ambiguous`: an unknown has more than one binding.
* `cyclic`: a binding leads back to its own unknown.
* `notUnknown`: a name to be bound already stands for `target`.
* `unsupported`: a statement that is not checked.
* `tooDeep`: unification went deeper than its limit. -/
inductive CheckError
  | mismatch (left right : OpenTy)
  | unbound (e : Term) (similar : List String)
  | ambiguous (x : String)
  | cyclic (b : Binding)
  | notUnknown (x : String) (target : OpenTy)
  | unsupported (s : Stmt)
  | tooDeep (left right : OpenTy)
  deriving Repr

inductive Fault
  | mismatch
  | unbound
  | ambiguous
  | cyclic
  | notUnknown
  | unsupported
  | tooDeep
  | format
  deriving DecidableEq, Repr

def Fault.tag : Fault → String
  | mismatch => "unification_failure"
  | unbound => "unbound_reference"
  | ambiguous => "duplicate_rewrite"
  | cyclic => "self_referential_rewrite"
  | notUnknown => "invalid_rewrite_target"
  | unsupported => "unsupported_construct"
  | tooDeep => "unification_depth"
  | format => "program_format"

namespace CheckError

def fault : CheckError → Fault
  | mismatch .. => .mismatch
  | unbound .. => .unbound
  | ambiguous .. => .ambiguous
  | cyclic .. => .cyclic
  | notUnknown .. => .notUnknown
  | unsupported .. => .unsupported
  | tooDeep .. => .tooDeep

def message : CheckError → String
  | mismatch a b => "unable to unify bound types: " ++ a.render ++ " , " ++ b.render
  | unbound e _ => "no declaration found for expr: " ++ e.render
  | ambiguous x => "multiple rewrites of same free name: " ++ x
  | cyclic b => "self-referential rewrite: " ++ b.render
  | notUnknown x t => "rewrite of non-free name: " ++ x ++ " (resolves to " ++ t.render ++ ")"
  | unsupported s => "unsupported construct: " ++ s.render
  | tooDeep a b => "unification goes too deep: " ++ a.render ++ " , " ++ b.render

def operands : CheckError → List String
  | mismatch a b => [a.render, b.render]
  | unbound e _ => [e.render]
  | ambiguous x => [x]
  | cyclic b => [b.render]
  | notUnknown x t => [x, t.render]
  | unsupported s => [s.render]
  | tooDeep a b => [a.render, b.render]

def location? : CheckError → Option Location
  | unbound (.var _ l) _ => l
  | unsupported (.group _ l _) => l
  | _ => none

end CheckError

/-- A failed check as it is told: two causes may be told alike, since names that are only suggested are left out. -/
structure Diagnostic where
  fault : Fault
  message : String
  operands : List String
  location : Option Location
  deriving DecidableEq, Repr

def Diagnostic.render (d : Diagnostic) : String := d.fault.tag ++ ": " ++ d.message

def CheckError.diagnostic (e : CheckError) : Diagnostic := ⟨e.fault, e.message, e.operands, e.location?⟩

end IndexedTyping
