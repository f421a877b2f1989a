import IndexedTyping.Store.Basic
import IndexedTyping.Trace

namespace IndexedTyping

/-- * `strictOccurs`: refuse every binding whose unknown occurs in its value.
* `rollback`: closing a scope also takes back the numbers of the unknowns made in it.
* `fuel`: reduction steps for comparing two indices; none if it is not positive.
* `depth`: how deep unification may go. -/
structure Options where
  strictOccurs : Bool := false
  rollback : Bool := false
  fuel : Int := defaultFuel
  depth : Nat := 10000
  deriving DecidableEq, Repr

def Options.budget (o : Options) : Nat := budgetOf o.fuel

structure Judgment where
  term : Term
  type : OpenTy
  deriving DecidableEq, Repr

def Judgment.render (j : Judgment) : String := j.term.render ++ " : " ++ j.type.render

structure Scope where
  label : String
  binders : List String
  store : Store
  judgments : List Judgment
  counter : Nat
  deriving DecidableEq, Repr

/-- Judgments and scopes are newest first. A term has at most one judgment. -/
structure Context where
  options : Options
  trace : Trace
  counter : Nat
  store : Store
  judgments : List Judgment
  scopes : List Scope
  deriving DecidableEq, Repr

namespace Context

def new (options : Options) (trace : Trace) : Context := ⟨options, trace, 0, [], [], []⟩

def judgment? (c : Context) (e : Term) : Option Judgment := c.judgments.find? fun j => e.same j.term

def binds (c : Context) (x : String) : Bool := c.scopes.any (·.binders.contains x)

def judgedNames (c : Context) : List String :=
  c.judgments.filterMap fun j =>
    match j.term with
    | .var x _ => some x
    | _ => none

def openScope (c : Context) (label : String) (binders : List String) : Context :=
  { c with
    scopes := ⟨label, binders, c.store, c.judgments, c.counter⟩ :: c.scopes
    trace := c.trace.enter "Open Scope" label }

def closeScope (c : Context) : Context :=
  match c.scopes with
  | [] => c
  | s :: outer =>
    { c with
      scopes := outer
      store := s.store
      judgments := s.judgments
      counter := if c.options.rollback then s.counter else c.counter
      trace := c.trace.leave "Close Scope" s.label }

def render (c : Context) : String :=
  "\n".intercalate (["rewrites:"] ++ c.store.map (" - " ++ ·.render) ++
    ["declarations:"] ++ c.judgments.map (" - " ++ ·.render))

end Context

end IndexedTyping
