import IndexedTyping.Unify

/-!
Checking terms, statements and programs. Every term gets one judgment; what a body needs beyond the types that
its abstraction takes from it is forgotten with the scope of the body.
-/

namespace IndexedTyping

namespace CheckM

def judged (e : Term) (action : CheckM Unit) : CheckM OpenTy := do
  enter "Begin Check" e.render
  action
  let t ← typeOf e
  leave "End Check" (e.render ++ " : " ++ t.render)
  return t

def checkVar (x : String) (l : Option Location) : CheckM OpenTy :=
  judged (.var x l) do
    unless (← get).binds x do
      let _ ← typeOf (.var x l)
    declare (.var x l) (← newUnknown)

def checkTerm : Term → CheckM OpenTy
  | .var x l => checkVar x l
  | .lit v => judged (.lit v) (declare (.lit v) (.ground (.prim v.prim)))
  | .lam x body => judged (.lam x body) do
    let (a, b) ← withScope ("abstraction " ++ x) [x] do
      let b ← checkTerm body
      let a ← checkVar x none
      return (a, b)
    declare (.lam x body) (.fn a b)
  | .app f arg => judged (.app f arg) do
    let a ← checkTerm f
    let b ← checkTerm arg
    let c ← newUnknown
    unify a (.fn b c)
    declare (.app f arg) c
  | .recur f x body => judged (.recur f x body) do
    let (a, b, c) ← withScope ("recursion " ++ f) [f, x] do
      let b ← checkTerm body
      let a ← checkVar x none
      let c ← checkVar f none
      return (a, b, c)
    unify b c
    declare (.recur f x body) (.fn a b)

def infer (e : Term) : CheckM OpenTy := withScope ("infer " ++ e.render) [] (checkTerm e)

def checkStmtBody : Stmt → CheckM Unit
  | .define n t e => do
    let t ← resolveTy t
    let s ← withScope ("definition " ++ n) [] (checkTerm e)
    unify t s
    declare (.var n none) t
  | .fix n t e => do
    let t ← resolveTy t
    declare (.var n none) t
    let s ← withScope ("fix " ++ n) [] (checkTerm e)
    unify t s
  | .assume n t => do declare (.var n none) (← resolveTy t)
  | .synonym n t => do bindUnknown n (← resolveTy t)
  | .primitive n => bindPrimitive n
  | .group n l body => throw (.unsupported (.group n l body))

def checkStmt (s : Stmt) : CheckM Unit := do
  enter "Begin Check" s.render
  checkStmtBody s
  leave "End Check" s.render

def checkStmts : List Stmt → CheckM Unit
  | [] => pure ()
  | s :: rest => do
    checkStmt s
    checkStmts rest

def checkAll (p : Program) : CheckM Unit := do
  enter "Begin Check" "Prgm ..."
  checkStmts p
  leave "End Check" "Prgm ..."

end CheckM

structure Outcome where
  error? : Option CheckError
  context : Context

def Outcome.ok (o : Outcome) : Bool := o.error?.isNone

def check (options : Options) (trace : Trace) (p : Program) : Outcome :=
  match CheckM.checkAll p (.new options trace) with
  | .ok _ c => ⟨none, c⟩
  -- phases of the trace that the fault left open count as closed
  | .error e c => ⟨some e, { c with trace := c.trace.unwind }⟩

end IndexedTyping
