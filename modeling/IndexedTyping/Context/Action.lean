import IndexedTyping.Context.Basic
import IndexedTyping.Text.Distance

namespace IndexedTyping

abbrev CheckM := EStateM CheckError Context

namespace CheckM

def ofExcept {α : Type} : Except CheckError α → CheckM α
  | .ok a => pure a
  | .error e => throw e

def emit (phase message : String) : CheckM Unit :=
  modify fun c => { c with trace := c.trace.emit phase message }

def enter (phase message : String) : CheckM Unit :=
  modify fun c => { c with trace := c.trace.enter phase message }

def leave (phase message : String) : CheckM Unit :=
  modify fun c => { c with trace := c.trace.leave phase message }

/-- Runs an action in a scope of its own, which is closed whether it succeeds or fails. -/
def withScope {α : Type} (label : String) (binders : List String) (action : CheckM α) : CheckM α := fun c =>
  match action (c.openScope label binders) with
  | .ok a c' => .ok a c'.closeScope
  | .error e c' => .error e c'.closeScope

def unknownName (i : Nat) : String := "t" ++ toString i

def newUnknown : CheckM OpenTy := do
  let c ← get
  set { c with counter := c.counter + 1 }
  let x := unknownName c.counter
  emit "FreeName" x
  return .unknown x

def resolve (t : OpenTy) : CheckM OpenTy := do ofExcept ((← get).store.resolve t)

def resolveTy (t : Ty) : CheckM OpenTy := do ofExcept ((← get).store.resolveTy t)

def bindUnknown (x : String) (t : OpenTy) : CheckM Unit := do
  let b ← ofExcept ((← get).store.binding x t)
  emit "Rewrite" b.render
  let c ← get
  let store ← ofExcept (c.store.insert c.options.strictOccurs b)
  set { c with store := store }

def bindPrimitive (x : String) : CheckM Unit := do
  emit "Primitive" x
  bindUnknown x (.ground (.name x))

def typeOf (e : Term) : CheckM OpenTy := do
  let c ← get
  match c.judgment? e with
  | some j => resolve j.type
  | none =>
    match e with
    | .var x _ => throw (.unbound e (Text.similarNames x c.judgedNames Text.suggested))
    | _ => throw (.unbound e [])

def groundTypeOf (e : Term) : CheckM (Option Ty) := return (← typeOf e).ground?

end CheckM

end IndexedTyping
