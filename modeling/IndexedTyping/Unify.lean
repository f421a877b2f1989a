import IndexedTyping.Context.Action

/-!
Unification: makes two types equal by binding unknowns.

Two indexed types, and two quantified ones, are compared through the judgments on their indices and on the names
they bind, and never through these themselves. Judgments can lead in a circle, so the depth is limited.
-/

namespace IndexedTyping

def OpenTy.isComposite : OpenTy → Bool
  | fn .. | app .. | indexed .. => true
  | ground _ | unknown _ | all .. => false

namespace CheckM

def unifyStep (unify : OpenTy → OpenTy → CheckM Unit) : OpenTy → OpenTy → CheckM Unit
  | .ground t, .unknown x => bindUnknown x (.ground t)
  | .ground (.fn t s), .fn a b => do
    unify (.ground t) a
    unify (.ground s) b
  | .ground (.app t s), .app a b => do
    unify (.ground t) a
    unify (.ground s) b
  | .ground (.all x l t), .all y k a => do
    let p ← typeOf (.var x l)
    let q ← typeOf (.var y k)
    unify p q
    unify (.ground t) a
  | .ground (.indexed t e), .indexed a f => do
    unify (.ground t) a
    let p ← typeOf e
    let q ← typeOf f
    unify p q
  | .unknown x, b => bindUnknown x b
  | .fn a b, .fn c d => do
    unify a c
    unify b d
  | .app a b, .app c d => do
    unify a c
    unify b d
  | .indexed a e, .indexed b f => do
    unify a b
    let p ← typeOf e
    let q ← typeOf f
    unify p q
  | a, b => if a.isComposite && !b.isComposite then unify b a else throw (.mismatch a b)

def unifyWithin : Nat → OpenTy → OpenTy → CheckM Unit
  | 0, a, b => throw (.tooDeep a b)
  | n + 1, a, b => do
    let a ← resolve a
    let b ← resolve b
    unless a.same (← get).options.budget b do
      let message := a.render ++ " <~> " ++ b.render
      enter "Begin Unify" message
      unifyStep (unifyWithin n) a b
      leave "End Unify" message

/-- Makes two types equal. What was bound before a failure stays bound. -/
def unify (a b : OpenTy) : CheckM Unit := do unifyWithin (← get).options.depth a b

def declare (e : Term) (t : OpenTy) : CheckM Unit := do
  let t ← resolve t
  emit "Declare" (e.render ++ " : " ++ t.render)
  let c ← get
  match c.judgment? e with
  | some j => unify t j.type
  | none => set { c with judgments := ⟨e, t⟩ :: c.judgments }

end CheckM

end IndexedTyping
