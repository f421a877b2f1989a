import IndexedTyping.Ty.Basic

namespace IndexedTyping

/-- A `ground` type is final as a whole. Every other shape may hold unknowns, which are names. -/
inductive OpenTy
  | ground (t : Ty)
  | unknown (x : String)
  | fn (dom cod : OpenTy)
  | app (head arg : OpenTy)
  | all (x : String) (loc : Option Location) (body : OpenTy)
  | indexed (head : OpenTy) (index : Term)
  deriving DecidableEq, Repr

namespace OpenTy

def render : OpenTy → String
  | ground t => "\x7b" ++ t.render ++ "\x7d"
  | unknown x => x
  | fn a b => "(" ++ a.render ++ " -> " ++ b.render ++ ")"
  | app a b => "(" ++ a.render ++ " " ++ b.render ++ ")"
  | all x _ a => "(forall " ++ x ++ ", " ++ a.render ++ ")"
  | indexed a e => "(" ++ a.render ++ " " ++ e.render ++ ")"

def same (budget : Nat) : OpenTy → OpenTy → Bool
  | ground t, ground s => t.same budget s
  | unknown x, unknown y => x == y
  | fn a b, fn c d => a.same budget c && b.same budget d
  | app a b, app c d => a.same budget c && b.same budget d
  | all x _ a, all y _ b => x == y && a.same budget b
  | indexed a e, indexed b f => a.same budget b && e.sameIndex budget f
  | _, _ => false

def unknowns : OpenTy → List String
  | ground _ => []
  | unknown x => [x]
  | fn a b => a.unknowns ++ b.unknowns
  | app a b => a.unknowns ++ b.unknowns
  | all _ _ a => a.unknowns
  | indexed a _ => a.unknowns

def ground? : OpenTy → Option Ty
  | ground t => some t
  | unknown _ => none
  | fn a b => return .fn (← a.ground?) (← b.ground?)
  | app a b => return .app (← a.ground?) (← b.ground?)
  | all x l a => return .all x l (← a.ground?)
  | indexed a e => return .indexed (← a.ground?) e

def bindM {ε : Type} (f : String → Except ε OpenTy) : OpenTy → Except ε OpenTy
  | ground t => .ok (ground t)
  | unknown x => f x
  | fn a b => return fn (← a.bindM f) (← b.bindM f)
  | app a b => return app (← a.bindM f) (← b.bindM f)
  | all x l a => return all x l (← a.bindM f)
  | indexed a e => return indexed (← a.bindM f) e

end OpenTy

def Ty.openM {ε : Type} (f : String → Except ε OpenTy) : Ty → Except ε OpenTy
  | name x => f x
  | prim p => .ok (.ground (prim p))
  | fn t s => return .fn (← t.openM f) (← s.openM f)
  | app t s => return .app (← t.openM f) (← s.openM f)
  | all x l t => return .all x l (← t.openM f)
  | indexed t e => return .indexed (← t.openM f) e

end IndexedTyping
