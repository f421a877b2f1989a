import IndexedTyping.Term.Equivalence

namespace IndexedTyping

inductive Prim
  | nat
  | bool
  | string
  deriving DecidableEq, Repr

def Prim.render : Prim → String
  | .nat => "Nat"
  | .bool => "Bool"
  | .string => "String"

def Prim.ofName? (s : String) : Option Prim :=
  [Prim.nat, .bool, .string].find? (·.render == s)

def Literal.prim : Literal → Prim
  | .nat _ => .nat
  | .bool _ => .bool
  | .str _ => .string

/-- The name bound by `all` stands for a term whose type is assumed elsewhere. -/
inductive Ty
  | name (x : String)
  | prim (p : Prim)
  | fn (dom cod : Ty)
  | app (head arg : Ty)
  | all (x : String) (loc : Option Location) (body : Ty)
  | indexed (head : Ty) (index : Term)
  deriving DecidableEq, Repr

namespace Ty

def render : Ty → String
  | name x => x
  | prim p => p.render
  | fn t s => "(" ++ t.render ++ " -> " ++ s.render ++ ")"
  | app t s => "(" ++ t.render ++ " " ++ s.render ++ ")"
  | all x _ t => "(forall " ++ x ++ ", " ++ t.render ++ ")"
  | indexed t e => "(" ++ t.render ++ " " ++ e.render ++ ")"

def same (budget : Nat) : Ty → Ty → Bool
  | name x, name y => x == y
  | prim p, prim q => p == q
  | fn t s, fn t' s' => t.same budget t' && s.same budget s'
  | app t s, app t' s' => t.same budget t' && s.same budget s'
  | all x _ t, all y _ s => x == y && t.same budget s
  | indexed t e, indexed s f => t.same budget s && e.sameIndex budget f
  | _, _ => false

end Ty

end IndexedTyping
