import IndexedTyping.Location

namespace IndexedTyping

inductive Literal
  | nat (n : Nat)
  | bool (b : Bool)
  | str (s : String)
  deriving DecidableEq, Repr

def Literal.render : Literal → String
  | .nat n => toString n
  | .bool b => if b then "true" else "false"
  | .str s => "\"" ++ s ++ "\""

/-- `recur self x body` is the function of `x` that may call itself by the name `self` in its body. A variable may
remember where it was written, since an unbound one is reported with its place. -/
inductive Term
  | var (x : String) (loc : Option Location)
  | lit (v : Literal)
  | lam (x : String) (body : Term)
  | app (fn arg : Term)
  | recur (self x : String) (body : Term)
  deriving DecidableEq, Repr

namespace Term

def render : Term → String
  | var x _ => x
  | lit v => v.render
  | lam x b => "(" ++ x ++ " => " ++ b.render ++ ")"
  | app f a => "(" ++ f.render ++ " " ++ a.render ++ ")"
  | recur f x b => "(rec " ++ f ++ " of " ++ x ++ " => " ++ b.render ++ ")"

def same : Term → Term → Bool
  | var x _, var y _ => x == y
  | lit v, lit w => v == w
  | lam x b, lam y c => x == y && b.same c
  | app f a, app g b => f.same g && a.same b
  | recur f x b, recur g y c => f == g && x == y && b.same c
  | _, _ => false

def freeVars : Term → List String
  | var x _ => [x]
  | lit _ => []
  | lam x b => b.freeVars.filter (· != x)
  | app f a => f.freeVars ++ a.freeVars
  | recur f x b => b.freeVars.filter fun y => y != f && y != x

def freeNames (e : Term) : List String :=
  e.freeVars.eraseDups.mergeSort fun x y => decide (x ≤ y)

def mentions (x : String) : Term → Bool
  | var y _ => x == y
  | lit _ => false
  | lam y b => x != y && b.mentions x
  | app f a => f.mentions x || a.mentions x
  | recur f y b => x != f && x != y && b.mentions x

theorem mentions_iff_mem_freeVars {x : String} {e : Term} : e.mentions x = true ↔ x ∈ e.freeVars := by
  induction e with
  | var y _ => simp [mentions, freeVars]
  | lit v => simp [mentions, freeVars]
  | lam y b ih => simp [mentions, freeVars, ih, and_comm]
  | app f a ihf iha => simp [mentions, freeVars, ihf, iha]
  | recur f y b ih => simp [mentions, freeVars, ih, and_comm]

def applyAll (head : Term) (args : List Term) : Term := args.foldl app head

@[simp] theorem applyAll_nil (e : Term) : e.applyAll [] = e := rfl

@[simp] theorem applyAll_cons (e a : Term) (args : List Term) :
    e.applyAll (a :: args) = (app e a).applyAll args := rfl

end Term

end IndexedTyping
