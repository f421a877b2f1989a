import IndexedTyping.Term.Subst

namespace IndexedTyping

inductive Redex
  | beta (x : String) (body arg : Term)
  | unroll (self x : String) (body arg : Term)
  deriving DecidableEq, Repr

namespace Redex

def toTerm : Redex → Term
  | beta x b a => .app (.lam x b) a
  | unroll f x b a => .app (.recur f x b) a

/-- Where a recursive abstraction gives one name to itself and to its argument, the argument is meant. -/
def contract : Redex → Term
  | beta x b a => b.subst [(x, a)]
  | unroll f x b a => b.subst (Subst.bind [(f, .recur f x b)] x a)

end Redex

def budgetOf (fuel : Int) : Nat := fuel.toNat

def defaultFuel : Int := 1000

structure Reduct where
  term : Term
  left : Nat
  deriving DecidableEq, Repr

def Reduct.steps (r : Reduct) (budget : Nat) : Nat := budget - r.left

def Reduct.exhausted (r : Reduct) : Bool := r.left == 0

namespace Term

def headRedex? : Term → List Term → Option (Redex × List Term)
  | app f a, args => f.headRedex? (a :: args)
  | lam x b, a :: args => some (.beta x b a, args)
  | recur f x b, a :: args => some (.unroll f x b a, args)
  | _, _ => none

def whnfWith : Nat → Term → List Term → Reduct
  | 0, e, args => ⟨e.applyAll args, 0⟩
  | n + 1, e, args =>
    match e.headRedex? args with
    | some (r, rest) => whnfWith n r.contract rest
    | none => ⟨e.applyAll args, n + 1⟩

def whnf (budget : Nat) (e : Term) : Reduct := whnfWith budget e []

theorem left_whnfWith_le (n : Nat) (e : Term) (args : List Term) : (whnfWith n e args).left ≤ n := by
  induction n generalizing e args with
  | zero => simp [whnfWith]
  | succ n ih =>
    rw [whnfWith]
    split
    · exact Nat.le_succ_of_le (ih _ _)
    · simp

theorem left_whnf_le (n : Nat) (e : Term) : (e.whnf n).left ≤ n := left_whnfWith_le n e []

theorem term_whnf_of_left_eq {n : Nat} {e : Term} (h : (e.whnf n).left = n) : (e.whnf n).term = e := by
  cases n with
  | zero => rfl
  | succ n =>
    rw [whnf, whnfWith] at h ⊢
    split at h
    · next r rest _ =>
      have := left_whnfWith_le n r.contract rest
      omega
    · rfl

end Term

end IndexedTyping
