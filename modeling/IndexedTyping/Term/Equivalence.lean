import IndexedTyping.Term.Normalize

/-!
Equality of terms up to the names of binders, and up to reduction within a budget.

Pairs of subterms that are still to be compared lie on a stack, so that no recursion goes into the terms. A name that
is bound stands for the level of its binder: how many binders there are around it.
-/

namespace IndexedTyping

abbrev Levels := List (String × Nat)

def Levels.sameReference (ls rs : Levels) (x y : String) : Bool :=
  match ls.lookup x, rs.lookup y with
  | none, none => x == y
  | i, j => i == j

structure Comparison where
  left : Term
  right : Term
  leftLevels : Levels
  rightLevels : Levels
  depth : Nat
  deriving DecidableEq, Repr

namespace Comparison

/-- The comparisons that are left once two terms turn out to have the same shape; `none` if they differ. The argument
of a recursive abstraction is bound inside of the abstraction itself. -/
def parts : Comparison → Option (List Comparison)
  | ⟨.var x _, .var y _, ls, rs, _⟩ => if ls.sameReference rs x y then some [] else none
  | ⟨.lit v, .lit w, _, _, _⟩ => if v = w then some [] else none
  | ⟨.app f a, .app g b, ls, rs, d⟩ => some [⟨f, g, ls, rs, d⟩, ⟨a, b, ls, rs, d⟩]
  | ⟨.lam x b, .lam y c, ls, rs, d⟩ => some [⟨b, c, (x, d) :: ls, (y, d) :: rs, d + 1⟩]
  | ⟨.recur f x b, .recur g y c, ls, rs, d⟩ =>
    some [⟨b, c, (x, d + 1) :: (f, d) :: ls, (y, d + 1) :: (g, d) :: rs, d + 2⟩]
  | _ => none

def total : List Comparison → Nat
  | [] => 0
  | c :: pending => c.left.size + total pending

theorem total_append (pending rest : List Comparison) : total (pending ++ rest) = total pending + total rest := by
  induction pending with
  | nil => exact (Nat.zero_add _).symm
  | cons c pending ih => rw [List.cons_append, total, total, ih, Nat.add_assoc]

theorem total_parts_lt {c : Comparison} {parts : List Comparison} (h : c.parts = some parts) :
    total parts < c.left.size := by
  obtain ⟨e, f, ls, rs, d⟩ := c
  cases e <;> cases f <;> grind [Comparison.parts, total, Term.size]

def agree : List Comparison → Bool
  | [] => true
  | c :: pending =>
    match _h : c.parts with
    | none => false
    | some parts => agree (parts ++ pending)
termination_by pending => total pending
decreasing_by
  rw [total_append, total]
  exact Nat.add_lt_add_right (total_parts_lt _h) _

end Comparison

namespace Term

def alphaEq (e f : Term) : Bool := Comparison.agree [⟨e, f, [], [], 0⟩]

def convertible (budget : Nat) (e f : Term) : Bool :=
  e.alphaEq f || (e.normalize budget).term.alphaEq (f.normalize budget).term

def sameIndex (budget : Nat) (e f : Term) : Bool := e.same f || e.convertible budget f

end Term

end IndexedTyping
