import IndexedTyping.Term.Reduction

/-!
Full reduction, leftmost-outermost redex first, within a budget of steps.

What is still to be done lies on one stack, and finished terms lie on another, so that no recursion goes into the
term. A term that was reduced at its head leaves its parts to be done, and then a task that takes the finished
parts and puts them together again.
-/

namespace IndexedTyping

inductive Binder
  | lam (x : String)
  | recur (self x : String)
  deriving DecidableEq, Repr

def Binder.close : Binder → Term → Term
  | lam x, b => .lam x b
  | recur f x, b => .recur f x b

/-- * `reduce`: bring a term to its normal form.
* `close`: take a finished body and close it under a binder.
* `apply`: take `n` finished arguments and below them a finished head, and apply it. -/
inductive Task
  | reduce (e : Term)
  | close (b : Binder)
  | apply (n : Nat)
  deriving DecidableEq, Repr

namespace Term

def spine : Term → List Term → Term × List Term
  | app f a, args => f.spine (a :: args)
  | e, args => (e, args)

def tasks : Term → List Task
  | lam x b => [.reduce b, .close (.lam x)]
  | recur f x b => [.reduce b, .close (.recur f x)]
  | app f a =>
    let (head, args) := f.spine [a]
    .reduce head :: args.map .reduce ++ [.apply args.length]
  | var .. | lit .. => []

def size : Term → Nat
  | var .. | lit .. => 1
  | lam _ b => b.size + 1
  | app f a => f.size + a.size + 1
  | recur _ _ b => b.size + 1

def sizes : List Term → Nat
  | [] => 0
  | a :: args => a.size + 1 + sizes args

theorem size_spine (e : Term) (args : List Term) :
    (e.spine args).1.size + sizes (e.spine args).2 = e.size + sizes args := by
  induction e generalizing args with
  | app f a ihf _ =>
    rw [spine, ihf]
    simp only [sizes, size]
    omega
  | _ => rfl

theorem length_le_length_spine (e : Term) (args : List Term) : args.length ≤ (e.spine args).2.length := by
  induction e generalizing args with
  | app f a ihf _ => exact Nat.le_trans (Nat.le_succ _) (ihf (a :: args))
  | _ => exact Nat.le_refl _

end Term

namespace Task

def weight : Task → Nat
  | reduce e => 2 * e.size
  | close _ | apply _ => 1

def total : List Task → Nat
  | [] => 0
  | t :: work => t.weight + total work

@[simp] theorem total_append (work rest : List Task) : total (work ++ rest) = total work + total rest := by
  induction work with
  | nil => exact (Nat.zero_add _).symm
  | cons t work ih => rw [List.cons_append, total, total, ih, Nat.add_assoc]

theorem total_map_reduce (args : List Term) :
    total (args.map reduce) + 2 * args.length = 2 * Term.sizes args := by
  induction args with
  | nil => rfl
  | cons a args ih =>
    simp only [List.map_cons, total, List.length_cons, Term.sizes, weight]
    omega

theorem total_tasks_lt (e : Term) : total e.tasks < (reduce e).weight := by
  cases e with
  | var x l => exact Nat.zero_lt_two
  | lit v => exact Nat.zero_lt_two
  | lam x b =>
    simp only [Term.tasks, total, weight, Term.size]
    omega
  | recur f x b =>
    simp only [Term.tasks, total, weight, Term.size]
    omega
  | app f a =>
    have hsize := Term.size_spine f [a]
    have hargs := total_map_reduce (f.spine [a]).2
    have hlen := Term.length_le_length_spine f [a]
    simp only [Term.sizes, List.length_cons, List.length_nil] at hsize hlen
    simp only [Term.tasks, List.cons_append, total, total_append, weight, Term.size]
    omega

/-- Whether `k` results suffice for every task that takes some, and leave one at the end. -/
def Supplied : List Task → Nat → Prop
  | [], k => 0 < k
  | reduce _ :: work, k => Supplied work (k + 1)
  | close _ :: work, k => 0 < k ∧ Supplied work k
  | apply n :: work, k => n < k ∧ Supplied work (k - n)

theorem supplied_map_reduce {args : List Term} {work : List Task} {k : Nat} :
    Supplied (args.map reduce ++ work) k ↔ Supplied work (k + args.length) := by
  induction args generalizing k with
  | nil => rfl
  | cons a args ih =>
    simp only [List.map_cons, List.cons_append, Supplied, ih, List.length_cons]
    rw [Nat.add_right_comm, Nat.add_assoc]

theorem supplied_tasks {e : Term} {work : List Task} {k : Nat} (h : Supplied work (k + 1)) :
    e.tasks = [] ∨ Supplied (e.tasks ++ work) k := by
  cases e with
  | var x l => exact .inl rfl
  | lit v => exact .inl rfl
  | lam x b => exact .inr ⟨Nat.succ_pos k, h⟩
  | recur f x b => exact .inr ⟨Nat.succ_pos k, h⟩
  | app f a =>
    right
    simp only [Term.tasks, List.cons_append, List.append_assoc, List.nil_append, Supplied, supplied_map_reduce]
    exact ⟨by omega, by rwa [Nat.add_sub_cancel]⟩

end Task

namespace Term

theorem left_or_total_lt (e : Term) (n : Nat) (work : List Task) :
    (e.whnf n).left < n ∨
      (e.whnf n).left = n ∧ Task.total ((e.whnf n).term.tasks ++ work) < Task.total (.reduce e :: work) := by
  rcases Nat.lt_or_eq_of_le (left_whnf_le n e) with h | h
  · exact .inl h
  · refine .inr ⟨h, ?_⟩
    rw [term_whnf_of_left_eq h, Task.total_append, Task.total]
    exact Nat.add_lt_add_right (Task.total_tasks_lt e) _

def run : List Task → List Term → Nat → Option Reduct
  | [], results, n => results.head?.map (⟨·, n⟩)
  | .reduce e :: work, results, n =>
    match _h : (e.whnf n).term.tasks with
    | [] => run work ((e.whnf n).term :: results) (e.whnf n).left
    | t :: ts => run (t :: ts ++ work) results (e.whnf n).left
  | .close b :: work, results, n =>
    match results with
    | [] => none
    | e :: results => run work (b.close e :: results) n
  | .apply k :: work, results, n =>
    match results.drop k with
    | [] => none
    | head :: rest => run work (head.applyAll (results.take k).reverse :: rest) n
termination_by work _ n => (n, Task.total work)
decreasing_by
  · have := _h ▸ left_or_total_lt e n work
    simpa [Prod.lex_def] using this
  · have := _h ▸ left_or_total_lt e n work
    simpa [Prod.lex_def] using this
  · exact Prod.Lex.right _ (by simp [Task.total, Task.weight])
  · exact Prod.Lex.right _ (by simp [Task.total, Task.weight])

theorem isSome_run {work : List Task} {results : List Term} {n : Nat}
    (h : Task.Supplied work results.length) : (run work results n).isSome := by
  fun_induction run work results n with
  | case1 results n =>
    cases results with
    | nil => simp [Task.Supplied] at h
    | cons e results => rfl
  | case2 e work results n ht ih => exact ih h
  | case3 e work results n t ts ht ih =>
    apply ih
    rcases Task.supplied_tasks h with h' | h'
    · cases ht.symm.trans h'
    · rwa [ht] at h'
  | case4 b work n => simp [Task.Supplied] at h
  | case5 b work n e results ih => exact ih h.2
  | case6 k work results n hd =>
    have := List.drop_eq_nil_iff.mp hd
    exact absurd h.1 (by omega)
  | case7 k work results n head rest hd ih =>
    apply ih
    have := congrArg List.length hd
    simp only [List.length_drop, List.length_cons] at this ⊢
    rw [← this]
    exact h.2

def normalize (budget : Nat) (e : Term) : Reduct :=
  (run [.reduce e] [] budget).get (isSome_run Nat.one_pos)

end Term

end IndexedTyping
