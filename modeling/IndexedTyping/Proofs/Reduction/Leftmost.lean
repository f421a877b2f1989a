import IndexedTyping.Term.Normalize

namespace IndexedTyping

namespace Term

def IsAbstraction : Term → Prop
  | lam .. | recur .. => True
  | var .. | lit .. | app .. => False

def Normal : Term → Prop
  | var .. | lit .. => True
  | lam _ b => b.Normal
  | recur _ _ b => b.Normal
  | app f a => ¬f.IsAbstraction ∧ f.Normal ∧ a.Normal

def HeadNormal : Term → Prop
  | var .. | lit .. | lam .. | recur .. => True
  | app f _ => ¬f.IsAbstraction ∧ f.HeadNormal

end Term

/-- What a redex becomes. Of the two names of a recursive abstraction the one of its argument is the inner. -/
inductive Contracts : Term → Term → Prop
  | beta : Contracts (.app (.lam x b) a) (b.subst [(x, a)])
  | unroll : Contracts (.app (.recur f x b) a) (b.subst (Subst.ofList [(f, .recur f x b), (x, a)]))

inductive HeadStep : Term → Term → Prop
  | contract : Contracts e e' → HeadStep e e'
  | app : HeadStep f f' → HeadStep (.app f a) (.app f' a)

inductive Leftmost : Term → Term → Prop
  | contract : Contracts e e' → Leftmost e e'
  | fn : ¬f.IsAbstraction → Leftmost f f' → Leftmost (.app f a) (.app f' a)
  | arg : ¬f.IsAbstraction → f.Normal → Leftmost a a' → Leftmost (.app f a) (.app f a')
  | lam : Leftmost b b' → Leftmost (.lam x b) (.lam x b')
  | recur : Leftmost b b' → Leftmost (.recur f x b) (.recur f x b')

inductive Steps (R : Term → Term → Prop) : Nat → Term → Term → Prop
  | zero : Steps R 0 e e
  | succ : R e f → Steps R n f g → Steps R (n + 1) e g

theorem Redex.contracts (r : Redex) : Contracts r.toTerm r.contract := by
  cases r with
  | beta x b a => exact .beta
  | unroll f x b a => exact .unroll

theorem Contracts.unique {e f g : Term} (h : Contracts e f) (k : Contracts e g) : f = g := by
  cases h <;> cases k <;> rfl

theorem Contracts.not_normal {e f : Term} (h : Contracts e f) : ¬e.Normal := by
  cases h with
  | beta => exact fun hn => hn.1 trivial
  | unroll => exact fun hn => hn.1 trivial

theorem Contracts.not_headNormal {e f : Term} (h : Contracts e f) : ¬e.HeadNormal := by
  cases h with
  | beta => exact fun hn => hn.1 trivial
  | unroll => exact fun hn => hn.1 trivial

theorem HeadStep.not_abstraction {e f : Term} (h : HeadStep e f) : ¬e.IsAbstraction := by
  cases h with
  | contract h => cases h <;> exact id
  | app h => exact id

theorem HeadStep.not_headNormal {e f : Term} (h : HeadStep e f) : ¬e.HeadNormal := by
  induction h with
  | contract h => exact h.not_headNormal
  | app _ ih => exact fun hn => ih hn.2

theorem HeadStep.unique {e f g : Term} (h : HeadStep e f) (k : HeadStep e g) : f = g := by
  induction h generalizing g with
  | contract h =>
    cases k with
    | contract k => exact h.unique k
    | app k => cases h <;> exact absurd trivial k.not_abstraction
  | app h ih =>
    cases k with
    | contract k => cases k <;> exact absurd trivial h.not_abstraction
    | app k => rw [ih k]

theorem Leftmost.not_normal {e f : Term} (h : Leftmost e f) : ¬e.Normal := by
  induction h with
  | contract h => exact h.not_normal
  | fn _ _ ih => exact fun hn => ih hn.2.1
  | arg _ _ _ ih => exact fun hn => ih hn.2.2
  | lam _ ih => exact ih
  | recur _ ih => exact ih

theorem Leftmost.unique {e f g : Term} (h : Leftmost e f) (k : Leftmost e g) : f = g := by
  induction h generalizing g with
  | contract h =>
    cases k with
    | contract k => exact h.unique k
    | fn hf _ => cases h <;> exact absurd trivial hf
    | arg hf _ _ => cases h <;> exact absurd trivial hf
    | lam _ => cases h
    | recur _ => cases h
  | fn hf h ih =>
    cases k with
    | contract k => cases k <;> exact absurd trivial hf
    | fn _ k => rw [ih k]
    | arg _ hn _ => exact absurd hn h.not_normal
  | arg hf hn _ ih =>
    cases k with
    | contract k => cases k <;> exact absurd trivial hf
    | fn _ k => exact absurd hn k.not_normal
    | arg _ _ k => rw [ih k]
  | lam _ ih =>
    cases k with
    | contract k => cases k
    | lam k => rw [ih k]
  | recur _ ih =>
    cases k with
    | contract k => cases k
    | recur k => rw [ih k]

theorem HeadStep.leftmost {e f : Term} (h : HeadStep e f) : Leftmost e f := by
  induction h with
  | contract h => exact .contract h
  | app h ih => exact .fn h.not_abstraction ih

namespace Steps

variable {R S : Term → Term → Prop}

theorem mono (hR : ∀ {e f}, R e f → S e f) {n : Nat} {e f : Term} (h : Steps R n e f) : Steps S n e f := by
  induction h with
  | zero => exact .zero
  | succ h _ ih => exact .succ (hR h) ih

theorem trans {n m : Nat} {e f g : Term} (h : Steps R n e f) (k : Steps R m f g) : Steps R (n + m) e g := by
  induction h with
  | zero => rwa [Nat.zero_add]
  | succ h _ ih =>
    rw [Nat.succ_add]
    exact .succ h (ih k)

theorem congr {c : Term → Term} (hc : ∀ {e f}, R e f → R (c e) (c f)) {n : Nat} {e f : Term}
    (h : Steps R n e f) : Steps R n (c e) (c f) := by
  induction h with
  | zero => exact .zero
  | succ h _ ih => exact .succ (hc h) ih

theorem unique (hR : ∀ {e f g}, R e f → R e g → f = g) {n : Nat} {e f g : Term} (h : Steps R n e f)
    (k : Steps R n e g) : f = g := by
  induction h with
  | zero => cases k; rfl
  | succ h _ ih =>
    cases k with
    | succ k ks => exact ih (hR h k ▸ ks)

theorem continues (hR : ∀ {e f g}, R e f → R e g → f = g) {n m : Nat} {e f g : Term} (h : Steps R n e f)
    (k : Steps R m e g) (hlt : n < m) : ∃ f', R f f' := by
  induction h generalizing m with
  | zero =>
    cases k with
    | zero => cases hlt
    | succ k _ => exact ⟨_, k⟩
  | succ h _ ih =>
    cases k with
    | zero => cases hlt
    | succ k ks => exact ih (hR h k ▸ ks) (Nat.lt_of_succ_lt_succ hlt)

end Steps

/-- What a strategy makes of `e` within a budget: it stops where it is done, or when nothing is left. -/
structure ReducesWithin (Step : Term → Term → Prop) (Done : Term → Prop) (budget : Nat) (e : Term) (r : Reduct) :
    Prop where
  left_le : r.left ≤ budget
  steps : Steps Step (r.steps budget) e r.term
  done : r.steps budget < budget → Done r.term

namespace ReducesWithin

variable {Step : Term → Term → Prop} {Done : Term → Prop}

theorem done_of_left {n : Nat} {e : Term} {r : Reduct} (h : ReducesWithin Step Done n e r) (hl : r.left ≠ 0) :
    Done r.term := by
  have hle := h.left_le
  apply h.done
  rw [Reduct.steps]
  omega

theorem refl {n : Nat} {e : Term} (h : n ≠ 0 → Done e) : ReducesWithin Step Done n e ⟨e, n⟩ where
  left_le := Nat.le_refl n
  steps := by rw [Reduct.steps, Nat.sub_self]; exact .zero
  done hlt := h (Nat.ne_zero_of_lt hlt)

theorem trans {n m : Nat} {e f : Term} {r : Reduct} (hle : m ≤ n) (hs : Steps Step (n - m) e f)
    (h : ReducesWithin Step Done m f r) : ReducesWithin Step Done n e r where
  left_le := Nat.le_trans h.left_le hle
  steps := by
    have hl := h.left_le
    have hn : r.steps n = (n - m) + r.steps m := by
      simp only [Reduct.steps]
      omega
    exact hn ▸ hs.trans h.steps
  done hlt := by
    apply h.done_of_left
    rw [Reduct.steps] at hlt
    omega

theorem step {n : Nat} {e f : Term} {r : Reduct} (hs : Step e f) (h : ReducesWithin Step Done n f r) :
    ReducesWithin Step Done (n + 1) e r := by
  refine trans (Nat.le_succ n) ?_ h
  rw [Nat.add_sub_cancel_left]
  exact .succ hs .zero

theorem mono {Step' : Term → Term → Prop} (hR : ∀ {e f}, Step e f → Step' e f) {n : Nat} {e : Term} {r : Reduct}
    (h : ReducesWithin Step Done n e r) : ReducesWithin Step' Done n e r :=
  ⟨h.left_le, h.steps.mono hR, h.done⟩

theorem unique (hS : ∀ {e f g}, Step e f → Step e g → f = g) (hD : ∀ {e f}, Step e f → ¬Done e) {n : Nat}
    {e : Term} {r s : Reduct} (h : ReducesWithin Step Done n e r) (k : ReducesWithin Step Done n e s) : r = s := by
  -- the shorter of two runs could go on, so it was not done, but it had budget left
  have stops : ∀ {r s : Reduct}, ReducesWithin Step Done n e r → ReducesWithin Step Done n e s →
      ¬r.steps n < s.steps n := by
    intro r s h k hlt
    obtain ⟨f, hf⟩ := h.steps.continues @hS k.steps hlt
    refine hD hf (h.done (Nat.lt_of_lt_of_le hlt ?_))
    exact Nat.sub_le n s.left
  have hsteps : r.steps n = s.steps n := Nat.le_antisymm (Nat.not_lt.mp (stops k h)) (Nat.not_lt.mp (stops h k))
  have hterm : r.term = s.term := h.steps.unique @hS (hsteps ▸ k.steps)
  have hleft : r.left = s.left := by
    have := h.left_le
    have := k.left_le
    simp only [Reduct.steps] at hsteps
    omega
  cases r
  cases s
  cases hterm
  cases hleft
  rfl

end ReducesWithin

end IndexedTyping
