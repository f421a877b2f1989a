import IndexedTyping.Proofs.Nameless.Confluence
import IndexedTyping.Proofs.Nameless.Substitution
import IndexedTyping.Proofs.OpenTy.Agreement
import IndexedTyping.Proofs.Reduction.Machine
import Mathlib

namespace IndexedTyping

inductive Reduces : Term → Term → Prop
  | contract : Contracts e e' → Reduces e e'
  | fn : Reduces f f' → Reduces (.app f a) (.app f' a)
  | arg : Reduces a a' → Reduces (.app f a) (.app f a')
  | lam : Reduces b b' → Reduces (.lam x b) (.lam x b')
  | recur : Reduces b b' → Reduces (.recur f x b) (.recur f x b')

/-- The least equivalence that has renaming of binders and steps in it. -/
inductive Converts : Term → Term → Prop
  | alpha : e.alphaEq f = true → Converts e f
  | step : Reduces e f → Converts e f
  | refl : Converts e e
  | symm : Converts e f → Converts f e
  | trans : Converts e f → Converts f g → Converts e g

theorem Leftmost.reduces {e f : Term} (h : Leftmost e f) : Reduces e f := by
  induction h with
  | contract h => exact .contract h
  | fn _ _ ih => exact .fn ih
  | arg _ _ _ ih => exact .arg ih
  | lam _ ih => exact .lam ih
  | recur _ ih => exact .recur ih

namespace Converts

theorem of_steps {n : Nat} {e f : Term} (h : Steps Leftmost n e f) : Converts e f := by
  induction h with
  | zero => exact .refl
  | succ h _ ih => exact .trans (.step h.reduces) ih

theorem normalize (n : Nat) (e : Term) : Converts e (e.normalize n).term :=
  of_steps (Term.reducesWithin_normalize n e).steps

end Converts

theorem Contracts.namelessIn {e f : Term} (h : Contracts e f) (ρ : Naming) :
    Nameless.Par (e.namelessIn ρ) (f.namelessIn ρ) := by
  cases h with
  | @beta x b a => exact Term.namelessIn_beta ρ x b a ▸ .beta (.refl _) (.refl _)
  | @unroll f x b a => exact Term.namelessIn_unroll ρ f x b a ▸ .unroll (.refl _) (.refl _)

theorem Reduces.namelessIn {e f : Term} (h : Reduces e f) (ρ : Naming) :
    Nameless.Par (e.namelessIn ρ) (f.namelessIn ρ) := by
  induction h generalizing ρ with
  | contract h => exact h.namelessIn ρ
  | fn _ ih => exact .app (ih ρ) (.refl _)
  | arg _ ih => exact .app (.refl _) (ih ρ)
  | lam _ ih => exact .lam (ih _)
  | recur _ ih => exact .recur (ih _)

theorem Term.Normal.eq_of_par {e : Term} (h : e.Normal) {ρ : Naming} {n : Nameless}
    (hpar : Nameless.Par (e.namelessIn ρ) n) : n = e.namelessIn ρ := by
  induction e generalizing ρ n with
  | var x l => cases hpar; rfl
  | lit v => cases hpar; rfl
  | lam x b ih =>
    cases hpar with
    | lam hb => rw [ih h hb]; rfl
  | recur f x b ih =>
    cases hpar with
    | recur hb => rw [ih h hb]; rfl
  | app f a ihf iha =>
    obtain ⟨habs, hf, ha⟩ := h
    rw [namelessIn] at hpar
    generalize hf' : f.namelessIn ρ = f' at hpar
    cases hpar with
    | app hfn harg =>
      subst hf'
      rw [ihf hf hfn, iha ha harg]
      rfl
    | beta _ _ =>
      cases f with
      | lam x b => exact absurd trivial habs
      | _ => cases hf'
    | unroll _ _ =>
      cases f with
      | recur g x b => exact absurd trivial habs
      | _ => cases hf'

theorem Term.Normal.eq_of_pars {e : Term} (h : e.Normal) {n : Nameless}
    (hpars : Relation.ReflTransGen Nameless.Par e.nameless n) : n = e.nameless := by
  induction hpars with
  | refl => rfl
  | tail _ hpar ih =>
    subst ih
    exact h.eq_of_par hpar

theorem Converts.join {e f : Term} (h : Converts e f) :
    Relation.Join (Relation.ReflTransGen Nameless.Par) e.nameless f.nameless := by
  have heqv := Nameless.equivalence_join_par
  induction h with
  | alpha h =>
    rw [Term.alphaEq_iff.mp h]
    exact heqv.refl _
  | step h => exact ⟨_, .single (h.namelessIn _), .refl⟩
  | refl => exact heqv.refl _
  | symm _ ih => exact heqv.symm ih
  | trans _ _ ihe ihf => exact heqv.trans ihe ihf

theorem Converts.alphaEq_of_normal {e f : Term} (h : Converts e f) (he : e.Normal) (hf : f.Normal) :
    e.alphaEq f = true := by
  obtain ⟨n, hen, hfn⟩ := h.join
  rw [Term.alphaEq_iff, ← he.eq_of_pars hen, ← hf.eq_of_pars hfn]

namespace Term

theorem namelessIn_unplaced (e : Term) (ρ : Naming) : e.unplaced.namelessIn ρ = e.namelessIn ρ := by
  induction e generalizing ρ with
  | var x l => rfl
  | lit v => rfl
  | lam x b ih => simp [unplaced, namelessIn, ih]
  | app f a ihf iha => simp [unplaced, namelessIn, ihf, iha]
  | recur f x b ih => simp [unplaced, namelessIn, ih]

theorem alphaEq_of_same {e f : Term} (h : e.same f = true) : e.alphaEq f = true := by
  rw [alphaEq_iff, nameless, ← namelessIn_unplaced, same_iff.mp h, namelessIn_unplaced, nameless]

theorem converts_of_convertible {n : Nat} {e f : Term} (h : e.convertible n f = true) : Converts e f := by
  rcases Bool.or_eq_true_iff.mp h with h | h
  · exact .alpha h
  · exact .trans (.normalize n e) (.trans (.alpha h) (.symm (.normalize n f)))

/-- Terms that are equal up to reduction are convertible, whether or not the budget was enough; and if it was enough for
both, all convertible terms are found equal. Equality of indices is the same relation. -/
theorem convertible_iff_converts (fuel : Int) (e f : Term) :
    (e.convertible (budgetOf fuel) f = true → Converts e f) ∧
    ((e.normalize (budgetOf fuel)).steps (budgetOf fuel) < fuel →
      (f.normalize (budgetOf fuel)).steps (budgetOf fuel) < fuel →
      (e.convertible (budgetOf fuel) f = true ↔ Converts e f)) ∧
    e.sameIndex (budgetOf fuel) f = e.convertible (budgetOf fuel) f := by
  refine ⟨converts_of_convertible, fun he hf => ⟨converts_of_convertible, fun h => ?_⟩, ?_⟩
  · have hnormal : ∀ g : Term, (g.normalize (budgetOf fuel)).steps (budgetOf fuel) < fuel →
        (g.normalize (budgetOf fuel)).term.Normal :=
      fun g hg => (reducesWithin_normalize _ g).done (Int.lt_toNat.mpr hg)
    refine Bool.or_eq_true_iff.mpr (.inr (Converts.alphaEq_of_normal ?_ (hnormal e he) (hnormal f hf)))
    exact .trans (.symm (.normalize _ e)) (.trans h (.normalize _ f))
  · rw [sameIndex, Bool.or_eq_right_iff_imp]
    exact fun h => Bool.or_eq_true_iff.mpr (.inl (alphaEq_of_same h))

theorem convertible_iff_converts_unroll :
    let e := fun n => app (recur "f" "n" (lam "x" (var "n" none))) (lit (.nat n))
    let g := fun n => app (lam "y" (lam "z" (var "y" none))) (lit (.nat n))
    Converts (e 3) (g 3) ∧ ¬Converts (e 3) (g 4) := by
  intro e g
  have he : ((e 3).normalize (budgetOf 5)).steps (budgetOf 5) = 1 := by cbv
  have hg : ((g 4).normalize (budgetOf 5)).steps (budgetOf 5) = 1 := by cbv
  have hsame : (e 3).convertible (budgetOf 5) (g 3) = true := by cbv
  have hdiffer : (e 3).convertible (budgetOf 5) (g 4) = false := by cbv
  refine ⟨(convertible_iff_converts 5 _ _).1 hsame, fun h => ?_⟩
  have hiff := (convertible_iff_converts 5 (e 3) (g 4)).2.1 (by rw [he]; decide) (by rw [hg]; decide)
  rw [hiff.mpr h] at hdiffer
  cases hdiffer

end Term

end IndexedTyping
