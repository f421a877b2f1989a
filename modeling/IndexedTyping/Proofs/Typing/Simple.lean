import IndexedTyping.Ty.Basic

/-!
Simple types for terms without recursion, and a looser discipline beside them.

In the looser one an abstraction is typed on its own: within it, the parameters of the abstractions around it may have
other types than outside of it. The two are the same for terms in which no abstraction mentions a parameter of
another one around it.
-/

namespace IndexedTyping

abbrev Env := String → Option Ty

def Env.assign (Γ : Env) (x : String) (t : Ty) : Env := fun y => if y = x then some t else Γ y

@[simp] theorem Env.assign_self (Γ : Env) (x : String) (t : Ty) : Γ.assign x t x = some t := if_pos rfl

theorem Env.assign_of_ne {Γ : Env} {x y : String} {t : Ty} (h : y ≠ x) : Γ.assign x t y = Γ y := if_neg h

inductive HasType : Env → Term → Ty → Prop
  | var : Γ x = some t → HasType Γ (.var x l) t
  | lit : HasType Γ (.lit v) (.prim v.prim)
  | lam : HasType (Γ.assign x t) e s → HasType Γ (.lam x e) (.fn t s)
  | app : HasType Γ f (.fn t s) → HasType Γ e t → HasType Γ (.app f e) s

/-- `ps` are the parameters of the abstractions around the term. -/
inductive LooselyTyped : List String → Env → Term → Ty → Prop
  | var : Γ x = some t → LooselyTyped ps Γ (.var x l) t
  | lit : LooselyTyped ps Γ (.lit v) (.prim v.prim)
  | lam {Γ Δ : Env} : (∀ y, y ∉ ps → Δ y = Γ y) → LooselyTyped (x :: ps) (Δ.assign x t) e s →
      LooselyTyped ps Γ (.lam x e) (.fn t s)
  | app : LooselyTyped ps Γ f (.fn t s) → LooselyTyped ps Γ e t → LooselyTyped ps Γ (.app f e) s

def Term.Simple : Term → Prop
  | var .. | lit _ => True
  | lam _ b => b.Simple
  | app f a => f.Simple ∧ a.Simple
  | recur .. => False

def Term.SelfContained (ps : List String) : Term → Prop
  | var .. | lit _ => True
  | lam x b => (∀ y ∈ ps, y ∉ (lam x b).freeVars) ∧ b.SelfContained (x :: ps)
  | app f a => f.SelfContained ps ∧ a.SelfContained ps
  | recur _ _ b => b.SelfContained ps

variable {ps qs : List String} {Γ Γ' Δ : Env} {e e' : Term} {t : Ty}

theorem HasType.congr (h : HasType Γ e t) (hΓ : ∀ x ∈ e.freeVars, Δ x = Γ x) : HasType Δ e t := by
  induction h generalizing Δ with
  | var hx => exact .var ((hΓ _ List.mem_cons_self).trans hx)
  | lit => exact .lit
  | @lam e s Γ x t _ ih =>
    refine .lam (ih fun y hy => ?_)
    by_cases hyx : y = x
    · rw [hyx, Env.assign_self, Env.assign_self]
    · rw [Env.assign_of_ne hyx, Env.assign_of_ne hyx]
      exact hΓ y (by simp [Term.freeVars, hy, hyx])
  | app _ _ ihf ihe =>
    simp only [Term.freeVars, List.mem_append] at hΓ
    exact .app (ihf fun x hx => hΓ x (.inl hx)) (ihe fun x hx => hΓ x (.inr hx))

namespace LooselyTyped

theorem hasType (h : LooselyTyped ps Γ e t) (he : e.SelfContained ps) : HasType Γ e t := by
  induction h with
  | var hx => exact .var hx
  | lit => exact .lit
  | @lam ps x t e s Γ Δ hΔ _ ih =>
    refine HasType.congr (.lam (ih he.2)) fun y hy => (hΔ y fun hps => ?_).symm
    exact he.1 y hps hy
  | app _ _ ihf iha => exact .app (ihf he.1) (iha he.2)

theorem mono (h : LooselyTyped ps Γ e t) (hps : ∀ x ∈ ps, x ∈ qs) : LooselyTyped qs Γ e t := by
  induction h generalizing qs with
  | var hx => exact .var hx
  | lit => exact .lit
  | @lam ps x t e s Γ Δ hΔ _ ih =>
    refine .lam (fun y hy => hΔ y fun hmem => hy (hps y hmem)) (ih fun y hy => ?_)
    rcases List.mem_cons.mp hy with rfl | hmem
    · exact List.mem_cons_self
    · exact List.mem_cons_of_mem x (hps y hmem)
  | app _ _ ihf iha => exact .app (ihf hps) (iha hps)

theorem weaken (h : LooselyTyped ps Γ e t) (hΓ : ∀ x s, Γ x = some s → Γ' x = some s) : LooselyTyped ps Γ' e t := by
  induction h generalizing Γ' with
  | var hx => exact .var (hΓ _ _ hx)
  | lit => exact .lit
  | @lam ps x t e s Γ Δ hΔ _ ih =>
    -- what the body knows of the parameters outside is its own, and stays
    refine @lam ps x t e s Γ' (fun y => if y ∈ ps then Δ y else Γ' y) (fun y hy => if_neg hy) (ih fun y s' hy => ?_)
    by_cases hyx : y = x
    · rwa [hyx, Env.assign_self] at hy ⊢
    · rw [Env.assign_of_ne hyx] at hy ⊢
      by_cases hps : y ∈ ps
      · exact (if_pos hps).trans hy
      · exact (if_neg hps).trans (hΓ y s' ((hΔ y hps).symm.trans hy))
  | app _ _ ihf iha => exact .app (ihf hΓ) (iha hΓ)

theorem of_same (h : LooselyTyped ps Γ e t) (he : e'.same e = true) : LooselyTyped ps Γ e' t := by
  induction h generalizing e' with
  | var hx =>
    cases e' <;> simp [Term.same] at he
    exact .var (he ▸ hx)
  | lit =>
    cases e' <;> simp [Term.same] at he
    exact he ▸ .lit
  | lam hΔ _ ih =>
    cases e' <;> simp [Term.same] at he
    exact he.1 ▸ .lam hΔ (ih he.2)
  | app _ _ ihf iha =>
    cases e' <;> simp [Term.same] at he
    exact .app (ihf he.1) (iha he.2)

end LooselyTyped

end IndexedTyping
