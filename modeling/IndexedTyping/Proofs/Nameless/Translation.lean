import IndexedTyping.Proofs.Nameless.Basic

namespace IndexedTyping

abbrev Naming := String → Ref

namespace Naming

def enter (ρ : Naming) (x : String) : Naming := fun y => if y = x then .bound 0 else (ρ y).under

@[simp] theorem enter_self (ρ : Naming) (x : String) : ρ.enter x x = .bound 0 := if_pos rfl

@[simp] theorem enter_of_ne (ρ : Naming) {x y : String} (h : y ≠ x) : ρ.enter x y = (ρ y).under := if_neg h

theorem up_comp_enter (r : Ref → Ref) (ρ : Naming) (x : String) : Ref.up r ∘ ρ.enter x = Naming.enter (r ∘ ρ) x := by
  funext y
  by_cases h : y = x
  · simp [h, Ref.up]
  · simp [h, Ref.up]

end Naming

namespace Term

def namelessIn : Naming → Term → Nameless
  | ρ, var x _ => .var (ρ x)
  | _, lit v => .lit v
  | ρ, lam x b => .lam (b.namelessIn (ρ.enter x))
  | ρ, app f a => .app (f.namelessIn ρ) (a.namelessIn ρ)
  | ρ, recur f x b => .recur (b.namelessIn ((ρ.enter f).enter x))

def nameless (e : Term) : Nameless := e.namelessIn .free

theorem mem_freeVars_lam {x y : String} {b : Term} : y ∈ (lam x b).freeVars ↔ y ∈ b.freeVars ∧ y ≠ x := by
  simp [freeVars]

theorem mem_freeVars_recur {f x y : String} {b : Term} :
    y ∈ (recur f x b).freeVars ↔ y ∈ b.freeVars ∧ y ≠ f ∧ y ≠ x := by
  simp [freeVars]

theorem namelessIn_congr {e : Term} {ρ τ : Naming} (h : ∀ x ∈ e.freeVars, ρ x = τ x) :
    e.namelessIn ρ = e.namelessIn τ := by
  induction e generalizing ρ τ with
  | var x l => simp [namelessIn, h x (by simp [freeVars])]
  | lit v => rfl
  | lam x b ih =>
    simp only [namelessIn]
    congr 1
    apply ih
    intro y hy
    by_cases hyx : y = x
    · simp [hyx]
    · simp [hyx, h y (mem_freeVars_lam.mpr ⟨hy, hyx⟩)]
  | app f a ihf iha =>
    rw [namelessIn, namelessIn, ihf fun x hx => h x (by simp [freeVars, hx]),
      iha fun x hx => h x (by simp [freeVars, hx])]
  | recur f x b ih =>
    simp only [namelessIn]
    congr 1
    apply ih
    intro y hy
    by_cases hyx : y = x
    · simp [hyx]
    · by_cases hyf : y = f
      · subst hyf
        simp [hyx]
      · simp [hyx, hyf, h y (mem_freeVars_recur.mpr ⟨hy, hyf, hyx⟩)]

theorem rename_namelessIn (r : Ref → Ref) (ρ : Naming) (e : Term) :
    (e.namelessIn ρ).rename r = e.namelessIn (r ∘ ρ) := by
  induction e generalizing r ρ with
  | var x l => rfl
  | lit v => rfl
  | lam x b ih => simp [namelessIn, Nameless.rename, ih, Naming.up_comp_enter]
  | app f a ihf iha => simp [namelessIn, Nameless.rename, ihf, iha]
  | recur f x b ih => simp [namelessIn, Nameless.rename, ih, Naming.up_comp_enter]

theorem namelessIn_enter {e : Term} {x : String} (h : x ∉ e.freeVars) (ρ : Naming) :
    e.namelessIn (ρ.enter x) = (e.namelessIn ρ).lift := by
  rw [Nameless.lift, rename_namelessIn]
  apply namelessIn_congr
  intro y hy
  rw [Naming.enter_of_ne ρ (ne_of_mem_of_not_mem hy h)]
  rfl

end Term

end IndexedTyping
