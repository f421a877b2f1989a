import IndexedTyping.Term.Basic

namespace IndexedTyping

inductive Ref
  | bound (i : Nat)
  | free (x : String)
  deriving DecidableEq, Repr

namespace Ref

variable {α β : Type}

def under : Ref → Ref
  | bound i => bound (i + 1)
  | free x => free x

def push (a : α) (f : Ref → α) : Ref → α
  | bound 0 => a
  | bound (i + 1) => f (bound i)
  | free x => f (free x)

@[simp] theorem push_zero (a : α) (f : Ref → α) : push a f (bound 0) = a := rfl

@[simp] theorem push_under (a : α) (f : Ref → α) (v : Ref) : push a f v.under = f v := by
  cases v <;> rfl

theorem eq_zero_or_under (v : Ref) : v = bound 0 ∨ ∃ w : Ref, v = w.under := by
  cases v with
  | bound i =>
    cases i with
    | zero => exact .inl rfl
    | succ i => exact .inr ⟨bound i, rfl⟩
  | free x => exact .inr ⟨free x, rfl⟩

theorem push_unique {g : Ref → α} {a : α} {f : Ref → α} (h0 : g (bound 0) = a) (h : ∀ v : Ref, g v.under = f v) :
    g = push a f := by
  funext v
  rcases eq_zero_or_under v with rfl | ⟨w, rfl⟩
  · exact h0
  · rw [h, push_under]

theorem comp_push (h : α → β) (a : α) (f : Ref → α) : h ∘ push a f = push (h a) (h ∘ f) :=
  push_unique rfl fun v => by simp

@[simp] theorem under_inj {v w : Ref} : v.under = w.under ↔ v = w := by
  cases v <;> cases w <;> simp [under]

@[simp] theorem under_ne_zero (v : Ref) : v.under ≠ bound 0 := by
  cases v <;> simp [under]

def up (ρ : Ref → Ref) : Ref → Ref := push (bound 0) (under ∘ ρ)

theorem up_comp (ρ τ : Ref → Ref) : up τ ∘ up ρ = up (τ ∘ ρ) := push_unique rfl fun v => by simp [up]

end Ref

/-- Under a recursive abstraction `bound 0` is its argument and `bound 1` the abstraction itself. -/
inductive Nameless
  | var (v : Ref)
  | lit (v : Literal)
  | lam (body : Nameless)
  | app (fn arg : Nameless)
  | recur (body : Nameless)
  deriving DecidableEq, Repr

namespace Nameless

open Ref (under push up)

def rename (ρ : Ref → Ref) : Nameless → Nameless
  | var v => var (ρ v)
  | lit v => lit v
  | lam b => lam (b.rename (up ρ))
  | app f a => app (f.rename ρ) (a.rename ρ)
  | recur b => recur (b.rename (up (up ρ)))

def lift (e : Nameless) : Nameless := e.rename under

def upSub (σ : Ref → Nameless) : Ref → Nameless := push (var (.bound 0)) (lift ∘ σ)

def subst (σ : Ref → Nameless) : Nameless → Nameless
  | var v => σ v
  | lit v => lit v
  | lam b => lam (b.subst (upSub σ))
  | app f a => app (f.subst σ) (a.subst σ)
  | recur b => recur (b.subst (upSub (upSub σ)))

def instantiate (b a : Nameless) : Nameless := b.subst (push a var)

def unroll (b a : Nameless) : Nameless := b.subst (push a (push (recur b) var))

@[simp] theorem upSub_zero (σ : Ref → Nameless) : upSub σ (.bound 0) = var (.bound 0) := rfl

@[simp] theorem upSub_under (σ : Ref → Nameless) (v : Ref) : upSub σ v.under = (σ v).lift := by
  simp [upSub]

@[simp] theorem upSub_var : upSub var = var := (Ref.push_unique rfl fun _ => rfl).symm

theorem rename_rename (ρ τ : Ref → Ref) (e : Nameless) : (e.rename ρ).rename τ = e.rename (τ ∘ ρ) := by
  induction e generalizing ρ τ with
  | var v => rfl
  | lit v => rfl
  | lam b ih => simp [rename, ih, Ref.up_comp]
  | app f a ihf iha => simp [rename, ihf, iha]
  | recur b ih => simp [rename, ih, Ref.up_comp]

theorem rename_lift (ρ : Ref → Ref) (e : Nameless) : e.lift.rename (up ρ) = (e.rename ρ).lift := by
  simp only [lift, rename_rename]
  congr 1
  funext v
  simp [up]

theorem upSub_comp_up (σ : Ref → Nameless) (ρ : Ref → Ref) : upSub σ ∘ up ρ = upSub (σ ∘ ρ) :=
  Ref.push_unique rfl fun v => by simp [up]

theorem subst_rename (σ : Ref → Nameless) (ρ : Ref → Ref) (e : Nameless) :
    (e.rename ρ).subst σ = e.subst (σ ∘ ρ) := by
  induction e generalizing σ ρ with
  | var v => rfl
  | lit v => rfl
  | lam b ih => simp [rename, subst, ih, upSub_comp_up]
  | app f a ihf iha => simp [rename, subst, ihf, iha]
  | recur b ih => simp [rename, subst, ih, upSub_comp_up]

theorem rename_comp_upSub (ρ : Ref → Ref) (σ : Ref → Nameless) :
    rename (up ρ) ∘ upSub σ = upSub (rename ρ ∘ σ) :=
  Ref.push_unique rfl fun v => by simp [rename_lift]

theorem rename_subst (ρ : Ref → Ref) (σ : Ref → Nameless) (e : Nameless) :
    (e.subst σ).rename ρ = e.subst (rename ρ ∘ σ) := by
  induction e generalizing ρ σ with
  | var v => rfl
  | lit v => rfl
  | lam b ih => simp [rename, subst, ih, rename_comp_upSub]
  | app f a ihf iha => simp [rename, subst, ihf, iha]
  | recur b ih => simp [rename, subst, ih, rename_comp_upSub]

theorem subst_lift (σ : Ref → Nameless) (e : Nameless) : e.lift.subst (upSub σ) = (e.subst σ).lift := by
  rw [lift, subst_rename, lift, rename_subst]
  congr 1
  funext v
  simp [lift]

theorem subst_comp_upSub (σ τ : Ref → Nameless) : subst (upSub τ) ∘ upSub σ = upSub (subst τ ∘ σ) :=
  Ref.push_unique rfl fun v => by simp [subst_lift]

theorem subst_subst (σ τ : Ref → Nameless) (e : Nameless) : (e.subst σ).subst τ = e.subst (subst τ ∘ σ) := by
  induction e generalizing σ τ with
  | var v => rfl
  | lit v => rfl
  | lam b ih => simp [subst, ih, subst_comp_upSub]
  | app f a ihf iha => simp [subst, ihf, iha]
  | recur b ih => simp [subst, ih, subst_comp_upSub]

@[simp] theorem subst_var (e : Nameless) : e.subst var = e := by
  induction e with
  | var v => rfl
  | lit v => rfl
  | lam b ih => simp [subst, ih]
  | app f a ihf iha => simp [subst, ihf, iha]
  | recur b ih => simp [subst, ih]

@[simp] theorem subst_push_lift (a : Nameless) (σ : Ref → Nameless) (e : Nameless) :
    e.lift.subst (push a σ) = e.subst σ := by
  rw [lift, subst_rename]
  congr 1
  funext v
  simp

end Nameless

end IndexedTyping
