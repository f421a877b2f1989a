import IndexedTyping.Proofs.Nameless.Basic
import Mathlib.Logic.Relation

/-!
Reduction of nameless terms is confluent: beta steps and the unrolling of recursive abstractions never lead apart.

`Par` contracts any number of redexes at once. Whatever it leaves, it can still go on to `develop`, which contracts all
that there were.
-/

namespace IndexedTyping

namespace Nameless

open Ref (under push up)

theorem rename_eq_subst (ρ : Ref → Ref) (e : Nameless) : e.rename ρ = e.subst (var ∘ ρ) := by
  rw [← subst_rename, subst_var]

theorem upSub_var_comp (ρ : Ref → Ref) : upSub (var ∘ ρ) = var ∘ up ρ := by
  rw [up, Ref.comp_push]
  rfl

theorem subst_push_comp_upSub (a : Nameless) (σ τ : Ref → Nameless) :
    subst (push a τ) ∘ upSub σ = push a (subst τ ∘ σ) :=
  Ref.push_unique rfl fun v => by simp

theorem subst_comp_var (σ : Ref → Nameless) : subst σ ∘ var = σ := rfl

theorem subst_var_comp (σ : Ref → Nameless) : subst var ∘ σ = σ := by
  funext v
  simp

theorem subst_instantiate (σ : Ref → Nameless) (b a : Nameless) :
    (b.instantiate a).subst σ = (b.subst (upSub σ)).instantiate (a.subst σ) := by
  simp only [instantiate, subst_subst, subst_push_comp_upSub, Ref.comp_push, subst_comp_var, subst_var_comp]

theorem subst_unroll (σ : Ref → Nameless) (b a : Nameless) :
    (b.unroll a).subst σ = (b.subst (upSub (upSub σ))).unroll (a.subst σ) := by
  simp only [unroll, subst_subst, subst_push_comp_upSub, Ref.comp_push, subst_comp_var, subst_var_comp, subst]

inductive Par : Nameless → Nameless → Prop
  | var : Par (.var v) (.var v)
  | lit : Par (.lit v) (.lit v)
  | lam : Par b b' → Par (.lam b) (.lam b')
  | app : Par f f' → Par a a' → Par (.app f a) (.app f' a')
  | recur : Par b b' → Par (.recur b) (.recur b')
  | beta : Par b b' → Par a a' → Par (.app (.lam b) a) (b'.instantiate a')
  | unroll : Par b b' → Par a a' → Par (.app (.recur b) a) (b'.unroll a')

def develop : Nameless → Nameless
  | var v => var v
  | lit v => lit v
  | lam b => lam b.develop
  | app (lam b) a => b.develop.instantiate a.develop
  | app (recur b) a => b.develop.unroll a.develop
  | app f a => app f.develop a.develop
  | recur b => recur b.develop

namespace Par

theorem refl (e : Nameless) : Par e e := by
  induction e with
  | var v => exact .var
  | lit v => exact .lit
  | lam b ih => exact .lam ih
  | app f a ihf iha => exact .app ihf iha
  | recur b ih => exact .recur ih

theorem subst_renaming {e f : Nameless} (h : Par e f) (ρ : Ref → Ref) :
    Par (e.subst (Nameless.var ∘ ρ)) (f.subst (Nameless.var ∘ ρ)) := by
  induction h generalizing ρ with
  | var => exact .var
  | lit => exact .lit
  | lam _ ih =>
    simp only [Nameless.subst, upSub_var_comp]
    exact .lam (ih _)
  | app _ _ ihf iha => exact .app (ihf ρ) (iha ρ)
  | recur _ ih =>
    simp only [Nameless.subst, upSub_var_comp]
    exact .recur (ih _)
  | beta _ _ ihb iha =>
    simp only [subst_instantiate, Nameless.subst, upSub_var_comp]
    exact .beta (ihb _) (iha ρ)
  | unroll _ _ ihb iha =>
    simp only [subst_unroll, Nameless.subst, upSub_var_comp]
    exact .unroll (ihb _) (iha ρ)

theorem lift {e f : Nameless} (h : Par e f) : Par e.lift f.lift := by
  rw [Nameless.lift, Nameless.lift, rename_eq_subst, rename_eq_subst]
  exact h.subst_renaming under

theorem push {a a' : Nameless} {σ τ : Ref → Nameless} (ha : Par a a') (h : ∀ v, Par (σ v) (τ v)) (v : Ref) :
    Par (Ref.push a σ v) (Ref.push a' τ v) := by
  rcases Ref.eq_zero_or_under v with rfl | ⟨w, rfl⟩
  · exact ha
  · simpa using h w

theorem upSub {σ τ : Ref → Nameless} (h : ∀ v, Par (σ v) (τ v)) : ∀ v, Par (Nameless.upSub σ v) (Nameless.upSub τ v) :=
  push .var fun v => (h v).lift

theorem subst {e f : Nameless} (h : Par e f) {σ τ : Ref → Nameless} (hσ : ∀ v, Par (σ v) (τ v)) :
    Par (e.subst σ) (f.subst τ) := by
  induction h generalizing σ τ with
  | var => exact hσ _
  | lit => exact .lit
  | lam _ ih => exact .lam (ih (upSub hσ))
  | app _ _ ihf iha => exact .app (ihf hσ) (iha hσ)
  | recur _ ih => exact .recur (ih (upSub (upSub hσ)))
  | beta _ _ ihb iha =>
    rw [subst_instantiate]
    exact .beta (ihb (upSub hσ)) (iha hσ)
  | unroll _ _ ihb iha =>
    rw [subst_unroll]
    exact .unroll (ihb (upSub (upSub hσ))) (iha hσ)

theorem instantiate {b b' a a' : Nameless} (hb : Par b b') (ha : Par a a') :
    Par (b.instantiate a) (b'.instantiate a') :=
  hb.subst (push ha fun _ => .var)

theorem unrolled {b b' a a' : Nameless} (hb : Par b b') (ha : Par a a') : Par (b.unroll a) (b'.unroll a') :=
  hb.subst (push ha (push (.recur hb) fun _ => .var))

theorem develop {e f : Nameless} (h : Par e f) : Par f e.develop := by
  induction h with
  | var => exact .var
  | lit => exact .lit
  | lam _ ih => exact .lam ih
  | recur _ ih => exact .recur ih
  | beta _ _ ihb iha => exact ihb.instantiate iha
  | unroll _ _ ihb iha => exact ihb.unrolled iha
  | @app f f' a a' hf _ ihf iha =>
    -- a redex that was left alone can still be contracted
    cases f with
    | var v => exact .app ihf iha
    | lit v => exact .app ihf iha
    | app g c => exact .app ihf iha
    | lam b =>
      cases hf with
      | lam _ => cases ihf with
        | lam ihb => exact .beta ihb iha
    | recur b =>
      cases hf with
      | recur _ => cases ihf with
        | recur ihb => exact .unroll ihb iha

end Par

theorem equivalence_join_par : Equivalence (Relation.Join (Relation.ReflTransGen Par)) :=
  Relation.equivalence_join_reflTransGen fun a _ _ hb hc => ⟨a.develop, .single hb.develop, .single hc.develop⟩

end Nameless

end IndexedTyping
