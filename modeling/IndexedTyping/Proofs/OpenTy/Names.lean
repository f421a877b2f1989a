import IndexedTyping.Proofs.Store.Resolution
import IndexedTyping.Proofs.Unify.Plan

namespace IndexedTyping

namespace Ty

def names : Ty → List String
  | name x => [x]
  | prim _ => []
  | fn t s | app t s => t.names ++ s.names
  | all _ _ t | indexed t _ => t.names

def rename (ρ : String → String) : Ty → Ty
  | name x => name (ρ x)
  | prim p => prim p
  | fn t s => fn (t.rename ρ) (s.rename ρ)
  | app t s => app (t.rename ρ) (s.rename ρ)
  | all x l t => all x l (t.rename ρ)
  | indexed t e => indexed (t.rename ρ) e

theorem rename_congr {ρ σ : String → String} {t : Ty} (h : ∀ x ∈ t.names, ρ x = σ x) : t.rename ρ = t.rename σ := by
  induction t with
  | name x => simpa [rename, names] using h
  | prim p => rfl
  | fn t s iht ihs | app t s iht ihs =>
    simp only [names, List.mem_append] at h
    simp [rename, iht fun x hx => h x (.inl hx), ihs fun x hx => h x (.inr hx)]
  | all x l t ih => simp [rename, ih h]
  | indexed t e ih => simp [rename, ih h]

theorem same_rename {ρ : String → String} (hρ : Function.Injective ρ) (budget : Nat) (t s : Ty) :
    (t.rename ρ).same budget (s.rename ρ) = t.same budget s := by
  induction t generalizing s <;> cases s <;> simp [rename, same, hρ.beq_eq, *]

end Ty

namespace OpenTy

def rename (ρ : String → String) : OpenTy → OpenTy
  | ground t => ground (t.rename ρ)
  | unknown x => unknown (ρ x)
  | fn a b => fn (a.rename ρ) (b.rename ρ)
  | app a b => app (a.rename ρ) (b.rename ρ)
  | all x l a => all x l (a.rename ρ)
  | indexed a e => indexed (a.rename ρ) e

variable {ρ : String → String}

@[simp] theorem unknowns_embed (t : Ty) : t.embed.unknowns = t.names := by
  induction t <;> simp [Ty.embed, Ty.names, unknowns, *]

theorem embed_rename (t : Ty) : (t.rename ρ).embed = t.embed.rename ρ := by
  induction t <;> simp [Ty.rename, Ty.embed, rename, *]

theorem unknowns_rename (a : OpenTy) : (a.rename ρ).unknowns = a.unknowns.map ρ := by
  induction a <;> simp [rename, unknowns, *]

theorem same_rename (hρ : Function.Injective ρ) (budget : Nat) (a b : OpenTy) :
    (a.rename ρ).same budget (b.rename ρ) = a.same budget b := by
  induction a generalizing b <;> cases b <;> simp [rename, same, Ty.same_rename hρ, hρ.beq_eq, *]

end OpenTy

def Plan.rename (ρ : String → String) : Plan → Plan
  | bind x t => bind (ρ x) (t.rename ρ)
  | parts p q p' q' => parts (p.rename ρ) (q.rename ρ) (p'.rename ρ) (q'.rename ρ)
  | quantified e f p q => quantified e f (p.rename ρ) (q.rename ρ)
  | indexed p q e f => indexed (p.rename ρ) (q.rename ρ) e f
  | swap => swap
  | clash => clash

theorem OpenTy.plan_rename (ρ : String → String) (a b : OpenTy) :
    (a.rename ρ).plan (b.rename ρ) = (a.plan b).rename ρ := by
  cases a with
  | ground t => cases t <;> cases b <;> rfl
  | _ => cases b <;> rfl

inductive Renamed (ρ : String → String) : Except CheckError OpenTy → Except CheckError OpenTy → Prop
  | ok (a : OpenTy) : Renamed ρ (.ok a) (.ok (a.rename ρ))
  | error (e e' : CheckError) : Renamed ρ (.error e) (.error e')

namespace Renamed

variable {ρ : String → String}

theorem bind {r r' : Except CheckError OpenTy} {f g : OpenTy → Except CheckError OpenTy} (h : Renamed ρ r r')
    (hf : ∀ a, Renamed ρ (f a) (g (a.rename ρ))) : Renamed ρ (r >>= f) (r' >>= g) := by
  cases h with
  | ok a => exact hf a
  | error e e' => exact .error e e'

theorem bindM {f g : String → Except CheckError OpenTy} (h : ∀ x, Renamed ρ (f x) (g (ρ x))) (t : OpenTy) :
    Renamed ρ (t.bindM f) ((t.rename ρ).bindM g) := by
  induction t with
  | ground t => exact .ok _
  | unknown x => exact h x
  | fn a b iha ihb | app a b iha ihb => exact iha.bind fun v => ihb.bind fun w => .ok _
  | all x l a ih | indexed a e ih => exact ih.bind fun v => .ok _

end Renamed

def Binding.rename (ρ : String → String) (b : Binding) : Binding := ⟨ρ b.name, b.value.rename ρ⟩

namespace Store

def rename (ρ : String → String) (s : Store) : Store := s.map (·.rename ρ)

variable {ρ : String → String} (hρ : Function.Injective ρ)
include hρ

theorem bindingsOf_rename (s : Store) (x : String) :
    (s.rename ρ).bindingsOf (ρ x) = (s.bindingsOf x).map (·.rename ρ) := by
  rw [bindingsOf, rename, List.filter_map, bindingsOf]
  congr 1
  apply List.filter_congr
  simp [Binding.rename, hρ.beq_eq]

theorem resolveName_rename (s : Store) (n : Nat) (seen : List String) (x : String) :
    Renamed ρ (s.resolveName n seen x) ((s.rename ρ).resolveName n (seen.map ρ) (ρ x)) := by
  induction n generalizing seen x with
  | zero => exact .ok _
  | succ n ih =>
    rw [resolveName, resolveName, bindingsOf_rename hρ]
    rcases s.bindingsOf x with _ | ⟨b, _ | ⟨b', bs⟩⟩
    · exact .ok _
    · simp only [List.map_cons, List.map_nil, List.mem_map_of_injective hρ]
      split
      · exact .error _ _
      · exact .bindM (fun y => ih (x :: seen) y) b.value
    · exact .error _ _

theorem resolve_rename (s : Store) (t : OpenTy) : Renamed ρ (s.resolve t) ((s.rename ρ).resolve (t.rename ρ)) := by
  refine .bindM (fun x => ?_) t
  rw [resolveUnknown, resolveUnknown, rename, List.length_map]
  exact resolveName_rename hρ s _ [] x

theorem resolveTy_rename (s : Store) (t : Ty) : Renamed ρ (s.resolveTy t) ((s.rename ρ).resolveTy (t.rename ρ)) := by
  rw [resolveTy_eq_resolve, resolveTy_eq_resolve, OpenTy.embed_rename]
  exact resolve_rename hρ s t.embed

theorem binding_rename (s : Store) (x : String) (t : OpenTy) :
    (∃ b, s.binding x t = .ok b ∧ (s.rename ρ).binding (ρ x) (t.rename ρ) = .ok (b.rename ρ)) ∨
      ∃ e e', s.binding x t = .error e ∧ (s.rename ρ).binding (ρ x) (t.rename ρ) = .error e' := by
  have htarget := resolve_rename hρ s (.unknown x)
  have hvalue := resolve_rename hρ s t
  rw [OpenTy.rename] at htarget
  rw [binding, binding]
  generalize s.resolve (.unknown x) = r, (s.rename ρ).resolve (.unknown (ρ x)) = r' at htarget ⊢
  generalize s.resolve t = v, (s.rename ρ).resolve (t.rename ρ) = v' at hvalue ⊢
  cases htarget with
  | error e e' => exact .inr ⟨e, e', rfl, rfl⟩
  | ok a =>
    cases hvalue with
    | error e e' => exact .inr ⟨e, e', rfl, rfl⟩
    | ok b =>
      cases a with
      | unknown y => exact .inl ⟨⟨y, b⟩, rfl, rfl⟩
      | _ => exact .inr ⟨_, _, rfl, rfl⟩

theorem refuses_rename (strict : Bool) (b : Binding) : refuses strict (b.rename ρ) = refuses strict b := by
  simp [refuses, Binding.rename, OpenTy.unknowns_rename, hρ.eq_iff]

end Store

end IndexedTyping
