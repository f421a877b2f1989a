import IndexedTyping.Proofs.Nameless.Substitution
import IndexedTyping.Proofs.Reduction.Machine

namespace IndexedTyping

namespace Term

variable {e f : Term} {ρ τ : Naming}

theorem exists_of_namelessIn_lam {m : Nameless} (h : .lam m = f.namelessIn τ) :
    ∃ y c, f = lam y c ∧ m = c.namelessIn (τ.enter y) := by
  cases f with
  | lam y c => cases h; exact ⟨y, c, rfl, rfl⟩
  | _ => cases h

theorem exists_of_namelessIn_recur {m : Nameless} (h : .recur m = f.namelessIn τ) :
    ∃ g y c, f = recur g y c ∧ m = c.namelessIn ((τ.enter g).enter y) := by
  cases f with
  | recur g y c => cases h; exact ⟨g, y, c, rfl, rfl⟩
  | _ => cases h

theorem exists_of_namelessIn_app {m n : Nameless} (h : .app m n = f.namelessIn τ) :
    ∃ g d, f = app g d ∧ m = g.namelessIn τ ∧ n = d.namelessIn τ := by
  cases f with
  | app g d => cases h; exact ⟨g, d, rfl, rfl, rfl⟩
  | _ => cases h

theorem isAbstraction_iff (h : e.namelessIn ρ = f.namelessIn τ) : e.IsAbstraction ↔ f.IsAbstraction := by
  cases e <;> cases f <;> simp_all [namelessIn, IsAbstraction]

theorem normal_iff (h : e.namelessIn ρ = f.namelessIn τ) : e.Normal ↔ f.Normal := by
  induction e generalizing f ρ τ with
  | var x l => cases f <;> simp_all [namelessIn, Normal]
  | lit v => cases f <;> simp_all [namelessIn, Normal]
  | lam x b ih =>
    obtain ⟨y, c, rfl, hb⟩ := exists_of_namelessIn_lam h
    exact (ih hb : b.Normal ↔ c.Normal)
  | recur g x b ih =>
    obtain ⟨g', y, c, rfl, hb⟩ := exists_of_namelessIn_recur h
    exact (ih hb : b.Normal ↔ c.Normal)
  | app g a ihg iha =>
    obtain ⟨g', d, rfl, hg, ha⟩ := exists_of_namelessIn_app h
    exact and_congr (not_congr (isAbstraction_iff hg)) (and_congr (ihg hg) (iha ha))

theorem headNormal_iff (h : e.namelessIn ρ = f.namelessIn τ) : e.HeadNormal ↔ f.HeadNormal := by
  induction e generalizing f with
  | app g a ihg _ =>
    obtain ⟨g', d, rfl, hg, -⟩ := exists_of_namelessIn_app h
    exact and_congr (not_congr (isAbstraction_iff hg)) (ihg hg)
  | _ => cases f <;> simp_all [namelessIn, HeadNormal]

end Term

open Term

section

variable {e e' f : Term} {ρ τ : Naming}

theorem Contracts.follow (h : Contracts e e') (hef : e.namelessIn ρ = f.namelessIn τ) :
    ∃ f', Contracts f f' ∧ e'.namelessIn ρ = f'.namelessIn τ := by
  cases h with
  | @beta x b a =>
    obtain ⟨g, d, rfl, hg, ha⟩ := exists_of_namelessIn_app hef
    obtain ⟨y, c, rfl, hb⟩ := exists_of_namelessIn_lam hg
    refine ⟨_, .beta, ?_⟩
    calc (b.subst (Subst.bind [] x a)).namelessIn ρ
        = (b.namelessIn (ρ.enter x)).instantiate (a.namelessIn ρ) := namelessIn_beta ρ x b a
      _ = (c.namelessIn (τ.enter y)).instantiate (d.namelessIn τ) := by rw [hb, ha]
      _ = (c.subst (Subst.bind [] y d)).namelessIn τ := (namelessIn_beta τ y c d).symm
  | @unroll s x b a =>
    obtain ⟨g, d, rfl, hg, ha⟩ := exists_of_namelessIn_app hef
    obtain ⟨r, y, c, rfl, hb⟩ := exists_of_namelessIn_recur hg
    refine ⟨_, .unroll, ?_⟩
    calc (b.subst (Subst.ofList [(s, .recur s x b), (x, a)])).namelessIn ρ
        = (b.namelessIn ((ρ.enter s).enter x)).unroll (a.namelessIn ρ) := namelessIn_unroll ρ s x b a
      _ = (c.namelessIn ((τ.enter r).enter y)).unroll (d.namelessIn τ) := by rw [hb, ha]
      _ = (c.subst (Subst.ofList [(r, .recur r y c), (y, d)])).namelessIn τ := (namelessIn_unroll τ r y c d).symm

theorem HeadStep.follow (h : HeadStep e e') (hef : e.namelessIn ρ = f.namelessIn τ) :
    ∃ f', HeadStep f f' ∧ e'.namelessIn ρ = f'.namelessIn τ := by
  induction h generalizing f with
  | contract h =>
    obtain ⟨f', hf, h'⟩ := h.follow hef
    exact ⟨f', .contract hf, h'⟩
  | app _ ih =>
    obtain ⟨g, d, rfl, hg, ha⟩ := exists_of_namelessIn_app hef
    obtain ⟨g', hstep, hg'⟩ := ih hg
    exact ⟨.app g' d, .app hstep, congrArg₂ Nameless.app hg' ha⟩

theorem Leftmost.follow (h : Leftmost e e') (hef : e.namelessIn ρ = f.namelessIn τ) :
    ∃ f', Leftmost f f' ∧ e'.namelessIn ρ = f'.namelessIn τ := by
  induction h generalizing f ρ τ with
  | contract h =>
    obtain ⟨f', hf, h'⟩ := h.follow hef
    exact ⟨f', .contract hf, h'⟩
  | fn hfn _ ih =>
    obtain ⟨g, d, rfl, hg, ha⟩ := exists_of_namelessIn_app hef
    obtain ⟨g', hstep, hg'⟩ := ih hg
    exact ⟨.app g' d, .fn (mt (isAbstraction_iff hg).mpr hfn) hstep, congrArg₂ Nameless.app hg' ha⟩
  | arg hfn hnormal _ ih =>
    obtain ⟨g, d, rfl, hg, ha⟩ := exists_of_namelessIn_app hef
    obtain ⟨d', hstep, ha'⟩ := ih ha
    exact ⟨.app g d', .arg (mt (isAbstraction_iff hg).mpr hfn) ((normal_iff hg).mp hnormal) hstep,
      congrArg₂ Nameless.app hg ha'⟩
  | lam _ ih =>
    obtain ⟨y, c, rfl, hb⟩ := exists_of_namelessIn_lam hef
    obtain ⟨c', hstep, hb'⟩ := ih hb
    exact ⟨.lam y c', .lam hstep, congrArg Nameless.lam hb'⟩
  | recur _ ih =>
    obtain ⟨g, y, c, rfl, hb⟩ := exists_of_namelessIn_recur hef
    obtain ⟨c', hstep, hb'⟩ := ih hb
    exact ⟨.recur g y c', .recur hstep, congrArg Nameless.recur hb'⟩

end

structure Blind (Step : Term → Term → Prop) (Done : Term → Prop) : Prop where
  step {e f e' : Term} : e.nameless = f.nameless → Step e e' → ∃ f', Step f f' ∧ e'.nameless = f'.nameless
  done {e f : Term} : e.nameless = f.nameless → Done e → Done f

theorem blind_headStep : Blind HeadStep HeadNormal := ⟨fun hef h => h.follow hef, fun hef => (headNormal_iff hef).mp⟩

theorem blind_leftmost : Blind Leftmost Normal := ⟨fun hef h => h.follow hef, fun hef => (normal_iff hef).mp⟩

namespace Blind

variable {Step : Term → Term → Prop} {Done : Term → Prop} {e e' f : Term} {n : Nat}

theorem steps (h : Blind Step Done) (hs : Steps Step n e e') (hef : e.nameless = f.nameless) :
    ∃ f', Steps Step n f f' ∧ e'.nameless = f'.nameless := by
  induction hs generalizing f with
  | zero => exact ⟨f, .zero, hef⟩
  | succ hstep _ ih =>
    obtain ⟨g, hg, heg⟩ := h.step hef hstep
    obtain ⟨f', hs, hf'⟩ := ih heg
    exact ⟨f', .succ hg hs, hf'⟩

theorem reducesWithin (h : Blind Step Done) (hS : ∀ {e f g}, Step e f → Step e g → f = g)
    (hD : ∀ {e f}, Step e f → ¬Done e) {r s : Reduct} (hr : ReducesWithin Step Done n e r)
    (hs : ReducesWithin Step Done n f s) (hef : e.nameless = f.nameless) :
    r.term.nameless = s.term.nameless ∧ r.left = s.left := by
  obtain ⟨g, hsteps, hg⟩ := h.steps hr.steps hef
  have hfollow : ReducesWithin Step Done n f ⟨g, r.left⟩ := ⟨hr.left_le, hsteps, fun hlt => h.done hg (hr.done hlt)⟩
  cases hfollow.unique @hS @hD hs
  exact ⟨hg, rfl⟩

end Blind

namespace Term

/-- Terms that differ in the names of binders take the same number of steps within any budget, enough or not, to terms
that differ in the names of binders; at the head as well as all over. -/
theorem normalize_alphaEq (fuel : Int) {e f : Term} (h : e.alphaEq f = true) :
    (e.normalize (budgetOf fuel)).term.alphaEq (f.normalize (budgetOf fuel)).term = true ∧
    (e.normalize (budgetOf fuel)).steps (budgetOf fuel) = (f.normalize (budgetOf fuel)).steps (budgetOf fuel) ∧
    (e.whnf (budgetOf fuel)).term.alphaEq (f.whnf (budgetOf fuel)).term = true ∧
    (e.whnf (budgetOf fuel)).steps (budgetOf fuel) = (f.whnf (budgetOf fuel)).steps (budgetOf fuel) := by
  have hef := alphaEq_iff.mp h
  obtain ⟨hn, hnleft⟩ := blind_leftmost.reducesWithin @Leftmost.unique @Leftmost.not_normal
    (reducesWithin_normalize (budgetOf fuel) e) (reducesWithin_normalize (budgetOf fuel) f) hef
  obtain ⟨hw, hwleft⟩ := blind_headStep.reducesWithin @HeadStep.unique @HeadStep.not_headNormal
    (reducesWithin_whnf (budgetOf fuel) e) (reducesWithin_whnf (budgetOf fuel) f) hef
  exact ⟨alphaEq_iff.mpr hn, congrArg (budgetOf fuel - ·) hnleft, alphaEq_iff.mpr hw,
    congrArg (budgetOf fuel - ·) hwleft⟩

theorem normalize_alphaEq_renamed :
    let e := app (app (lam "x" (lam "y" (var "x" none))) (var "y" none)) (var "z" none)
    let f := app (app (lam "x" (lam "u" (var "x" none))) (var "y" none)) (var "z" none)
    e.alphaEq f = true ∧ e.whnf 1 = ⟨app (lam "y'1" (var "y" none)) (var "z" none), 0⟩ ∧
      f.whnf 1 = ⟨app (lam "u" (var "y" none)) (var "z" none), 0⟩ ∧ (e.whnf 1).term.alphaEq (f.whnf 1).term = true ∧
      (e.normalize 1).term.alphaEq (f.normalize 1).term = true ∧
      (e.normalize 1).steps 1 = (f.normalize 1).steps 1 := by
  intro e f
  have h : e.alphaEq f = true := by decide +kernel
  obtain ⟨hterm, hsteps, hwhnf, -⟩ := normalize_alphaEq 1 h
  exact ⟨h, by decide, by decide, hwhnf, hterm, hsteps⟩

end Term

end IndexedTyping
