import IndexedTyping.Proofs.Check.Flat
import IndexedTyping.Proofs.Check.Judgments
import IndexedTyping.Proofs.Check.Nesting

namespace IndexedTyping

open OpenTy CheckM

theorem CheckM.typeOf_of_checkTerm {e : Term} {a : OpenTy} {c d : Context} (h : checkTerm e c = .ok a d) :
    typeOf e d = .ok a d := by
  obtain ⟨m, hm⟩ : ∃ m, checkTerm e = judged e m := by
    cases e <;> exact ⟨_, rfl⟩
  rw [hm] at h
  obtain ⟨t, t', d', -, htype, rfl⟩ := judged_eq_ok h
  obtain ⟨-, j, hj, ha⟩ := typeOf_eq_ok htype
  have hj' : Context.judgment? { d' with trace := t' } e = some j := hj
  rw [typeOf_run, hj']
  simp only [ha]
  rfl

theorem OpenTy.eq_of_agree_prim {a : OpenTy} {p : Prim} (h : Agree a (.ground (.prim p))) : a = .ground (.prim p) := by
  cases a with
  | ground t => cases t <;> simp_all [Agree, spread, Ty.spread]
  | _ => simp [Agree, spread, Ty.spread] at h

def Term.Typed (c : Context) : Term → Prop
  | app f x => ∃ i j k, c.judgment? f = some i ∧ c.judgment? x = some j ∧ c.judgment? (app f x) = some k ∧
      Agree (c.store.apply i.type) (.fn (c.store.apply j.type) (c.store.apply k.type))
  | lit v => ∃ j, c.judgment? (lit v) = some j ∧ Agree (c.store.apply j.type) (.ground (.prim v.prim))
  | var .. | lam .. | recur .. => True

theorem Term.Typed.later {c d : Context} (h : c.Later d) {e : Term} (he : e.Typed c) : e.Typed d := by
  cases e with
  | app f x =>
    obtain ⟨i, j, k, hi, hj, hk, hagree⟩ := he
    refine ⟨i, j, k, h.judgments _ i hi, h.judgments _ j hj, h.judgments _ k hk, ?_⟩
    rw [← Store.apply_fn] at hagree ⊢
    exact Store.agree_of_prefix h.store hagree
  | lit v =>
    obtain ⟨j, hj, hagree⟩ := he
    rw [← c.store.apply_ground] at hagree
    rw [Typed, ← d.store.apply_ground]
    exact ⟨j, h.judgments _ j hj, Store.agree_of_prefix h.store hagree⟩
  | _ => trivial

namespace Context.Flat

variable {c d : Context} {a b : OpenTy} {e : Term}

theorem checkTerm_step (hc : c.Flat) (h : CheckM.checkTerm e c = .ok a d) : c.Later d ∧ d.Flat ∧ a.FirstOrder :=
  step (Later.law.obeys_checkTerm e) (Grown.law.obeys_checkTerm e) (FirstOrder.hereditary.keeps_checkTerm e) hc h

theorem gives (hd : d.Flat) (h : CheckM.checkTerm e c = .ok a d) :
    ∃ j, d.judgment? e = some j ∧ a = d.store.apply j.type :=
  (hd.typeOf_eq_ok (typeOf_of_checkTerm h)).2

theorem typed_lit (hc : c.Flat) {v : Literal} (h : CheckM.checkTerm (.lit v) c = .ok a d) : (Term.lit v).Typed d := by
  obtain ⟨t, t', d', hrun, -, rfl⟩ := judged_eq_ok h
  obtain ⟨-, -, j, hj, hagree⟩ := (hc.trace t).declare (a := .ground (.prim v.prim)) trivial hrun
  rw [Store.apply_ground] at hagree
  exact ⟨j, hj, hagree⟩

theorem typed_app (hc : c.Flat) {f x : Term} (h : CheckM.checkTerm (.app f x) c = .ok a d) :
    ∃ t p q c₁ c₂, CheckM.checkTerm f { c with trace := t } = .ok p c₁ ∧ CheckM.checkTerm x c₁ = .ok q c₂ ∧
      c₂.Later d ∧ (Term.app f x).Typed d := by
  have trans := @Later.law.trans
  obtain ⟨t, t', d', hrun, -, rfl⟩ := judged_eq_ok h
  obtain ⟨p, c₁, hf, hrest⟩ := bind_eq_ok hrun
  obtain ⟨q, c₂, hx, hrest⟩ := bind_eq_ok hrest
  obtain ⟨u, c₃, hnew, hrest⟩ := bind_eq_ok hrest
  obtain ⟨_, c₄, hunify, hdeclare⟩ := bind_eq_ok hrest
  obtain ⟨hlater₁, hc₁, hp⟩ := (hc.trace t).checkTerm_step hf
  obtain ⟨hlater₂, hc₂, hq⟩ := hc₁.checkTerm_step hx
  obtain ⟨hlater₃, hc₃, hu⟩ := step Later.law.obeys_newUnknown Grown.law.obeys_newUnknown
    FirstOrder.hereditary.keeps_newUnknown hc₂ hnew
  obtain ⟨hlater₄, hc₄, hfn⟩ := hc₃.unify hp (b := .fn q u) ⟨hq, hu⟩ hunify
  obtain ⟨hlater₅, hd, k, hk, hres⟩ := hc₄.declare hu hdeclare
  obtain ⟨i, hi, rfl⟩ := hc₁.gives hf
  obtain ⟨j, hj, rfl⟩ := hc₂.gives hx
  have hlater₂d := trans hlater₃ (trans hlater₄ hlater₅)
  have hlater₁d := trans hlater₂ hlater₂d
  refine ⟨t, _, _, c₁, c₂, hf, hx, trans hlater₂d (Later.law.trace d' t'), i, j, k, ?_⟩
  refine ⟨hlater₁d.judgments f i hi, hlater₂d.judgments x j hj, hk, ?_⟩
  have hfn := Store.agree_of_prefix hlater₅.store hfn
  rw [Store.apply_fn, hc₁.triangular.apply_apply_of_prefix hlater₁d.store,
    hc₂.triangular.apply_apply_of_prefix hlater₂d.store] at hfn
  exact hfn.trans (agree_fn.mpr ⟨.refl _, hres.symm⟩)

theorem typed_outer (hc : c.Flat) (h : CheckM.checkTerm e c = .ok a d) : ∀ f ∈ e.outer, f.Typed d := by
  induction e generalizing c a d with
  | lit v => simpa [Term.outer] using hc.typed_lit h
  | app f x ihf ihx =>
    obtain ⟨t, p, q, c₁, c₂, hf, hx, hlater, happ⟩ := hc.typed_app h
    obtain ⟨hlater₁, hc₁, -⟩ := (hc.trace t).checkTerm_step hf
    obtain ⟨hlater₂, -, -⟩ := hc₁.checkTerm_step hx
    intro g hg
    simp only [Term.outer, List.mem_append, List.mem_singleton] at hg
    rcases hg with (hg | hg) | rfl
    · exact (ihf (hc.trace t) hf g hg).later (Later.law.trans hlater₂ hlater)
    · exact (ihx hc₁ hx g hg).later hlater
    · exact happ
  | var | lam | recur => simp [Term.outer, Term.Typed]

end Context.Flat

/-- Under the strict occurs check and with first-order types only, checking a term leaves a context in which every
application outside of the binders of the term is typed: its function has a function type, from the type of its argument
to its own. Every literal there has its primitive type, and the term has the type that was found. -/
theorem checkTerm_typed {c d : Context} {e : Term} {a : OpenTy} (hc : Reachable c)
    (hstrict : c.options.strictOccurs = true) (hstore : ∀ b ∈ c.store, b.value.FirstOrder)
    (hjudgments : ∀ j ∈ c.judgments, j.type.FirstOrder) (h : checkTerm e c = .ok a d) :
    (∀ f x, .app f x ∈ e.outer → ∃ p q r, typeOf f d = .ok p d ∧ typeOf x d = .ok q d ∧
      typeOf (.app f x) d = .ok r d ∧ Agree p (.fn q r)) ∧
    (∀ v, .lit v ∈ e.outer → typeOf (.lit v) d = .ok (.ground (.prim v.prim)) d) ∧ typeOf e d = .ok a d := by
  have hflat : c.Flat := ⟨.of_reachable hc hstrict, .of_reachable hc hstore hjudgments⟩
  obtain ⟨-, hd, -⟩ := hflat.checkTerm_step h
  have htyped := hflat.typed_outer h
  refine ⟨fun f x hfx => ?_, fun v hv => ?_, typeOf_of_checkTerm h⟩
  · obtain ⟨i, j, k, hi, hj, hk, hagree⟩ := htyped _ hfx
    exact ⟨_, _, _, hd.typeOf hi, hd.typeOf hj, hd.typeOf hk, hagree⟩
  · obtain ⟨j, hj, hagree⟩ := htyped _ hv
    rw [hd.typeOf hj, eq_of_agree_prim hagree]

theorem checkTerm_typed_repeated :
    let nat : OpenTy := .ground (.prim .nat)
    let inner : Term := .app (.var "g" none) (.lit (.nat 3))
    let half : Term := .app (.var "f" none) inner
    let c := (Operation.openScope "scope" ["f"]).after ((Operation.declare (.var "g" none)
      (.fn (.unknown "A") (.unknown "B"))).after ((Operation.bindUnknown "A" nat).after
        (.new { strictOccurs := true } (.new false))))
    Reachable c ∧ c.store = [⟨"A", nat⟩] ∧ c.judgments = [⟨.var "g" none, .fn nat (.unknown "B")⟩] ∧
      ∃ a d, checkTerm (.app half inner) c = .ok a d ∧
        (∃ p q r, typeOf half d = .ok p d ∧ typeOf inner d = .ok q d ∧ typeOf (.app half inner) d = .ok r d ∧
          Agree p (.fn q r)) ∧
        (∃ p q r, typeOf (.var "g" none) d = .ok p d ∧ typeOf (.lit (.nat 3)) d = .ok q d ∧ typeOf inner d = .ok r d ∧
          Agree p (.fn q r)) ∧
        typeOf (.lit (.nat 3)) d = .ok nat d ∧ typeOf (.app half inner) d = .ok a d := by
  intro nat inner half c
  have hc : Reachable c := .after _ (.after _ (.after _ (.new _ _)))
  have hstore : c.store = [⟨"A", nat⟩] := by decide +kernel
  have hjudgments : c.judgments = [⟨.var "g" none, .fn nat (.unknown "B")⟩] := by decide +kernel
  obtain ⟨a, d, h⟩ : ∃ a d, checkTerm (.app half inner) c = .ok a d := exists_ok_of_isSome (by decide +kernel)
  obtain ⟨happ, hlit, he⟩ := checkTerm_typed hc (by decide +kernel) (by simp [hstore, nat, FirstOrder, Ty.FirstOrder])
    (by simp [hjudgments, nat, FirstOrder, Ty.FirstOrder]) h
  refine ⟨hc, hstore, hjudgments, a, d, h, happ half inner ?_, happ _ _ ?_, hlit (.nat 3) ?_, he⟩
  all_goals simp [Term.outer, half, inner]

end IndexedTyping
