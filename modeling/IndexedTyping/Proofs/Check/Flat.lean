import IndexedTyping.Proofs.Check.Hereditary
import IndexedTyping.Proofs.Unify.MostGeneral
import IndexedTyping.Proofs.Unify.Strict

namespace IndexedTyping

open OpenTy CheckM

theorem OpenTy.FirstOrder.hereditary : Hereditary FirstOrder where
  unknown _ := trivial
  prim _ := trivial
  fn ha hb := ⟨ha, hb⟩
  part {p a} ha hp := by
    revert ha hp
    fun_cases parts a <;> simp +contextual [FirstOrder, Ty.FirstOrder, or_imp]
  bind := FirstOrder.bind

theorem Store.agree_of_prefix {s r : Store} (h : s <+: r) {a b : OpenTy} (hab : Agree (s.apply a) (s.apply b)) :
    Agree (r.apply a) (r.apply b) := by
  obtain ⟨new, rfl⟩ := h
  rw [apply_append, apply_append, Agree, apply_eq_bind new, apply_eq_bind new (s.apply b), spread_bind, spread_bind,
    hab]

structure Context.Flat (c : Context) : Prop extends c.Strict where
  firstOrder : c.Throughout FirstOrder

namespace Context.Flat

variable {c d : Context} {a b : OpenTy} {e : Term}

theorem regular (hc : c.Flat) : c.Regular :=
  ⟨hc.strict, hc.triangular, hc.firstOrder.store⟩

theorem trace (hc : c.Flat) (t : Trace) : Flat { c with trace := t } :=
  ⟨hc.toStrict.trace t, ⟨hc.firstOrder.store, hc.firstOrder.judgments, hc.firstOrder.scopes⟩⟩

theorem step {α : Type} {m : CheckM α} {φ : α → Prop} (hlater : Obeys Later (fun _ _ => True) m)
    (hgrown : Obeys (fun c d => c.Grown → d.Grown) (fun c e => c.Grown → ∀ x, e ≠ .ambiguous x) m)
    (hkeeps : Keeps FirstOrder m φ) (hc : c.Flat) {r : α} (h : m c = .ok r d) : c.Later d ∧ d.Flat ∧ φ r := by
  have hcd := hlater.of_ok h
  obtain ⟨hfirst, hr⟩ := hkeeps.of_ok hc.firstOrder h
  exact ⟨hcd, ⟨⟨hcd.options ▸ hc.strict, hgrown.of_ok h hc.grown⟩, hfirst⟩, hr⟩

theorem unify (hc : c.Flat) (ha : a.FirstOrder) (hb : b.FirstOrder) (h : CheckM.unify a b c = .ok () d) :
    c.Later d ∧ d.Flat ∧ Agree (d.store.apply a) (d.store.apply b) := by
  obtain ⟨hlater, hd, -⟩ :=
    step (Later.law.obeys_unify a b) (Grown.law.obeys_unify a b) (FirstOrder.hereditary.keeps_unify ha hb) hc h
  refine ⟨hlater, hd, ?_⟩
  have hnarrows := (decides_unifyWithin hc.regular ha hb).ends_unifyWithin c.options.depth
  rw [← unify_run, h] at hnarrows
  -- resolving solves the new store, so it makes the two types agree
  have hagree := ((hnarrows.solvedBy_iff _).mp hd.triangular.solvedBy_apply).2
  rwa [← d.store.apply_eq_bind, ← d.store.apply_eq_bind] at hagree

theorem declare (hc : c.Flat) (ha : a.FirstOrder) (h : CheckM.declare e a c = .ok () d) :
    c.Later d ∧ d.Flat ∧ ∃ j, d.judgment? e = some j ∧ Agree (d.store.apply j.type) (d.store.apply a) := by
  obtain ⟨hlater, hd, -⟩ :=
    step (Later.law.obeys_declare e a) (Grown.law.obeys_declare e a) (FirstOrder.hereditary.keeps_declare e ha) hc h
  refine ⟨hlater, hd, ?_⟩
  obtain ⟨a', tr, ha', ⟨j, hj, hunify⟩ | ⟨hj, rfl⟩⟩ := declare_eq_ok h
  · cases (hc.resolve a).symm.trans ha'
    have hfirst := FirstOrder.hereditary.resolve hc.firstOrder.store ha ha'
    have hjudged := hc.firstOrder.judgments j (List.mem_of_find?_eq_some hj)
    have hagree := ((hc.trace tr).unify hfirst hjudged hunify).2.2
    rw [hc.triangular.apply_apply_of_prefix hlater.store] at hagree
    exact ⟨j, hlater.judgments e j hj, hagree.symm⟩
  · cases (hc.resolve a).symm.trans ha'
    refine ⟨⟨e, c.store.apply a⟩, by simp [judgment?, Term.same_iff], ?_⟩
    rw [hc.triangular.apply_apply]
    exact .refl _

end Context.Flat

end IndexedTyping
