import IndexedTyping.Proofs.Check.Reachable
import IndexedTyping.Proofs.Store.Substitution

namespace IndexedTyping

namespace Store

theorem Triangular.resolve_insert {s s' : Store} {x : String} {t : OpenTy} {b : Binding} (h : Triangular true s)
    (hb : s.binding x t = .ok b) (hs : s.insert true b = .ok s') (u : OpenTy) :
    ∃ v, s.resolve u = .ok v ∧ s'.resolve u = .ok (b.replace v) := by
  have htriangular := h.of_insert hb hs
  obtain ⟨-, rfl⟩ := insert_eq_ok hs
  refine ⟨s.apply u, h.resolve_eq_apply u, ?_⟩
  rw [htriangular.resolve_eq_apply, apply_append]
  rfl

theorem not_loops_of_insert {s s' : Store} {b : Binding} (h : s.insert true b = .ok s') : ¬b.Loops := fun hl =>
  absurd (loops_of_not_refuses (insert_eq_ok h).1 hl).1 (by decide)

theorem mem_unknowns_of_refused {s : Store} {strict : Bool} {x y : String} {t a : OpenTy} {e : CheckError}
    (hy : s.resolve (.unknown x) = .ok (.unknown y)) (ha : s.resolve t = .ok a)
    (h : s.binding x t = .error e ∨ ∃ b, s.binding x t = .ok b ∧ s.insert strict b = .error e) :
    y ∈ a.unknowns := by
  have hbinding : s.binding x t = .ok ⟨y, a⟩ := by
    rw [binding, hy, ha]
    rfl
  rcases h with h | ⟨b, hb, h⟩
  · cases hbinding.symm.trans h
  · cases hbinding.symm.trans hb
    exact loops_of_refuses (insert_eq_error h).1

end Store

/-- If an unknown can be bound, the one that it ended in stands for the resolved type from then on: in every type that
was resolved before it is replaced by that, and nothing else changes. If it cannot be bound, then because it ends in
something known or would occur in its own value, and the store is as it was. -/
theorem bindUnknown_composes {c : Context} (hc : Reachable c) (hstrict : c.options.strictOccurs = true) (x : String)
    (t : OpenTy) :
    (∀ d, CheckM.bindUnknown x t c = .ok () d → ∃ y a,
      c.store.resolve (.unknown x) = .ok (.unknown y) ∧ c.store.resolve t = .ok a ∧ y ∉ a.unknowns ∧
      d.store = c.store ++ [⟨y, a⟩] ∧
      ∀ u, ∃ v, c.store.resolve u = .ok v ∧ d.store.resolve u = .ok (Binding.replace ⟨y, a⟩ v)) ∧
    ∀ e d, CheckM.bindUnknown x t c = .error e d → d.store = c.store ∧
      ∀ y a, c.store.resolve (.unknown x) = .ok (.unknown y) → c.store.resolve t = .ok a → y ∈ a.unknowns := by
  have htriangular : c.store.Triangular true := hstrict ▸ (Context.Grown.of_reachable hc).store
  constructor
  · intro d h
    obtain ⟨b, s, tr, hb, hs, rfl⟩ := CheckM.bindUnknown_eq_ok h
    rw [hstrict] at hs
    obtain ⟨hname, hvalue⟩ := Store.binding_eq_ok hb
    exact ⟨b.name, b.value, hname, hvalue, Store.not_loops_of_insert hs, (Store.insert_eq_ok hs).2,
      htriangular.resolve_insert hb hs⟩
  · intro e d h
    obtain ⟨⟨tr, rfl⟩, herror⟩ := CheckM.bindUnknown_eq_error h
    exact ⟨rfl, fun y a hy ha => Store.mem_unknowns_of_refused hy ha herror⟩

theorem bindUnknown_composes_alias :
    let new := Context.new { strictOccurs := true } (.new false)
    let c := (Operation.bindUnknown "a" (.unknown "b")).after
      ((Operation.bindUnknown "d" (.fn (.unknown "b") (.unknown "c"))).after new)
    let d := (Operation.bindUnknown "a" (.ground (.prim .nat))).after c
    Reachable c ∧ d.store = c.store ++ [⟨"b", .ground (.prim .nat)⟩] ∧
      d.store.resolve (.unknown "d") = .ok (.fn (.ground (.prim .nat)) (.unknown "c")) ∧
      ((Operation.bindUnknown "c" (.unknown "d")).after c).store = c.store := by
  intro new c d
  have hc : Reachable c := .after _ (.after _ (.new _ _))
  have hd : CheckM.bindUnknown "a" (.ground (.prim .nat)) c = .ok () d := rfl
  obtain ⟨y, a, hy, ha, -, hstore, hresolve⟩ := (bindUnknown_composes hc rfl "a" (.ground (.prim .nat))).1 d hd
  cases hy
  cases ha
  obtain ⟨v, hv, hv'⟩ := hresolve (.unknown "d")
  cases hv
  have hrefused : CheckM.bindUnknown "c" (.unknown "d") c =
      .error (.cyclic ⟨"c", .fn (.unknown "b") (.unknown "c")⟩)
        ((Operation.bindUnknown "c" (.unknown "d")).after c) := rfl
  exact ⟨hc, hstore, hv', ((bindUnknown_composes hc rfl "c" (.unknown "d")).2 _ _ hrefused).1⟩

end IndexedTyping
