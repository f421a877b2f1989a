import IndexedTyping.Proofs.OpenTy.Names
import IndexedTyping.Proofs.Store.Resolution

namespace IndexedTyping

namespace OpenTy

theorem ground?_eq_none_iff (a : OpenTy) : a.ground? = none ↔ a.unknowns ≠ [] := by
  induction a with
  | ground t => simp [ground?, unknowns]
  | unknown x => simp [ground?, unknowns]
  | fn a b iha ihb | app a b iha ihb =>
    cases ha : a.ground? <;> cases hb : b.ground? <;> simp_all [ground?, unknowns]
  | all x l a ih => cases ha : a.ground? <;> simp_all [ground?, unknowns]
  | indexed a e ih => cases ha : a.ground? <;> simp_all [ground?, unknowns]

section

variable {a b : OpenTy} {t s : Ty}

theorem ground?_eq_name {x : String} : a.ground? = some (.name x) ↔ a = .ground (.name x) := by
  cases a <;> simp [ground?, Option.bind_eq_some_iff]

theorem ground?_fn : (fn a b).ground? = some (.fn t s) ↔ a.ground? = some t ∧ b.ground? = some s := by
  simp [ground?, Option.bind_eq_some_iff]

theorem ground?_app : (app a b).ground? = some (.app t s) ↔ a.ground? = some t ∧ b.ground? = some s := by
  simp [ground?, Option.bind_eq_some_iff]

theorem ground?_all {x : String} {l : Option Location} :
    (all x l a).ground? = some (.all x l t) ↔ a.ground? = some t := by
  simp [ground?, Option.bind_eq_some_iff]

theorem ground?_indexed {e : Term} : (indexed a e).ground? = some (.indexed t e) ↔ a.ground? = some t := by
  simp [ground?, Option.bind_eq_some_iff]

end

section

variable {ε : Type} {a b : Except ε OpenTy} {P Q R : OpenTy → Prop}

theorem exists_bind₂ {k : OpenTy → OpenTy → OpenTy} (h : ∀ {v w}, R (k v w) ↔ P v ∧ Q w) :
    (∃ r, (do return k (← a) (← b)) = Except.ok r ∧ R r) ↔ (∃ v, a = .ok v ∧ P v) ∧ ∃ w, b = .ok w ∧ Q w := by
  constructor
  · rintro ⟨r, hr, hR⟩
    obtain ⟨v, w, rfl, rfl, rfl⟩ := bind₂_eq_ok hr
    exact ⟨⟨v, rfl, (h.mp hR).1⟩, w, rfl, (h.mp hR).2⟩
  · rintro ⟨⟨v, rfl, hv⟩, w, rfl, hw⟩
    exact ⟨k v w, rfl, h.mpr ⟨hv, hw⟩⟩

theorem exists_bind₁ {k : OpenTy → OpenTy} (h : ∀ {v}, R (k v) ↔ P v) :
    (∃ r, (do return k (← a)) = Except.ok r ∧ R r) ↔ ∃ v, a = .ok v ∧ P v := by
  constructor
  · rintro ⟨r, hr, hR⟩
    obtain ⟨v, rfl, rfl⟩ := bind₁_eq_ok hr
    exact ⟨v, rfl, h.mp hR⟩
  · rintro ⟨v, rfl, hv⟩
    exact ⟨k v, rfl, h.mpr hv⟩

end

end OpenTy

open OpenTy

theorem Ty.ground?_openM {ε : Type} (f : String → Except ε OpenTy) (t : Ty) :
    (∃ a, t.openM f = .ok a ∧ a.ground? = some t) ↔ ∀ x ∈ t.names, f x = .ok (.ground (.name x)) := by
  induction t with
  | name x => simp [openM, names, ground?_eq_name]
  | prim p => simp [openM, names, ground?]
  | fn t s iht ihs =>
    rw [names, List.forall_mem_append, ← iht, ← ihs]
    exact exists_bind₂ ground?_fn
  | app t s iht ihs =>
    rw [names, List.forall_mem_append, ← iht, ← ihs]
    exact exists_bind₂ ground?_app
  | all x l t ih =>
    rw [names, ← ih]
    exact exists_bind₁ ground?_all
  | indexed t e ih =>
    rw [names, ← ih]
    exact exists_bind₁ ground?_indexed

/-- Whatever the bindings, a written type has the outcome, value or error, of the type that has all its names for
unknowns. A type can be written just if nothing in it is unknown. And a written type is what is written again for its
outcome just if every name in it is resolved to itself. -/
theorem Store.resolveTy_faithful (s : Store) :
    (∀ t : Ty, s.resolveTy t = s.resolve t.embed) ∧
    (∀ a : OpenTy, a.ground? = none ↔ a.unknowns ≠ []) ∧
    ∀ t : Ty, (∃ a, s.resolveTy t = .ok a ∧ a.ground? = some t) ↔
      ∀ x ∈ t.names, s.resolve (.unknown x) = .ok (.ground (.name x)) :=
  ⟨resolveTy_eq_resolve s, ground?_eq_none_iff, Ty.ground?_openM s.resolveUnknown⟩

end IndexedTyping
