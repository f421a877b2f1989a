import IndexedTyping.OpenTy.Basic

namespace IndexedTyping

namespace OpenTy

def bind (θ : String → OpenTy) : OpenTy → OpenTy
  | ground t => ground t
  | unknown x => θ x
  | fn a b => fn (a.bind θ) (b.bind θ)
  | app a b => app (a.bind θ) (b.bind θ)
  | all x l a => all x l (a.bind θ)
  | indexed a e => indexed (a.bind θ) e

@[simp] theorem bind_unknown (t : OpenTy) : t.bind unknown = t := by
  induction t with
  | ground t => rfl
  | unknown x => rfl
  | fn a b iha ihb => simp [bind, iha, ihb]
  | app a b iha ihb => simp [bind, iha, ihb]
  | all x l a ih => simp [bind, ih]
  | indexed a e ih => simp [bind, ih]

theorem bind_congr {θ τ : String → OpenTy} {t : OpenTy} (h : ∀ x ∈ t.unknowns, θ x = τ x) : t.bind θ = t.bind τ := by
  induction t with
  | ground t => rfl
  | unknown x => exact h x List.mem_cons_self
  | fn a b iha ihb =>
    simp only [unknowns, List.mem_append] at h
    rw [bind, bind, iha fun x hx => h x (.inl hx), ihb fun x hx => h x (.inr hx)]
  | app a b iha ihb =>
    simp only [unknowns, List.mem_append] at h
    rw [bind, bind, iha fun x hx => h x (.inl hx), ihb fun x hx => h x (.inr hx)]
  | all x l a ih => rw [bind, bind, ih h]
  | indexed a e ih => rw [bind, bind, ih h]

theorem bind_eq_self {θ : String → OpenTy} {t : OpenTy} (h : ∀ x ∈ t.unknowns, θ x = unknown x) : t.bind θ = t := by
  rw [bind_congr h, bind_unknown]

theorem bind_bind (θ τ : String → OpenTy) (t : OpenTy) : (t.bind θ).bind τ = t.bind fun x => (θ x).bind τ := by
  induction t with
  | ground t => rfl
  | unknown x => rfl
  | fn a b iha ihb => simp [bind, iha, ihb]
  | app a b iha ihb => simp [bind, iha, ihb]
  | all x l a ih => simp [bind, ih]
  | indexed a e ih => simp [bind, ih]

theorem mem_unknowns_bind {θ : String → OpenTy} {t : OpenTy} {y : String} :
    y ∈ (t.bind θ).unknowns ↔ ∃ x ∈ t.unknowns, y ∈ (θ x).unknowns := by
  induction t with
  | ground t => simp [bind, unknowns]
  | unknown x => simp [bind, unknowns]
  | fn a b iha ihb => simp [bind, unknowns, iha, ihb, or_and_right, exists_or]
  | app a b iha ihb => simp [bind, unknowns, iha, ihb, or_and_right, exists_or]
  | all x l a ih => simp [bind, unknowns, ih]
  | indexed a e ih => simp [bind, unknowns, ih]

variable {ε : Type} {f : String → Except ε OpenTy}

theorem bindM_of_ok {θ : String → OpenTy} {t : OpenTy} (h : ∀ x ∈ t.unknowns, f x = .ok (θ x)) :
    t.bindM f = .ok (t.bind θ) := by
  induction t with
  | ground t => rfl
  | unknown x => exact h x List.mem_cons_self
  | fn a b iha ihb =>
    simp only [unknowns, List.mem_append] at h
    rw [bindM, iha fun x hx => h x (.inl hx), ihb fun x hx => h x (.inr hx)]
    rfl
  | app a b iha ihb =>
    simp only [unknowns, List.mem_append] at h
    rw [bindM, iha fun x hx => h x (.inl hx), ihb fun x hx => h x (.inr hx)]
    rfl
  | all x l a ih => rw [bindM, ih h]; rfl
  | indexed a e ih => rw [bindM, ih h]; rfl

theorem bind₂_eq_ok {a b : Except ε OpenTy} {k : OpenTy → OpenTy → OpenTy} {r : OpenTy}
    (h : (do return k (← a) (← b)) = Except.ok r) : ∃ v w, a = .ok v ∧ b = .ok w ∧ r = k v w := by
  cases a with
  | error e => cases h
  | ok v =>
    cases b with
    | error e => cases h
    | ok w => cases h; exact ⟨v, w, rfl, rfl, rfl⟩

theorem bind₂_eq_error {a b : Except ε OpenTy} {k : OpenTy → OpenTy → OpenTy} {e : ε}
    (h : (do return k (← a) (← b)) = Except.error e) : a = .error e ∨ b = .error e := by
  cases a with
  | error e => cases h; exact .inl rfl
  | ok v =>
    cases b with
    | error e => cases h; exact .inr rfl
    | ok w => cases h

theorem bind₁_eq_ok {a : Except ε OpenTy} {k : OpenTy → OpenTy} {r : OpenTy}
    (h : (do return k (← a)) = Except.ok r) : ∃ v, a = .ok v ∧ r = k v := by
  cases a with
  | error e => cases h
  | ok v => cases h; exact ⟨v, rfl, rfl⟩

theorem bind₁_eq_error {a : Except ε OpenTy} {k : OpenTy → OpenTy} {e : ε}
    (h : (do return k (← a)) = Except.error e) : a = .error e := by
  cases a with
  | error e => cases h; rfl
  | ok v => cases h

theorem exists_ok_of_bindM {t r : OpenTy} (h : t.bindM f = .ok r) : ∀ x ∈ t.unknowns, ∃ v, f x = .ok v := by
  induction t generalizing r with
  | ground t => simp [unknowns]
  | unknown x => simpa [unknowns] using ⟨r, h⟩
  | fn a b iha ihb =>
    obtain ⟨v, w, ha, hb, -⟩ := bind₂_eq_ok h
    simp only [unknowns, List.mem_append]
    rintro x (hx | hx)
    · exact iha ha x hx
    · exact ihb hb x hx
  | app a b iha ihb =>
    obtain ⟨v, w, ha, hb, -⟩ := bind₂_eq_ok h
    simp only [unknowns, List.mem_append]
    rintro x (hx | hx)
    · exact iha ha x hx
    · exact ihb hb x hx
  | all x l a ih =>
    obtain ⟨v, ha, -⟩ := bind₁_eq_ok h
    exact ih ha
  | indexed a e ih =>
    obtain ⟨v, ha, -⟩ := bind₁_eq_ok h
    exact ih ha

theorem exists_error_of_bindM {t : OpenTy} {e : ε} (h : t.bindM f = .error e) :
    ∃ x ∈ t.unknowns, f x = .error e := by
  induction t with
  | ground t => cases h
  | unknown x => exact ⟨x, List.mem_cons_self, h⟩
  | fn a b iha ihb =>
    rcases bind₂_eq_error h with h | h
    · obtain ⟨x, hx, he⟩ := iha h
      exact ⟨x, List.mem_append_left _ hx, he⟩
    · obtain ⟨x, hx, he⟩ := ihb h
      exact ⟨x, List.mem_append_right _ hx, he⟩
  | app a b iha ihb =>
    rcases bind₂_eq_error h with h | h
    · obtain ⟨x, hx, he⟩ := iha h
      exact ⟨x, List.mem_append_left _ hx, he⟩
    · obtain ⟨x, hx, he⟩ := ihb h
      exact ⟨x, List.mem_append_right _ hx, he⟩
  | all x l a ih => exact ih (bind₁_eq_error h)
  | indexed a i ih => exact ih (bind₁_eq_error h)

def valuesOf (f : String → Except ε OpenTy) (x : String) : OpenTy :=
  match f x with
  | .ok v => v
  | .error _ => unknown x

theorem eq_ok_valuesOf {x : String} (h : ∃ v, f x = .ok v) : f x = .ok (valuesOf f x) := by
  obtain ⟨v, hv⟩ := h
  simp [valuesOf, hv]

theorem bindM_eq_ok_iff {t r : OpenTy} :
    t.bindM f = .ok r ↔ (∀ x ∈ t.unknowns, f x = .ok (valuesOf f x)) ∧ r = t.bind (valuesOf f) := by
  constructor
  · intro h
    have hv : ∀ x ∈ t.unknowns, f x = .ok (valuesOf f x) := fun x hx => eq_ok_valuesOf (exists_ok_of_bindM h x hx)
    refine ⟨hv, ?_⟩
    rw [bindM_of_ok hv] at h
    exact (Except.ok.inj h).symm
  · rintro ⟨hv, rfl⟩
    exact bindM_of_ok hv

end OpenTy

namespace Ty

def embed : Ty → OpenTy
  | name x => .unknown x
  | prim p => .ground (prim p)
  | fn t s => .fn t.embed s.embed
  | app t s => .app t.embed s.embed
  | all x l t => .all x l t.embed
  | indexed t e => .indexed t.embed e

theorem openM_eq_bindM {ε : Type} (f : String → Except ε OpenTy) (t : Ty) : t.openM f = t.embed.bindM f := by
  induction t with
  | name x => rfl
  | prim p => rfl
  | fn t s iht ihs => simp only [openM, embed, OpenTy.bindM, iht, ihs]
  | app t s iht ihs => simp only [openM, embed, OpenTy.bindM, iht, ihs]
  | all x l t ih => simp only [openM, embed, OpenTy.bindM, ih]
  | indexed t e ih => simp only [openM, embed, OpenTy.bindM, ih]

end Ty

end IndexedTyping
